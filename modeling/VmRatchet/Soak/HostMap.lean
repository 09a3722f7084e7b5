import VmRatchet.Soak.Stamp

/-!
# The host address space during a munmap-mode reclaim

In munmap mode `reclaim` unmaps the host pages of the cold half and maps fresh ones at the same
place with `MAP_FIXED`. The two are separate system calls: in between, the range is free, and any
other thread's `mmap(NULL, …)` may be placed there; `MAP_FIXED` then silently replaces it, and the
replaced pages are handed to the guest.

* `HostSafe` — a step destroys nothing: the next `mmap(MAP_FIXED)` or `hv_vm_map` of a worker meets
  no range another thread has allocated and not freed.
* `ClearWindow` — the condition on the environment: no allocation is placed in the cold half of a
  worker that is between its `munmap` and its `mmap(MAP_FIXED)`.
* `reclaim_host_safe` — along every run of the second kind every step is of the first kind.
-/

namespace VmRatchet.Soak

open Arm64 ByteMemory Guest Transition

/-! ## Ranges of host addresses -/

/-- Two ranges, given by address and length, share a byte. -/
def Overlap (r r' : ℕ × ℕ) : Prop :=
  ∃ x, (r.1 ≤ x ∧ x < r.1 + r.2) ∧ r'.1 ≤ x ∧ x < r'.1 + r'.2

/-- The host range of the cold half of worker `k`. -/
def Config.hostCold (cfg : Config) (k : ℕ) : ℕ × ℕ :=
  (cfg.ram + (cfg.cold k).1, (cfg.cold k).2 - (cfg.cold k).1)

/-- The worker is between its `munmap` and its `mmap(MAP_FIXED)`. -/
def Stmt.hostUnmapped : Stmt → Bool
  | .reclaim (.mmapFixed _ _ :: _) => true
  | _ => false

/-- The host ranges of the cold halves of different workers do not overlap. -/
theorem hostCold_disjoint {cfg : Config} {j k : ℕ} (h : j ≠ k) :
    ¬ Overlap (cfg.hostCold j) (cfg.hostCold k) := by
  rintro ⟨x, ⟨h1, h2⟩, h3, h4⟩
  have hj := cfg.toOptions.range_snd j .cold
  have hk := cfg.toOptions.range_snd k .cold
  simp only [Config.hostCold, Options.range] at h1 h2 h3 h4 hj hk
  have hin : cfg.InRange j .cold (ramGpa + (x - cfg.ram)) := by
    simp only [Options.InRange, Options.range]
    omega
  have hin' : cfg.InRange k .cold (ramGpa + (x - cfg.ram)) := by
    simp only [Options.InRange, Options.range]
    omega
  exact h (hin'.inSlot.ne hin.inSlot)

/-! ## What is promised and what is assumed -/

/-- **A step destroys nothing.** If it is a call of a worker's reclaim that maps a host range, with
`mmap(MAP_FIXED)` or into the guest, then no range that another thread has allocated and not freed
meets it. -/
def HostSafe (st : Proc) (l : Move) : Prop :=
  ∀ k released c rest, l = .act k (.call released) → (st.thread k).dead = false →
    (st.thread k).stmt = .reclaim (c :: rest) → ∀ r ∈ st.shared.allocs,
      (∀ addr len, c = .mmapFixed addr len → ¬ Overlap r (addr, len)) ∧
        ∀ addr gpa len, c = .hvVmMap addr gpa len → ¬ Overlap r (addr, len)

/-- **The condition on the environment.** No allocation of another thread is placed in the cold
half of a worker that is between its `munmap` and its `mmap(MAP_FIXED)`. -/
def ClearWindow (cfg : Config) (st : Proc) (l : Move) : Prop :=
  ∀ a n, l = .env (.alloc a n) → ∀ k < cfg.vcpuCount, (st.thread k).dead = false →
    (st.thread k).stmt.hostUnmapped = true → ¬ Overlap (a, n) (cfg.hostCold k)

/-! ## The invariant -/

/-- The host pages of a living worker's cold half: mapped outside the window, and nobody else's. -/
structure OwnsHost (cfg : Config) (k : ℕ) (w : Worker) (sh : Shared) : Prop where
  mapped : w.dead = false → w.stmt.hostUnmapped = false → ∀ x, (cfg.hostCold k).1 ≤ x →
    x < (cfg.hostCold k).1 + (cfg.hostCold k).2 → sh.hostMapped x = true
  foreign : w.dead = false → ∀ r ∈ sh.allocs, ¬ Overlap r (cfg.hostCold k)

section steps

variable {cfg : Config} {k : ℕ} {a : Act} {w w' : Worker} {sh sh' : Shared}

/-- The host calls of a reclaim get the host range of the cold half. -/
theorem mem_reclaimCalls_host {c : Call}
    (h : c ∈ reclaimCalls cfg.ram (cfg.cold k) cfg.mode cfg.advice) :
    (∀ addr len, c = .munmap addr len → (addr, len) = cfg.hostCold k) ∧
      (∀ addr len, c = .mmapFixed addr len → (addr, len) = cfg.hostCold k) ∧
      ∀ addr gpa len, c = .hvVmMap addr gpa len → (addr, len) = cfg.hostCold k := by
  unfold Config.hostCold
  cases hmode : cfg.mode <;> simp only [reclaimCalls, hmode, List.cons_append, List.nil_append,
    List.mem_cons, List.not_mem_nil, or_false] at h
  · rcases h with rfl | rfl | rfl <;> simp
  · rcases h with rfl | rfl | rfl | rfl <;> simp

/-- A worker's step changes the host map only in its own cold half, and no allocation. -/
theorem step_host_outside (hk : k < cfg.vcpuCount) (hC : Control cfg k w sh)
    (h : w.step cfg k a sh = some (w', sh')) :
    sh'.allocs = sh.allocs ∧ ∀ x, ¬ ((cfg.hostCold k).1 ≤ x ∧
      x < (cfg.hostCold k).1 + (cfg.hostCold k).2) → sh'.hostMapped x = sh.hostMapped x := by
  obtain ⟨-, h⟩ := Worker.step_inv h
  cases h with
  | enter | cancel | fail | take => exact ⟨rfl, fun _ _ => rfl⟩
  | host hr hp h =>
      exact ⟨(host_frame h).allocs, fun x _ => by rw [(host_frame h).hostMapped]⟩
  | guest hr =>
      obtain ⟨p, s, hp, hs⟩ := hC.inside hr
      rcases hC.guest hk hp hs with ⟨-, hg⟩ | ⟨s', m', c', -, -, hg⟩ <;> rw [hg] <;>
        exact ⟨rfl, fun _ _ => rfl⟩
  | @call released c rest hs hle =>
      obtain ⟨hmun, hfix, -⟩ :=
        mem_reclaimCalls_host ((hC.calls _ hs).subset (List.mem_cons_self ..))
      cases c with
      | hvVmUnmap | madvise | hvVmMap => exact ⟨rfl, fun _ _ => rfl⟩
      | munmap addr len =>
          refine ⟨rfl, fun x hx => setRange_of_not_mem ?_⟩
          rw [← hmun addr len rfl] at hx
          omega
      | mmapFixed addr len =>
          refine ⟨rfl, fun x hx => setRange_of_not_mem ?_⟩
          rw [← hfix addr len rfl] at hx
          omega

/-- A worker's own step keeps its host pages: they are mapped outside its window, and no range that
another thread has allocated meets them. The window opens with `munmap` and is closed by
`mmap(MAP_FIXED)`, over the same range. -/
theorem ownsHost_own (hk : k < cfg.vcpuCount) (hC : Control cfg k w sh)
    (hH : OwnsHost cfg k w sh) (h : w.step cfg k a sh = some (w', sh')) :
    OwnsHost cfg k w' sh' := by
  have hallocs := (step_host_outside hk hC h).1
  obtain ⟨hd, h⟩ := Worker.step_inv h
  refine ⟨fun hd' hun => ?_, fun _ => by rw [hallocs]; exact hH.foreign hd⟩
  cases h with
  | cancel | enter | take => exact hH.mapped hd hun
  | fail => cases hd'
  | host hr hp h =>
      have hwas : w.stmt.hostUnmapped = false := by
        cases hst : w.stmt with
        | reclaim rest =>
            cases rest with
            | nil => rfl
            | cons c rest => simp [Worker.host, hst] at h
        | _ => rfl
      rw [(host_frame h).hostMapped]
      exact hH.mapped hd hwas
  | guest hr =>
      obtain ⟨p, s, hp, hs⟩ := hC.inside hr
      obtain ⟨side, hcall, -, -⟩ := pass_range hp
      have hwas : w.stmt.hostUnmapped = false := by
        cases hst : w.stmt with
        | reclaim rest => simp [hst, Stmt.call] at hcall
        | _ => rfl
      rcases hC.guest hk hp hs with ⟨-, hg⟩ | ⟨s', m', c', -, -, hg⟩ <;> rw [hg] <;>
        exact hH.mapped hd hwas
  | @call released c rest hs hle =>
      have hlist := hC.calls _ hs
      obtain ⟨-, hfix, -⟩ := mem_reclaimCalls_host (hlist.subset (List.mem_cons_self ..))
      cases c with
      | hvVmUnmap | madvise | hvVmMap => exact hH.mapped hd (by rw [hs]; rfl)
      | munmap addr len =>
          -- the window opens: the next call is `mmap(MAP_FIXED)`
          rcases suffix_reclaimCalls hlist with hl | hl | ⟨c, hc | hc, hl⟩ | hl | hl
          · cases hl
          · cases hl
          · cases hl
            cases hc
          · cases hl
            cases hc
          · cases hl
            cases hun
          · cases hmode : cfg.mode <;> simp [reclaimCalls, hmode] at hl
      | mmapFixed addr len =>
          intro x h1 h2
          refine setRange_of_mem ?_
          rw [← hfix addr len rfl] at h1 h2
          exact ⟨h1, h2⟩

/-- A step of worker `k` keeps the host pages of every other worker `j`, since its own calls go to
its own cold half. -/
theorem ownsHost_other {j : ℕ} {v : Worker} (hk : k < cfg.vcpuCount) (hjk : j ≠ k)
    (hC : Control cfg k w sh) (h : w.step cfg k a sh = some (w', sh'))
    (hH : OwnsHost cfg j v sh) : OwnsHost cfg j v sh' := by
  obtain ⟨hallocs, hout⟩ := step_host_outside hk hC h
  refine ⟨fun hd hun x h1 h2 => ?_, fun hd => by rw [hallocs]; exact hH.foreign hd⟩
  rw [hout x fun hx => hostCold_disjoint hjk ⟨x, ⟨h1, h2⟩, hx⟩]
  exact hH.mapped hd hun x h1 h2

/-- An event keeps the host pages of a worker, if it is not an allocation in the window: an
allocation goes where nothing is mapped, and what another thread frees is what it has allocated. -/
theorem ownsHost_env {e : Env} {ws : ℕ → Worker} (h : e.step cfg ws sh = some sh')
    (hclear : ∀ a n, e = .alloc a n → w.dead = false → w.stmt.hostUnmapped = true →
      ¬ Overlap (a, n) (cfg.hostCold k)) (hH : OwnsHost cfg k w sh) : OwnsHost cfg k w sh' := by
  have hf := env_frame h
  cases e with
  | alloc a n =>
      simp only [Env.step, Option.ite_none_right_eq_some, Option.some.injEq] at h
      obtain ⟨⟨-, hfree⟩, rfl⟩ := h
      refine ⟨fun hd hun x h1 h2 => ?_, fun hd r hr => ?_⟩
      · by_cases hx : a ≤ x ∧ x < a + n
        · exact setRange_of_mem hx
        · exact (setRange_of_not_mem (by omega)).trans (hH.mapped hd hun x h1 h2)
      · rcases List.mem_cons.mp hr with rfl | hr
        · -- what is placed is placed in unmapped memory
          cases hun : w.stmt.hostUnmapped with
          | true => exact hclear a n rfl hd hun
          | false =>
              rintro ⟨x, ⟨hx1, hx2⟩, h1, h2⟩
              have hmap := hH.mapped hd hun x h1 h2
              have hun' := hfree (x - a) (by simp only at hx2; omega)
              rw [show a + (x - a) = x by simp only at hx1; omega, hmap] at hun'
              cases hun'
        · exact hH.foreign hd r hr
  | free r =>
      simp only [Env.step, Option.ite_none_right_eq_some, Option.some.injEq] at h
      obtain ⟨hmem, rfl⟩ := h
      refine ⟨fun hd hun x h1 h2 => ?_, fun hd r' hr' => ?_⟩
      · refine (setRange_of_not_mem ?_).trans (hH.mapped hd hun x h1 h2)
        by_contra hc
        exact hH.foreign hd r hmem ⟨x, by omega, h1, h2⟩
      · exact hH.foreign hd r' (List.mem_of_mem_erase hr')
  | zero | footprint | expire | pressure | main =>
      have hhost := hf.hostMapped (by simp) (by simp)
      have hallocs := hf.allocs (by simp) (by simp)
      exact ⟨by rw [hhost]; exact hH.mapped, by rw [hallocs]; exact hH.foreign⟩

end steps

/-! ## Whole runs -/

variable {cfg : Config}

/-- Where worker `k` stands, and that it owns the host pages of its slot. -/
def HostKept (cfg : Config) (k : ℕ) (w : Worker) (sh : Shared) : Prop :=
  Control cfg k w sh ∧ OwnsHost cfg k w sh

/-- Every step that leaves the windows clear keeps the host pages. -/
theorem hostKept_step (st : Proc) (l : Move) (st' : Proc) (hl : ClearWindow cfg st l)
    (h : (soak cfg).Everywhere (HostKept cfg) st) (hstep : (soak cfg).step st l = some st') :
    (soak cfg).Everywhere (HostKept cfg) st' := by
  refine Threads.System.local_invariant (P := ClearWindow cfg) ?_ ?_ ?_ st l st' hl h hstep
  · intro st k a w' sh' _ hk hI hact
    obtain ⟨hctl, hH⟩ := hI k hk
    exact ⟨control_own hk hctl hact, ownsHost_own hk hctl hH hact⟩
  · intro st k j a w' sh' _ hk hj hjk hI hact
    obtain ⟨hctl, hH⟩ := hI j hj
    exact ⟨control_other hk hjk (hI k hk).1 hact hctl, ownsHost_other hk hjk (hI k hk).1 hact hH⟩
  · intro st e sh' hclear hI henv j hj
    obtain ⟨hctl, hH⟩ := hI j hj
    refine ⟨control_env henv hctl, ownsHost_env henv (fun a n he hd hun => ?_) hH⟩
    exact hclear a n (by rw [he]) j hj hd hun

/-- The process starts with the host pages of guest RAM mapped and no other allocation. -/
theorem hostKept_initial {st : Proc} (h : Initial cfg st) :
    (soak cfg).Everywhere (HostKept cfg) st := by
  intro k hk
  refine ⟨control_initial h k hk, fun _ _ x h1 h2 => ?_, fun _ r hr => ?_⟩
  · have hmem : cfg.cold k ∈ cfg.ranges := cfg.toOptions.mem_ranges.mpr ⟨k, hk, .inr rfl⟩
    obtain ⟨hlen, hle⟩ := cfg.toOptions.range_le_ramSize hmem
    simp only [Config.hostCold] at h1 h2
    exact h.hostMapped x (by omega) (by omega)
  · rw [h.allocs] at hr
    cases hr

/-- **Reclaiming destroys nobody's memory, as long as the windows stay clear.** For any number of
workers and any interleaving of their system calls with allocations of other threads: in every run
in which no allocation is placed in the cold half of a worker that is between its `munmap` and its
`mmap(MAP_FIXED)`, every `mmap(MAP_FIXED)` and every `hv_vm_map` of a worker meets no range that
another thread still holds. -/
theorem reclaim_host_safe (cfg : Config) {st : Proc} {ls : List Move} (hinit : Initial cfg st)
    (hclear : Along (soak cfg).step (ClearWindow cfg) st ls) :
    Along (soak cfg).step (fun st l => (∃ st', (soak cfg).step st l = some st') → HostSafe st l)
      st ls := by
  refine Along.of_invariant hostKept_step ?_ hclear (hostKept_initial hinit)
  rintro st l - hI ⟨st', hstep⟩ k released c rest rfl hd hs r hr
  obtain ⟨hk, -⟩ := Threads.System.step_act.mp hstep
  obtain ⟨hctl, hH⟩ := hI k hk
  obtain ⟨-, hfix, hmap⟩ :=
    mem_reclaimCalls_host ((hctl.calls _ hs).subset (List.mem_cons_self ..))
  constructor
  · intro addr len hc
    rw [hfix addr len hc]
    exact hH.foreign hd r hr
  · intro addr gpa len hc
    rw [hmap addr gpa len hc]
    exact hH.foreign hd r hr

/-- An allocation can be placed wherever the host address space is free. -/
theorem alloc_step (cfg : Config) {st : Proc} {a n : ℕ} (hn : 0 < n)
    (hfree : ∀ i < n, st.shared.hostMapped (a + i) = false) :
    ∃ st', (soak cfg).step st (.env (.alloc a n)) = some st' ∧ st'.thread = st.thread ∧
      (a, n) ∈ st'.shared.allocs ∧ st'.shared.expired = st.shared.expired := by
  refine ⟨_, Threads.System.step_env.mpr ⟨_, if_pos ⟨hn, hfree⟩, rfl⟩, rfl, ?_, rfl⟩
  exact List.mem_cons_self ..

/-- A run of worker 1 up to the end of its first reclaim, in which another thread allocates a page
behind guest RAM before the worker starts. -/
theorem reclaim_host_safe_alloc_behind :
    ∃ ls st', run (soak twoWorkers).step (boot twoWorkers)
        (.env (.alloc (twoWorkers.ram + twoWorkers.ramSize) page) :: ls) = some st' ∧
      (st'.thread 1).stmt = .reclaim [] ∧
      Along (soak twoWorkers).step
        (fun st l => (∃ st', (soak twoWorkers).step st l = some st') → HostSafe st l)
        (boot twoWorkers) (.env (.alloc (twoWorkers.ram + twoWorkers.ramSize) page) :: ls) := by
  have hk : 1 < twoWorkers.vcpuCount := by decide
  have hb := before_initial (boot_initial twoWorkers) 1
  have hfree : ∀ i < page, (boot twoWorkers).shared.hostMapped
      (twoWorkers.ram + twoWorkers.ramSize + i) = false := by
    intro i _
    simp [boot]
  obtain ⟨st₁, halloc, -, -, hexp⟩ := alloc_step twoWorkers (by decide) hfree
  obtain ⟨st', ⟨ls, halone, hrun⟩, h'⟩ :=
    flow_reaches 37 hk (by decide) (hb.env halloc hexp) rfl rfl
  refine ⟨ls, st', run_cons_eq_some.mpr ⟨st₁, halloc, hrun⟩, h'.stmt, ?_⟩
  refine reclaim_host_safe twoWorkers (boot_initial twoWorkers) ⟨?_, ?_⟩
  · -- no worker has started
    intro a n _ k _ _ hun
    cases hun
  · intro t ht
    rw [halloc, Option.some.injEq] at ht
    subst ht
    refine halone.mono fun st l hl a n he => ?_
    rcases hl with rfl | rfl | rfl <;> cases he

/-- **The window is open.** Worker 1 unmaps its cold half; another thread's page is placed there;
the worker's next call, `mmap(MAP_FIXED)`, succeeds and replaces it. -/
theorem mmap_fixed_replaces_foreign_page :
    ∃ ls st st', run (soak twoWorkers).step (boot twoWorkers) ls = some st ∧
      (soak twoWorkers).step st (.act 1 (.call 0)) = some st' ∧
      ((twoWorkers.hostCold 1).1, page) ∈ st.shared.allocs ∧
      ¬ HostSafe st (.act 1 (.call 0)) := by
  have hk : 1 < twoWorkers.vcpuCount := by decide
  obtain ⟨st₁, ⟨ls, -, hrun⟩, h₁⟩ := flow_reaches 34 hk (by decide)
    (before_initial (boot_initial twoWorkers) 1) rfl rfl
  have hstmt : (st₁.thread 1).stmt = .reclaim
      [.munmap (twoWorkers.hostCold 1).1 (twoWorkers.hostCold 1).2,
        .mmapFixed (twoWorkers.hostCold 1).1 (twoWorkers.hostCold 1).2,
        .hvVmMap (twoWorkers.hostCold 1).1 (ramGpa + (twoWorkers.cold 1).1)
          (twoWorkers.hostCold 1).2] := h₁.stmt
  have hlen : page ≤ (twoWorkers.hostCold 1).2 := by decide
  -- the worker unmaps, the page is placed
  obtain ⟨st₂, hstep₂, hthread₂, hfree⟩ : ∃ st₂,
      (soak twoWorkers).step st₁ (.act 1 (.call 0)) = some st₂ ∧
        st₂.thread = Function.update st₁.thread 1 { st₁.thread 1 with stmt := .reclaim _ } ∧
        ∀ i < page, st₂.shared.hostMapped ((twoWorkers.hostCold 1).1 + i) = false := by
    refine ⟨_, call_step hk h₁.alive hstmt (Nat.zero_le _), rfl, fun i hi => ?_⟩
    exact setRange_of_mem (by omega)
  obtain ⟨st₃, hstep₃, hthread₃, hmem, -⟩ :=
    alloc_step twoWorkers (show 0 < page by decide) hfree
  have hd₃ : (st₃.thread 1).dead = false := by
    rw [hthread₃, hthread₂]
    simpa using h₁.alive
  have hs₃ : (st₃.thread 1).stmt = .reclaim
      [.mmapFixed (twoWorkers.hostCold 1).1 (twoWorkers.hostCold 1).2,
        .hvVmMap (twoWorkers.hostCold 1).1 (ramGpa + (twoWorkers.cold 1).1)
          (twoWorkers.hostCold 1).2] := by
    rw [hthread₃, hthread₂]
    simp
  have hstep₄ := call_step hk hd₃ hs₃ (Nat.zero_le st₃.shared.footprint)
  refine ⟨ls ++ [.act 1 (.call 0), .env (.alloc (twoWorkers.hostCold 1).1 page)], st₃, _,
    run_append.mpr ⟨st₁, hrun, ?_⟩, hstep₄, hmem, ?_⟩
  · exact run_cons_eq_some.mpr ⟨st₂, hstep₂, run_cons_eq_some.mpr ⟨st₃, hstep₃, rfl⟩⟩
  · intro hsafe
    refine (hsafe 1 0 _ _ rfl hd₃ hs₃ _ hmem).1 _ _ rfl
      ⟨(twoWorkers.hostCold 1).1, ⟨le_rfl, ?_⟩, le_rfl, ?_⟩
    · decide
    · decide

end VmRatchet.Soak
