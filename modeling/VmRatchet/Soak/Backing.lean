import VmRatchet.Soak.HostMap

/-!
# The guest never sees memory the host has given up

`reclaim` unmaps a cold half from the guest before it touches the host pages behind it, and maps it
again only when fresh pages stand there. While one worker is between two of these calls the others
run in their own halves, and a worker may die between any two. In all of this the stage-2 map never
points to a host page that is not mapped (`Dangling`), and every call meets the maps as it needs
them (`CallSafe`).

* `Backed` — the two maps on the cold half of one worker, as a function of its next call.
* `Pinned` — the rest of guest RAM, which no call ever touches.
* `soak_never_dangles` — no state of any run dangles, and every call is safe. In munmap mode this
  needs `ClearWindow`: `mmap_fixed_replaces_foreign_page` shows why.
-/

namespace VmRatchet.Soak

open Arm64 ByteMemory Guest Transition

/-- The byte at offset `o` of guest RAM lies in the cold half of worker `k`. -/
def Config.InCold (cfg : Config) (k o : ℕ) : Prop := (cfg.cold k).1 ≤ o ∧ o < (cfg.cold k).2

/-- The range `r` of a host allocation holds the byte at offset `o` of guest RAM. -/
def Config.Holds (cfg : Config) (r : ℕ × ℕ) (o : ℕ) : Prop :=
  r.1 ≤ cfg.ram + o ∧ cfg.ram + o < r.1 + r.2

/-- **Dangling.** A byte of guest RAM that the guest can reach has no host page behind it. -/
def Dangling (cfg : Config) (sh : Shared) : Prop :=
  ∃ o < cfg.ramSize, sh.mapped (ramGpa + o) = true ∧ sh.hostMapped (cfg.ram + o) = false

/-- **What a call of `reclaim` needs of the two maps.** Only mapped memory is unmapped, and only
unmapped memory mapped; host pages are advised or unmapped only while the guest cannot reach them;
and the guest gets only mapped host pages. -/
def CallSafe (cfg : Config) (sh : Shared) : Call → Prop
  | .hvVmUnmap gpa len => ∀ x, gpa ≤ x → x < gpa + len → sh.mapped x = true
  | .madvise addr len _ | .munmap addr len => ∀ x, addr ≤ x → x < addr + len →
      sh.hostMapped x = true ∧ sh.mapped (ramGpa + (x - cfg.ram)) = false
  | .mmapFixed addr len => ∀ x, addr ≤ x → x < addr + len →
      sh.hostMapped x = false ∧ sh.mapped (ramGpa + (x - cfg.ram)) = false
  | .hvVmMap addr gpa len => (∀ x, gpa ≤ x → x < gpa + len → sh.mapped x = false) ∧
      ∀ x, addr ≤ x → x < addr + len → sh.hostMapped x = true

/-! ## The invariant -/

/-- **Backed.** The two maps on the cold half of worker `k`. Of the host pages of a worker that has
died in the window nothing is known, and nothing is needed: the guest cannot reach them. -/
structure Backed (cfg : Config) (k : ℕ) (w : Worker) (sh : Shared) : Prop where
  stage2 : ∀ o, cfg.InCold k o → sh.mapped (ramGpa + o) = !w.stmt.unmapped
  host : w.dead = false ∨ w.stmt.hostUnmapped = false → ∀ o, cfg.InCold k o →
    sh.hostMapped (cfg.ram + o) = !w.stmt.hostUnmapped
  foreign : w.dead = false ∨ w.stmt.hostUnmapped = false → ∀ o, cfg.InCold k o →
    ∀ r ∈ sh.allocs, ¬ cfg.Holds r o

/-- **Pinned.** Outside the cold halves the host pages of guest RAM stay mapped. -/
structure Pinned (cfg : Config) (sh : Shared) : Prop where
  host : ∀ o < cfg.ramSize, (∀ k < cfg.vcpuCount, ¬ cfg.InCold k o) →
    sh.hostMapped (cfg.ram + o) = true
  foreign : ∀ o < cfg.ramSize, (∀ k < cfg.vcpuCount, ¬ cfg.InCold k o) →
    ∀ r ∈ sh.allocs, ¬ cfg.Holds r o

section maps

variable {cfg : Config} {k o : ℕ} {a : Act} {w w' : Worker} {sh sh' : Shared}

/-- A guest-physical address is in the cold half exactly if its offset in guest RAM is. -/
theorem inRange_cold : cfg.InRange k .cold (ramGpa + o) ↔ cfg.InCold k o := by
  simp only [Options.InRange, Options.range, Config.InCold]
  omega

/-- An offset is in the cold half exactly if its host address is in the host range of the cold
half. -/
theorem inCold_host : cfg.InCold k o ↔ (cfg.hostCold k).1 ≤ cfg.ram + o ∧
    cfg.ram + o < (cfg.hostCold k).1 + (cfg.hostCold k).2 := by
  have hsnd := cfg.toOptions.range_snd k .cold
  simp only [Options.range] at hsnd
  simp only [Config.InCold, Config.hostCold]
  omega

/-- A byte of a worker's cold half lies in guest RAM: the halves of the workers that exist end
before `ramSize` does. -/
theorem inCold_lt (hk : k < cfg.vcpuCount) (h : cfg.InCold k o) : o < cfg.ramSize := by
  have := (inRange_cold.mpr h).inSlot.in_ram hk
  omega

/-- The host pages are gone only while the guest cannot reach them. -/
theorem Stmt.unmapped_of_hostUnmapped {st : Stmt} (h : st.hostUnmapped = true) :
    st.unmapped = true := by
  cases st with
  | reclaim rest =>
      rcases rest with _ | ⟨c, rest⟩
      · cases h
      · cases c <;> first | rfl | cases h
  | _ => cases h

/-- A statement at which the guest's view of the cold half is whole is not one at which the host
pages are gone, since `reclaim` unmaps from the guest first and maps for it last. -/
theorem Stmt.hostUnmapped_of_unmapped {st : Stmt} (h : st.unmapped = false) :
    st.hostUnmapped = false := by
  cases hst : st.hostUnmapped with
  | false => rfl
  | true =>
      rw [Stmt.unmapped_of_hostUnmapped hst] at h
      cases h

/-- The statement that follows a guest pass is outside `reclaim`, so it has nothing unmapped: a pass
is never followed by a reclaim directly. -/
theorem Stmt.unmapped_afterPass {st : Stmt} {c : Side × Program} (h : st.call = some c) :
    st.afterPass.unmapped = false := by
  cases st <;> first | rfl | cases h

/-- A statement that neither unmaps nor maps keeps the cold half backed. -/
theorem Backed.congr (hB : Backed cfg k w sh) (hd : w.dead = false)
    (hun : w'.stmt.unmapped = w.stmt.unmapped)
    (hhost : w'.stmt.hostUnmapped = w.stmt.hostUnmapped) (hmapped : sh'.mapped = sh.mapped)
    (hhm : sh'.hostMapped = sh.hostMapped) (hallocs : sh'.allocs = sh.allocs) :
    Backed cfg k w' sh' where
  stage2 o ho := by
    rw [hmapped, hun]
    exact hB.stage2 o ho
  host _ o ho := by
    rw [hhm, hhost]
    exact hB.host (.inl hd) o ho
  foreign _ o ho := by
    rw [hallocs]
    exact hB.foreign (.inl hd) o ho

/-- **Every call of a reclaim is safe and keeps the cold half backed.** The calls go by cases, each
over the whole cold half: what one finds mapped, in the guest and in the process, is what those
before it have left. -/
theorem backed_call {released : ℕ} {c : Call} {rest : List Call} (hC : Control cfg k w sh)
    (hB : Backed cfg k w sh) (hd : w.dead = false) (hs : w.stmt = .reclaim (c :: rest)) :
    CallSafe cfg sh c ∧ Backed cfg k { w with stmt := .reclaim rest }
      { sh.call cfg.ram c with footprint := sh.footprint - released } := by
  have hsnd := cfg.toOptions.range_snd k .cold
  simp only [Options.range] at hsnd
  obtain ⟨h2, hh, hf⟩ := hB
  have hh := hh (.inl hd)
  have hf := hf (.inl hd)
  -- the same facts, by address
  have h2' : ∀ x, ramGpa + (cfg.cold k).1 ≤ x →
      x < ramGpa + (cfg.cold k).1 + ((cfg.cold k).2 - (cfg.cold k).1) →
      sh.mapped x = !w.stmt.unmapped := by
    intro x h1 h3
    have := h2 (x - ramGpa) ⟨by omega, by omega⟩
    rwa [show ramGpa + (x - ramGpa) = x by omega] at this
  have hh' : ∀ x, cfg.ram + (cfg.cold k).1 ≤ x →
      x < cfg.ram + (cfg.cold k).1 + ((cfg.cold k).2 - (cfg.cold k).1) →
      sh.hostMapped x = !w.stmt.hostUnmapped ∧
        sh.mapped (ramGpa + (x - cfg.ram)) = !w.stmt.unmapped := by
    intro x h1 h3
    have hin : cfg.InCold k (x - cfg.ram) := ⟨by omega, by omega⟩
    have := hh (x - cfg.ram) hin
    rw [show cfg.ram + (x - cfg.ram) = x by omega] at this
    exact ⟨this, h2 _ hin⟩
  have hset : ∀ {o}, cfg.InCold k o → ∀ (base : ℕ) {f : ℕ → Bool} {v : Bool},
      setRange f (base + (cfg.cold k).1) ((cfg.cold k).2 - (cfg.cold k).1) v (base + o) = v := by
    intro o ho base f v
    obtain ⟨h1, h3⟩ := ho
    exact setRange_of_mem ⟨by omega, by omega⟩
  rcases suffix_reclaimCalls (hC.calls _ hs) with hl | hl | ⟨c', hc', hl⟩ | hl | hl
  · cases hl
  · -- `hv_vm_map`, the last call
    cases hl
    rw [hs] at h2' hh' hh
    exact ⟨⟨h2', fun x h1 h3 => (hh' x h1 h3).1⟩, fun o ho => hset ho ramGpa,
      fun _ o ho => hh o ho, fun _ => hf⟩
  · -- `madvise`, or `mmap(MAP_FIXED)`
    cases hl
    rw [hs] at h2 h2' hh' hh
    rcases hc' with rfl | rfl
    · exact ⟨hh', h2, fun _ => hh, fun _ => hf⟩
    · exact ⟨hh', h2, fun _ o ho => hset ho cfg.ram, fun _ => hf⟩
  · -- `munmap`
    cases hl
    rw [hs] at h2 h2' hh' hh
    exact ⟨hh', h2, fun _ o ho => hset ho cfg.ram, fun _ => hf⟩
  · -- `hv_vm_unmap`, the first call
    rw [hs] at h2' hh
    cases hmode : cfg.mode <;> simp only [reclaimCalls, hmode, List.cons_append, List.nil_append,
      List.cons.injEq] at hl <;> obtain ⟨rfl, rfl⟩ := hl <;>
    exact ⟨h2', fun o ho => hset ho ramGpa, fun _ => hh, fun _ => hf⟩

/-- A worker's own step keeps its cold half backed. -/
theorem backed_own (hk : k < cfg.vcpuCount) (hC : Control cfg k w sh) (hB : Backed cfg k w sh)
    (h : w.step cfg k a sh = some (w', sh')) : Backed cfg k w' sh' := by
  obtain ⟨hd, h⟩ := Worker.step_inv h
  cases h with
  | cancel | enter | take => exact ⟨hB.stage2, hB.host, hB.foreign⟩
  | fail => exact ⟨hB.stage2, fun _ => hB.host (.inl hd), fun _ => hB.foreign (.inl hd)⟩
  | call hs hle => exact (backed_call hC hB hd hs).2
  | host hr hp h =>
      obtain ⟨hun, hun', -, -⟩ := host_stmt hC.valid h
      have hf := host_frame h
      refine hB.congr hd (hun'.trans hun.symm) ?_ hf.mapped hf.hostMapped hf.allocs
      rw [Stmt.hostUnmapped_of_unmapped hun, Stmt.hostUnmapped_of_unmapped hun']
  | guest hr =>
      obtain ⟨p, s, hp, hs⟩ := hC.inside hr
      obtain ⟨side, hcall, -, -⟩ := pass_range hp
      have hun := Stmt.unmapped_of_call hcall
      have hun' := Stmt.unmapped_afterPass hcall
      rcases hC.guest hk hp hs with ⟨-, hg⟩ | ⟨s', m', c', -, -, hg⟩ <;> rw [hg]
      · refine hB.congr hd (hun'.trans hun.symm) ?_ rfl rfl rfl
        exact (Stmt.hostUnmapped_of_unmapped hun').trans (Stmt.hostUnmapped_of_unmapped hun).symm
      · exact hB.congr hd rfl rfl rfl rfl rfl

/-- A step of worker `k` leaves the cold half of every other worker `j` as it was backed: it changes
neither map outside its own half, and adds no allocation of its own. -/
theorem backed_other {j : ℕ} {v : Worker} (hk : k < cfg.vcpuCount) (hjk : j ≠ k)
    (hC : Control cfg k w sh) (h : w.step cfg k a sh = some (w', sh'))
    (hB : Backed cfg j v sh) : Backed cfg j v sh' := by
  obtain ⟨hallocs, hout⟩ := step_host_outside hk hC h
  have hhost : ∀ o, cfg.InCold j o → sh'.hostMapped (cfg.ram + o) = sh.hostMapped (cfg.ram + o) :=
    fun o ho => hout _ fun hx => hjk ((inRange_cold.mpr (inCold_host.mpr hx)).inSlot.ne
      (inRange_cold.mpr ho).inSlot)
  refine ⟨fun o ho => ?_, fun hc o ho => ?_, fun hc => ?_⟩
  · rw [step_mapped_outside hk hC h fun hx => hjk (hx.inSlot.ne (inRange_cold.mpr ho).inSlot)]
    exact hB.stage2 o ho
  · rw [hhost o ho]
    exact hB.host hc o ho
  · rw [hallocs]
    exact hB.foreign hc

/-- An allocation or a release of another thread leaves a byte alone that no allocation holds, if
it is not placed there. -/
theorem env_host {e : Env} {ws : ℕ → Worker} (h : e.step cfg ws sh = some sh')
    (hforeign : ∀ r ∈ sh.allocs, ¬ cfg.Holds r o)
    (hplace : ∀ a n, e = .alloc a n → ¬ cfg.Holds (a, n) o) :
    sh'.hostMapped (cfg.ram + o) = sh.hostMapped (cfg.ram + o) ∧
      ∀ r ∈ sh'.allocs, ¬ cfg.Holds r o := by
  have hf := env_frame h
  cases e with
  | alloc a n =>
      simp only [Env.step, Option.ite_none_right_eq_some, Option.some.injEq] at h
      obtain ⟨-, rfl⟩ := h
      have hnot := hplace a n rfl
      refine ⟨setRange_of_not_mem ?_, fun r hr => ?_⟩
      · simp only [Config.Holds] at hnot
        omega
      · rcases List.mem_cons.mp hr with rfl | hr
        · exact hnot
        · exact hforeign r hr
  | free r =>
      simp only [Env.step, Option.ite_none_right_eq_some, Option.some.injEq] at h
      obtain ⟨hmem, rfl⟩ := h
      have hnot := hforeign r hmem
      refine ⟨setRange_of_not_mem ?_, fun r' hr' => hforeign r' (List.mem_of_mem_erase hr')⟩
      simp only [Config.Holds] at hnot
      omega
  | zero | footprint | expire | pressure | main =>
      rw [hf.hostMapped (by simp) (by simp), hf.allocs (by simp) (by simp)]
      exact ⟨rfl, hforeign⟩

/-- A range that `mmap` places for another thread holds no byte that is mapped in the process. -/
theorem not_holds_alloc {b n : ℕ} {ws : ℕ → Worker}
    (h : (Env.alloc b n).step cfg ws sh = some sh')
    (hmapped : sh.hostMapped (cfg.ram + o) = true) : ¬ cfg.Holds (b, n) o := by
  simp only [Env.step, Option.ite_none_right_eq_some] at h
  obtain ⟨⟨-, hfree⟩, -⟩ := h
  rintro ⟨h1, h2⟩
  have := hfree (cfg.ram + o - b) (by simp only at h2; omega)
  rw [show b + (cfg.ram + o - b) = cfg.ram + o by simp only at h1; omega, hmapped] at this
  cases this

/-- An event keeps a cold half backed, if it is not an allocation in the window: outside the windows
an allocation goes where nothing is mapped. -/
theorem backed_env {e : Env} {ws : ℕ → Worker} (h : e.step cfg ws sh = some sh')
    (hclear : ∀ b n, e = .alloc b n → w.dead = false → w.stmt.hostUnmapped = true →
      ¬ Overlap (b, n) (cfg.hostCold k)) (hB : Backed cfg k w sh) : Backed cfg k w sh' := by
  have hkeep : w.dead = false ∨ w.stmt.hostUnmapped = false → ∀ o, cfg.InCold k o →
      sh'.hostMapped (cfg.ram + o) = sh.hostMapped (cfg.ram + o) ∧
        ∀ r ∈ sh'.allocs, ¬ cfg.Holds r o := by
    intro hc o ho
    refine env_host h (hB.foreign hc o ho) ?_
    rintro b n rfl
    cases hun : w.stmt.hostUnmapped with
    | false => exact not_holds_alloc h (by rw [hB.host hc o ho, hun]; rfl)
    | true =>
        have hd : w.dead = false := hc.resolve_right (by rw [hun]; simp)
        rintro ⟨h1, h2⟩
        exact hclear b n rfl hd hun ⟨cfg.ram + o, ⟨h1, h2⟩, inCold_host.mp ho⟩
  refine ⟨fun o ho => ?_, fun hc o ho => ?_, fun hc o ho => (hkeep hc o ho).2⟩
  · rw [(env_frame h).mapped]
    exact hB.stage2 o ho
  · rw [(hkeep hc o ho).1]
    exact hB.host hc o ho

/-- A worker's step leaves the pinned part alone. -/
theorem pinned_act (hk : k < cfg.vcpuCount) (hC : Control cfg k w sh)
    (h : w.step cfg k a sh = some (w', sh')) (hP : Pinned cfg sh) : Pinned cfg sh' := by
  obtain ⟨hallocs, hout⟩ := step_host_outside hk hC h
  refine ⟨fun o ho hnone => ?_, by rw [hallocs]; exact hP.foreign⟩
  rw [hout _ fun hx => hnone k hk (inCold_host.mpr hx)]
  exact hP.host o ho hnone

/-- An event of the environment leaves the pinned part alone as well: what others map or unmap is
memory of their own, never an address of guest RAM that is mapped. -/
theorem pinned_env {e : Env} {ws : ℕ → Worker} (h : e.step cfg ws sh = some sh')
    (hP : Pinned cfg sh) : Pinned cfg sh' := by
  have hkeep : ∀ o < cfg.ramSize, (∀ k < cfg.vcpuCount, ¬ cfg.InCold k o) →
      sh'.hostMapped (cfg.ram + o) = sh.hostMapped (cfg.ram + o) ∧
        ∀ r ∈ sh'.allocs, ¬ cfg.Holds r o := by
    intro o ho hnone
    refine env_host h (hP.foreign o ho hnone) ?_
    rintro b n rfl
    exact not_holds_alloc h (hP.host o ho hnone)
  exact ⟨fun o ho hnone => (hkeep o ho hnone).1.trans (hP.host o ho hnone),
    fun o ho hnone => (hkeep o ho hnone).2⟩

end maps

/-! ## Whole runs -/

/-- Control, the cold halves and the rest of guest RAM. -/
structure Backings (cfg : Config) (st : Proc) : Prop where
  workers : (soak cfg).Everywhere (fun k w sh => Control cfg k w sh ∧ Backed cfg k w sh) st
  pinned : Pinned cfg st.shared

section runs

variable {cfg : Config} {st st' : Proc}

/-- Every step that leaves the windows clear keeps all of guest RAM backed: the cold halves outside
their windows, and the rest always. -/
theorem backings_step (st : Proc) (l : Move) (st' : Proc) (hl : ClearWindow cfg st l)
    (h : Backings cfg st) (hstep : (soak cfg).step st l = some st') : Backings cfg st' := by
  refine ⟨Threads.System.local_invariant (P := ClearWindow cfg) ?_ ?_ ?_ st l st' hl h.workers
    hstep, ?_⟩
  · intro st k a w' sh' _ hk hI hact
    exact ⟨control_own hk (hI k hk).1 hact, backed_own hk (hI k hk).1 (hI k hk).2 hact⟩
  · intro st k j a w' sh' _ hk hj hjk hI hact
    exact ⟨control_other hk hjk (hI k hk).1 hact (hI j hj).1,
      backed_other hk hjk (hI k hk).1 hact (hI j hj).2⟩
  · intro st e sh' hclear hI henv j hj
    refine ⟨control_env henv (hI j hj).1, backed_env henv (fun b n he hd hun => ?_) (hI j hj).2⟩
    exact hclear b n (by rw [he]) j hj hd hun
  · cases l with
    | act k a =>
        obtain ⟨hk, w', sh', hact, rfl⟩ := Threads.System.step_act.mp hstep
        exact pinned_act hk (h.workers k hk).1 hact h.pinned
    | env e =>
        obtain ⟨sh', henv, rfl⟩ := Threads.System.step_env.mp hstep
        exact pinned_env henv h.pinned

/-- The process starts with all of guest RAM mapped in both maps, and nothing else allocated. -/
theorem backings_initial (h : Initial cfg st) : Backings cfg st := by
  refine ⟨fun k hk => ⟨control_initial h k hk, fun o ho => ?_, fun _ o ho => ?_,
    fun _ o _ => ?_⟩, fun o ho _ => ?_, fun o _ _ => ?_⟩
  · obtain ⟨cpu, hw⟩ := h.fresh k
    rw [h.mapped, hw]
    exact decide_eq_true ⟨Nat.le_add_right _ _, Nat.add_lt_add_left (inCold_lt hk ho) _⟩
  · obtain ⟨cpu, hw⟩ := h.fresh k
    rw [hw]
    exact h.hostMapped _ (Nat.le_add_right _ _) (Nat.add_lt_add_left (inCold_lt hk ho) _)
  · simp [h.allocs]
  · exact h.hostMapped _ (Nat.le_add_right _ _) (Nat.add_lt_add_left ho _)
  · simp [h.allocs]

/-- **Nothing dangles** in a state where everything is backed. -/
theorem Backings.not_dangling (h : Backings cfg st) : ¬ Dangling cfg st.shared := by
  rintro ⟨o, ho, hmapped, hhost⟩
  by_cases hcold : ∃ k < cfg.vcpuCount, cfg.InCold k o
  · obtain ⟨k, hk, hin⟩ := hcold
    obtain ⟨-, hB⟩ := h.workers k hk
    -- the guest can reach the cold half, so the worker is not in the window
    have hun : (st.thread k).stmt.unmapped = false := by
      have := hB.stage2 o hin
      rw [hmapped] at this
      simpa using this.symm
    have hwin := Stmt.hostUnmapped_of_unmapped hun
    have := hB.host (.inr hwin) o hin
    rw [hhost, hwin] at this
    cases this
  · have := h.pinned.host o ho fun k hk hin => hcold ⟨k, hk, hin⟩
    rw [hhost] at this
    cases this

/-- In reusable mode every run meets the condition on the window, because no call of `reclaim` takes
a host page away there: there is no moment at which an address is free to be taken. -/
theorem clearWindow_of_reusable {ls : List Move} (hinit : Initial cfg st)
    (hmode : cfg.mode = .reusable) : Along (soak cfg).step (ClearWindow cfg) st ls := by
  refine Along.of_invariant (P := fun _ _ => True) control_step ?_
    (Along.of_labels (fun _ _ _ => trivial) st) (control_initial hinit)
  intro st l _ hC b n _ k hk _ hun
  cases hst : (st.thread k).stmt with
  | reclaim rest =>
      have hcalls := (hC k hk).calls rest hst
      rw [hst] at hun
      rcases rest with _ | ⟨c, rest⟩
      · cases hun
      · cases c with
        | mmapFixed addr len =>
            have hmem := hcalls.subset (List.mem_cons_self ..)
            simp [reclaimCalls, hmode] at hmem
        | hvVmUnmap | madvise | munmap | hvVmMap => cases hun
  | _ =>
      rw [hst] at hun
      cases hun

end runs

/-- **The soak never dangles.** In reusable mode always, and in munmap mode in every run in which
no allocation of another thread is placed in the window of a living worker: in every reachable
state, with any number of workers at any point of their reclaims, dead or alive, every byte of guest
RAM that the guest can reach has its host page; the call a living worker is about to make is safe;
and the half a guest pass goes over is mapped in both maps. -/
theorem soak_never_dangles (cfg : Config) {st st' : Proc} {ls : List Move}
    (hinit : Initial cfg st)
    (hclear : cfg.mode = .reusable ∨ Along (soak cfg).step (ClearWindow cfg) st ls)
    (hrun : run (soak cfg).step st ls = some st') :
    ¬ Dangling cfg st'.shared ∧
      ∀ k < cfg.vcpuCount,
        ((st'.thread k).dead = false → ∀ c rest, (st'.thread k).stmt = .reclaim (c :: rest) →
          CallSafe cfg st'.shared c) ∧
        ∀ p, (st'.thread k).pass cfg k = some p → ∀ o, p.startOff ≤ o → o < p.endOff →
          st'.shared.mapped (ramGpa + o) = true ∧ st'.shared.hostMapped (cfg.ram + o) = true := by
  have hclear : Along (soak cfg).step (ClearWindow cfg) st ls :=
    hclear.elim (clearWindow_of_reusable hinit) id
  have hB := run_invariant backings_step hclear (backings_initial hinit) hrun
  refine ⟨hB.not_dangling, fun k hk => ⟨fun hd c rest hs => ?_, fun p hp o h1 h2 => ?_⟩⟩
  · obtain ⟨hC, hb⟩ := hB.workers k hk
    exact (@backed_call _ _ _ _ 0 _ _ hC hb hd hs).1
  · obtain ⟨hC, -⟩ := hB.workers k hk
    obtain ⟨side, hcall, hs, he⟩ := pass_range hp
    have hin : cfg.InRange k side (ramGpa + o) := ⟨by omega, by omega⟩
    have hmapped : st'.shared.mapped (ramGpa + o) = true := by
      cases side with
      | hot => exact hC.hot _ hin
      | cold => exact hC.cold (Stmt.unmapped_of_call hcall) _ hin
    have ho : o < cfg.ramSize := by
      have := hin.inSlot.in_ram hk
      omega
    refine ⟨hmapped, ?_⟩
    by_contra hhost
    exact hB.not_dangling ⟨o, ho, hmapped, by simpa using hhost⟩

/-- Worker 1 of two in the window, its host pages gone: nothing dangles. -/
theorem soak_never_dangles_in_window :
    ∃ ls st', run (soak twoWorkers).step (boot twoWorkers) ls = some st' ∧
      (st'.thread 1).stmt.hostUnmapped = true ∧ ¬ Dangling twoWorkers st'.shared := by
  have hbefore := before_initial (boot_initial twoWorkers) 1
  obtain ⟨st', ⟨ls, halone, hrun⟩, h'⟩ := flow_reaches 35 (by decide) (by decide) hbefore rfl rfl
  have hclear : Along (soak twoWorkers).step (ClearWindow twoWorkers) (boot twoWorkers) ls := by
    refine halone.mono fun st l hl b n he => ?_
    rcases hl with rfl | rfl | rfl <;> cases he
  have hstmt : (st'.thread 1).stmt.hostUnmapped = true := by
    rw [h'.stmt]
    rfl
  exact ⟨ls, st', hrun, hstmt,
    (soak_never_dangles twoWorkers (boot_initial twoWorkers) (.inr hclear) hrun).1⟩

end VmRatchet.Soak
