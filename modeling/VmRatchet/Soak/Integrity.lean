import VmRatchet.Soak.Contents
import VmRatchet.Soak.Progress

/-!
# The soak raises no false alarm, and its denominator is exact

If guest RAM starts zeroed and the operating system changes guest memory only by taking pages of
a cold half between the reclaim and the fill, then in every interleaving of guest instructions,
host statements, reclaims, self-test and counter updates, with `Canceled` exits anywhere:

* `soak_integrity` — `stats.mismatches` is zero at every moment, no worker's step changes a byte
  of another worker's slot, and when all workers have left their loops the statistics are exact;
* `soak_no_panic` — no worker panics unless one of its calls fails: in particular the detector
  self-test passes.
-/

namespace VmRatchet.Soak

open Arm64 ByteMemory Guest Transition

variable {cfg : Config} {k : ℕ} {a : Act} {w w' : Worker} {sh sh' : Shared}

/-! ## One step -/

/-- Where the contents are as expected, no mismatch is ever added. -/
theorem host_mismatches (hC : Contents cfg k w sh) (h : w.host cfg k sh = some (w', sh')) :
    sh'.stats.mismatches = sh.stats.mismatches := by
  cases hst : w.stmt
  case hotBad i =>
    have hbad := hC.bad (.inl ⟨i, .inr hst⟩)
    simp only [Worker.host, hst, Option.some.injEq, Prod.mk.injEq] at h
    obtain ⟨rfl, rfl⟩ := h
    simp [hbad]
  case coldBad again =>
    have hbad := hC.bad (.inr ⟨again, .inr hst⟩)
    simp only [Worker.host, hst, Option.some.injEq, Prod.mk.injEq] at h
    obtain ⟨rfl, rfl⟩ := h
    simp [hbad]
  case reclaim rest =>
    cases rest <;>
      simp only [Worker.host, hst, Option.some.injEq, Prod.mk.injEq, reduceCtorEq] at h
    obtain ⟨rfl, rfl⟩ := h
    rfl
  all_goals
    simp only [Worker.host, hst, reduceCtorEq] at h
    try split_ifs at h
    all_goals
      rw [Option.some.injEq, Prod.mk.injEq] at h
      obtain ⟨rfl, rfl⟩ := h
      rfl

/-- Where control and contents are as expected, no action of a worker changes the count of
mismatches, not even a failing one or what the system takes. -/
theorem step_mismatches (hk : k < cfg.vcpuCount) (hI : Intact cfg k w sh)
    (h : w.step cfg k a sh = some (w', sh')) : sh'.stats.mismatches = sh.stats.mismatches := by
  obtain ⟨hctl, -, hC⟩ := hI
  obtain ⟨-, h⟩ := Worker.step_inv h
  cases h with
  | enter | cancel | fail | take => rfl
  | host hr hp h => exact host_mismatches hC h
  | @call released c rest hs hle => cases c <;> rfl
  | guest hr =>
      obtain ⟨p, s, hp, hs⟩ := hctl.inside hr
      rcases hctl.guest hk hp hs with ⟨-, hg⟩ | ⟨s', m', c', -, -, hg⟩ <;> rw [hg]

/-- Where the contents are as expected only a failing call kills a worker: the assertions of the
self-test, the other way to die, hold, since the counts they look at are those of one planted word
and of none. -/
theorem step_alive (hk : k < cfg.vcpuCount) (hI : Intact cfg k w sh) (ha : a ≠ .fail)
    (h : w.step cfg k a sh = some (w', sh')) : w'.dead = false := by
  obtain ⟨hctl, -, hC⟩ := hI
  obtain ⟨hd, h⟩ := Worker.step_inv h
  cases h with
  | enter | cancel | call | take => exact hd
  | fail => exact absurd rfl ha
  | guest hr =>
      obtain ⟨p, s, hp, hs⟩ := hctl.inside hr
      rcases hctl.guest hk hp hs with ⟨-, hg⟩ | ⟨s', m', c', -, -, hg⟩ <;> rw [hg] <;> exact hd
  | host hr hp h =>
      cases hst : w.stmt
      case assertFound =>
        have hfound := hC.found (.inr hst)
        simp only [Worker.host, hst, if_pos hfound, Option.some.injEq, Prod.mk.injEq] at h
        obtain ⟨rfl, rfl⟩ := h
        exact hd
      case assertClean =>
        have hclean := hC.clean hst
        simp only [Worker.host, hst, if_pos hclean, Option.some.injEq, Prod.mk.injEq] at h
        obtain ⟨rfl, rfl⟩ := h
        exact hd
      case reclaim rest =>
        cases rest <;>
          simp only [Worker.host, hst, Option.some.injEq, Prod.mk.injEq, reduceCtorEq] at h
        obtain ⟨rfl, rfl⟩ := h
        exact hd
      all_goals
        simp only [Worker.host, hst, Option.some.injEq, Prod.mk.injEq, reduceCtorEq] at h
        all_goals
          obtain ⟨rfl, rfl⟩ := h
          exact hd

/-! ## Whole runs -/

/-- The expected contents and no mismatch, in every worker and in the statistics they share. -/
def Silent (cfg : Config) (st : Proc) : Prop :=
  (soak cfg).Everywhere (Intact cfg) st ∧ st.shared.stats.mismatches = 0

/-- Every step under a quiet operating system stays silent. -/
theorem silent_step (st : Proc) (l : Move) (st' : Proc) (hl : QuietOS st l) (h : Silent cfg st)
    (hstep : (soak cfg).step st l = some st') : Silent cfg st' := by
  refine ⟨intact_step st l st' hl h.1 hstep, ?_⟩
  cases l with
  | act k a =>
      obtain ⟨hk, w', sh', hact, rfl⟩ := Threads.System.step_act.mp hstep
      exact (step_mismatches hk (h.1 k hk) hact).trans h.2
  | env e =>
      obtain ⟨sh', henv, rfl⟩ := Threads.System.step_env.mp hstep
      rw [← h.2, (env_frame henv).stats]

/-- The contents make the assertions of the self-test hold. -/
theorem Intact.passes (h : Intact cfg k w sh) : w.Passes :=
  ⟨fun hst => h.2.2.found (.inr hst), h.2.2.clean⟩

/-- A worker that moves by itself does not disturb guest memory. -/
theorem quiet_of_alone {st : Proc} {l : Move} (h : Alone k st l) : QuietOS st l := by
  intro a n he
  rcases h with rfl | rfl | rfl <;> cases he

/-- What a worker does by itself keeps the expected contents and the count of mismatches at zero. -/
theorem silent_reaches {st st' : Proc} (h : Silent cfg st)
    (hreach : Reaches (soak cfg).step (Alone k) st st') : Silent cfg st' :=
  hreach.invariant (fun st l st' hl => silent_step st l st' (quiet_of_alone hl)) h

/-- **Worker 0 passes its self-test** and comes to the head of its loop. -/
theorem selfTest_reached {st : Proc} (hsilent : Silent cfg st)
    (h : Before cfg 0 st (.vcpuCreate, 0)) :
    ∃ st', Reaches (soak cfg).step (Alone 0) st st' ∧ Before cfg 0 st' (.deadline, 0) := by
  have hk : 0 < cfg.vcpuCount := cfg.toOptions.vcpuCount_pos
  obtain ⟨st', hreach, h', -⟩ := flow_reaches_of 11
    (fun st l st' hl => silent_step st l st' (quiet_of_alone hl))
    (fun st hI => (hI.1 0 hk).passes) hk h hsilent rfl
  rw [flow_through_test] at h'
  exact ⟨st', hreach, h'⟩

/-! ## A whole run -/

/-- Two workers on 1 GiB that reclaim by `munmap`. -/
def twoWorkers : Config where
  sizeGb := 1
  vcpus := 2
  mode := .munmap
  advice := 7
  ram := 0x100000000
  accepted := by unfold Options.Accepted; decide
  addressable := by decide

/-- The same with `madvise(MADV_FREE_REUSABLE)`. -/
def reusableWorkers : Config := { twoWorkers with mode := .reusable }

/-- Worker 0 enters its first pass, worker 1 creates its vCPU in between. -/
def firstMoves : List Move :=
  [.act 0 .host, .act 0 .host, .act 1 .host, .act 0 .host, .act 0 .cancel, .act 0 .guest]

/-- The steps of a run with a quiet operating system in which no call fails. -/
def Smooth (st : Proc) (l : Move) : Prop := QuietOS st l ∧ ∀ k, l ≠ .act k .fail

/-- A worker that moves by itself moves smoothly: nothing is zeroed behind it and no call of it
fails. -/
theorem smooth_of_alone {st : Proc} {l : Move} (h : Alone k st l) : Smooth st l := by
  refine ⟨quiet_of_alone h, fun j he => ?_⟩
  rcases h with rfl | rfl | rfl <;> cases he

/-- **A whole run of two workers**: worker 0 tests the detector, worker 1 completes a cycle, the
deadline passes, and both leave their loops. The workers take turns, each left alone for its part;
what the one does leaves the other where it stands. -/
theorem twoWorkers_run : ∃ ls st',
    Along (soak twoWorkers).step Smooth (boot twoWorkers) ls ∧
      run (soak twoWorkers).step (boot twoWorkers) ls = some st' ∧
      (∀ k < twoWorkers.vcpuCount, (st'.thread k).stmt = .done ∧ (st'.thread k).dead = false ∧
        (st'.thread k).cycles = k) ∧
      st'.shared.expired = true ∧ st'.shared.main = .progress ∧ st'.shared.stop = false ∧
      st'.shared.pressure = .test := by
  have h0 : 0 < twoWorkers.vcpuCount := by decide
  have h1 : 1 < twoWorkers.vcpuCount := by decide
  have hinit := boot_initial twoWorkers
  -- the self-test of worker 0, and a cycle of worker 1
  obtain ⟨st₁, hreach₁, hb₁⟩ :=
    selfTest_reached ⟨intact_initial hinit, rfl⟩ (before_initial hinit 0)
  obtain ⟨st₂, hreach₂, hb₂⟩ := loop_reached h1 (by decide)
    ((before_initial hinit 1).other (by decide) hreach₁ hb₁) 1
  have hb₂' := hb₁.other (by decide) hreach₂ hb₂
  -- the deadline passes
  obtain ⟨st₃, hstep₃, hthread₃, hsh₃⟩ : ∃ st₃,
      (soak twoWorkers).step st₂ (.env .expire) = some st₃ ∧ st₃.thread = st₂.thread ∧
        st₃.shared = { st₂.shared with expired := true } := ⟨_, rfl, rfl, rfl⟩
  have hsmooth₃ : Smooth st₂ (.env .expire) :=
    ⟨fun a n he => (by cases he), fun j he => (by cases he)⟩
  obtain ⟨st₄, hreach₄, hdone₄, halive₄, hcycles₄⟩ :=
    done_reached h0 (by rw [hthread₃]; exact hb₂'.alive)
      (by rw [hthread₃]; exact hb₂'.idle) (by rw [hthread₃]; exact hb₂'.stmt) (by rw [hsh₃])
  have hf₄ := alone_frame hreach₄
  have hone : st₄.thread 1 = st₂.thread 1 := by rw [hf₄.thread 1 (by decide), hthread₃]
  obtain ⟨st₅, hreach₅, hdone₅, halive₅, hcycles₅⟩ :=
    done_reached h1 (by rw [hone]; exact hb₂.alive)
      (by rw [hone]; exact hb₂.idle) (by rw [hone]; exact hb₂.stmt)
      (by rw [hf₄.expired, hsh₃])
  have hf₁ := alone_frame hreach₁
  have hf₂ := alone_frame hreach₂
  have hf₅ := alone_frame hreach₅
  obtain ⟨ls, hsmooth, hrun⟩ := ((((hreach₁.mono fun _ _ => smooth_of_alone).trans
    (hreach₂.mono fun _ _ => smooth_of_alone)).trans (Reaches.single hsmooth₃ hstep₃)).trans
    (hreach₄.mono fun _ _ => smooth_of_alone)).trans (hreach₅.mono fun _ _ => smooth_of_alone)
  refine ⟨ls, st₅, hsmooth, hrun, fun k hk => ?_, ?_, ?_, ?_, ?_⟩
  · obtain rfl | rfl : k = 0 ∨ k = 1 := by
      have : twoWorkers.vcpuCount = 2 := rfl
      omega
    · rw [hf₅.thread 0 (by decide)]
      exact ⟨hdone₄, halive₄, by rw [hcycles₄, hthread₃]; exact hb₂'.cycles⟩
    · exact ⟨hdone₅, halive₅, by rw [hcycles₅, hone]; exact hb₂.cycles⟩
  · rw [hf₅.expired, hf₄.expired, hsh₃]
  · rw [hf₅.main, hf₄.main, hsh₃]
    exact hf₂.main.trans hf₁.main
  · rw [hf₅.stop, hf₄.stop, hsh₃]
    exact hf₂.stop.trans hf₁.stop
  · rw [hf₅.pressure, hf₄.pressure, hsh₃]
    exact hf₂.pressure.trans hf₁.pressure

/-! ## The results -/

/-- **No false alarm, no interference, exact denominators.** After every run in which the
operating system changes guest memory only by taking pages of a released cold half, no mismatch
has been counted; no action of a worker changes a byte of another worker's slot; and if all
workers have left their loops, the counters (64 bits each) hold six verified halves, five sweeps
and one reclaim for each completed cycle. -/
theorem soak_integrity (cfg : Config) {st st' : Proc} {ls : List Move} (hinit : Initial cfg st)
    (hquiet : Along (soak cfg).step QuietOS st ls)
    (hrun : run (soak cfg).step st ls = some st') :
    st'.shared.stats.mismatches = 0 ∧
      (∀ k a st'', (soak cfg).step st' (.act k a) = some st'' → ∀ j < cfg.vcpuCount, j ≠ k →
        ∀ x, cfg.InSlot j x → st''.shared.mem x = st'.shared.mem x) ∧
      ((∀ k < cfg.vcpuCount, (st'.thread k).LeftLoop) →
        st'.shared.stats.pageChecks.toNat = 6 * (cfg.half / page) *
            (∑ k ∈ Finset.range cfg.vcpuCount, (st'.thread k).cycles) % 2 ^ 64 ∧
          st'.shared.stats.sweeps.toNat =
            5 * (∑ k ∈ Finset.range cfg.vcpuCount, (st'.thread k).cycles) % 2 ^ 64 ∧
          st'.shared.stats.reclaims.toNat =
            (∑ k ∈ Finset.range cfg.vcpuCount, (st'.thread k).cycles) % 2 ^ 64) := by
  have hstats : st.shared.stats.mismatches = 0 := by rw [hinit.stats]
  have hsilent : Silent cfg st' :=
    run_invariant silent_step hquiet ⟨intact_initial hinit, hstats⟩ hrun
  refine ⟨hsilent.2, ?_, ?_⟩
  · intro k a st'' hstep j hj hjk x hx
    obtain ⟨hk, w', sh', hact, rfl⟩ := Threads.System.step_act.mp hstep
    exact step_mem_outside hk (hsilent.1 k hk).1 hact fun hx' => hjk (hx'.ne hx)
  · intro hleft
    obtain ⟨h1, h2, h3⟩ := counted_loops (counts_run hinit hrun).counted hleft
    rw [h1, h2, h3]
    exact ⟨BitVec.toNat_ofNat .., BitVec.toNat_ofNat .., BitVec.toNat_ofNat ..⟩

/-- The theorem at work on a whole run of two workers, one of which completes a cycle. -/
theorem soak_integrity_two_workers :
    ∃ ls st', run (soak twoWorkers).step (boot twoWorkers) ls = some st' ∧
      (∀ k < twoWorkers.vcpuCount, (st'.thread k).LeftLoop) ∧
      st'.shared.stats.mismatches = 0 ∧ st'.shared.stats.pageChecks.toNat = 6 * 16384 ∧
      st'.shared.stats.sweeps.toNat = 5 ∧ st'.shared.stats.reclaims.toNat = 1 := by
  obtain ⟨ls, st', hsmooth, hrun, hdone, -⟩ := twoWorkers_run
  have hleft : ∀ k < twoWorkers.vcpuCount, (st'.thread k).LeftLoop :=
    fun k hk => .inr (hdone k hk).1
  obtain ⟨hzero, -, hcounts⟩ := soak_integrity twoWorkers (boot_initial twoWorkers)
    (hsmooth.mono fun _ _ h => h.1) hrun
  obtain ⟨hchecks, hsweeps, hreclaims⟩ := hcounts hleft
  have hsum : ∑ k ∈ Finset.range twoWorkers.vcpuCount, (st'.thread k).cycles = 1 := by
    rw [Finset.sum_congr rfl fun k hk => (hdone k (Finset.mem_range.mp hk)).2.2]
    rfl
  rw [hsum] at hchecks hsweeps hreclaims
  exact ⟨ls, st', hrun, hleft, hzero, hchecks, hsweeps, hreclaims⟩

/-- **No worker panics** unless one of its calls fails. After every run in which no statement of a
worker fails, and the operating system changes guest memory only by taking pages of a released cold
half, every worker is alive; the assertions of the detector self-test, which are the other way to
die, hold over the planted corruption and over the restored page. -/
theorem soak_no_panic (cfg : Config) {st st' : Proc} {ls : List Move} (hinit : Initial cfg st)
    (hquiet : Along (soak cfg).step (fun st l => QuietOS st l ∧ ∀ k, l ≠ .act k .fail) st ls)
    (hrun : run (soak cfg).step st ls = some st') :
    ∀ k < cfg.vcpuCount, (st'.thread k).dead = false := by
  suffices h : (soak cfg).Everywhere (Intact cfg) st' ∧
      (soak cfg).Everywhere (fun _ w _ => w.dead = false) st' from h.2
  refine run_invariant (I := fun st => (soak cfg).Everywhere (Intact cfg) st ∧
    (soak cfg).Everywhere (fun _ w _ => w.dead = false) st) ?_ hquiet
      ⟨intact_initial hinit, ?_⟩ hrun
  · rintro st l st' ⟨hq, hf⟩ ⟨hI, hd⟩ hstep
    refine ⟨intact_step st l st' hq hI hstep, ?_⟩
    refine Threads.System.local_invariant (S := soak cfg)
      (P := fun s l => s = st ∧ ∀ k, l ≠ .act k .fail) ?_ ?_ ?_ st l st' ⟨rfl, hf⟩ hd hstep
    · rintro s k a w' sh' ⟨rfl, hf⟩ hk - hact
      exact step_alive hk (hI k hk) (fun ha => hf k (by rw [ha])) hact
    · intro s k j a w' sh' _ _ hj _ hd' _
      exact hd' j hj
    · intro s e sh' _ hd' _ j hj
      exact hd' j hj
  · intro k _
    obtain ⟨cpu, hw⟩ := hinit.fresh k
    simp only [hw]

/-- The whole run of two workers: both are done, and neither has panicked. -/
theorem soak_no_panic_two_workers :
    ∃ ls st', run (soak twoWorkers).step (boot twoWorkers) ls = some st' ∧
      ∀ k < twoWorkers.vcpuCount, (st'.thread k).stmt = .done ∧ (st'.thread k).dead = false := by
  obtain ⟨ls, st', hsmooth, hrun, hdone, -⟩ := twoWorkers_run
  have halive := soak_no_panic twoWorkers (boot_initial twoWorkers) hsmooth hrun
  exact ⟨ls, st', hrun, fun k hk => ⟨(hdone k hk).1, halive k hk⟩⟩

end VmRatchet.Soak
