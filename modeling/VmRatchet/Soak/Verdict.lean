import VmRatchet.Soak.Counters
import VmRatchet.Soak.Integrity

/-!
# The verdict of the soak, and when it is vacuous

`run` joins its workers and its pressure thread, throws their results away, and prints the
all-clear whenever `stats.mismatches` is zero. What the all-clear should rest on is `Justified`:
every worker reached its deadline, the detector self-test succeeded, at least one page was
checked, and pressure was applied at least once.

* `Joined` — the main thread has seen the end of every worker it has joined, and its report is
  the statistics as they stand.
* `SelfTested` — worker 0 is past its self-test only if the self-test succeeded.
* `all_clear_justified_iff` — exactly when the verdict is what it should be, for every run.
-/

namespace VmRatchet.Soak

open Arm64 ByteMemory Guest Transition

variable {cfg : Config} {k : ℕ} {a : Act} {w w' : Worker} {sh sh' : Shared}

/-! ## Joining -/

/-- A worker that has ended, by returning from its closure or by a panic, takes no further step. -/
theorem step_ended (hC : Control cfg k w sh) (h : w.ended = true) : w.step cfg k a sh = none := by
  cases hstep : w.step cfg k a sh with
  | none => rfl
  | some r =>
      obtain ⟨w', sh'⟩ := r
      obtain ⟨hd, hstep⟩ := Worker.step_inv hstep
      have hdone : w.stmt = .done := by simpa [Worker.ended, hd] using h
      have hidle : w.running = false := by
        by_contra hr
        obtain ⟨p, s, hp, -⟩ := hC.inside (by simpa using hr)
        simp [Worker.pass, hdone, Stmt.call] at hp
      cases hstep with
      | enter _ hp => simp [Worker.pass, hdone, Stmt.call] at hp
      | host _ _ h => simp [Worker.host, hdone] at h
      | guest hr => simp [hidle] at hr
      | cancel hr => simp [hidle] at hr
      | call hs => simp [hdone] at hs
      | take hs => simp [hdone, Stmt.released] at hs
      | fail hs => exact absurd hdone hs

/-- How far the main thread has come with its joins. -/
def MainAt.joined (n : ℕ) : MainAt → ℕ
  | .progress => 0
  | .join k => k
  | .storeStop | .joinPressure | .verdict | .returned => n

/-- **Joined.** The joined workers have ended, and the report is that of the statistics. -/
structure Joined (cfg : Config) (st : Proc) : Prop where
  ended : ∀ k < cfg.vcpuCount, k < st.shared.main.joined cfg.vcpuCount →
    (st.thread k).ended = true
  bound : st.shared.main.joined cfg.vcpuCount ≤ cfg.vcpuCount
  report : ∀ r, st.shared.report = some r →
    st.shared.main = .returned ∧ r = st.shared.stats.report

/-- A worker's step leaves to the main thread what is its own: where it stands, the report, and what
`apply` has returned. -/
theorem step_main (hk : k < cfg.vcpuCount) (hC : Control cfg k w sh)
    (h : w.step cfg k a sh = some (w', sh')) :
    sh'.main = sh.main ∧ sh'.report = sh.report ∧ sh'.applied = sh.applied := by
  obtain ⟨-, h⟩ := Worker.step_inv h
  cases h with
  | enter | cancel | fail | take => exact ⟨rfl, rfl, rfl⟩
  | host hr hp h => exact ⟨(host_frame h).main, (host_frame h).report, (host_frame h).applied⟩
  | @call released c rest hs hle => cases c <;> exact ⟨rfl, rfl, rfl⟩
  | guest hr =>
      obtain ⟨p, s, hp, hs⟩ := hC.inside hr
      rcases hC.guest hk hp hs with ⟨-, hg⟩ | ⟨s', m', c', -, -, hg⟩ <;> rw [hg] <;>
        exact ⟨rfl, rfl, rfl⟩

/-- The main thread joins in order: after each of its steps the workers joined so far have ended,
and a report is there only once it has returned and is that of the statistics. -/
theorem mainStep_joined {st : Proc} (hJ : Joined cfg st)
    (h : st.shared.mainStep cfg st.thread = some sh') : Joined cfg ⟨st.thread, sh'⟩ := by
  obtain ⟨hended, hbound, hreport⟩ := hJ
  unfold Shared.mainStep at h
  cases hm : st.shared.main with
  | returned => simp [hm] at h
  | progress =>
      simp only [hm, Option.some.injEq] at h
      subst h
      refine ⟨?_, ?_, fun r hr => ?_⟩
      · intro j hj hlt
        cases he : st.shared.expired <;> simp [he, MainAt.joined] at hlt
      · cases he : st.shared.expired <;> simp [MainAt.joined]
      · have := (hreport r hr).1
        simp [hm] at this
  | join k =>
      rw [hm] at hended hbound
      simp only [hm] at h
      have hnone : ∀ r, st.shared.report ≠ some r := by
        intro r hr
        have := (hreport r hr).1
        simp [hm] at this
      split_ifs at h with hk he
      · simp only [Option.some.injEq] at h
        subst h
        refine ⟨?_, hk, fun r hr => absurd hr (hnone r)⟩
        intro j hj hlt
        have hlt' : j < k + 1 := hlt
        rcases Nat.lt_succ_iff_lt_or_eq.mp hlt' with hjk | rfl
        · exact hended j hj hjk
        · exact he
      · simp only [Option.some.injEq] at h
        subst h
        refine ⟨?_, le_rfl, fun r hr => absurd hr (hnone r)⟩
        intro j hj _
        have : k ≤ cfg.vcpuCount := hbound
        exact hended j hj (show j < k by omega)
  | storeStop | joinPressure | verdict =>
      rw [hm] at hended hbound
      simp only [hm] at h
      try split_ifs at h
      all_goals
        simp only [Option.some.injEq] at h
        subst h
        refine ⟨hended, hbound, fun r hr => ?_⟩
        first
        | exact ⟨rfl, (Option.some.inj hr).symm⟩
        | have := (hreport r hr).1
          simp [hm] at this

/-- Nobody but the main thread moves the main thread or prints a report. -/
theorem env_main {e : Env} {ws : ℕ → Worker} (h : e.step cfg ws sh = some sh') (he : e ≠ .main) :
    sh'.main = sh.main ∧ sh'.report = sh.report := by
  cases e with
  | main => exact absurd rfl he
  | pressure ok =>
      simp only [Env.step, Shared.pressureStep] at h
      split at h
      case h_5 => cases h
      all_goals
        rw [Option.some.injEq] at h
        subst h
        exact ⟨rfl, rfl⟩
  | alloc | free =>
      simp only [Env.step, Option.ite_none_right_eq_some, Option.some.injEq] at h
      obtain ⟨-, rfl⟩ := h
      exact ⟨rfl, rfl⟩
  | zero | footprint | expire =>
      simp only [Env.step, Option.some.injEq] at h
      subst h
      exact ⟨rfl, rfl⟩

/-- **Every step of the process keeps the joins**: joined workers have ended, and what has been
reported is the final state of the statistics. -/
theorem joined_step (st : Proc) (l : Move) (st' : Proc)
    (hC : (soak cfg).Everywhere (Control cfg) st) (hJ : Joined cfg st)
    (hstep : (soak cfg).step st l = some st') : Joined cfg st' := by
  cases l with
  | act k a =>
      obtain ⟨hk, w', sh', hact, rfl⟩ := Threads.System.step_act.mp hstep
      obtain ⟨hmain, hrep, -⟩ := step_main hk (hC k hk) hact
      -- the worker that moves has not ended, so it has not been joined
      have hmoves : (st.thread k).ended ≠ true := by
        intro he
        rw [show (soak cfg).act k a = Worker.step cfg k a from rfl, step_ended (hC k hk) he] at hact
        cases hact
      refine ⟨?_, by rw [hmain]; exact hJ.bound, ?_⟩
      · intro j hj hlt
        rw [hmain] at hlt
        have hjk : j ≠ k := fun he => hmoves (he ▸ hJ.ended j hj hlt)
        simp only [Function.update_of_ne hjk]
        exact hJ.ended j hj hlt
      · intro r hr
        rw [hrep] at hr
        have hret := (hJ.report r hr).1
        exact absurd (hJ.ended k hk (by rw [hret]; exact hk)) hmoves
  | env e =>
      obtain ⟨sh', henv, rfl⟩ := Threads.System.step_env.mp hstep
      by_cases he : e = .main
      · subst he
        exact mainStep_joined hJ henv
      · obtain ⟨hmain, hrep⟩ := env_main henv he
        have hstats := (env_frame henv).stats
        refine ⟨by rw [hmain]; exact hJ.ended, by rw [hmain]; exact hJ.bound, ?_⟩
        rw [hmain, hrep, hstats]
        exact hJ.report

/-! ## The self-test -/

/-- The statements after the self-test of worker 0. -/
def Stmt.pastTest : Stmt → Bool
  | .vcpuCreate | .setCpsr | .firstSweep | .firstCount | .plantRead | .plantWrite | .plantVerify
  | .restore | .assertFound | .cleanVerify | .assertClean => false
  | _ => true

/-- **SelfTested.** Worker 0 is past its self-test only if the self-test succeeded. -/
def SelfTested (st : Proc) : Prop :=
  (st.thread 0).stmt.pastTest = true → st.shared.selfTest = true

/-- A host statement never withdraws the success of the self-test, and worker 0 leaves the
self-test only through its success. -/
theorem host_selfTest (h : w.host cfg k sh = some (w', sh')) :
    (sh.selfTest = true → sh'.selfTest = true) ∧
      (k = 0 → w'.stmt.pastTest = true → w.stmt.pastTest = true ∨ sh'.selfTest = true) := by
  cases hst : w.stmt
  case firstCount =>
    simp only [Worker.host, hst, Option.some.injEq, Prod.mk.injEq] at h
    obtain ⟨rfl, rfl⟩ := h
    refine ⟨id, ?_⟩
    rintro rfl
    simp [Stmt.pastTest]
  case reclaim rest =>
    cases rest <;>
      simp only [Worker.host, hst, Option.some.injEq, Prod.mk.injEq, reduceCtorEq] at h
    obtain ⟨rfl, rfl⟩ := h
    exact ⟨id, fun _ _ => .inl rfl⟩
  all_goals
    simp only [Worker.host, hst, reduceCtorEq] at h
    try split_ifs at h
    all_goals
      rw [Option.some.injEq, Prod.mk.injEq] at h
      obtain ⟨rfl, rfl⟩ := h
      simp [Stmt.pastTest]

/-- A pass does not lead out of the self-test. -/
theorem Stmt.pastTest_afterPass {st : Stmt} (h : st.afterPass.pastTest = true) :
    st.pastTest = true := by
  cases st <;> first | rfl | exact h

/-- No step of a worker withdraws the success of the self-test, and worker 0 comes past the
self-test only through its success. -/
theorem step_selfTest (hk : k < cfg.vcpuCount) (hC : Control cfg k w sh)
    (h : w.step cfg k a sh = some (w', sh')) :
    (sh.selfTest = true → sh'.selfTest = true) ∧
      (k = 0 → w'.stmt.pastTest = true → w.stmt.pastTest = true ∨ sh'.selfTest = true) := by
  obtain ⟨-, h⟩ := Worker.step_inv h
  cases h with
  | enter | cancel | fail | take => exact ⟨id, fun _ hpast => .inl hpast⟩
  | host hr hp h => exact host_selfTest h
  | @call released c rest hs hle =>
      refine ⟨fun ht => ?_, fun _ _ => .inl (by rw [hs]; rfl)⟩
      cases c <;> exact ht
  | guest hr =>
      obtain ⟨p, s, hp, hs⟩ := hC.inside hr
      rcases hC.guest hk hp hs with ⟨-, hg⟩ | ⟨s', m', c', -, -, hg⟩
      · rw [hg]
        exact ⟨id, fun _ hpast => .inl (Stmt.pastTest_afterPass hpast)⟩
      · rw [hg]
        exact ⟨id, fun _ hpast => .inl hpast⟩

/-- Every step of the process keeps `SelfTested`: worker 0 is past its self-test only if the
self-test succeeded. -/
theorem selfTested_step (st : Proc) (l : Move) (st' : Proc)
    (hC : (soak cfg).Everywhere (Control cfg) st) (hS : SelfTested st)
    (hstep : (soak cfg).step st l = some st') : SelfTested st' := by
  cases l with
  | env e =>
      obtain ⟨sh', henv, rfl⟩ := Threads.System.step_env.mp hstep
      intro hpast
      rw [(env_frame henv).selfTest]
      exact hS hpast
  | act k a =>
      obtain ⟨hk, w', sh', hact, rfl⟩ := Threads.System.step_act.mp hstep
      obtain ⟨hkeep, hleave⟩ := step_selfTest hk (hC k hk) hact
      intro hpast
      by_cases hk0 : 0 = k
      · subst hk0
        simp only [Function.update_self] at hpast
        rcases hleave rfl hpast with hp | ht
        · exact hkeep (hS hp)
        · exact ht
      · simp only [Function.update_of_ne hk0] at hpast
        exact hkeep (hS hpast)

/-! ## The verdict -/

/-- **What an all-clear in `n` checked pages should rest on**: every worker reached its deadline
without panicking, the detector self-test of worker 0 succeeded, at least one page was checked, and
pressure was applied at least once. -/
structure Justified (cfg : Config) (st : Proc) (n : BitVec 64) : Prop where
  deadline : ∀ k < cfg.vcpuCount, (st.thread k).stmt = .done ∧ (st.thread k).dead = false
  selfTest : st.shared.selfTest = true
  checked : 1 ≤ n.toNat
  pressure : true ∈ st.shared.applied

/-- Counters, joins and self-test together, the invariant under which the conclusion is drawn. -/
structure Judged (cfg : Config) (st : Proc) : Prop where
  counts : Counts cfg st
  joined : Joined cfg st
  selfTested : SelfTested st

/-- Every step of the process keeps counters, joins and self-test together. -/
theorem judged_step (st : Proc) (l : Move) (st' : Proc) (_ : True) (h : Judged cfg st)
    (hstep : (soak cfg).step st l = some st') : Judged cfg st' :=
  ⟨counts_step st l st' trivial h.counts hstep,
    joined_step st l st' h.counts.control h.joined hstep,
    selfTested_step st l st' h.counts.control h.selfTested hstep⟩

/-- At the start everything is at zero, nobody is joined and worker 0 is before its self-test. -/
theorem judged_initial {st : Proc} (h : Initial cfg st) : Judged cfg st := by
  refine ⟨counts_initial h, ⟨?_, ?_, ?_⟩, ?_⟩
  · intro k _ hlt
    simp [h.main, MainAt.joined] at hlt
  · simp [h.main, MainAt.joined]
  · simp [h.report]
  · obtain ⟨cpu, hw⟩ := h.fresh 0
    intro hpast
    simp [hw, Stmt.pastTest] at hpast

/-- In every reachable state the counters are right, the joins are in order, and worker 0 is past
its self-test only if that succeeded. -/
theorem judged_run {st st' : Proc} {ls : List Move} (h : Initial cfg st)
    (hrun : run (soak cfg).step st ls = some st') : Judged cfg st' :=
  run_invariant judged_step (Along.of_labels (fun _ _ _ => trivial) st) (judged_initial h) hrun

/-- **When the all-clear is justified.** In every run that ends with a report, whatever the
operating system, the workers and the pressure thread did, the all-clear is printed only with
justification exactly if

* the workers have added a number of mismatches that does not vanish modulo `2 ^ 64` (then no
  all-clear is printed), or
* no worker has panicked, the checks of the completed cycles do not vanish modulo `2 ^ 64`, and
  some `pressure::apply` has returned `Ok`. -/
theorem all_clear_justified_iff (cfg : Config) {st st' : Proc} {ls : List Move} {r : Report}
    (hinit : Initial cfg st) (hrun : run (soak cfg).step st ls = some st')
    (hreport : st'.shared.report = some r) :
    (∀ n, r.conclusion = .noCorruption n → Justified cfg st' n) ↔
      ((∑ k ∈ Finset.range cfg.vcpuCount, (st'.thread k).reported) % 2 ^ 64 ≠ 0 ∨
        ((∀ k < cfg.vcpuCount, (st'.thread k).dead = false) ∧
          6 * (cfg.half / page) * (∑ k ∈ Finset.range cfg.vcpuCount, (st'.thread k).cycles) %
            2 ^ 64 ≠ 0 ∧
          true ∈ st'.shared.applied)) := by
  have hJ := judged_run hinit hrun
  obtain ⟨hmain, rfl⟩ := hJ.joined.report r hreport
  have hended : ∀ k < cfg.vcpuCount, (st'.thread k).ended = true := by
    intro k hk
    exact hJ.joined.ended k hk (by rw [hmain]; exact hk)
  have hbad : st'.shared.stats.mismatches = 0 ↔
      (∑ k ∈ Finset.range cfg.vcpuCount, (st'.thread k).reported) % 2 ^ 64 = 0 := by
    rw [← BitVec.toNat_inj, hJ.counts.counted.mismatches, BitVec.toNat_ofNat]
    rfl
  -- with no panic the number of checks is that of the completed cycles
  have hchecks : (∀ k < cfg.vcpuCount, (st'.thread k).dead = false) →
      (∀ k < cfg.vcpuCount, (st'.thread k).stmt = .done) ∧
        st'.shared.stats.pageChecks.toNat = 6 * (cfg.half / page) *
          (∑ k ∈ Finset.range cfg.vcpuCount, (st'.thread k).cycles) % 2 ^ 64 := by
    intro halive
    have hdone : ∀ k < cfg.vcpuCount, (st'.thread k).stmt = .done := by
      intro k hk
      simpa [Worker.ended, halive k hk] using hended k hk
    refine ⟨hdone, ?_⟩
    rw [(counted_loops hJ.counts.counted fun k hk => .inr (hdone k hk)).1, BitVec.toNat_ofNat]
    rfl
  by_cases hzero : st'.shared.stats.mismatches = 0
  · have hconcl : st'.shared.stats.report.conclusion =
        .noCorruption st'.shared.stats.pageChecks := if_pos hzero
    rw [hconcl]
    constructor
    · intro h
      have hjust := h _ rfl
      have halive := fun k hk => (hjust.deadline k hk).2
      have hpos := hjust.checked
      rw [(hchecks halive).2] at hpos
      exact .inr ⟨halive, by omega, hjust.pressure⟩
    · rintro (hne | ⟨halive, hne, hpressure⟩)
      · exact absurd (hbad.mp hzero) hne
      · rintro n hn
        obtain rfl : st'.shared.stats.pageChecks = n := by simpa using hn
        obtain ⟨hdone, hpages⟩ := hchecks halive
        refine ⟨fun k hk => ⟨hdone k hk, halive k hk⟩, ?_, by rw [hpages]; omega, hpressure⟩
        exact hJ.selfTested (by rw [hdone 0 cfg.toOptions.vcpuCount_pos]; rfl)
  · have hconcl : st'.shared.stats.report.conclusion =
        .corruptionDetected st'.shared.stats.mismatches := if_neg hzero
    rw [hconcl]
    exact ⟨fun _ => .inl fun h => hzero (hbad.mpr h), fun _ n hn => by cases hn⟩

/-- One worker on 1 GiB. -/
def oneWorker : Config where
  sizeGb := 1
  vcpus := 1
  mode := .reusable
  advice := 7
  ram := 0x100000000
  accepted := by unfold Options.Accepted; decide
  addressable := by decide

/-- The worker panics when it creates its vCPU; the deadline passes, the main thread joins the
worker and the pressure thread, which has never applied any pressure, and reports. -/
def panicRun : List Move :=
  [.act 0 .fail, .env .expire, .env .main, .env .main, .env .main, .env .main,
    .env (.pressure true), .env .main, .env .main]

/-- Pressure is applied once, the main thread joins two workers and the pressure thread, and
reports. -/
def reportMoves : List Move :=
  List.replicate 4 (.env (.pressure true)) ++ List.replicate 5 (.env .main) ++
    [.env (.pressure true), .env .main, .env .main]

/-- They lead from the end of two workers to the report of the statistics. -/
theorem run_reportMoves {st : Proc} (hcount : cfg.vcpuCount = 2)
    (hended : ∀ k < cfg.vcpuCount, (st.thread k).ended = true)
    (hexp : st.shared.expired = true) (hmain : st.shared.main = .progress)
    (hstop : st.shared.stop = false) (hpressure : st.shared.pressure = .test) :
    ∃ st', run (soak cfg).step st reportMoves = some st' ∧ st'.thread = st.thread ∧
      st'.shared.stats = st.shared.stats ∧ st'.shared.report = some st.shared.stats.report ∧
      true ∈ st'.shared.applied := by
  obtain ⟨thread, sh⟩ := st
  have h0 : (thread 0).ended = true := hended 0 (by omega)
  have h1 : (thread 1).ended = true := hended 1 (by omega)
  simp only at hexp hmain hstop hpressure
  simp [reportMoves, List.replicate, run, Threads.System.step, soak, Env.step,
    Shared.pressureStep, Shared.mainStep, hcount, h0, h1, hexp, hmain, hstop, hpressure]

/-- The theorem at work on that run, which does not meet the condition, and on the whole run of two
workers, which does: the all-clear it prints is justified. -/
theorem all_clear_justified_runs :
    (∃ st' r, run (soak oneWorker).step (boot oneWorker) panicRun = some st' ∧
      st'.shared.report = some r ∧
      ¬ ∀ n, r.conclusion = .noCorruption n → Justified oneWorker st' n) ∧
    ∃ ls st' r n, run (soak twoWorkers).step (boot twoWorkers) ls = some st' ∧
      st'.shared.report = some r ∧ r.conclusion = .noCorruption n ∧
      Justified twoWorkers st' n := by
  constructor
  · refine ⟨_, _, rfl, rfl, ?_⟩
    have hrun : run (soak oneWorker).step (boot oneWorker) panicRun = some _ := rfl
    rw [all_clear_justified_iff oneWorker (boot_initial oneWorker) hrun rfl]
    decide
  · obtain ⟨ls, st, hsmooth, hrun, hdone, hexp, hmain, hstop, hpressure⟩ := twoWorkers_run
    have hended : ∀ k < twoWorkers.vcpuCount, (st.thread k).ended = true := by
      intro k hk
      simp [Worker.ended, (hdone k hk).1]
    obtain ⟨st', hrun', hthread, hstats, hreport, happlied⟩ :=
      run_reportMoves (show twoWorkers.vcpuCount = 2 from rfl) hended hexp hmain hstop hpressure
    have hall := run_append.mpr ⟨st, hrun, hrun'⟩
    have hsilent : Silent twoWorkers st :=
      run_invariant silent_step (hsmooth.mono fun _ _ h => h.1)
        ⟨intact_initial (boot_initial twoWorkers), rfl⟩ hrun
    have hconcl : st.shared.stats.report.conclusion = .noCorruption st.shared.stats.pageChecks :=
      if_pos hsilent.2
    refine ⟨_, st', _, _, hall, hreport, hconcl, ?_⟩
    refine (all_clear_justified_iff twoWorkers (boot_initial twoWorkers) hall hreport).mpr
      (.inr ⟨fun k hk => ?_, ?_, happlied⟩) _ hconcl
    · rw [hthread]
      exact (hdone k hk).2.1
    · rw [hthread, Finset.sum_congr rfl fun k hk => (hdone k (Finset.mem_range.mp hk)).2.2]
      decide

/-- **A vacuous all-clear**: "no corruption in 0 checked pages" although the only worker has
panicked and no pressure was ever applied. -/
theorem vacuous_all_clear :
    ∃ st' r, run (soak oneWorker).step (boot oneWorker) panicRun = some st' ∧
      st'.shared.report = some r ∧ r.conclusion = .noCorruption 0 ∧
      (st'.thread 0).dead = true ∧ st'.shared.selfTest = false ∧ st'.shared.applied = [] :=
  ⟨_, _, rfl, rfl, rfl, rfl, rfl, rfl⟩

end VmRatchet.Soak
