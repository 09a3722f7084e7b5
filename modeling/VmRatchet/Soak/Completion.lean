import VmRatchet.Soak.Verdict

/-!
# The soak ends, and nothing of it is left running

`run` joins its workers, stores `stop` and joins the pressure thread before it returns, and its
caller then unmaps guest RAM and destroys the VM. Two things can go wrong with such an end: a join
that never returns, and a thread that is still at work afterwards. Neither happens, in any
interleaving, whatever the operating system does, whatever guest memory holds, and with workers
that panic anywhere.

* `Stmt.rank` — the steps a worker may still take once the deadline has passed.
* `Within` — the same for a worker inside a pass, where `Loc.remaining` counts the instructions.
* `soak_completes` — after the deadline at most so many steps are taken, and as long as `run` has
  not returned one of them can be taken.
* `returned_quiet` — after the return no thread of the soak ever moves again.
-/

namespace VmRatchet.Soak

open Arm64 ByteMemory Guest Transition

/-! ## What the main thread waits for -/

/-- The main thread has stored `stop`: it is past the joins of the workers. -/
@[simp] def MainAt.stopped : MainAt → Bool
  | .joinPressure | .verdict | .returned => true
  | _ => false

/-- The main thread has joined the pressure thread. -/
@[simp] def MainAt.joinedPressure : MainAt → Bool
  | .verdict | .returned => true
  | _ => false

/-- **Stopping.** The flag, the end of the pressure thread and the report come in this order. -/
structure Stopping (sh : Shared) : Prop where
  stop : sh.main.stopped = true → sh.stop = true
  ended : sh.main.joinedPressure = true → sh.pressure = .ended
  report : sh.main = .returned → sh.report.isSome = true

section stopping

variable {cfg : Config} {k : ℕ} {a : Act} {w w' : Worker} {sh sh' : Shared}

/-- A worker leaves the flag and the pressure thread alone. -/
theorem step_stop (hk : k < cfg.vcpuCount) (hC : Control cfg k w sh)
    (h : w.step cfg k a sh = some (w', sh')) :
    sh'.stop = sh.stop ∧ sh'.pressure = sh.pressure ∧ sh'.expired = sh.expired := by
  obtain ⟨-, h⟩ := Worker.step_inv h
  cases h with
  | enter | cancel | fail | take => exact ⟨rfl, rfl, rfl⟩
  | @call released c rest hs hle => cases c <;> exact ⟨rfl, rfl, rfl⟩
  | guest hr =>
      obtain ⟨p, s, hp, hs⟩ := hC.inside hr
      rcases hC.guest hk hp hs with ⟨-, hg⟩ | ⟨s', m', c', -, -, hg⟩ <;> rw [hg] <;>
        exact ⟨rfl, rfl, rfl⟩
  | host hr hp h =>
      have hf := host_frame h
      exact ⟨hf.stop, hf.pressure, hf.expired⟩

/-- A step of the main thread keeps the order of the end, wherever it stands. -/
theorem mainStep_stopping {ws : ℕ → Worker} (hS : Stopping sh)
    (h : sh.mainStep cfg ws = some sh') : Stopping sh' := by
  obtain ⟨hstop, hended, hreport⟩ := hS
  unfold Shared.mainStep at h
  cases hm : sh.main with
  | progress =>
      simp only [hm, Option.some.injEq] at h
      subst h
      cases sh.expired <;> exact ⟨by simp, by simp, by simp⟩
  | join j =>
      simp only [hm] at h
      split_ifs at h <;>
      · simp only [Option.some.injEq] at h
        subst h
        exact ⟨by simp, by simp, by simp⟩
  | storeStop =>
      simp only [hm, Option.some.injEq] at h
      subst h
      exact ⟨fun _ => rfl, by simp, by simp⟩
  | joinPressure =>
      rw [hm] at hstop
      simp only [hm, Option.ite_none_right_eq_some, Option.some.injEq] at h
      obtain ⟨hp, rfl⟩ := h
      exact ⟨fun _ => hstop rfl, fun _ => hp, by simp⟩
  | verdict =>
      rw [hm] at hstop hended
      simp only [hm, Option.some.injEq] at h
      subst h
      exact ⟨fun _ => hstop rfl, fun _ => hended rfl, fun _ => rfl⟩
  | returned => simp [hm] at h

/-- The other events, also the steps of the main thread and of the pressure thread, keep the order
of the end: the report comes after the last join, and the pressure thread is joined once it has
ended. -/
theorem env_stopping {e : Env} {ws : ℕ → Worker} (hS : Stopping sh)
    (h : e.step cfg ws sh = some sh') : Stopping sh' := by
  cases e with
  | main => exact mainStep_stopping hS h
  | pressure ok =>
      simp only [Env.step, Shared.pressureStep] at h
      cases hp : sh.pressure with
      | ended => simp [hp] at h
      | test | apply | on | off =>
          simp only [hp, Option.some.injEq] at h
          subst h
          refine ⟨hS.stop, fun hj => ?_, hS.report⟩
          have := hS.ended hj
          simp [hp] at this
  | alloc | free =>
      simp only [Env.step, Option.ite_none_right_eq_some, Option.some.injEq] at h
      obtain ⟨-, rfl⟩ := h
      exact ⟨hS.stop, hS.ended, hS.report⟩
  | zero | footprint | expire =>
      simp only [Env.step, Option.some.injEq] at h
      subst h
      exact ⟨hS.stop, hS.ended, hS.report⟩

end stopping

/-- Joins, statistics and the order of the end together. -/
structure Ending (cfg : Config) (st : Proc) : Prop where
  judged : Judged cfg st
  stopping : Stopping st.shared

/-- **Every step of the process** keeps what holds of its end: the joins and the statistics, and the
order in which the flag is stored, the pressure thread ends and the report is printed. -/
theorem ending_step {cfg : Config} (st : Proc) (l : Move) (st' : Proc) (_ : True)
    (h : Ending cfg st) (hstep : (soak cfg).step st l = some st') : Ending cfg st' := by
  refine ⟨judged_step st l st' trivial h.judged hstep, ?_⟩
  cases l with
  | act k a =>
      obtain ⟨hk, w', sh', hact, rfl⟩ := Threads.System.step_act.mp hstep
      have hC := h.judged.counts.control k hk
      obtain ⟨hstop, hpressure, -⟩ := step_stop hk hC hact
      obtain ⟨hmain, hreport, -⟩ := step_main hk hC hact
      obtain ⟨h1, h2, h3⟩ := h.stopping
      refine ⟨?_, ?_, ?_⟩
      · rw [hmain, hstop]
        exact h1
      · rw [hmain, hpressure]
        exact h2
      · rw [hmain, hreport]
        exact h3
  | env e =>
      obtain ⟨sh', henv, rfl⟩ := Threads.System.step_env.mp hstep
      exact env_stopping h.stopping henv

/-- What holds of the end holds at the start, where the main thread has joined nobody and has
printed nothing. -/
theorem ending_initial {cfg : Config} {st : Proc} (h : Initial cfg st) : Ending cfg st := by
  refine ⟨judged_initial h, ?_, ?_, ?_⟩ <;> simp [h.main]

/-- What holds of the end holds in every reachable state, in every interleaving and whichever calls
fail. -/
theorem ending_run {cfg : Config} {st st' : Proc} {ls : List Move} (h : Initial cfg st)
    (hrun : run (soak cfg).step st ls = some st') : Ending cfg st' :=
  run_invariant ending_step (Along.of_labels (fun _ _ _ => trivial) st) (ending_initial h) hrun

/-! ## How far a worker is from its end -/

/-- The steps of a guest pass over `n` pages: arming it, its instructions, the doorbell. -/
def passSteps (n : ℕ) : ℕ := 8 * n + 12

/-- The steps of one round of the hot loop. -/
def roundSteps (n : ℕ) : ℕ := 2 * passSteps n + 4

/-- The steps of the cold half of a cycle, to the end of the worker. -/
def coldSteps (n : ℕ) : ℕ := 4 * passSteps n + 18

/-- The steps a worker that stands before this statement may still take once the deadline has
passed, with `n` pages in each half. -/
def Stmt.rank (n : ℕ) : Stmt → ℕ
  | .vcpuCreate => 3 * passSteps n + 10
  | .setCpsr => 3 * passSteps n + 9
  | .firstSweep => 3 * passSteps n + 8
  | .firstCount => 2 * passSteps n + 8
  | .plantRead => 2 * passSteps n + 7
  | .plantWrite => 2 * passSteps n + 6
  | .plantVerify => 2 * passSteps n + 5
  | .restore => passSteps n + 5
  | .assertFound => passSteps n + 4
  | .cleanVerify => passSteps n + 3
  | .assertClean => 3
  | .deadline => 2
  | .hotSweep i => (3 - i) * roundSteps n + coldSteps n + roundSteps n
  | .hotCount i => (3 - i) * roundSteps n + coldSteps n + passSteps n + 4
  | .hotSwept i => (3 - i) * roundSteps n + coldSteps n + passSteps n + 3
  | .hotVerify i => (3 - i) * roundSteps n + coldSteps n + passSteps n + 2
  | .hotChecked i => (3 - i) * roundSteps n + coldSteps n + 2
  | .hotBad i => (3 - i) * roundSteps n + coldSteps n + 1
  | .nextCycle => coldSteps n
  | .coldSweep => 4 * passSteps n + 17
  | .coldSwept => 3 * passSteps n + 17
  | .ledgerBefore => 3 * passSteps n + 16
  | .reclaim rest => 3 * passSteps n + 11 + rest.length
  | .ledgerAfter => 3 * passSteps n + 10
  | .reclaimCount => 3 * passSteps n + 9
  | .push => 3 * passSteps n + 8
  | .coldFill => 3 * passSteps n + 7
  | .coldVerify false => 2 * passSteps n + 7
  | .coldChecked false => passSteps n + 7
  | .coldBad false => passSteps n + 6
  | .sleep => passSteps n + 5
  | .coldVerify true => passSteps n + 4
  | .coldChecked true => 4
  | .coldBad true => 3
  | .vcpuDestroy => 1
  | .done => 0

/-- A statement that calls a pass is a pass away from the statement after it. -/
theorem Stmt.rank_call {n : ℕ} {st : Stmt} {c : Side × Program} (h : st.call = some c) :
    st.rank n = st.afterPass.rank n + passSteps n := by
  cases st with
  | coldVerify again =>
      cases again <;> simp only [Stmt.afterPass, Stmt.rank] <;> omega
  | firstSweep | plantVerify | cleanVerify | hotSweep | hotVerify | coldSweep | coldFill =>
      simp only [Stmt.afterPass, Stmt.rank, roundSteps]
      omega
  | _ => cases h

/-- **Within.** Worker `k` ends after at most `n` more of its own steps, if the deadline has
passed. -/
def Within (cfg : Config) (k : ℕ) (w : Worker) (n : ℕ) : Prop :=
  w.dead = false → if w.running then
      ∃ p s, w.pass cfg k = some p ∧ Sim p s w.cpu ∧
        w.stmt.afterPass.rank cfg.pagesPerHalf + s.loc.remaining cfg.pagesPerHalf + 1 ≤ n
    else w.stmt.rank cfg.pagesPerHalf ≤ n

section rank

variable {cfg : Config} {k n : ℕ} {a : Act} {w w' : Worker} {sh sh' : Shared}

/-- A host statement of a worker, once the deadline has passed, brings its end nearer: it ends the
worker, or leads to a statement of smaller rank. The rank goes down along the loop, as the head of
the loop is left after the deadline and not taken again. -/
theorem host_rank (hexp : sh.expired = true) (h : w.host cfg k sh = some (w', sh')) :
    w'.dead = true ∨
      w'.stmt.rank cfg.pagesPerHalf + 1 ≤ w.stmt.rank cfg.pagesPerHalf := by
  cases hst : w.stmt
  case reclaim rest =>
    cases rest <;> simp only [Worker.host, hst, Option.some.injEq, Prod.mk.injEq, reduceCtorEq] at h
    obtain ⟨rfl, rfl⟩ := h
    exact .inr (by simp [Stmt.rank])
  case ledgerBefore =>
    simp only [Worker.host, hst, Option.some.injEq, Prod.mk.injEq] at h
    obtain ⟨rfl, rfl⟩ := h
    refine .inr ?_
    cases cfg.mode <;> simp [Stmt.rank, reclaimCalls]
  case coldBad again | coldChecked again =>
    cases again <;> simp only [Worker.host, hst, Option.some.injEq, Prod.mk.injEq] at h <;>
    · obtain ⟨rfl, rfl⟩ := h
      exact .inr (by simp [Stmt.rank])
  case hotBad i =>
    simp only [Worker.host, hst, Option.some.injEq, Prod.mk.injEq] at h
    obtain ⟨rfl, rfl⟩ := h
    refine .inr ?_
    by_cases hi : i + 1 < hotSweepsPerCycle
    · -- the next round
      have hrounds : 3 - i = 3 - (i + 1) + 1 := by
        have : hotSweepsPerCycle = 4 := rfl
        omega
      simp only [if_pos hi, Stmt.rank]
      rw [hrounds, Nat.add_mul]
      omega
    · simp only [if_neg hi, Stmt.rank]
      omega
  all_goals
    simp only [Worker.host, hst, reduceCtorEq] at h
    try split_ifs at h
    all_goals
      rw [Option.some.injEq, Prod.mk.injEq] at h
      obtain ⟨rfl, rfl⟩ := h
      first
      | exact .inl rfl
      | refine .inr ?_
        try split_ifs
        all_goals
          simp only [Stmt.rank, roundSteps, coldSteps, passSteps]
          omega

/-- A pass that has just been armed has at most this many instructions before it. -/
theorem remaining_start (p : Pass) (c : Cpu) : (p.start c).loc.remaining n ≤ 8 * n + 10 := by
  unfold Pass.start
  split_ifs
  · exact le_rfl
  · simp only [Loc.remaining]
    omega

/-- The steps that bring a worker nearer to its end: all but a `Canceled` exit and the operating
system taking a page. -/
def Act.counts : Act → ℕ
  | .cancel | .take _ _ => 0
  | _ => 1

/-- A statement before the last one has a rank of at least one. -/
theorem Stmt.rank_pos {st : Stmt} (h : st ≠ .done) : 1 ≤ st.rank n := by
  cases st with
  | done => exact absurd rfl h
  | coldVerify again | coldChecked again | coldBad again =>
      cases again <;> simp only [Stmt.rank] <;> omega
  | _ =>
      simp only [Stmt.rank, roundSteps, coldSteps]
      omega

/-- A living worker that is within `n` steps of its end, and has not come to it, has at least one
step left. -/
theorem Within.pos (h : Within cfg k w n) (hd : w.dead = false) (hs : w.stmt ≠ .done) :
    1 ≤ n := by
  have hle := h hd
  split_ifs at hle
  · obtain ⟨p, s, -, -, hle⟩ := hle
    omega
  · exact (Stmt.rank_pos hs).trans hle

/-- A worker that has ended is within every budget, because it takes no further step. -/
theorem Within.of_dead (h : w.dead = true) : Within cfg k w n := by
  intro hd
  rw [h] at hd
  cases hd

/-- A worker between two guest passes is within the rank of its statement. -/
theorem Within.idle (hr : w.running = false) (h : w.stmt.rank cfg.pagesPerHalf ≤ n) :
    Within cfg k w n := by
  intro _
  rw [hr, if_neg Bool.false_ne_true]
  exact h

/-- A worker inside a guest pass is within the rank of the statement after the pass and the
instructions that the pass has left, plus the return. -/
theorem Within.inside {p : Pass} {s : PState} (hr : w.running = true)
    (hp : w.pass cfg k = some p) (hs : Sim p s w.cpu)
    (h : w.stmt.afterPass.rank cfg.pagesPerHalf + s.loc.remaining cfg.pagesPerHalf + 1 ≤ n) :
    Within cfg k w n := by
  intro _
  rw [hr, if_pos rfl]
  exact ⟨p, s, hp, hs, h⟩

/-- **One step of a worker** after the deadline pays for itself: if it is counted, the worker is one
step nearer to its end. A host statement lowers the rank; the arming of a pass opens as many
instructions as the rank has in store for it, and each of them brings the doorbell nearer. -/
theorem within_step (hk : k < cfg.vcpuCount) (hC : Control cfg k w sh)
    (hexp : sh.expired = true) (h : w.step cfg k a sh = some (w', sh'))
    (hW : Within cfg k w n) : ∃ m, Within cfg k w' m ∧ a.counts + m ≤ n := by
  obtain ⟨hd, h⟩ := Worker.step_inv h
  have hle := hW hd
  cases h with
  | cancel | take => exact ⟨n, hW, (Nat.zero_add n).le⟩
  | fail hs => exact ⟨0, Within.of_dead rfl, hW.pos hd hs⟩
  | @enter p hr hp =>
      rw [hr, if_neg Bool.false_ne_true] at hle
      obtain ⟨side, hcall, -, -⟩ := pass_range hp
      have hpages : 0 < p.pages := p.pages_pos (hC.fits hk hp).lt
      have hrank := Stmt.rank_call (n := cfg.pagesPerHalf) hcall
      have hstart := remaining_start (n := cfg.pagesPerHalf) p w.cpu
      unfold passSteps at hrank
      refine ⟨n - 1, Within.inside rfl hp (sim_arm p w.cpu hpages) ?_, ?_⟩
      · simp only [Worker.enter]
        omega
      · simp only [Act.counts]
        omega
  | host hr hp h =>
      rw [hr, if_neg Bool.false_ne_true] at hle
      have hdone : w.stmt ≠ .done := by
        intro hst
        simp [Worker.host, hst] at h
      rcases host_rank hexp h with hdead | hlt
      · exact ⟨0, Within.of_dead hdead, hW.pos hd hdone⟩
      · refine ⟨n - 1, Within.idle ((host_frame h).running.trans hr) (by omega), ?_⟩
        simp only [Act.counts]
        omega
  | call hs hle' =>
      have hr : w.running = false := by
        by_contra hr
        obtain ⟨p, s, hp, -⟩ := hC.inside (by simpa using hr)
        simp [Worker.pass, hs, Stmt.call] at hp
      rw [hr, if_neg Bool.false_ne_true, hs] at hle
      simp only [Stmt.rank, List.length_cons] at hle
      refine ⟨n - 1, Within.idle hr ?_, ?_⟩
      · simp only [Stmt.rank]
        omega
      · simp only [Act.counts]
        omega
  | guest hr =>
      rw [hr, if_pos rfl] at hle
      obtain ⟨p, s, hp, hs, hle⟩ := hle
      rcases hC.guest hk hp hs with ⟨-, hg⟩ | ⟨s', m', c', hps, hs', hg⟩
      · rw [hg]
        refine ⟨_, Within.idle rfl le_rfl, ?_⟩
        simp only [Act.counts, Worker.ring]
        omega
      · rw [hg]
        have hlt := remaining_lt hs.valid hps
        rw [pass_pages hp] at hlt
        refine ⟨n - 1, Within.inside hr hp hs' ?_, ?_⟩
        · simp only
          omega
        · simp only [Act.counts]
          omega

/-- The largest number of steps a worker can have left after the deadline. -/
def workerSteps (n : ℕ) : ℕ := 96 * n + 178

/-- **Every worker under control is within `workerSteps` steps of its end**, wherever it is. -/
theorem within_workerSteps (hC : Control cfg k w sh) :
    Within cfg k w (workerSteps cfg.pagesPerHalf) := by
  have hrank : w.stmt.rank cfg.pagesPerHalf ≤ workerSteps cfg.pagesPerHalf := by
    cases hst : w.stmt with
    | coldVerify again | coldChecked again | coldBad again =>
        cases again <;> simp only [Stmt.rank, workerSteps, passSteps] <;> omega
    | reclaim rest =>
        have hlen := (hC.calls rest hst).length_le
        have hfour : (reclaimCalls cfg.ram (cfg.cold k) cfg.mode cfg.advice).length ≤ 4 := by
          cases cfg.mode <;> simp [reclaimCalls]
        simp only [Stmt.rank, workerSteps, passSteps]
        omega
    | hotSweep i | hotCount i | hotSwept i | hotVerify i | hotChecked i | hotBad i =>
        have hrounds : (3 - i) * roundSteps cfg.pagesPerHalf ≤ 3 * roundSteps cfg.pagesPerHalf :=
          Nat.mul_le_mul_right _ (by omega)
        simp only [Stmt.rank]
        unfold workerSteps coldSteps roundSteps passSteps at *
        omega
    | _ =>
        simp only [Stmt.rank, workerSteps, coldSteps, passSteps]
        omega
  by_cases hr : w.running = true
  · obtain ⟨p, s, hp, hs⟩ := hC.inside hr
    obtain ⟨side, hcall, -, -⟩ := pass_range hp
    refine Within.inside hr hp hs ?_
    have hafter := Stmt.rank_call (n := cfg.pagesPerHalf) hcall
    have hloc : s.loc.remaining cfg.pagesPerHalf ≤ 8 * cfg.pagesPerHalf + 11 := by
      cases s.loc <;> simp only [Loc.remaining] <;> omega
    unfold passSteps at hafter
    omega
  · exact Within.idle (by simpa using hr) hrank

/-- Outside a pass and between the calls of a reclaim, every statement but the last is a host
statement. -/
theorem host_isSome (hdone : w.stmt ≠ .done) (hcall : w.stmt.call = none)
    (hrest : ∀ c rest, w.stmt ≠ .reclaim (c :: rest)) : (w.host cfg k sh).isSome = true := by
  cases hst : w.stmt
  case done => exact absurd hst hdone
  case reclaim rest =>
    cases rest with
    | nil => simp [Worker.host, hst]
    | cons c rest => exact absurd hst (hrest c rest)
  case assertFound | assertClean =>
    simp only [Worker.host, hst]
    split_ifs <;> rfl
  all_goals
    first
    | simp [hst, Stmt.call] at hcall; done
    | simp [Worker.host, hst]

/-- **A worker that has not ended can move**, and not only by failing. -/
theorem worker_can_move (h : w.ended = false) :
    ∃ a : Act, (w.step cfg k a sh).isSome = true ∧ a.counts = 1 ∧ a ≠ .fail := by
  obtain ⟨hd, hdone⟩ : w.dead = false ∧ w.stmt ≠ .done := by
    simpa [Worker.ended] using h
  by_cases hr : w.running = true
  · exact ⟨.guest, by simp [Worker.step, hd, hr], rfl, by simp⟩
  · cases hp : w.pass cfg k with
    | some p => exact ⟨.host, by simp [Worker.step, hd, hr, hp], rfl, by simp⟩
    | none =>
        by_cases hcall : ∃ c rest, w.stmt = .reclaim (c :: rest)
        · obtain ⟨c, rest, hs⟩ := hcall
          exact ⟨.call 0, by simp [Worker.step, hd, hs], rfl, by simp⟩
        · have hhost : (w.host cfg k sh).isSome = true :=
            host_isSome hdone (pass_eq_none.mp hp) fun c rest hs => hcall ⟨c, rest, hs⟩
          exact ⟨.host, by simpa [Worker.step, hd, hr, hp] using hhost, rfl, by simp⟩

end rank

/-! ## The whole process -/

/-- The steps that bring the process nearer to its end after the deadline: those of the workers,
of the main thread, and of the pressure thread once it is told to stop. -/
def counted (st : Proc) : Move → ℕ
  | .act _ a => a.counts
  | .env .main => 1
  | .env (.pressure _) => if st.shared.stop then 1 else 0
  | .env _ => 0

/-- The steps the main thread has left, with `n` workers to join. -/
def MainAt.rank (n : ℕ) : MainAt → ℕ
  | .progress => n + 5
  | .join k => n - k + 4
  | .storeStop => 3
  | .joinPressure => 2
  | .verdict => 1
  | .returned => 0

/-- The steps the pressure thread has left once it is told to stop. -/
def PressureAt.rank : PressureAt → ℕ
  | .apply => 4
  | .on => 3
  | .off => 2
  | .test => 1
  | .ended => 0

/-- What the main thread and the pressure thread have left. -/
def Shared.rest (n : ℕ) (sh : Shared) : ℕ :=
  sh.main.rank n + if sh.stop then sh.pressure.rank else 4

/-- **Budgeted.** The deadline has passed, and the process is at most `n` steps from its end. -/
structure Budgeted (cfg : Config) (st : Proc) (n : ℕ) : Prop where
  ending : Ending cfg st
  expired : st.shared.expired = true
  budget : ∃ f : ℕ → ℕ, (∀ k < cfg.vcpuCount, Within cfg k (st.thread k) (f k)) ∧
    ∑ k ∈ Finset.range cfg.vcpuCount, f k + st.shared.rest cfg.vcpuCount ≤ n

section process

variable {cfg : Config} {st st' : Proc} {n : ℕ}

/-- If one summand is replaced by one that is smaller by `c`, the sum has room for `c`. This pays
for the step of one worker out of the budgets of all. -/
theorem sum_update_le {f : ℕ → ℕ} {k c m b : ℕ} (hk : k < b) (h : c + m ≤ f k) :
    c + ∑ j ∈ Finset.range b, Function.update f k m j ≤ ∑ j ∈ Finset.range b, f j := by
  have hmem : k ∈ Finset.range b := Finset.mem_range.mpr hk
  rw [Finset.sum_update_of_mem hmem, ← Finset.add_sum_erase _ _ hmem,
    Finset.sdiff_singleton_eq_erase]
  omega

/-- The pressure thread, told to stop, takes at most four more steps to its end. -/
theorem PressureAt.rank_le (p : PressureAt) : p.rank ≤ 4 := by
  cases p <;> simp [PressureAt.rank]

/-- A step of the environment, of the main thread or of the pressure thread pays for itself after
the deadline: if it is counted, the rest of the budget gets smaller by one, and the deadline stays
passed. -/
theorem env_rank {e : Env} {sh' : Shared} (hexp : st.shared.expired = true)
    (h : e.step cfg st.thread st.shared = some sh') : sh'.expired = true ∧
      counted st (.env e) + sh'.rest cfg.vcpuCount ≤ st.shared.rest cfg.vcpuCount := by
  cases e with
  | main =>
      simp only [Env.step, Shared.mainStep] at h
      cases hm : st.shared.main with
      | progress =>
          simp only [hm, Option.some.injEq] at h
          subst h
          refine ⟨hexp, ?_⟩
          simp only [counted, Shared.rest, hm, hexp, if_true, MainAt.rank]
          omega
      | join j =>
          simp only [hm] at h
          split_ifs at h with hj he <;> simp only [Option.some.injEq] at h <;> subst h
          · refine ⟨hexp, ?_⟩
            simp only [counted, Shared.rest, hm, MainAt.rank]
            omega
          · refine ⟨hexp, ?_⟩
            simp only [counted, Shared.rest, hm, MainAt.rank]
            omega
      | storeStop =>
          have hrank := st.shared.pressure.rank_le
          simp only [hm, Option.some.injEq] at h
          subst h
          refine ⟨hexp, ?_⟩
          simp only [counted, Shared.rest, hm, MainAt.rank, if_true]
          split_ifs <;> omega
      | joinPressure =>
          simp only [hm, Option.ite_none_right_eq_some, Option.some.injEq] at h
          obtain ⟨-, rfl⟩ := h
          refine ⟨hexp, ?_⟩
          simp only [counted, Shared.rest, hm, MainAt.rank]
          omega
      | verdict =>
          simp only [hm, Option.some.injEq] at h
          subst h
          refine ⟨hexp, ?_⟩
          simp only [counted, Shared.rest, hm, MainAt.rank]
          omega
      | returned => simp [hm] at h
  | pressure ok =>
      simp only [Env.step, Shared.pressureStep] at h
      cases hp : st.shared.pressure with
      | ended => simp [hp] at h
      | test | apply | on | off =>
          simp only [hp, Option.some.injEq] at h
          subst h
          refine ⟨hexp, ?_⟩
          cases hs : st.shared.stop
          · simp [counted, Shared.rest, hs]
          · simp only [counted, Shared.rest, hs, hp, if_true, PressureAt.rank]
            omega
  | alloc | free =>
      simp only [Env.step, Option.ite_none_right_eq_some, Option.some.injEq] at h
      obtain ⟨-, rfl⟩ := h
      exact ⟨hexp, (Nat.zero_add _).le⟩
  | zero | footprint =>
      simp only [Env.step, Option.some.injEq] at h
      subst h
      exact ⟨hexp, (Nat.zero_add _).le⟩
  | expire =>
      simp only [Env.step, Option.some.injEq] at h
      subst h
      exact ⟨rfl, (Nat.zero_add _).le⟩

/-- **Every step pays for itself out of the budget**, whoever takes it: if it is counted, the budget
that is left is smaller by one. A worker pays out of its own share and leaves the others' alone; the
main and the pressure thread pay out of the rest. -/
theorem budgeted_step (st : Proc) (l : Move) (st' : Proc) (n : ℕ) (h : Budgeted cfg st n)
    (hstep : (soak cfg).step st l = some st') :
    ∃ m, Budgeted cfg st' m ∧ counted st l + m ≤ n := by
  have hending := ending_step st l st' trivial h.ending hstep
  obtain ⟨f, hf, hle⟩ := h.budget
  cases l with
  | act k a =>
      obtain ⟨hk, w', sh', hact, rfl⟩ := Threads.System.step_act.mp hstep
      have hk : k < cfg.vcpuCount := hk
      have hC := h.ending.judged.counts.control k hk
      obtain ⟨hstop, hpressure, hexp⟩ := step_stop hk hC hact
      obtain ⟨hmain, -, -⟩ := step_main hk hC hact
      obtain ⟨m, hm, hpay⟩ := within_step hk hC h.expired hact (hf k hk)
      have hsum := sum_update_le hk hpay
      refine ⟨n - a.counts, ⟨hending, hexp.trans h.expired, Function.update f k m, ?_, ?_⟩, ?_⟩
      · intro j hj
        by_cases hjk : j = k
        · subst hjk
          simpa using hm
        · simpa [Function.update_of_ne hjk] using hf j hj
      · simp only [Shared.rest, hmain, hstop, hpressure] at hle ⊢
        omega
      · simp only [counted]
        omega
  | env e =>
      obtain ⟨sh', henv, rfl⟩ := Threads.System.step_env.mp hstep
      obtain ⟨hexp, hpay⟩ := env_rank h.expired henv
      refine ⟨n - counted st (.env e), ⟨hending, hexp, f, hf, ?_⟩, ?_⟩
      · simp only
        omega
      · omega

/-- **The process never waits for nothing.** As long as `run` has not returned, some thread can
move, and not only by failing: the main thread itself, or, while it stands at a join, the worker it
waits for, or the pressure thread, which has been told to stop by then. -/
theorem ending_can_move (h : Ending cfg st)
    (hmain : st.shared.main ≠ .returned) :
    ∃ l, ((soak cfg).step st l).isSome = true ∧ counted st l = 1 ∧ ∀ k, l ≠ .act k .fail := by
  have hstep : (st.shared.mainStep cfg st.thread).isSome = true →
      ∃ l, ((soak cfg).step st l).isSome = true ∧ counted st l = 1 ∧ ∀ k, l ≠ .act k .fail := by
    intro hm
    refine ⟨.env .main, ?_, rfl, by simp⟩
    simpa [Threads.System.step, soak, Env.step] using hm
  cases hm : st.shared.main with
  | returned => exact absurd hm hmain
  | progress | storeStop | verdict => exact hstep (by simp [Shared.mainStep, hm])
  | join k =>
      by_cases hk : k < cfg.vcpuCount
      · cases he : (st.thread k).ended with
        | true => exact hstep (by simp [Shared.mainStep, hm, hk, he])
        | false =>
            obtain ⟨a, hact, hcounts, hfail⟩ : ∃ a : Act,
                ((st.thread k).step cfg k a st.shared).isSome = true ∧ a.counts = 1 ∧ a ≠ .fail :=
              worker_can_move he
            refine ⟨.act k a, ?_, hcounts, fun j hj => hfail ?_⟩
            · simpa [Threads.System.step, soak, hk] using hact
            · cases hj
              rfl
      · exact hstep (by simp [Shared.mainStep, hm, hk])
  | joinPressure =>
      by_cases hp : st.shared.pressure = .ended
      · exact hstep (by simp [Shared.mainStep, hm, hp])
      · -- the pressure thread has been told to stop
        have hstop : st.shared.stop = true := h.stopping.stop (by rw [hm]; rfl)
        refine ⟨.env (.pressure true), ?_, if_pos hstop, by simp⟩
        have hsome : (st.shared.pressureStep true).isSome = true := by
          unfold Shared.pressureStep
          cases hat : st.shared.pressure with
          | ended => exact absurd hat hp
          | test | apply | on | off => rfl
        simpa [Threads.System.step, soak, Env.step] using hsome

/-- From every state with a budget the process can return, with no call failing. -/
theorem budgeted_returns (h : Budgeted cfg st n) :
    ∃ st', Reaches (soak cfg).step (fun _ l => ∀ k, l ≠ .act k .fail) st st' ∧
      st'.shared.main = .returned := by
  induction n using Nat.strong_induction_on generalizing st with
  | h n ih =>
      by_cases hmain : st.shared.main = .returned
      · exact ⟨st, Reaches.refl st, hmain⟩
      · obtain ⟨l, hsome, hone, hfail⟩ := ending_can_move h.ending hmain
        obtain ⟨u, hu⟩ := Option.isSome_iff_exists.mp hsome
        obtain ⟨m, hm, hpay⟩ := budgeted_step st l u n h hu
        obtain ⟨st', hreach, hret⟩ := ih m (by omega) hm
        exact ⟨st', (Reaches.single hfail hu).trans hreach, hret⟩

/-- **Every reachable state has a budget** once the deadline has passed: that of each worker, one
for its join, and nine for the main thread and the pressure thread. -/
theorem budgeted_of_ending (h : Ending cfg st) (hexp : st.shared.expired = true) :
    Budgeted cfg st (cfg.vcpuCount * (workerSteps cfg.pagesPerHalf + 1) + 9) where
  ending := h
  expired := hexp
  budget := by
    refine ⟨fun _ => workerSteps cfg.pagesPerHalf, fun k hk =>
      within_workerSteps (h.judged.counts.control k hk), ?_⟩
    have hmain : st.shared.main.rank cfg.vcpuCount ≤ cfg.vcpuCount + 5 := by
      cases st.shared.main <;> simp only [MainAt.rank] <;> omega
    have hpressure : (if st.shared.stop then st.shared.pressure.rank else 4) ≤ 4 := by
      split_ifs
      · exact st.shared.pressure.rank_le
      · exact le_rfl
    rw [Finset.sum_const_nat fun _ _ => rfl, Finset.card_range, Nat.mul_add, Shared.rest]
    omega

/-- **The soak completes.** Once the deadline has passed, in every interleaving and whatever the
operating system does, whatever memory holds and whichever calls fail: the workers, the main thread
and the pressure thread take at most so many further steps, those of the pressure thread counted
from the moment `stop` is stored; as long as `run` has not returned one of them can move; and `run`
can return with no call failing. -/
theorem soak_completes (cfg : Config) {st₀ st st' : Proc} {ls ls' : List Move}
    (hinit : Initial cfg st₀) (hrun : run (soak cfg).step st₀ ls = some st)
    (hexp : st.shared.expired = true) (hrun' : run (soak cfg).step st ls' = some st') :
    weight (soak cfg).step counted st ls' ≤
        cfg.vcpuCount * (96 * (cfg.half / page) + 179) + 9 ∧
      (st'.shared.main ≠ .returned → ∃ l, ((soak cfg).step st' l).isSome = true ∧
        counted st' l = 1 ∧ ∀ k, l ≠ .act k .fail) ∧
      ∃ st'', Reaches (soak cfg).step (fun _ l => ∀ k, l ≠ .act k .fail) st' st'' ∧
        st''.shared.main = .returned := by
  obtain ⟨m, hm, hle⟩ :=
    weight_le budgeted_step (budgeted_of_ending (ending_run hinit hrun) hexp) hrun'
  exact ⟨le_trans (Nat.le_add_right _ m) hle, ending_can_move hm.ending,
    budgeted_returns hm⟩

/-- Two workers, and the deadline passes at once: worker 0 still enters its first pass. -/
theorem soak_completes_two_workers :
    ∃ st st', run (soak twoWorkers).step (boot twoWorkers) [.env .expire] = some st ∧
      run (soak twoWorkers).step st firstMoves = some st' ∧
      ∃ st'', Reaches (soak twoWorkers).step (fun _ l => ∀ k, l ≠ .act k .fail) st' st'' ∧
        st''.shared.main = .returned := by
  obtain ⟨st, st', hexpire, hexpired, hfirst⟩ : ∃ st st',
      run (soak twoWorkers).step (boot twoWorkers) [.env .expire] = some st ∧
        st.shared.expired = true ∧ run (soak twoWorkers).step st firstMoves = some st' :=
    ⟨_, _, rfl, rfl, rfl⟩
  exact ⟨st, st', hexpire, hfirst,
    (soak_completes twoWorkers (boot_initial twoWorkers) hexpire hexpired hfirst).2.2⟩

/-! ## After the return -/

/-- The labels of the operating system and of threads that are not the soak's. -/
def Foreign (l : Move) : Prop :=
  (∀ k a, l ≠ .act k a) ∧ l ≠ .env .main ∧ ∀ ok, l ≠ .env (.pressure ok)

/-- The threads, the stage-2 map, the statistics and the report are left as they are. -/
structure Untouched (st st' : Proc) : Prop where
  thread : st'.thread = st.thread
  mapped : st'.shared.mapped = st.shared.mapped
  stats : st'.shared.stats = st.shared.stats
  report : st'.shared.report = st.shared.report

/-- After the return only foreign steps are left, and they change nothing of the soak's. -/
theorem returned_step {l : Move} (h : Ending cfg st) (hret : st.shared.main = .returned)
    (hstep : (soak cfg).step st l = some st') :
    Foreign l ∧ st'.shared.main = .returned ∧ Untouched st st' := by
  cases l with
  | act k a =>
      obtain ⟨hk, w', sh', hact, -⟩ := Threads.System.step_act.mp hstep
      have hended := h.judged.joined.ended k hk (by rw [hret]; exact hk)
      rw [show (soak cfg).act k a = Worker.step cfg k a from rfl,
        step_ended (h.judged.counts.control k hk) hended] at hact
      cases hact
  | env e =>
      obtain ⟨sh', henv, rfl⟩ := Threads.System.step_env.mp hstep
      have hmain : e ≠ .main := by
        rintro rfl
        simp [soak, Env.step, Shared.mainStep, hret] at henv
      have hpressure : ∀ ok, e ≠ .pressure ok := by
        rintro ok rfl
        have hended := h.stopping.ended (by rw [hret]; rfl)
        simp [soak, Env.step, Shared.pressureStep, hended] at henv
      obtain ⟨hm, hr⟩ := env_main henv hmain
      have hf := env_frame henv
      exact ⟨⟨by simp, by simpa using hmain, by simpa using hpressure⟩, hm.trans hret,
        rfl, hf.mapped, hf.stats, hr⟩

/-- In everything that happens after the return nothing of the program is touched, and every step is
foreign. -/
theorem returned_run {ls : List Move} (h : Ending cfg st) (hret : st.shared.main = .returned)
    (hrun : run (soak cfg).step st ls = some st') :
    Untouched st st' ∧ ∀ l ∈ ls, Foreign l := by
  induction ls generalizing st with
  | nil =>
      rw [run_nil, Option.some.injEq] at hrun
      subst hrun
      exact ⟨⟨rfl, rfl, rfl, rfl⟩, by simp⟩
  | cons l ls ih =>
      obtain ⟨u, hu, hrest⟩ := run_cons_eq_some.mp hrun
      obtain ⟨hl, hmain, h1⟩ := returned_step h hret hu
      obtain ⟨h2, hls⟩ := ih (ending_step st l u trivial h hu) hmain hrest
      refine ⟨⟨h2.thread.trans h1.thread, h2.mapped.trans h1.mapped, h2.stats.trans h1.stats,
        h2.report.trans h1.report⟩, ?_⟩
      intro l' hl'
      rcases List.mem_cons.mp hl' with rfl | hl'
      · exact hl
      · exact hls l' hl'

/-- **Once `run` has returned nothing of the soak is left running.** Its report is that of the
statistics, every worker and the pressure thread have ended, and in everything that happens
afterwards no thread moves: the stage-2 map, the statistics and the workers stay as they are, and
every step is one of the operating system or of threads that are not the soak's. -/
theorem returned_quiet (cfg : Config) {st₀ st : Proc} {ls : List Move} (hinit : Initial cfg st₀)
    (hrun : run (soak cfg).step st₀ ls = some st) (hret : st.shared.main = .returned) :
    st.shared.report = some st.shared.stats.report ∧
      (∀ k < cfg.vcpuCount, (st.thread k).ended = true) ∧ st.shared.pressure = .ended ∧
      ∀ ls' st', run (soak cfg).step st ls' = some st' →
        Untouched st st' ∧ ∀ l ∈ ls', Foreign l := by
  have hE := ending_run hinit hrun
  obtain ⟨r, hr⟩ := Option.isSome_iff_exists.mp (hE.stopping.report hret)
  refine ⟨by rw [hr, (hE.judged.joined.report r hr).2], ?_, hE.stopping.ended (by rw [hret]; rfl),
    fun ls' st' hrun' => returned_run hE hret hrun'⟩
  intro k hk
  exact hE.judged.joined.ended k hk (by rw [hret]; exact hk)

/-- The run whose only worker panics returns, and stays returned: nothing that may follow touches
the program. -/
theorem returned_quiet_panicRun :
    ∃ st, run (soak oneWorker).step (boot oneWorker) panicRun = some st ∧
      ∀ ls' st', run (soak oneWorker).step st ls' = some st' →
        Untouched st st' ∧ ∀ l ∈ ls', Foreign l := by
  have hrun : run (soak oneWorker).step (boot oneWorker) panicRun = some _ := rfl
  exact ⟨_, hrun, (returned_quiet oneWorker (boot_initial oneWorker) hrun rfl).2.2.2⟩

end process

end VmRatchet.Soak
