import Mathlib.Algebra.BigOperators.Ring.Finset
import VmRatchet.Soak.Control

/-!
# Counters: what the threads have counted

The local counters of a worker are a function of the cycles it has completed and of the statement
it is at (`Vars`), and the shared statistics are the sums over the workers of what each has counted
so far (`Counted`). Both hold under every behaviour of the operating system and with workers that
panic anywhere: a dead worker keeps its share.

`counted_loops` is the case of interest: when all workers have left their loops, the statistics
are a function of the completed cycles alone.
-/

namespace VmRatchet.Soak

open Arm64 ByteMemory Guest

/-! ## The share of one worker -/

namespace Stmt

/-- From `cycle += 1` to the end of the cycle. -/
@[simp] def inCold : Stmt → Bool
  | .coldSweep | .coldSwept | .ledgerBefore | .reclaim _ | .ledgerAfter | .reclaimCount | .push
  | .coldFill | .coldVerify _ | .coldChecked _ | .coldBad _ | .sleep => true
  | _ => false

/-- The value of `hot_sweeps`, less four for each completed cycle. -/
@[simp] def hotDone : Stmt → ℕ
  | .vcpuCreate | .setCpsr | .firstSweep | .firstCount => 0
  | .hotSweep i | .hotCount i => 1 + i
  | .hotSwept i | .hotVerify i | .hotChecked i | .hotBad i => 2 + i
  | .nextCycle => 5
  | s => if s.inCold then 5 else 1

/-- The sweeps of the current cycle already in the statistics. -/
@[simp] def sweepsDone : Stmt → ℕ
  | .hotSweep i | .hotCount i | .hotSwept i => i
  | .hotVerify i | .hotChecked i | .hotBad i => i + 1
  | .nextCycle | .coldSweep | .coldSwept => 4
  | s => if s.inCold then 5 else 0

/-- The verification passes of the current cycle already in the statistics. -/
@[simp] def passesDone : Stmt → ℕ
  | .hotSweep i | .hotCount i | .hotSwept i | .hotVerify i | .hotChecked i => i
  | .hotBad i => i + 1
  | .nextCycle => 4
  | .coldBad false | .sleep | .coldVerify true | .coldChecked true => 5
  | .coldBad true => 6
  | s => if s.inCold then 4 else 0

/-- The reclaims of the current cycle already in the statistics. -/
@[simp] def reclaimsDone : Stmt → ℕ
  | .push | .coldFill | .coldVerify _ | .coldChecked _ | .coldBad _ | .sleep => 1
  | _ => 0

end Stmt

namespace Worker

variable (w : Worker)

/-- The number of hot sweeps made, as an unbounded number. -/
def hotMade : ℕ := hotSweepsPerCycle * w.cycles + w.stmt.hotDone

/-- The sweeps worker `w` has counted: five in every completed cycle, and those of the cycle it is
in. -/
def sweepsMade : ℕ := 5 * w.cycles + w.stmt.sweepsDone

/-- The verification passes worker `w` has counted: six in every completed cycle, and those of the
cycle it is in. -/
def passesMade : ℕ := 6 * w.cycles + w.stmt.passesDone

/-- The reclaims worker `w` has counted: one in every completed cycle, and that of the cycle it is
in. -/
def reclaimsMade : ℕ := w.cycles + w.stmt.reclaimsDone

end Worker

/-! ## The local counters -/

/-- The local counters of worker `k`: `hot_sweeps` and `cycle` count what has happened, modulo
`2^64`, and the stamp is that of the cycle. -/
structure Vars (k : ℕ) (w : Worker) : Prop where
  hotSweeps : w.hotSweeps = BitVec.ofNat 64 w.hotMade
  cycle : w.cycle = BitVec.ofNat 64 (w.cycles + if w.stmt.inCold then 1 else 0)
  stamp : w.stmt.inCold = true → w.stamp = stampOf k w.cycle

/-- What one step of a worker adds to the statistics is what it adds to its own share. -/
structure Adds (cfg : Config) (w w' : Worker) (sh sh' : Shared) : Prop where
  sweeps : ∃ d, w'.sweepsMade = w.sweepsMade + d ∧
    sh'.stats.sweeps = sh.stats.sweeps + BitVec.ofNat 64 d
  pageChecks : ∃ d, w'.passesMade = w.passesMade + d ∧
    sh'.stats.pageChecks = sh.stats.pageChecks + BitVec.ofNat 64 (cfg.pagesPerHalf * d)
  reclaims : ∃ d, w'.reclaimsMade = w.reclaimsMade + d ∧
    sh'.stats.reclaims = sh.stats.reclaims + BitVec.ofNat 64 d
  mismatches : ∃ d, w'.reported = w.reported + d ∧
    sh'.stats.mismatches = sh.stats.mismatches + BitVec.ofNat 64 d

section step

variable {cfg : Config} {k : ℕ} {a : Act} {w w' : Worker} {sh sh' : Shared}

/-- A step that changes neither the worker's counts of what it has made and reported nor the shared
counters is one that adds nothing. -/
theorem Adds.none (hs : w'.sweepsMade = w.sweepsMade) (hp : w'.passesMade = w.passesMade)
    (hr : w'.reclaimsMade = w.reclaimsMade) (hm : w'.reported = w.reported)
    (hst : sh'.stats.sweeps = sh.stats.sweeps ∧ sh'.stats.pageChecks = sh.stats.pageChecks ∧
      sh'.stats.reclaims = sh.stats.reclaims ∧ sh'.stats.mismatches = sh.stats.mismatches) :
    Adds cfg w w' sh sh' :=
  ⟨⟨0, hs, by simp [hst]⟩, ⟨0, hp, by simp [hst]⟩, ⟨0, hr, by simp [hst]⟩, ⟨0, hm, by simp [hst]⟩⟩

/-- A host statement counts in its own share and in the statistics alike. A statement that counts
adds to one of the shares, those of sweeps, passes, reclaims and mismatches, and nothing to the
others; at the end of the hot loop and of the cycle a share is told by other figures, but is the
same. -/
theorem host_adds (hv : w.stmt.Valid) (h : w.host cfg k sh = some (w', sh')) :
    Adds cfg w w' sh sh' := by
  cases hst : w.stmt
  case hotSwept i =>
    simp only [Worker.host, hst, Option.some.injEq, Prod.mk.injEq] at h
    obtain ⟨rfl, rfl⟩ := h
    refine ⟨⟨1, ?_, rfl⟩, ⟨0, ?_, by simp⟩, ⟨0, ?_, by simp⟩, ⟨0, rfl, by simp⟩⟩ <;>
      simp [Worker.sweepsMade, Worker.passesMade, Worker.reclaimsMade, hst, Nat.add_assoc]
  case coldSwept =>
    simp only [Worker.host, hst, Option.some.injEq, Prod.mk.injEq] at h
    obtain ⟨rfl, rfl⟩ := h
    refine ⟨⟨1, ?_, rfl⟩, ⟨0, ?_, by simp⟩, ⟨0, ?_, by simp⟩, ⟨0, rfl, by simp⟩⟩ <;>
      simp [Worker.sweepsMade, Worker.passesMade, Worker.reclaimsMade, hst]
  case reclaimCount =>
    simp only [Worker.host, hst, Option.some.injEq, Prod.mk.injEq] at h
    obtain ⟨rfl, rfl⟩ := h
    refine ⟨⟨0, ?_, by simp⟩, ⟨0, ?_, by simp⟩, ⟨1, ?_, rfl⟩, ⟨0, rfl, by simp⟩⟩ <;>
      simp [Worker.sweepsMade, Worker.passesMade, Worker.reclaimsMade, hst]
  case hotChecked i =>
    simp only [Worker.host, hst, Option.some.injEq, Prod.mk.injEq] at h
    obtain ⟨rfl, rfl⟩ := h
    refine ⟨⟨0, ?_, by simp⟩, ⟨1, ?_, by simp⟩, ⟨0, ?_, by simp⟩, ⟨0, rfl, by simp⟩⟩ <;>
      simp [Worker.sweepsMade, Worker.passesMade, Worker.reclaimsMade, hst, Nat.add_assoc]
  case coldChecked again =>
    simp only [Worker.host, hst, Option.some.injEq, Prod.mk.injEq] at h
    obtain ⟨rfl, rfl⟩ := h
    refine ⟨⟨0, ?_, by simp⟩, ⟨1, ?_, by simp⟩, ⟨0, ?_, by simp⟩, ⟨0, rfl, by simp⟩⟩ <;>
      cases again <;>
      simp [Worker.sweepsMade, Worker.passesMade, Worker.reclaimsMade, hst, Nat.add_assoc]
  case hotBad i =>
    simp only [Worker.host, hst, Option.some.injEq, Prod.mk.injEq] at h
    obtain ⟨rfl, rfl⟩ := h
    have hi : i < hotSweepsPerCycle := by simpa [Stmt.Valid, hst] using hv
    unfold hotSweepsPerCycle at hi ⊢
    refine ⟨⟨0, ?_, by simp⟩, ⟨0, ?_, by simp⟩, ⟨0, ?_, by simp⟩, ⟨_, rfl, by simp⟩⟩ <;>
      by_cases hlt : i + 1 < 4 <;>
      simp [Worker.sweepsMade, Worker.passesMade, Worker.reclaimsMade, hst, hlt]
    · omega
    · omega
  case coldBad again =>
    simp only [Worker.host, hst, Option.some.injEq, Prod.mk.injEq] at h
    obtain ⟨rfl, rfl⟩ := h
    refine ⟨⟨0, ?_, by simp⟩, ⟨0, ?_, by simp⟩, ⟨0, ?_, by simp⟩, ⟨_, rfl, by simp⟩⟩ <;>
      cases again <;>
      simp [Worker.sweepsMade, Worker.passesMade, Worker.reclaimsMade, hst, Nat.mul_add]
  case firstCount =>
    simp only [Worker.host, hst, Option.some.injEq, Prod.mk.injEq] at h
    obtain ⟨rfl, rfl⟩ := h
    refine Adds.none ?_ ?_ ?_ rfl ⟨rfl, rfl, rfl, rfl⟩ <;> by_cases hk : k = 0 <;>
      simp [Worker.sweepsMade, Worker.passesMade, Worker.reclaimsMade, hst, hk]
  case deadline =>
    simp only [Worker.host, hst, Option.some.injEq, Prod.mk.injEq] at h
    obtain ⟨rfl, rfl⟩ := h
    refine Adds.none ?_ ?_ ?_ rfl ⟨rfl, rfl, rfl, rfl⟩ <;> cases he : sh.expired <;>
      simp [Worker.sweepsMade, Worker.passesMade, Worker.reclaimsMade, hst]
  case reclaim rest =>
    cases rest <;>
      simp only [Worker.host, hst, Option.some.injEq, Prod.mk.injEq, reduceCtorEq] at h
    obtain ⟨rfl, rfl⟩ := h
    refine Adds.none ?_ ?_ ?_ rfl ⟨rfl, rfl, rfl, rfl⟩ <;>
      simp [Worker.sweepsMade, Worker.passesMade, Worker.reclaimsMade, hst]
  all_goals
    simp only [Worker.host, hst, reduceCtorEq] at h
    try split_ifs at h
    all_goals
      rw [Option.some.injEq, Prod.mk.injEq] at h
      obtain ⟨rfl, rfl⟩ := h
      refine Adds.none ?_ ?_ ?_ rfl ⟨rfl, rfl, rfl, rfl⟩ <;>
        simp [Worker.sweepsMade, Worker.passesMade, Worker.reclaimsMade, hst]

/-- A pass that rings the doorbell and returns counts nothing by itself: the counts of the worker
are as before, and the worker is in the cold part exactly if it was. -/
theorem ring_made (h : w.stmt.call ≠ none) : w.ring.hotMade = w.hotMade ∧
    w.ring.sweepsMade = w.sweepsMade ∧ w.ring.passesMade = w.passesMade ∧
    w.ring.reclaimsMade = w.reclaimsMade ∧ w.ring.stmt.inCold = w.stmt.inCold := by
  cases hst : w.stmt
  case coldVerify again =>
    cases again <;> simp [Worker.ring, Worker.hotMade, Worker.sweepsMade, Worker.passesMade,
      Worker.reclaimsMade, hst, Stmt.afterPass]
  all_goals
    rw [hst] at h
    first
    | exact absurd rfl h
    | simp [Worker.ring, Worker.hotMade, Worker.sweepsMade, Worker.passesMade,
        Worker.reclaimsMade, hst, Stmt.afterPass]

/-- Every step of a worker counts in its own share and in the statistics alike. -/
theorem step_adds (hk : k < cfg.vcpuCount) (hC : Control cfg k w sh)
    (h : w.step cfg k a sh = some (w', sh')) : Adds cfg w w' sh sh' := by
  obtain ⟨-, h⟩ := Worker.step_inv h
  cases h with
  | enter | cancel | fail | take =>
      exact Adds.none rfl rfl rfl rfl ⟨rfl, rfl, rfl, rfl⟩
  | host hr hp h => exact host_adds hC.valid h
  | @call released c rest hs hle =>
      have hst : (sh.call cfg.ram c).stats = sh.stats := by cases c <;> rfl
      refine Adds.none ?_ ?_ ?_ rfl ⟨?_, ?_, ?_, ?_⟩ <;>
        simp [Worker.sweepsMade, Worker.passesMade, Worker.reclaimsMade, hs, hst]
  | guest hr =>
      obtain ⟨p, s, hp, hs⟩ := hC.inside hr
      have hcall : w.stmt.call ≠ none := by
        obtain ⟨side, hcall, -, -⟩ := pass_range hp
        simp [hcall]
      rcases hC.guest hk hp hs with ⟨-, hg⟩ | ⟨s', m', c', -, -, hg⟩
      · rw [hg]
        obtain ⟨-, h1, h2, h3, -⟩ := ring_made hcall
        exact Adds.none h1 h2 h3 rfl ⟨rfl, rfl, rfl, rfl⟩
      · rw [hg]
        exact Adds.none rfl rfl rfl rfl ⟨rfl, rfl, rfl, rfl⟩

/-- A host statement keeps a worker's local variables in step with what it has made: the number of
hot sweeps and of cycles, as 64 bits hold them, and the stamp of the cycle. -/
theorem host_vars (hv : w.stmt.Valid) (hV : Vars k w) (h : w.host cfg k sh = some (w', sh')) :
    Vars k w' := by
  have h1 := hV.hotSweeps
  have h2 := hV.cycle
  have h3 := hV.stamp
  unfold Worker.hotMade at h1
  cases hst : w.stmt
  case firstCount =>
    simp only [Worker.host, hst, Option.some.injEq, Prod.mk.injEq] at h
    obtain ⟨rfl, rfl⟩ := h
    refine ⟨?_, ?_, ?_⟩ <;> by_cases hk : k = 0 <;>
      simp_all [Worker.hotMade, hotSweepsPerCycle, BitVec.ofNat_add]
  case deadline =>
    simp only [Worker.host, hst, Option.some.injEq, Prod.mk.injEq] at h
    obtain ⟨rfl, rfl⟩ := h
    refine ⟨?_, ?_, ?_⟩ <;> cases he : sh.expired <;>
      simp_all [Worker.hotMade, hotSweepsPerCycle]
  case hotCount i =>
    simp only [Worker.host, hst, Option.some.injEq, Prod.mk.injEq] at h
    obtain ⟨rfl, rfl⟩ := h
    refine ⟨?_, by simpa [hst] using h2, by simp⟩
    have hone : 2 + i = 1 + i + 1 := by omega
    simp [Worker.hotMade, h1, hst, hone, BitVec.ofNat_add, BitVec.add_assoc]
  case hotBad i =>
    have hi : i < hotSweepsPerCycle := by simpa [Stmt.Valid, hst] using hv
    rw [hst] at h1 h2
    by_cases hlt : i + 1 < hotSweepsPerCycle
    · simp only [Worker.host, hst, if_pos hlt, Option.some.injEq, Prod.mk.injEq] at h
      obtain ⟨rfl, rfl⟩ := h
      refine ⟨?_, h2, by simp⟩
      simp only [h1, Worker.hotMade, Stmt.hotDone]
      rw [show 1 + (i + 1) = 2 + i by omega]
    · simp only [Worker.host, hst, if_neg hlt, Option.some.injEq, Prod.mk.injEq] at h
      obtain ⟨rfl, rfl⟩ := h
      refine ⟨?_, h2, by simp⟩
      simp only [h1, Worker.hotMade, Stmt.hotDone]
      unfold hotSweepsPerCycle at hi hlt
      rw [show i = 3 by omega]
  case nextCycle =>
    simp only [Worker.host, hst, Option.some.injEq, Prod.mk.injEq] at h
    obtain ⟨rfl, rfl⟩ := h
    refine ⟨?_, ?_, ?_⟩ <;> simp_all [Worker.hotMade, hotSweepsPerCycle, BitVec.ofNat_add]
  case coldBad again =>
    simp only [Worker.host, hst, Option.some.injEq, Prod.mk.injEq] at h
    obtain ⟨rfl, rfl⟩ := h
    cases again with
    | false => refine ⟨?_, ?_, ?_⟩ <;> simp_all [Worker.hotMade]
    | true =>
        refine ⟨?_, by simpa [hst] using h2, by simp⟩
        simp [Worker.hotMade, hotSweepsPerCycle, h1, hst, Nat.mul_add, Nat.add_assoc]
  case reclaim rest =>
    cases rest <;>
      simp only [Worker.host, hst, Option.some.injEq, Prod.mk.injEq, reduceCtorEq] at h
    obtain ⟨rfl, rfl⟩ := h
    refine ⟨?_, ?_, ?_⟩ <;> simp_all [Worker.hotMade]
  all_goals
    simp only [Worker.host, hst, reduceCtorEq] at h
    try split_ifs at h
    all_goals
      rw [Option.some.injEq, Prod.mk.injEq] at h
      obtain ⟨rfl, rfl⟩ := h
      refine ⟨?_, ?_, ?_⟩ <;> simp_all [Worker.hotMade]

/-- Every step of a worker keeps its local counters. -/
theorem vars_own (hk : k < cfg.vcpuCount) (hC : Control cfg k w sh) (hV : Vars k w)
    (h : w.step cfg k a sh = some (w', sh')) : Vars k w' := by
  obtain ⟨-, h⟩ := Worker.step_inv h
  cases h with
  | cancel => exact hV
  | enter | fail | take => exact ⟨hV.hotSweeps, hV.cycle, hV.stamp⟩
  | host hr hp h => exact host_vars hC.valid hV h
  | call hs hle =>
      obtain ⟨h1, h2, h3⟩ := hV
      unfold Worker.hotMade at h1
      refine ⟨?_, ?_, ?_⟩ <;> simp_all [Worker.hotMade]
  | guest hr =>
      obtain ⟨p, s, hp, hs⟩ := hC.inside hr
      have hcall : w.stmt.call ≠ none := by
        obtain ⟨side, hcall, -, -⟩ := pass_range hp
        simp [hcall]
      rcases hC.guest hk hp hs with ⟨-, hg⟩ | ⟨s', m', c', -, -, hg⟩
      · rw [hg]
        obtain ⟨h1, -, -, -, h5⟩ := ring_made hcall
        exact ⟨hV.hotSweeps.trans (by rw [h1]), hV.cycle.trans (by rw [h5]; rfl),
          fun hin => hV.stamp (h5 ▸ hin)⟩
      · rw [hg]
        exact ⟨hV.hotSweeps, hV.cycle, hV.stamp⟩

end step

/-! ## The shared statistics -/

/-- **The statistics are the sums of the workers' shares**, as 64-bit counters. -/
structure Counted (cfg : Config) (st : Proc) : Prop where
  sweeps : st.shared.stats.sweeps =
    BitVec.ofNat 64 ((soak cfg).total (fun _ w => w.sweepsMade) st)
  pageChecks : st.shared.stats.pageChecks =
    BitVec.ofNat 64 (cfg.pagesPerHalf * (soak cfg).total (fun _ w => w.passesMade) st)
  reclaims : st.shared.stats.reclaims =
    BitVec.ofNat 64 ((soak cfg).total (fun _ w => w.reclaimsMade) st)
  mismatches : st.shared.stats.mismatches =
    BitVec.ofNat 64 ((soak cfg).total (fun _ w => w.reported) st)

section counted

variable {cfg : Config}

/-- If one worker's share grows by `d` and the others stay, the total grows by `d`. -/
theorem total_add {f : Worker → ℕ} {st : Proc} {k d : ℕ} {w' : Worker} {sh' : Shared}
    (hk : k < cfg.vcpuCount) (h : f w' = f (st.thread k) + d) :
    (soak cfg).total (fun _ w => f w) ⟨Function.update st.thread k w', sh'⟩ =
      (soak cfg).total (fun _ w => f w) st + d := by
  have := Threads.System.total_update (S := soak cfg) st (fun _ w => f w) hk w' sh'
  omega

/-- Control, local counters and statistics together: what every worker has counted adds up to the
statistics they share. -/
structure Counts (cfg : Config) (st : Proc) : Prop where
  control : (soak cfg).Everywhere (Control cfg) st
  vars : (soak cfg).Everywhere (fun k w _ => Vars k w) st
  counted : Counted cfg st

/-- The counters are kept by every step of the process: a worker's step adds the same to its own
share and to the statistics, another worker's share stays, and an event of the environment does not
count. -/
theorem counts_step (st : Proc) (l : Move) (st' : Proc) (_ : True) (h : Counts cfg st)
    (hstep : (soak cfg).step st l = some st') : Counts cfg st' := by
  refine ⟨control_step st l st' trivial h.control hstep, ?_, ?_⟩
  · intro j hj
    cases l with
    | env e =>
        obtain ⟨sh', -, rfl⟩ := Threads.System.step_env.mp hstep
        exact h.vars j hj
    | act k a =>
        obtain ⟨hk, w', sh', hact, rfl⟩ := Threads.System.step_act.mp hstep
        by_cases hjk : j = k
        · subst hjk
          simp only [Function.update_self]
          exact vars_own hk (h.control j hk) (h.vars j hk) hact
        · simp only [Function.update_of_ne hjk]
          exact h.vars j hj
  · cases l with
    | env e =>
        obtain ⟨sh', henv, rfl⟩ := Threads.System.step_env.mp hstep
        have hst := (env_frame henv).stats
        exact ⟨by rw [hst]; exact h.counted.sweeps, by rw [hst]; exact h.counted.pageChecks,
          by rw [hst]; exact h.counted.reclaims, by rw [hst]; exact h.counted.mismatches⟩
    | act k a =>
        obtain ⟨hk, w', sh', hact, rfl⟩ := Threads.System.step_act.mp hstep
        obtain ⟨⟨d₁, hd₁, hs₁⟩, ⟨d₂, hd₂, hs₂⟩, ⟨d₃, hd₃, hs₃⟩, ⟨d₄, hd₄, hs₄⟩⟩ :=
          step_adds hk (h.control k hk) hact
        constructor
        · rw [total_add hk hd₁, BitVec.ofNat_add, ← h.counted.sweeps]
          exact hs₁
        · rw [total_add hk hd₂, Nat.mul_add, BitVec.ofNat_add, ← h.counted.pageChecks]
          exact hs₂
        · rw [total_add hk hd₃, BitVec.ofNat_add, ← h.counted.reclaims]
          exact hs₃
        · rw [total_add hk hd₄, BitVec.ofNat_add, ← h.counted.mismatches]
          exact hs₄

/-- The process starts with every counter, local and shared, at zero. -/
theorem counts_initial {st : Proc} (h : Initial cfg st) : Counts cfg st := by
  have hzero : ∀ f : Worker → ℕ, (∀ cpu, f { cpu := cpu } = 0) →
      (soak cfg).total (fun _ w => f w) st = 0 := by
    intro f hf
    refine Finset.sum_eq_zero fun k _ => ?_
    obtain ⟨cpu, hw⟩ := h.fresh k
    simp only [hw, hf]
  refine ⟨control_initial h, fun k _ => ?_, ?_⟩
  · obtain ⟨cpu, hw⟩ := h.fresh k
    rw [hw]
    exact ⟨rfl, rfl, by simp⟩
  · constructor <;> rw [h.stats, hzero _ fun _ => rfl] <;> rfl

/-- In every reachable state the shared counters are the sums of what the workers have made. -/
theorem counts_run {st st' : Proc} {ls : List Move} (h : Initial cfg st)
    (hrun : Transition.run (soak cfg).step st ls = some st') : Counts cfg st' :=
  Transition.run_invariant counts_step (Transition.Along.of_labels (fun _ _ _ => trivial) st)
    (counts_initial h) hrun

/-- The worker has left its loop: it has seen the deadline pass. -/
def Worker.LeftLoop (w : Worker) : Prop := w.stmt = .vcpuDestroy ∨ w.stmt = .done

/-- The cycles all workers have completed, summed over the workers. -/
def cyclesTotal (cfg : Config) (st : Proc) : ℕ := (soak cfg).total (fun _ w => w.cycles) st

/-- **When all workers have left their loops** the statistics are a function of the completed
cycles. -/
theorem counted_loops {st : Proc} (h : Counted cfg st)
    (hleft : ∀ k < cfg.vcpuCount, (st.thread k).LeftLoop) :
    st.shared.stats.pageChecks =
        BitVec.ofNat 64 (6 * cfg.pagesPerHalf * cyclesTotal cfg st) ∧
      st.shared.stats.sweeps = BitVec.ofNat 64 (5 * cyclesTotal cfg st) ∧
      st.shared.stats.reclaims = BitVec.ofNat 64 (cyclesTotal cfg st) := by
  have hshare : ∀ (f : Worker → ℕ) (c : ℕ),
      (∀ w : Worker, w.LeftLoop → f w = c * w.cycles) →
      (soak cfg).total (fun _ w => f w) st = c * cyclesTotal cfg st := by
    intro f c hf
    unfold cyclesTotal Threads.System.total
    rw [Finset.mul_sum]
    exact Finset.sum_congr rfl fun k hk => hf _ (hleft k (Finset.mem_range.mp hk))
  refine ⟨?_, ?_, ?_⟩
  · rw [h.pageChecks, hshare _ 6]
    · rw [← Nat.mul_assoc, Nat.mul_comm cfg.pagesPerHalf 6]
    · rintro w (hw | hw) <;> simp [Worker.passesMade, hw]
  · rw [h.sweeps, hshare _ 5]
    rintro w (hw | hw) <;> simp [Worker.sweepsMade, hw]
  · rw [h.reclaims, hshare _ 1, Nat.one_mul]
    rintro w (hw | hw) <;> simp [Worker.reclaimsMade, hw]

end counted

end VmRatchet.Soak
