import VmRatchet.Soak.Integrity
import VmRatchet.Soak.Progress

/-!
# The rotating stamp and the data it is meant to expose

The comment at `stamp` says that a page left over from the previous cycle is as much a failure as
a zeroed one. The cold half is swept — every word incremented — before it is reclaimed, and so is
the stamp, from one cycle to the next: a page that the operating system does not take out of a
reusable range holds, just before the fill, exactly the value of the coming stamp. Only the first
cycle is different, where the half starts from zero and the worker's number is not yet in its
pages. In munmap mode no page is left over: every one of them is fresh zero-fill.

* `leftover_eq` — what an untaken page holds just before the fill.
* `stamp_told_apart_iff` — verification tells the leftover from the stamp exactly in munmap mode,
  and in the first cycle of a worker whose number is not a multiple of `2 ^ 32`.
-/

namespace VmRatchet.Soak

open Arm64 ByteMemory Guest Transition

/-! ## Stamps as numbers -/

/-- A stamp as a number has the worker's number in its upper 32 bits and the cycle in its lower
ones. -/
theorem stampOf_toNat {k c : ℕ} (hc : c < 2 ^ 32) :
    (stampOf k (BitVec.ofNat 64 c)).toNat = k % 2 ^ 32 * 2 ^ 32 + c := by
  have hk : k * 2 ^ 32 % 2 ^ 64 = 2 ^ 32 * (k % 2 ^ 32) := by
    rw [show (2 : ℕ) ^ 64 = 2 ^ 32 * 2 ^ 32 from rfl, Nat.mul_comm k, Nat.mul_mod_mul_left]
  have hshift : (BitVec.ofNat 64 k <<< 32).toNat = 2 ^ 32 * (k % 2 ^ 32) := by
    rw [BitVec.toNat_shiftLeft, BitVec.toNat_ofNat, Nat.shiftLeft_eq, Nat.mod_mul_mod, hk]
  have hcycle : c % 2 ^ 64 = c := Nat.mod_eq_of_lt (by omega)
  unfold stampOf
  rw [BitVec.toNat_or, hshift, BitVec.toNat_ofNat, hcycle, ← Nat.two_pow_add_eq_or_of_lt hc,
    Nat.mul_comm]

/-- One more than the stamp of a cycle is the stamp of the next cycle of the same worker. -/
theorem stampOf_succ {k c : ℕ} (hc : c + 1 < 2 ^ 32) :
    stampOf k (BitVec.ofNat 64 c) + 1 = stampOf k (BitVec.ofNat 64 (c + 1)) := by
  apply BitVec.eq_of_toNat_eq
  have hlt : k % 2 ^ 32 < 2 ^ 32 := Nat.mod_lt _ (by decide)
  have hone : (1 : BitVec 64).toNat = 1 := rfl
  rw [BitVec.toNat_add, stampOf_toNat (by omega), stampOf_toNat hc, hone]
  omega

/-- As long as the cycles are fewer than `2 ^ 32`, no stamp of a cycle is zero, which is what a
fresh page holds. -/
theorem stampOf_ne_zero {k c : ℕ} (hpos : 0 < c) (hc : c < 2 ^ 32) :
    stampOf k (BitVec.ofNat 64 c) ≠ 0 := by
  intro heq
  have hnat := congrArg BitVec.toNat heq
  have hzero : (0 : BitVec 64).toNat = 0 := rfl
  rw [stampOf_toNat hc, hzero] at hnat
  omega

/-- The first stamp is one exactly for a worker whose number shifts to zero. -/
theorem stampOf_one_iff {k : ℕ} : stampOf k (BitVec.ofNat 64 1) = 1 ↔ k % 2 ^ 32 = 0 := by
  have hone : (1 : BitVec 64).toNat = 1 := rfl
  rw [← BitVec.toNat_inj, stampOf_toNat (by decide), hone]
  omega

/-! ## The leftover -/

variable {cfg : Config} {k i c : ℕ} {st st' : Proc} {ls : List Move}

/-- **What an untaken page holds just before the fill**: one more than the last fill, or zero if the
reclaim has remapped the half. -/
theorem leftover_eq (hI : (soak cfg).Everywhere (Intact cfg) st') (hk : k < cfg.vcpuCount)
    (hstmt : (st'.thread k).stmt = .coldFill) (hidle : (st'.thread k).running = false)
    (hi : i < cfg.pagesPerHalf) (htaken : (st'.thread k).taken i = false) :
    load64 st'.shared.mem (cfg.word k .cold i) = cfg.leftover k (st'.thread k).cycles := by
  obtain ⟨-, -, hC⟩ := hI k hk
  obtain ⟨f, hf, -, hcold⟩ := hC.halves
  rw [hf.idle hidle .cold i hi, hcold i hi htaken]
  simp only [Worker.coldWord, hstmt]

/-- A leftover page can be told from the stamp: its word differs, and every verification of the
cold half that finds it returns a nonzero count. -/
structure ToldApart (cfg : Config) (k i : ℕ) (leftover stamp : BitVec 64) : Prop where
  ne : leftover ≠ stamp
  counted : ∀ (sched : CancelSchedule) (vm : Vm),
    load64 vm.mem (cfg.word k .cold i) = leftover →
    ∃ entries count vm', runVerifyRange (ramMapped cfg.ramSize) sched entries (cfg.cold k).1
      (cfg.cold k).2 stamp vm = some (count, vm') ∧ count ≠ 0

/-- A leftover word that differs from the stamp is told apart by every verification of the cycle. -/
theorem toldApart_of_ne {leftover stamp : BitVec 64} (hk : k < cfg.vcpuCount)
    (hi : i < cfg.pagesPerHalf) (hne : leftover ≠ stamp) : ToldApart cfg k i leftover stamp where
  ne := hne
  counted sched vm hword := by
    have hfits : (⟨.verify, (cfg.cold k).1, (cfg.cold k).2, stamp⟩ : Pass).Fits
        (ramMapped cfg.ramSize) := by
      refine range_fits .cold hk rfl rfl (fun x hx => ?_) ?_
      · exact decide_eq_true (hx.inSlot.in_ram hk)
      · simp [ramMapped, ramGpa, doorbellGpa]
    have hpages : ((cfg.cold k).2 - (cfg.cold k).1 + (page - 1)) / page = cfg.pagesPerHalf :=
      range_pages (p := ⟨.verify, (cfg.cold k).1, (cfg.cold k).2, stamp⟩) .cold rfl rfl
    obtain ⟨entries, vm', hrun, -⟩ := runVerifyRange_count hfits sched vm
    refine ⟨entries, _, vm', hrun, ?_⟩
    rw [hpages]
    -- the page is counted, and the count does not wrap
    have hpos := mismatchCount_pos
      (f := fun i => load64 vm.mem (ramGpa + (cfg.cold k).1 + i * page)) (e := stamp) hi
      (by rw [← hword] at hne; exact hne)
    have hle := mismatchCount_le (fun i => load64 vm.mem (ramGpa + (cfg.cold k).1 + i * page)) stamp
      cfg.pagesPerHalf
    have hbound := cfg.pagesPerHalf_lt
    intro hzero
    have := congrArg BitVec.toNat hzero
    rw [BitVec.toNat_ofNat, Nat.mod_eq_of_lt (by omega)] at this
    exact absurd this (by simpa using hpos.ne')

/-- **When the stamp exposes a leftover page.** In every run under a quiet operating system, for
every worker and every cycle `c < 2 ^ 32`: a cold page that was not taken during the reclaim of
cycle `c` is, just before the fill, told apart from the stamp of that cycle exactly if the worker
reclaims by `munmap`, or `c` is the first cycle and the worker's number is not a multiple of
`2 ^ 32`. -/
theorem stamp_told_apart_iff (cfg : Config) {st st' : Proc} {ls : List Move} {k i c : ℕ}
    (hinit : Initial cfg st) (hquiet : Along (soak cfg).step QuietOS st ls)
    (hrun : run (soak cfg).step st ls = some st') (hk : k < cfg.vcpuCount)
    (hstmt : (st'.thread k).stmt = .coldFill) (hidle : (st'.thread k).running = false)
    (hc : c = (st'.thread k).cycles + 1) (hlt : c < 2 ^ 32) (hi : i < cfg.pagesPerHalf)
    (htaken : (st'.thread k).taken i = false) :
    ToldApart cfg k i (load64 st'.shared.mem (cfg.word k .cold i))
        (BitVec.ofNat 64 k <<< 32 ||| BitVec.ofNat 64 c) ↔
      cfg.mode = .munmap ∨ c = 1 ∧ k % 2 ^ 32 ≠ 0 := by
  have hI := intact_run hinit hquiet hrun
  have hleft := leftover_eq hI hk hstmt hidle hi htaken
  have happly : ToldApart cfg k i (load64 st'.shared.mem (cfg.word k .cold i))
      (BitVec.ofNat 64 k <<< 32 ||| BitVec.ofNat 64 c) ↔
        cfg.leftover k (st'.thread k).cycles ≠ stampOf k (BitVec.ofNat 64 c) := by
    rw [hleft]
    exact ⟨fun h => h.ne, toldApart_of_ne hk hi⟩
  rw [happly]
  cases hmode : cfg.mode with
  | munmap =>
      -- the page is fresh zero-fill, and no stamp is zero
      have hne := stampOf_ne_zero (k := k) (show 0 < c by omega) hlt
      simp only [Config.leftover, hmode, true_or, iff_true]
      exact hne.symm
  | reusable =>
      simp only [Config.leftover, hmode, reduceCtorEq, false_or]
      rcases Nat.eq_zero_or_pos (st'.thread k).cycles with hzero | hpos
      · -- the first cycle: the page holds 1
        obtain rfl : c = 1 := by omega
        have hone := stampOf_one_iff (k := k)
        rw [hzero, lastFill, if_pos rfl]
        constructor
        · intro hne
          exact ⟨rfl, fun hk0 => hne (hone.mpr hk0).symm⟩
        · rintro ⟨-, hk0⟩ heq
          exact hk0 (hone.mp heq.symm)
      · -- a later cycle: the page holds the coming stamp
        have hne : c ≠ 1 := by omega
        rw [lastFill, if_neg (by omega), stampOf_succ (by omega), ← hc]
        simp [hne]

/-- A worker other than the first can get to the fill of every cycle with no page taken. -/
theorem coldFill_reached (cfg : Config) (hk : k < cfg.vcpuCount) (hk0 : k ≠ 0) (c : ℕ) :
    ∃ ls st', Along (soak cfg).step QuietOS (boot cfg) ls ∧
      run (soak cfg).step (boot cfg) ls = some st' ∧ Before cfg k st' (.coldFill, c) := by
  obtain ⟨st₁, hreach₁, h₁⟩ := loop_reached hk hk0 (before_initial (boot_initial cfg) k) c
  obtain ⟨st₂, hreach₂, h₂⟩ := fill_reaches hk hk0 h₁
  obtain ⟨ls, halone, hrun⟩ := hreach₁.trans hreach₂
  exact ⟨ls, st₂, halone.mono fun _ _ => quiet_of_alone, hrun, h₂⟩

/-- Worker 1: the leftover of the first cycle is told apart in reusable mode, and so is that of
the second cycle in munmap mode. -/
theorem stamp_told_apart_first_cycle :
    (∃ ls st', run (soak reusableWorkers).step (boot reusableWorkers) ls = some st' ∧
      (st'.thread 1).cycles + 1 = 1 ∧
      ToldApart reusableWorkers 1 0 (load64 st'.shared.mem (reusableWorkers.word 1 .cold 0))
        (BitVec.ofNat 64 1 <<< 32 ||| BitVec.ofNat 64 1)) ∧
    ∃ ls st', run (soak twoWorkers).step (boot twoWorkers) ls = some st' ∧
      (st'.thread 1).cycles + 1 = 2 ∧
      ToldApart twoWorkers 1 0 (load64 st'.shared.mem (twoWorkers.word 1 .cold 0))
        (BitVec.ofNat 64 1 <<< 32 ||| BitVec.ofNat 64 2) := by
  constructor
  · obtain ⟨ls, st', hquiet, hrun, hbefore⟩ :=
      coldFill_reached reusableWorkers (k := 1) (by decide) (by decide) 0
    have hpages := reusableWorkers.le_pagesPerHalf
    refine ⟨ls, st', hrun, by rw [hbefore.cycles], ?_⟩
    exact (stamp_told_apart_iff reusableWorkers (boot_initial reusableWorkers) hquiet hrun
      (by decide) hbefore.stmt hbefore.idle (by rw [hbefore.cycles]) (by decide) (by omega)
      (hbefore.untaken 0)).mpr (.inr ⟨rfl, by decide⟩)
  · obtain ⟨ls, st', hquiet, hrun, hbefore⟩ :=
      coldFill_reached twoWorkers (k := 1) (by decide) (by decide) 1
    have hpages := twoWorkers.le_pagesPerHalf
    refine ⟨ls, st', hrun, by rw [hbefore.cycles], ?_⟩
    exact (stamp_told_apart_iff twoWorkers (boot_initial twoWorkers) hquiet hrun (by decide)
      hbefore.stmt hbefore.idle (by rw [hbefore.cycles]) (by decide) (by omega)
      (hbefore.untaken 0)).mpr (.inl rfl)

/-- The second cycle of worker 1 in reusable mode: a page that was not taken already holds the
coming stamp, so that it passes for filled. -/
theorem leftover_eq_stamp_second_cycle :
    ∃ ls st', Along (soak reusableWorkers).step QuietOS (boot reusableWorkers) ls ∧
      run (soak reusableWorkers).step (boot reusableWorkers) ls = some st' ∧
      (st'.thread 1).stmt = .coldFill ∧ (st'.thread 1).running = false ∧
      (st'.thread 1).cycles + 1 = 2 ∧ (st'.thread 1).taken 0 = false ∧
      load64 st'.shared.mem (reusableWorkers.word 1 .cold 0) =
        (BitVec.ofNat 64 1 <<< 32 ||| BitVec.ofNat 64 2) := by
  obtain ⟨ls, st', hquiet, hrun, hbefore⟩ :=
    coldFill_reached reusableWorkers (k := 1) (by decide) (by decide) 1
  have hpages := reusableWorkers.le_pagesPerHalf
  have hleft := leftover_eq (intact_run (boot_initial reusableWorkers) hquiet hrun) (k := 1)
    (i := 0) (by decide) hbefore.stmt hbefore.idle (by omega) (hbefore.untaken 0)
  refine ⟨ls, st', hquiet, hrun, hbefore.stmt, hbefore.idle, by rw [hbefore.cycles],
    hbefore.untaken 0, ?_⟩
  have hmode : reusableWorkers.mode = .reusable := rfl
  simp only [hleft, hbefore.cycles, Config.leftover, hmode]
  rw [lastFill, if_neg (by decide), stampOf_succ (by decide)]
  rfl

end VmRatchet.Soak
