import VmRatchet.Guest.Refine
import VmRatchet.Soak.Contents

/-!
# The verifier and the detector self-test

The soak's verdict rests on a count that guest code computes and hands over in a register, and a
self-test vouches for that count: it plants one corrupt page, requires the verifier to report one
mismatch, repairs the page and requires a clean report. This module is about both in their
sequential form: one vCPU, nobody else writes.

* `runVerifyRange_exact` — the count is the number of mismatches, and memory is as before.
* `detectorSelfTest` — the self-test.
* `verify_exact_and_self_test_iff` — the self-test passes exactly on memory that holds the expected
  value in every page, and leaves memory as it was whether it passes or not.
-/

namespace VmRatchet.Soak

open Guest ByteMemory

/-! ## The verifier -/

/-- A pass that keeps every word keeps every byte. -/
theorem mem_eq_of_keeps {startOff endOff : ℕ} {m m' : Mem}
    (h : PassEffect startOff endOff (fun _ old => old) m m') : m' = m := by
  funext b
  by_cases hb : ∀ i < (endOff - startOff + (page - 1)) / page,
      b < ramGpa + startOff + i * page ∨ ramGpa + startOff + i * page + 8 ≤ b
  · exact h.frame b hb
  · push Not at hb
    obtain ⟨i, hi, hlo, hhi⟩ := hb
    exact eq_of_load64_eq (h.words i hi) ⟨hlo, hhi⟩

/-- The words a verification looks at, one in each page of the range. -/
def words (m : Mem) (startOff i : ℕ) : BitVec 64 := load64 m (ramGpa + startOff + i * page)

/-- The number of pages it looks at. -/
def pageCount (startOff endOff : ℕ) : ℕ := (endOff - startOff + (page - 1)) / page

/-- A range of guest RAM: not empty, every word that is looked at mapped, and the cursor does not
wrap. -/
structure InRam (ramSize startOff endOff : ℕ) : Prop where
  /-- The range is not empty. -/
  lt : startOff < endOff
  /-- Its words are mapped. -/
  mapped : ∀ i < pageCount startOff endOff, startOff + i * page + 8 ≤ ramSize
  /-- Its end is representable. -/
  wrap : ramGpa + endOff + page ≤ 2 ^ 64

/-- The number of pages of a range of guest RAM fits the 64-bit register that counts them. -/
theorem InRam.pageCount_lt {ramSize startOff endOff : ℕ} (h : InRam ramSize startOff endOff) :
    pageCount startOff endOff < 2 ^ 64 := by
  have := h.wrap
  rw [pageCount, page_eq] at *
  omega

/-- More entries do not change a verification that has returned. -/
theorem runVerifyRange_mono {mapped : ℕ → Bool} {sched : CancelSchedule}
    {entries entries' startOff endOff : ℕ} {expected : BitVec 64} {vm : Vm}
    {r : BitVec 64 × Vm}
    (h : runVerifyRange mapped sched entries startOff endOff expected vm = some r)
    (hle : entries ≤ entries') :
    runVerifyRange mapped sched entries' startOff endOff expected vm = some r := by
  rw [runVerifyRange] at h ⊢
  cases hpass : runPass mapped sched entries ⟨.verify, startOff, endOff, expected⟩ vm with
  | returned vm' =>
      rw [hpass] at h
      rw [runPass, runPassLoop_mono hpass hle]
      exact h
  | panicked => simp [hpass] at h
  | running => simp [hpass] at h

/-- **The verifier counts exactly.** From every register file and under every live schedule it
returns the number of words that differ from the expected one, and memory is as before. -/
theorem runVerifyRange_exact {ramSize startOff endOff : ℕ} (h : InRam ramSize startOff endOff)
    (expected : BitVec 64) (sched : CancelSchedule) (vm : Vm) :
    ∃ bound count vm', (∀ entries ≥ bound,
        runVerifyRange (ramMapped ramSize) sched entries startOff endOff expected vm
          = some (count, vm'))
      ∧ vm'.mem = vm.mem
      ∧ count.toNat = mismatchCount (words vm.mem startOff) expected
          (pageCount startOff endOff) := by
  have hfits : (⟨.verify, startOff, endOff, expected⟩ : Pass).Fits (ramMapped ramSize) :=
    fits_ramMapped h.lt h.mapped h.wrap
  obtain ⟨bound, vm', hret, heffect⟩ := runVerifyRange_count hfits sched vm
  refine ⟨bound, BitVec.ofNat 64 (mismatchCount (words vm.mem startOff) expected
    (pageCount startOff endOff)), vm', fun entries hentries => ?_, mem_eq_of_keeps heffect, ?_⟩
  · exact runVerifyRange_mono hret hentries
  · rw [BitVec.toNat_ofNat]
    exact Nat.mod_eq_of_lt (lt_of_le_of_lt (mismatchCount_le _ _ _) h.pageCount_lt)

/-! ## The self-test -/

/-- How a self-test stands after a bounded number of entries into the guest. -/
inductive SelfTest
  /-- It returned. -/
  | passed (vm : Vm)
  /-- One of its assertions failed, with the count it reports. -/
  | failed (count : BitVec 64) (vm : Vm)
  /-- A verification has not returned. -/
  | running

/-- The memory after a self-test that ended, in success or failure. -/
def SelfTest.mem? : SelfTest → Option Mem
  | .passed vm => some vm.mem
  | .failed _ vm => some vm.mem
  | .running => none

/-- The word the self-test corrupts: not in the first page, to catch off-by-one starts.
Source: `soak.rs`, `detector_self_test` (`victim`) -/
def victim (hot : ℕ × ℕ) : ℕ := ramGpa + (hot.1 + page)

/-- Memory with the corrupt page.
Source: `soak.rs`, `detector_self_test` -/
def plant (hot : ℕ × ℕ) (m : Mem) : Mem :=
  store64 m (victim hot) (load64 m (victim hot) ^^^ 0xDEADBEEF)

/-- Plant one corrupt page and require the verifier to find it, repair it and require a clean
report. The two verifications have their own schedules.
Source: `soak.rs`, `detector_self_test` -/
def detectorSelfTest (mapped : ℕ → Bool) (sched sched' : CancelSchedule) (entries : ℕ)
    (hot : ℕ × ℕ) (expected : BitVec 64) (vm : Vm) : SelfTest :=
  let saved := load64 vm.mem (victim hot)
  match runVerifyRange mapped sched entries hot.1 hot.2 expected
      { vm with mem := plant hot vm.mem } with
  | none => .running
  | some (found, vm₁) =>
    let restored : Vm := { vm₁ with mem := store64 vm₁.mem (victim hot) saved }
    if found ≠ 1 then .failed found restored
    else
      match runVerifyRange mapped sched' entries hot.1 hot.2 expected restored with
      | none => .running
      | some (clean, vm₂) => if clean ≠ 0 then .failed clean vm₂ else .passed vm₂

/-- The self-test in terms of what its two verifications return, `found` over memory with the
planted corruption and `clean` after the restore: it fails if `found` is not one, and else if
`clean` is not zero. -/
theorem detectorSelfTest_eq {mapped : ℕ → Bool} {sched sched' : CancelSchedule} {entries : ℕ}
    {hot : ℕ × ℕ} {expected found clean : BitVec 64} {vm vm₁ vm₂ : Vm}
    (h₁ : runVerifyRange mapped sched entries hot.1 hot.2 expected
      { vm with mem := plant hot vm.mem } = some (found, vm₁))
    (h₂ : runVerifyRange mapped sched' entries hot.1 hot.2 expected
      { vm₁ with mem := store64 vm₁.mem (victim hot) (load64 vm.mem (victim hot)) }
        = some (clean, vm₂)) :
    detectorSelfTest mapped sched sched' entries hot expected vm
      = if found ≠ 1 then .failed found
          { vm₁ with mem := store64 vm₁.mem (victim hot) (load64 vm.mem (victim hot)) }
        else if clean ≠ 0 then .failed clean vm₂ else .passed vm₂ := by
  simp only [detectorSelfTest, h₁, h₂]

/-- Storing a word over and then storing the old one back restores memory. -/
theorem store64_restore (m : Mem) (a : ℕ) (v : BitVec 64) :
    store64 (store64 m a v) a (load64 m a) = m := by
  funext b
  by_cases hb : a ≤ b ∧ b < a + 8
  · refine eq_of_load64_eq ?_ hb
    rw [load64_store64]
  · rw [store64_apply_of_not_mem (by omega), store64_apply_of_not_mem (by omega)]

/-- With the planted corruption the word of the second page is changed, and every other word is as
it was. -/
theorem words_plant (hot : ℕ × ℕ) (m : Mem) (i : ℕ) :
    words (plant hot m) hot.1 i
      = if i = 1 then words m hot.1 1 ^^^ 0xDEADBEEF else words m hot.1 i := by
  have haddr : victim hot = ramGpa + hot.1 + 1 * page := by
    rw [victim]
    omega
  rw [words, plant, haddr]
  split
  case isTrue hi => rw [hi, load64_store64, words]
  case isFalse hi =>
    rw [load64_store64_of_disjoint, words]
    rw [page_eq]
    rcases Nat.lt_or_gt_of_ne hi with h | h <;> omega

/-- If all words were as expected, there is exactly one mismatch after the planting, in the second
page. -/
theorem mismatchCount_plant {hot : ℕ × ℕ} {m : Mem} {n : ℕ} {expected : BitVec 64} (hn : 1 < n)
    (h : ∀ i < n, words m hot.1 i = expected) :
    mismatchCount (words (plant hot m) hot.1) expected n = 1 := by
  refine mismatchCount_eq_one hn fun i hi => ?_
  rw [words_plant, h 1 hn]
  by_cases hi1 : i = 1
  · rw [if_pos hi1]
    exact ⟨fun hc => absurd hc (xor_corruption_ne expected), fun hc => absurd hi1 hc⟩
  · rw [if_neg hi1]
    exact ⟨fun _ => hi1, fun _ => h i hi⟩

/-- A verification counts no mismatch exactly if all the words it looks at are the expected one. -/
theorem mismatchCount_eq_zero_iff {f : ℕ → BitVec 64} {e : BitVec 64} {n : ℕ} :
    mismatchCount f e n = 0 ↔ ∀ i < n, f i = e := by
  refine ⟨fun h i hi => ?_, mismatchCount_eq_zero⟩
  by_contra hne
  exact absurd h (mismatchCount_pos hi hne).ne'

/-- **The self-test.** It ends; it passes exactly if every page held the expected value; and memory
is as before, whether it passes or not. -/
theorem detectorSelfTest_iff {ramSize : ℕ} {hot : ℕ × ℕ} (h : InRam ramSize hot.1 hot.2)
    (htwo : 1 < pageCount hot.1 hot.2) (expected : BitVec 64) (sched sched' : CancelSchedule)
    (vm : Vm) :
    ∃ bound result, (∀ entries ≥ bound,
        detectorSelfTest (ramMapped ramSize) sched sched' entries hot expected vm = result)
      ∧ result.mem? = some vm.mem
      ∧ ((∃ vm', result = .passed vm')
        ↔ ∀ i < pageCount hot.1 hot.2, words vm.mem hot.1 i = expected) := by
  obtain ⟨bound₁, found, vm₁, hrun₁, hmem₁, hfound⟩ :=
    runVerifyRange_exact h expected sched { vm with mem := plant hot vm.mem }
  have hrestored : store64 vm₁.mem (victim hot) (load64 vm.mem (victim hot)) = vm.mem := by
    rw [hmem₁]
    exact store64_restore _ _ _
  obtain ⟨bound₂, clean, vm₂, hrun₂, hmem₂, hclean⟩ := runVerifyRange_exact h expected sched'
    { vm₁ with mem := store64 vm₁.mem (victim hot) (load64 vm.mem (victim hot)) }
  simp only [hrestored] at hmem₂ hclean
  refine ⟨max bound₁ bound₂, _, fun entries hentries => detectorSelfTest_eq
    (hrun₁ entries (le_trans (le_max_left _ _) hentries))
    (hrun₂ entries (le_trans (le_max_right _ _) hentries)), ?_, ?_⟩
  · split_ifs
    · rw [SelfTest.mem?, hrestored]
    · rw [SelfTest.mem?, hmem₂]
    · rw [SelfTest.mem?, hmem₂]
  · rw [← mismatchCount_eq_zero_iff, ← hclean]
    constructor
    · rintro ⟨vm', hvm'⟩
      split_ifs at hvm' with hone hnone
      rw [not_not.mp hnone]
      rfl
    · intro hzero
      have hnone : clean = 0 := BitVec.eq_of_toNat_eq hzero
      have hone : found = 1 := by
        apply BitVec.eq_of_toNat_eq
        rw [hfound]
        exact mismatchCount_plant htwo (mismatchCount_eq_zero_iff.mp (hclean ▸ hzero))
      exact ⟨vm₂, by rw [if_neg (not_not.mpr hone), if_neg (not_not.mpr hnone)]⟩

/-- **Verifier and self-test.** The verifier counts exactly the words that differ from the
expected one and leaves memory alone, for every memory, register file, range of guest RAM and
schedule of canceled entries; and so the self-test passes exactly on memory that is clean, and
leaves memory alone in either case. -/
theorem verify_exact_and_self_test_iff (ramSize : ℕ) (expected : BitVec 64) (vm : Vm) :
    (∀ startOff endOff sched, InRam ramSize startOff endOff → ∃ bound count vm',
      (∀ entries ≥ bound,
        runVerifyRange (ramMapped ramSize) sched entries startOff endOff expected vm
          = some (count, vm'))
      ∧ vm'.mem = vm.mem
      ∧ count.toNat = (List.range (pageCount startOff endOff)).countP
          fun i => load64 vm.mem (ramGpa + startOff + i * page) != expected)
    ∧ ∀ (hot : ℕ × ℕ) (sched sched' : CancelSchedule), InRam ramSize hot.1 hot.2 →
      1 < pageCount hot.1 hot.2 → ∃ bound result,
        (∀ entries ≥ bound,
          detectorSelfTest (ramMapped ramSize) sched sched' entries hot expected vm = result)
        ∧ result.mem? = some vm.mem
        ∧ ((∃ vm', result = .passed vm') ↔ ∀ i < pageCount hot.1 hot.2,
            load64 vm.mem (ramGpa + hot.1 + i * page) = expected) :=
  ⟨fun _ _ sched h => runVerifyRange_exact h expected sched vm,
    fun _ sched sched' h htwo => detectorSelfTest_iff h htwo expected sched sched' vm⟩

/-- Two pages of zeros where zero is expected, with every other entry canceled at once. -/
theorem verify_exact_and_self_test_two_pages :
    ∃ bound vm', ∀ entries ≥ bound, detectorSelfTest (ramMapped 32768)
        ⟨fun k => k % 2, everyOther_live⟩
        ⟨fun _ => 1, fun k => ⟨k, le_rfl, Nat.one_pos⟩⟩ entries (0, 32768) 0
        ⟨⟨fun _ => 7, 0, ⟨true, true, true, true⟩⟩, fun _ => 0⟩ = .passed vm' := by
  have hram : InRam 32768 0 32768 := by
    refine ⟨by decide, ?_, by decide⟩
    intro i hi
    rw [pageCount, page_eq] at hi
    rw [page_eq]
    omega
  have hcount : 1 < pageCount 0 32768 := by
    rw [pageCount, page_eq]
    decide
  obtain ⟨bound, result, hresult, -, hiff⟩ := (verify_exact_and_self_test_iff 32768 0
    ⟨⟨fun _ => 7, 0, ⟨true, true, true, true⟩⟩, fun _ => 0⟩).2 (0, 32768)
    ⟨fun k => k % 2, everyOther_live⟩
    ⟨fun _ => 1, fun k => ⟨k, le_rfl, Nat.one_pos⟩⟩ hram hcount
  obtain ⟨vm', rfl⟩ := hiff.mpr fun i _ => by simp [load64, wordNat]
  exact ⟨bound, vm', hresult⟩

end VmRatchet.Soak
