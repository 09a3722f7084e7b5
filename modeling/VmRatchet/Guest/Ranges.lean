import Mathlib.Data.BitVec
import VmRatchet.Guest.Refine

/-!
# Passes over consecutive ranges

The fleet run touches guest RAM region by region, the soak fills and verifies it half by half, and
every such call may come from another vCPU, with whatever its registers hold, and be canceled at
other instructions. What they do together is what one call over the whole range does, provided that
the ranges are cut at whole pages: the loop of a pass steps by pages from the start of its range, so
that a range cut elsewhere makes the next call visit other words.

* `PassEffect.append` — the reference effects of two consecutive ranges are that of both.
* `Calls` — one call after another.
* `Calls.effect` — what they do together, and what they count.
* `ranges_compose` — the one call over the whole range.
-/

namespace VmRatchet.Guest

open Arm64 ByteMemory

/-! ## Two ranges -/

/-- The pages of two consecutive ranges, of which the first is made of whole pages. -/
theorem pages_append {a b c : ℕ} (hab : a ≤ b) (hbc : b ≤ c) (hdvd : page ∣ b - a) :
    (c - a + (page - 1)) / page =
      (b - a + (page - 1)) / page + (c - b + (page - 1)) / page := by
  obtain ⟨k, hk⟩ := hdvd
  have hsplit : c - a + (page - 1) = c - b + (page - 1) + page * k := by omega
  have hfirst : (b - a + (page - 1)) / page = k := by
    rw [hk, Nat.add_comm, Nat.add_mul_div_left _ _ (by decide), Nat.div_eq_of_lt (by decide),
      Nat.zero_add]
  rw [hfirst, hsplit, Nat.add_mul_div_left _ _ (by decide), Nat.add_comm]

/-- A range that is a whole number of pages long needs exactly that many pages, without rounding. -/
theorem pages_of_dvd {a b : ℕ} (hdvd : page ∣ b - a) :
    (b - a + (page - 1)) / page * page = b - a := by
  obtain ⟨k, hk⟩ := hdvd
  rw [hk, Nat.add_comm, Nat.add_mul_div_left _ _ (by decide), Nat.div_eq_of_lt (by decide),
    Nat.zero_add, Nat.mul_comm]

/-- The words of the second of two neighbouring ranges are those of the whole range behind the pages
of the first. -/
theorem word_append {prog : Program} {value : BitVec 64} {a b c : ℕ} (hab : a ≤ b)
    (hdvd : page ∣ b - a) (i : ℕ) :
    (⟨prog, a, c, value⟩ : Pass).word ((⟨prog, a, b, value⟩ : Pass).pages + i) =
      (⟨prog, b, c, value⟩ : Pass).word i := by
  have hpages : (⟨prog, a, b, value⟩ : Pass).pages * page = b - a := pages_of_dvd hdvd
  simp only [Pass.word, Pass.base]
  rw [Nat.add_mul, hpages]
  omega

section append

variable {a b c : ℕ} {new : ℕ → BitVec 64 → BitVec 64} {m m₁ m₂ : Mem}

/-- A word of the first range is out of reach of a pass over the second. -/
theorem PassEffect.load64_before (h : PassEffect b c new m m₁) {w : ℕ}
    (hw : w + 8 ≤ ramGpa + b) : load64 m₁ w = load64 m w := by
  refine load64_congr fun j hj => h.frame _ fun i _ => .inl ?_
  omega

/-- And a word of the second range is out of reach of a pass over the first. -/
theorem PassEffect.load64_after (hab : a ≤ b) (hdvd : page ∣ b - a)
    (h : PassEffect a b new m m₁) {w : ℕ} (hw : ramGpa + b ≤ w) : load64 m₁ w = load64 m w := by
  refine load64_congr fun j hj => h.frame _ fun i hi => .inr ?_
  have hpages := pages_of_dvd hdvd
  have hle : (i + 1) * page ≤ (b - a + (page - 1)) / page * page := Nat.mul_le_mul_right page hi
  rw [hpages, Nat.add_mul, Nat.one_mul, page_eq] at hle
  rw [page_eq]
  omega

/-- **Two ranges.** A pass over one range and then over the next is a pass over both. -/
theorem PassEffect.append (hab : a ≤ b) (hbc : b ≤ c) (hdvd : page ∣ b - a)
    (h : PassEffect a b new m m₁)
    (h' : PassEffect b c (fun i old => new ((b - a + (page - 1)) / page + i) old) m₁ m₂) :
    PassEffect a c new m m₂ := by
  have hpages := pages_of_dvd hdvd
  have hword : ∀ i, ramGpa + a + ((b - a + (page - 1)) / page + i) * page =
      ramGpa + b + i * page := by
    intro i
    rw [Nat.add_mul, hpages]
    omega
  constructor
  · intro i hi
    by_cases hlt : i < (b - a + (page - 1)) / page
    · have hle : (i + 1) * page ≤ b - a := hpages ▸ Nat.mul_le_mul_right page hlt
      rw [Nat.add_mul, Nat.one_mul, page_eq] at hle
      have hbefore : ramGpa + a + i * page + 8 ≤ ramGpa + b := by
        rw [page_eq]
        omega
      rw [h'.load64_before hbefore, h.words i hlt]
    · obtain ⟨j, rfl⟩ := Nat.exists_eq_add_of_le (Nat.le_of_not_lt hlt)
      rw [pages_append hab hbc hdvd] at hi
      rw [hword j, h'.words j (by omega), h.load64_after hab hdvd (Nat.le_add_right _ _)]
  · intro x hx
    rw [pages_append hab hbc hdvd] at hx
    have hsecond : m₂ x = m₁ x := by
      refine h'.frame x fun i hi => ?_
      rw [← hword i]
      exact hx _ (Nat.add_lt_add_left hi _)
    rw [hsecond, h.frame x fun i hi => hx i (Nat.lt_add_right _ hi)]

/-- The mismatches of two stretches of words, one behind the other, add up. -/
theorem mismatchCount_add (f : ℕ → BitVec 64) (e : BitVec 64) (n k : ℕ) :
    mismatchCount f e (n + k) = mismatchCount f e n + mismatchCount (fun i => f (n + i)) e k := by
  induction k with
  | zero => rfl
  | succ k ih =>
      rw [← Nat.add_assoc, mismatchCount_succ, mismatchCount_succ, ih, Nat.add_assoc]

end append

/-! ## One call after another -/

/-- A call that the host makes: up to which offset, on which vCPU, and how it is canceled. -/
structure Call where
  endOff : ℕ
  /-- What the registers of the vCPU hold before. -/
  cpu : Cpu
  sched : CancelSchedule

/-- The calls return one after the other, each over the range from where the one before ended;
`counts` is what `x4` holds after each. -/
def Calls (mapped : ℕ → Bool) (prog : Program) (value : BitVec 64) :
    ℕ → List Call → Mem → List (BitVec 64) → Mem → Prop
  | _, [], m, counts, m' => counts = [] ∧ m' = m
  | a, c :: cs, m, counts, m' => ∃ entries vm rest,
      runPass mapped c.sched entries ⟨prog, a, c.endOff, value⟩ ⟨c.cpu, m⟩ = .returned vm ∧
        counts = vm.cpu.x 4 :: rest ∧ Calls mapped prog value c.endOff cs vm.mem rest m'

/-- No range is empty, and each but the last is made of whole pages. -/
def WholePages : ℕ → List Call → Prop
  | _, [] => True
  | a, c :: cs => a < c.endOff ∧ (cs ≠ [] → page ∣ c.endOff - a) ∧ WholePages c.endOff cs

/-- Where the last of a list of adjoining ranges ends, the first of which begins at the given
offset. -/
def lastOff : ℕ → List Call → ℕ
  | a, [] => a
  | _, c :: cs => lastOff c.endOff cs

section calls

variable {mapped : ℕ → Bool} {prog : Program} {value : BitVec 64} {a : ℕ} {cs : List Call}
  {m m' : Mem} {counts : List (BitVec 64)}

/-- The ranges go upwards: the last one ends behind the start of the first. -/
theorem WholePages.lt_lastOff (h : WholePages a cs) (hne : cs ≠ []) : a < lastOff a cs := by
  induction cs generalizing a with
  | nil => exact absurd rfl hne
  | cons c cs ih =>
      by_cases hcs : cs = []
      · subst hcs
        exact h.1
      · exact lt_trans h.1 (ih h.2.2 hcs)

/-- A call that has returned has done its reference effect, whatever it needed for that. -/
theorem runPass_returned {p : Pass} (hf : p.Fits mapped) {sched : CancelSchedule} {entries : ℕ}
    {vm vm' : Vm} (h : runPass mapped sched entries p vm = .returned vm') :
    PassEffect p.startOff p.endOff p.newWord vm.mem vm'.mem ∧
      (p.prog = .verify → vm'.cpu.x 4 =
        BitVec.ofNat 64 (mismatchCount (fun i => load64 vm.mem (p.word i)) p.value p.pages)) := by
  obtain ⟨entries', s', vm₁, hret, hin, hs⟩ := runPass_returns hf sched vm
  have hsame : vm' = vm₁ := by
    have hlong := runPassLoop_mono h (Nat.le_max_left entries entries')
    have hlong' := runPassLoop_mono hret (Nat.le_max_right entries entries')
    rw [hlong, PassResult.returned.injEq] at hlong'
    exact hlong'
  subst hsame
  exact ⟨⟨hin.effect.done hs, hin.frame⟩, verify_result hin.sim hin.effect hs⟩

/-- A range at the start of one that fits, and what is left of it. -/
theorem Pass.Fits.cut {b c : ℕ} (hab : a < b) (hbc : b < c) (hdvd : page ∣ b - a)
    (hf : (⟨prog, a, c, value⟩ : Pass).Fits mapped) :
    (⟨prog, a, b, value⟩ : Pass).Fits mapped ∧ (⟨prog, b, c, value⟩ : Pass).Fits mapped := by
  have hpages : (⟨prog, a, c, value⟩ : Pass).pages =
      (⟨prog, a, b, value⟩ : Pass).pages + (⟨prog, b, c, value⟩ : Pass).pages :=
    pages_append (le_of_lt hab) (le_of_lt hbc) hdvd
  have hend : ramGpa + c < 2 ^ 64 := hf.end_lt
  have hlast := hf.cursor_lt
  rw [hpages] at hlast
  have hmid : ramGpa + b < 2 ^ 64 := by omega
  refine ⟨⟨hab, ?_, hmid, fun i hi => ?_, hf.doorbell_unmapped⟩,
    ⟨hbc, ?_, hend, fun i hi => ?_, hf.doorbell_unmapped⟩⟩
  · exact lt_of_le_of_lt (Pass.word_mono _ (Nat.le_add_right _ _)) hlast
  · exact hf.words_mapped i (hpages ▸ Nat.lt_add_right _ hi)
  · rw [← word_append (le_of_lt hab) hdvd]
    exact hlast
  · rw [← word_append (le_of_lt hab) hdvd]
    exact hf.words_mapped _ (hpages ▸ Nat.add_lt_add_left hi _)

/-- The reference effect of a pass, seen from the pass over a longer range. -/
theorem newWord_append {b c : ℕ} (hab : a ≤ b) (hdvd : page ∣ b - a) (i : ℕ) :
    (⟨prog, a, c, value⟩ : Pass).newWord ((⟨prog, a, b, value⟩ : Pass).pages + i) =
      (⟨prog, b, c, value⟩ : Pass).newWord i := by
  funext old
  simp only [Pass.newWord, word_append hab hdvd]

/-- **The calls together.** They do what one pass over all the ranges does, and for a verifier the
counts add up to its count. By induction on the calls: the first one does its own range, which ends
at a whole page, so that the others begin at the next page of the long range. -/
theorem Calls.effect (hne : cs ≠ []) (hcuts : WholePages a cs)
    (hf : (⟨prog, a, lastOff a cs, value⟩ : Pass).Fits mapped)
    (h : Calls mapped prog value a cs m counts m') :
    PassEffect a (lastOff a cs) (⟨prog, a, lastOff a cs, value⟩ : Pass).newWord m m' ∧
      (prog = .verify → counts.sum = BitVec.ofNat 64 (mismatchCount
        (fun i => load64 m ((⟨prog, a, lastOff a cs, value⟩ : Pass).word i)) value
        (⟨prog, a, lastOff a cs, value⟩ : Pass).pages)) := by
  induction cs generalizing a m counts with
  | nil => exact absurd rfl hne
  | cons c cs ih =>
      obtain ⟨hlt, hdvd, hrest⟩ := hcuts
      obtain ⟨entries, vm, counts', hcall, rfl, hcalls⟩ := h
      by_cases hcs : cs = []
      · -- the last call
        subst hcs
        obtain ⟨rfl, rfl⟩ := hcalls
        obtain ⟨heff, hcount⟩ := runPass_returned hf hcall
        refine ⟨heff, fun hverify => ?_⟩
        rw [List.sum_singleton]
        exact hcount hverify
      · have hdvd := hdvd hcs
        have hbc : c.endOff < lastOff c.endOff cs := hrest.lt_lastOff hcs
        obtain ⟨hf₁, hf₂⟩ := hf.cut hlt hbc hdvd
        obtain ⟨heff₁, hcount₁⟩ := runPass_returned hf₁ hcall
        obtain ⟨heff₂, hcount₂⟩ := ih hcs hrest hf₂ hcalls
        constructor
        · refine heff₁.append (le_of_lt hlt) (le_of_lt hbc) hdvd ?_
          have hnew : (fun i => (⟨prog, a, lastOff c.endOff cs, value⟩ : Pass).newWord
              ((c.endOff - a + (page - 1)) / page + i)) =
              (⟨prog, c.endOff, lastOff c.endOff cs, value⟩ : Pass).newWord :=
            funext fun i => newWord_append (le_of_lt hlt) hdvd i
          exact hnew ▸ heff₂
        · intro hverify
          have hwords : (fun i => load64 m ((⟨prog, a, lastOff c.endOff cs, value⟩ : Pass).word
              ((⟨prog, a, c.endOff, value⟩ : Pass).pages + i))) =
              fun i => load64 vm.mem
                ((⟨prog, c.endOff, lastOff c.endOff cs, value⟩ : Pass).word i) := by
            funext i
            rw [word_append (le_of_lt hlt) hdvd]
            exact (heff₁.load64_after (le_of_lt hlt) hdvd (Nat.le_add_right _ _)).symm
          have hpages : (⟨prog, a, lastOff c.endOff cs, value⟩ : Pass).pages =
              (⟨prog, a, c.endOff, value⟩ : Pass).pages +
                (⟨prog, c.endOff, lastOff c.endOff cs, value⟩ : Pass).pages :=
            pages_append (le_of_lt hlt) (le_of_lt hbc) hdvd
          rw [List.sum_cons, hcount₁ hverify, hcount₂ hverify, lastOff, hpages, mismatchCount_add,
            hwords, BitVec.ofNat_add]
          rfl

/-- However the calls are made, on whichever vCPUs and however canceled, every one of them returns,
so that there is a run of all of them. -/
theorem exists_calls (hcuts : WholePages a cs)
    (hf : cs ≠ [] → (⟨prog, a, lastOff a cs, value⟩ : Pass).Fits mapped) (m : Mem) :
    ∃ counts m', Calls mapped prog value a cs m counts m' := by
  induction cs generalizing a m with
  | nil => exact ⟨[], m, rfl, rfl⟩
  | cons c cs ih =>
      obtain ⟨hlt, hdvd, hrest⟩ := hcuts
      have hfits := hf (List.cons_ne_nil c cs)
      by_cases hcs : cs = []
      · subst hcs
        obtain ⟨entries, s', vm, hret, -, -⟩ := runPass_returns hfits c.sched ⟨c.cpu, m⟩
        exact ⟨_, _, entries, vm, [], hret, rfl, rfl, rfl⟩
      · obtain ⟨hf₁, hf₂⟩ := hfits.cut hlt (hrest.lt_lastOff hcs) (hdvd hcs)
        obtain ⟨entries, s', vm, hret, -, -⟩ := runPass_returns hf₁ c.sched ⟨c.cpu, m⟩
        obtain ⟨counts, m', hcalls⟩ := ih hrest (fun _ => hf₂) vm.mem
        exact ⟨_, _, entries, vm, counts, hret, rfl, hcalls⟩

end calls

/-- **Ranges compose.** Cut the range of a pass at whole pages into any number of ranges, and make
a call for each in turn, on any vCPUs, whatever their registers hold, and canceled at whatever
instructions: every call returns, and together they leave the memory that a single call over the
whole range leaves, on whichever vCPU and however canceled; and if they verify, their counts add up
to its count. -/
theorem ranges_compose (ramSize : ℕ) (prog : Program) (value : BitVec 64) (startOff : ℕ)
    (calls : List Call) (hne : calls ≠ []) (hcuts : WholePages startOff calls)
    (hin : ∀ i < (lastOff startOff calls - startOff + (page - 1)) / page,
      startOff + i * page + 8 ≤ ramSize)
    (hwrap : ramGpa + lastOff startOff calls + page ≤ 2 ^ 64) (m : Mem) :
    (∃ counts m', Calls (ramMapped ramSize) prog value startOff calls m counts m') ∧
      ∀ counts m', Calls (ramMapped ramSize) prog value startOff calls m counts m' →
        ∀ (cpu : Cpu) (sched : CancelSchedule), ∃ entries vm,
          runPass (ramMapped ramSize) sched entries
              ⟨prog, startOff, lastOff startOff calls, value⟩ ⟨cpu, m⟩ = .returned vm ∧
            vm.mem = m' ∧ (prog = .verify → vm.cpu.x 4 = counts.sum) := by
  have hfits : (⟨prog, startOff, lastOff startOff calls, value⟩ : Pass).Fits (ramMapped ramSize) :=
    fits_ramMapped (hcuts.lt_lastOff hne) hin hwrap
  refine ⟨exists_calls hcuts (fun _ => hfits) m, fun counts m' hcalls cpu sched => ?_⟩
  obtain ⟨entries, s', vm, hret, -, -⟩ := runPass_returns hfits sched ⟨cpu, m⟩
  obtain ⟨heff, hcount⟩ := runPass_returned hfits hret
  obtain ⟨heffs, hcounts⟩ := hcalls.effect hne hcuts hfits
  refine ⟨entries, vm, hret, heff.unique heffs, fun hverify => ?_⟩
  rw [hcount hverify, hcounts hverify]

/-- Two calls on two vCPUs, the second of which does not end at a page. -/
theorem ranges_compose_two :
    let cpu : Cpu := ⟨fun _ => 7, 0, ⟨true, true, true, true⟩⟩
    let sched : CancelSchedule := ⟨fun k => k % 2, everyOther_live⟩
    let calls : List Call := [⟨16384, cpu, sched⟩, ⟨16389, { cpu with pc := 4 }, sched⟩]
    ∃ counts m', Calls (ramMapped 32768) .hammer 0 0 calls (fun _ => 0) counts m' ∧
      ∃ entries vm, runPass (ramMapped 32768) sched entries ⟨.hammer, 0, 16389, 0⟩
        ⟨cpu, fun _ => 0⟩ = .returned vm ∧ vm.mem = m' := by
  intro cpu sched calls
  obtain ⟨⟨counts, m', hcalls⟩, hone⟩ := ranges_compose 32768 .hammer 0 0 calls
    (List.cons_ne_nil _ _)
    ⟨by decide, fun _ => by decide, by decide, fun h => absurd rfl h, trivial⟩
    (by intro i hi; simp only [calls, lastOff, page_eq] at hi ⊢; omega) (by decide) (fun _ => 0)
  obtain ⟨entries, vm, hret, hmem, -⟩ := hone counts m' hcalls cpu sched
  exact ⟨counts, m', hcalls, entries, vm, hret, hmem⟩

end VmRatchet.Guest
