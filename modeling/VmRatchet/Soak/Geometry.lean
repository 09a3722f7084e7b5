import Mathlib.Data.Nat.Bitwise
import Mathlib.Tactic.Ring
import VmRatchet.Guest.Code

/-!
# The geometry of the soak

`soak::run` cuts guest RAM into one slot per vCPU and each slot into a hot and a cold half.

* `Options.slot`, `Options.half`, `Options.hot`, `Options.cold` — the layout, as the source
  computes it. `half` is rounded down to whole pages; `slot` is not.
* `reclaimCalls` — the system calls of `soak::reclaim` on one range, in order.
* `PageGranular` — what the page-granular calls need of the layout: page-aligned, pairwise
  disjoint ranges inside guest RAM, and calls that cover no page of another range.

Containment and disjointness hold for every accepted configuration (`range_le_ramSize`,
`ranges_disjoint`); alignment does not, because the slot is not rounded. `pageGranular_iff` says
exactly which configurations are page-granular.
-/

namespace VmRatchet.Soak

open Guest

/-- Source: `main.rs`, `ReclaimMode` -/
inductive ReclaimMode
  | reusable
  | munmap
  deriving DecidableEq

/-- The options `soak::run` reads for its layout and its reclaim.
Source: `main.rs`, `Options` -/
structure Options where
  sizeGb : ℕ
  vcpus : ℕ
  mode : ReclaimMode
  advice : ℤ

namespace Options

variable (o : Options)

/-- `opts.size_gb << 30` in `usize`.
Source: `soak.rs`, `run` -/
def ramSize : ℕ := (o.sizeGb <<< 30) % 2 ^ 64

/-- `opts.vcpus.max(1)`.
Source: `soak.rs`, `run` -/
def vcpuCount : ℕ := max o.vcpus 1

/-- Source: `soak.rs`, `run` -/
def slot : ℕ := o.ramSize / o.vcpuCount

/-- `(slot / 2) & !(PAGE - 1)`.
Source: `soak.rs`, `run` -/
def half : ℕ := (BitVec.ofNat 64 (o.slot / 2) &&& ~~~(BitVec.ofNat 64 (page - 1))).toNat

/-- The assertion at the head of `run`: the slots are not too small.
Source: `soak.rs`, `run` -/
def Accepted : Prop := 2 * page * 16 ≤ o.slot

/-- Source: `soak.rs`, `worker` -/
def hot (k : ℕ) : ℕ × ℕ := (k * o.slot, k * o.slot + o.half)

/-- Source: `soak.rs`, `worker` -/
def cold (k : ℕ) : ℕ × ℕ := (k * o.slot + o.half, k * o.slot + 2 * o.half)

/-- The hot and the cold range of every worker. -/
def ranges : List (ℕ × ℕ) := (List.range o.vcpuCount).flatMap fun k => [o.hot k, o.cold k]

/-! ## The halves -/

/-- Clearing the low 14 bits rounds down to a page. -/
theorem and_not_page_sub_one {x : ℕ} (hx : x < 2 ^ 64) :
    (BitVec.ofNat 64 x &&& ~~~(BitVec.ofNat 64 (page - 1))).toNat = x / page * page := by
  have hmask : (~~~(BitVec.ofNat 64 (page - 1))).toNat = 2 ^ 64 - ((2 ^ 14 - 1) + 1) := by decide
  rw [BitVec.toNat_and, hmask, BitVec.toNat_ofNat, Nat.mod_eq_of_lt hx,
    show page = 2 ^ 14 from rfl]
  apply Nat.eq_of_testBit_eq
  intro i
  rw [Nat.testBit_and, Nat.testBit_two_pow_sub_succ (by decide), Nat.testBit_two_pow_sub_one,
    Nat.testBit_mul_two_pow, Nat.testBit_div_two_pow]
  by_cases hi : 14 ≤ i
  · by_cases hi' : i < 64
    · simp [hi, hi', Nat.not_lt.mpr hi]
    · have hbit : x.testBit i = false :=
        Nat.testBit_lt_two_pow (lt_of_lt_of_le hx (Nat.pow_le_pow_right (by omega) (by omega)))
      simp [hi', hbit, hi]
  · simp [hi, Nat.lt_of_not_le hi]

/-- The slot fits a `usize`, since it is a quotient of the RAM size. -/
theorem slot_lt : o.slot < 2 ^ 64 :=
  lt_of_le_of_lt (Nat.div_le_self _ _) (Nat.mod_lt _ (by decide))

/-- The half of a slot is half of it rounded down to a whole number of pages: this is what the mask
`!(PAGE - 1)` does. -/
theorem half_eq : o.half = o.slot / 2 / page * page :=
  and_not_page_sub_one (lt_of_le_of_lt (Nat.div_le_self _ _) o.slot_lt)

/-- The two halves together fit in the slot they are cut from. -/
theorem two_mul_half_le : 2 * o.half ≤ o.slot := by
  rw [half_eq]
  have h1 := Nat.div_mul_le_self (o.slot / 2) page
  have h2 := Nat.div_mul_le_self o.slot 2
  omega

/-- The half is a multiple of the page size. -/
theorem page_dvd_half : page ∣ o.half := by
  rw [half_eq]
  exact Dvd.intro_left _ rfl

/-- An accepted slot has at least sixteen pages in each half. -/
theorem le_half (h : o.Accepted) : 16 * page ≤ o.half := by
  rw [half_eq]
  unfold Accepted at h
  rw [page_eq] at h ⊢
  omega

/-! ## Containment and disjointness -/

/-- There is at least one worker, because `run` takes the maximum of the option and one. -/
theorem vcpuCount_pos : 0 < o.vcpuCount := lt_of_lt_of_le Nat.one_pos (le_max_right _ _)

/-- The slots of all workers fit in guest RAM. -/
theorem slot_le_ramSize {k : ℕ} (hk : k < o.vcpuCount) : (k + 1) * o.slot ≤ o.ramSize :=
  le_trans (Nat.mul_le_mul_right _ hk) (Nat.mul_div_le _ _)

/-- The ranges of worker `k` lie in its slot, hot before cold. -/
theorem range_in_slot (k : ℕ) :
    (o.hot k).1 = k * o.slot ∧ (o.hot k).2 = (o.cold k).1 ∧ (o.cold k).2 ≤ (k + 1) * o.slot := by
  refine ⟨rfl, rfl, ?_⟩
  have h := o.two_mul_half_le
  rw [Nat.add_mul, Nat.one_mul]
  exact Nat.add_le_add_left h _

/-- A range of the layout is a half of some worker. -/
theorem mem_ranges {r : ℕ × ℕ} : r ∈ o.ranges ↔ ∃ k < o.vcpuCount, r = o.hot k ∨ r = o.cold k := by
  simp [ranges]

/-- Every range lies inside guest RAM and is as long as a half. -/
theorem range_le_ramSize {r : ℕ × ℕ} (h : r ∈ o.ranges) :
    r.2 = r.1 + o.half ∧ r.2 ≤ o.ramSize := by
  obtain ⟨k, hk, hr⟩ := o.mem_ranges.mp h
  have hslot := o.slot_le_ramSize hk
  have hfit := (o.range_in_slot k).2.2
  rcases hr with rfl | rfl
  · exact ⟨rfl, by simp only [hot, cold] at hfit ⊢; omega⟩
  · exact ⟨by simp only [cold]; omega, le_trans hfit hslot⟩

/-- The ranges of the layout are pairwise disjoint, and stand in ascending order: each one ends
before every later one starts. -/
theorem ranges_disjoint : o.ranges.Pairwise fun r r' => r.2 ≤ r'.1 := by
  unfold ranges
  rw [List.pairwise_flatMap]
  constructor
  · intro k _
    simp [hot, cold]
  · refine List.pairwise_lt_range.imp fun {k k'} hlt => ?_
    have hstep : (k + 1) * o.slot ≤ k' * o.slot := Nat.mul_le_mul_right _ hlt
    have hfit := (o.range_in_slot k).2.2
    simp only [hot, cold] at hfit ⊢
    simp only [List.mem_cons, List.not_mem_nil, or_false]
    rintro r (rfl | rfl) r' (rfl | rfl) <;> simp only <;> omega

end Options

/-! ## The calls of one reclaim -/

/-- The system calls `soak::reclaim` issues, with their addresses and lengths. -/
inductive Call
  | hvVmUnmap (gpa len : ℕ)
  | madvise (addr len : ℕ) (advice : ℤ)
  | munmap (addr len : ℕ)
  | mmapFixed (addr len : ℕ)
  | hvVmMap (addr gpa len : ℕ)
  deriving DecidableEq

/-- The calls of one reclaim of `range`, in order; `ram` is the host address of guest RAM.
Source: `soak.rs`, `reclaim` -/
def reclaimCalls (ram : ℕ) (range : ℕ × ℕ) (mode : ReclaimMode) (advice : ℤ) : List Call :=
  let len := range.2 - range.1
  let gpa := ramGpa + range.1
  let host := ram + range.1
  .hvVmUnmap gpa len ::
    (match mode with
      | .reusable => [.madvise host len advice]
      | .munmap => [.munmap host len, .mmapFixed host len]) ++ [.hvVmMap host gpa len]

namespace Call

/-- The addresses and lengths a call is given. -/
def args : Call → List ℕ
  | hvVmUnmap gpa len => [gpa, len]
  | madvise addr len _ => [addr, len]
  | munmap addr len => [addr, len]
  | mmapFixed addr len => [addr, len]
  | hvVmMap addr gpa len => [addr, gpa, len]

/-- The parts of guest RAM a call acts on, as offsets and lengths. -/
def extents (ram : ℕ) : Call → List (ℕ × ℕ)
  | hvVmUnmap gpa len => [(gpa - ramGpa, len)]
  | madvise addr len _ => [(addr - ram, len)]
  | munmap addr len => [(addr - ram, len)]
  | mmapFixed addr len => [(addr - ram, len)]
  | hvVmMap addr gpa len => [(addr - ram, len), (gpa - ramGpa, len)]

end Call

/-- Page `q` of guest RAM has a byte in `[a, b)`. -/
def Meets (a b q : ℕ) : Prop := a < (q + 1) * page ∧ q * page < b

/-- Every call of a reclaim acts on exactly the reclaimed range: its offsets are those of the range,
and its arguments are the addresses and the length of it. -/
theorem extents_reclaimCalls {ram : ℕ} {range : ℕ × ℕ} {mode : ReclaimMode} {advice : ℤ} {c : Call}
    (hc : c ∈ reclaimCalls ram range mode advice) :
    (∀ e ∈ c.extents ram, e = (range.1, range.2 - range.1)) ∧
      ∀ a ∈ c.args, a = ramGpa + range.1 ∨ a = ram + range.1 ∨ a = range.2 - range.1 := by
  cases mode <;> simp only [reclaimCalls, List.cons_append, List.nil_append, List.mem_cons,
    List.not_mem_nil, or_false] at hc
  · rcases hc with rfl | rfl | rfl <;> simp [Call.extents, Call.args]
  · rcases hc with rfl | rfl | rfl | rfl <;> simp [Call.extents, Call.args]

/-! ## Page granularity -/

/-- **The layout is page-granular**: every range starts on a page boundary and is a positive
number of pages long, inside guest RAM and disjoint from the others, and every call of every
reclaim gets page-aligned arguments and covers no page of another range. -/
structure PageGranular (o : Options) (ram : ℕ) : Prop where
  aligned : ∀ r ∈ o.ranges, page ∣ r.1
  length : ∀ r ∈ o.ranges, page ∣ r.2 - r.1 ∧ 0 < r.2 - r.1
  inside : ∀ r ∈ o.ranges, r.1 ≤ r.2 ∧ r.2 ≤ o.sizeGb <<< 30
  disjoint : o.ranges.Pairwise fun r r' => r.2 ≤ r'.1 ∨ r'.2 ≤ r.1
  calls : ∀ k < o.vcpuCount, ∀ c ∈ reclaimCalls ram (o.cold k) o.mode o.advice,
    (∀ a ∈ c.args, page ∣ a) ∧
      ∀ r ∈ o.ranges, r ≠ o.cold k → ∀ e ∈ c.extents ram, ∀ q,
        Meets e.1 (e.1 + e.2) q → ¬ Meets r.1 r.2 q

/-- The slot is a whole number of pages exactly when the remainder of the division into
page-sized slots is smaller than the number of workers. -/
theorem page_dvd_slot_iff {o : Options} (hv : 1 ≤ o.vcpus) (hbits : o.sizeGb <<< 30 < 2 ^ 64) :
    page ∣ o.slot ↔ (o.sizeGb <<< 30) % (o.vcpus * page) < o.vcpus := by
  have hcount : o.vcpuCount = o.vcpus := max_eq_left hv
  have hsize : o.ramSize = o.sizeGb <<< 30 := Nat.mod_eq_of_lt hbits
  unfold Options.slot
  rw [hcount, hsize, Nat.dvd_iff_mod_eq_zero, ← Nat.mod_mul_right_div_self,
    Nat.div_eq_zero_iff]
  omega

/-- Two page-aligned ranges that do not overlap have no page in common: a page that meets the first
does not meet the second. -/
theorem not_meets_of_aligned {a b c d q : ℕ} (hb : page ∣ b) (hc : page ∣ c)
    (h : b ≤ c) (hab : Meets a b q) : ¬ Meets c d q := by
  obtain ⟨x, rfl⟩ := hb
  obtain ⟨y, rfl⟩ := hc
  unfold Meets at hab ⊢
  rw [page_eq] at *
  omega

/-- With whole-page slots every range boundary is a page boundary. -/
theorem page_dvd_range {o : Options} (h : page ∣ o.slot) {r : ℕ × ℕ} (hr : r ∈ o.ranges) :
    page ∣ r.1 ∧ page ∣ r.2 := by
  obtain ⟨k, -, hk⟩ := o.mem_ranges.mp hr
  have hslot : page ∣ k * o.slot := Dvd.dvd.mul_left h k
  have hhalf := o.page_dvd_half
  rcases hk with rfl | rfl
  · exact ⟨hslot, Nat.dvd_add hslot hhalf⟩
  · exact ⟨Nat.dvd_add hslot hhalf, Nat.dvd_add hslot (Dvd.dvd.mul_left hhalf 2)⟩

/-- Two different ranges of the layout do not overlap, whichever comes first. -/
theorem range_le_or_le {o : Options} {r r' : ℕ × ℕ} (hr : r ∈ o.ranges) (hr' : r' ∈ o.ranges)
    (hne : r ≠ r') : r.2 ≤ r'.1 ∨ r'.2 ≤ r.1 := by
  obtain ⟨k, hk, hrk⟩ := o.mem_ranges.mp hr
  obtain ⟨k', hk', hrk'⟩ := o.mem_ranges.mp hr'
  have hfit := (o.range_in_slot k).2.2
  have hfit' := (o.range_in_slot k').2.2
  simp only [Options.cold] at hfit hfit'
  rcases Nat.lt_trichotomy k k' with hlt | rfl | hlt
  · have hstep : (k + 1) * o.slot ≤ k' * o.slot := Nat.mul_le_mul_right _ hlt
    rcases hrk with rfl | rfl <;> rcases hrk' with rfl | rfl <;>
      simp only [Options.hot, Options.cold] <;> omega
  · rcases hrk with rfl | rfl <;> rcases hrk' with rfl | rfl
    · exact absurd rfl hne
    · exact .inl le_rfl
    · exact .inr le_rfl
    · exact absurd rfl hne
  · have hstep : (k' + 1) * o.slot ≤ k * o.slot := Nat.mul_le_mul_right _ hlt
    rcases hrk with rfl | rfl <;> rcases hrk' with rfl | rfl <;>
      simp only [Options.hot, Options.cold] <;> omega

/-- Slots of whole pages are enough for page granularity: with them every range starts at a page, is
a positive number of pages long, lies in guest RAM and meets no other, and every host call gets such
a range. -/
theorem pageGranular_of_dvd {o : Options} {ram : ℕ} (hacc : o.Accepted) (hram : page ∣ ram)
    (h : page ∣ o.slot) : PageGranular o ram where
  aligned r hr := (page_dvd_range h hr).1
  length r hr := by
    obtain ⟨hlen, -⟩ := o.range_le_ramSize hr
    rw [hlen, Nat.add_sub_cancel_left]
    have := o.le_half hacc
    exact ⟨o.page_dvd_half, by rw [page_eq] at this; omega⟩
  inside r hr := by
    obtain ⟨hlen, hle⟩ := o.range_le_ramSize hr
    exact ⟨by omega, le_trans hle (Nat.mod_le _ _)⟩
  disjoint := o.ranges_disjoint.imp fun h => Or.inl h
  calls k hk c hc := by
    have hmem : o.cold k ∈ o.ranges := o.mem_ranges.mpr ⟨k, hk, .inr rfl⟩
    obtain ⟨hcold, hcold'⟩ := page_dvd_range h hmem
    obtain ⟨hext, hargs⟩ := extents_reclaimCalls hc
    constructor
    · intro a ha
      rcases hargs a ha with rfl | rfl | rfl
      · exact Nat.dvd_add (by decide) hcold
      · exact Nat.dvd_add hram hcold
      · exact Nat.dvd_sub hcold' hcold
    · intro r hr hne e he q hq hq'
      rw [hext e he] at hq
      obtain ⟨hlen, -⟩ := o.range_le_ramSize hmem
      rw [show (o.cold k).1 + ((o.cold k).2 - (o.cold k).1) = (o.cold k).2 by omega] at hq
      rcases range_le_or_le hr hmem hne with hle | hle
      · exact not_meets_of_aligned (page_dvd_range h hr).2 hcold hle hq' hq
      · exact not_meets_of_aligned hcold' (page_dvd_range h hr).1 hle hq hq'

/-- **When the soak's layout is page-granular.** For every accepted configuration the layout is
page-granular exactly when dividing guest RAM into page-sized slots leaves a remainder smaller
than the number of workers; otherwise the second worker already starts inside a page. -/
theorem pageGranular_iff (o : Options) (ram : ℕ) (hv : 1 ≤ o.vcpus) (hacc : o.Accepted)
    (hbits : o.sizeGb <<< 30 < 2 ^ 64) (hram : page ∣ ram) :
    PageGranular o ram ↔ (o.sizeGb <<< 30) % (o.vcpus * page) < o.vcpus := by
  rw [← page_dvd_slot_iff hv hbits]
  refine ⟨fun h => ?_, pageGranular_of_dvd hacc hram⟩
  have hcount : o.vcpuCount = o.vcpus := max_eq_left hv
  rcases Nat.lt_or_ge 1 o.vcpus with h1 | h1
  · -- the hot half of worker 1 starts at `slot`
    have hmem : o.hot 1 ∈ o.ranges := o.mem_ranges.mpr ⟨1, by omega, .inl rfl⟩
    have := h.aligned _ hmem
    rwa [Options.hot, Nat.one_mul] at this
  · -- one worker: the slot is guest RAM, a whole number of GiB
    have hslot : o.slot = o.sizeGb <<< 30 := by
      unfold Options.slot
      rw [hcount, show o.vcpus = 1 by omega, Nat.div_one]
      exact Nat.mod_eq_of_lt hbits
    rw [hslot, Nat.shiftLeft_eq]
    exact Dvd.dvd.mul_left (by decide) _

/-- Four workers on the default 3 GiB have slots of whole pages, so their layout is
page-granular. -/
theorem pageGranular_default : PageGranular ⟨3, 4, .reusable, 7⟩ 0 :=
  (pageGranular_iff ⟨3, 4, .reusable, 7⟩ 0 (by decide) (by unfold Options.Accepted; decide)
    (by decide) (dvd_zero _)).mpr (by decide)

/-- Three workers on 1 GiB are accepted, and their layout is not page-granular. -/
theorem three_workers_not_pageGranular :
    (⟨1, 3, .reusable, 7⟩ : Options).Accepted ∧ ¬ PageGranular ⟨1, 3, .reusable, 7⟩ 0 := by
  refine ⟨by unfold Options.Accepted; decide, fun h => ?_⟩
  have hmem : (⟨1, 3, .reusable, 7⟩ : Options).hot 1 ∈ (⟨1, 3, .reusable, 7⟩ : Options).ranges :=
    Options.mem_ranges _ |>.mpr ⟨1, by decide, .inl rfl⟩
  have := h.aligned _ hmem
  revert this
  decide

end VmRatchet.Soak
