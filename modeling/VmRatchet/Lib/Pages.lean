import Mathlib.Data.Finset.Card
import Mathlib.Data.Finset.Range
import VmRatchet.Lib.Memory

/-!
# Marked pages

A range of memory that is cut into pages of equal length: writing a marker into the first word of
every page, zeroing some of the pages, and counting the pages whose first word is what it should
be. Pages are numbered from the start of the range.

* `markPages` — the markers; `load64_markPages`.
* `zeroPages` — zeroing; `load64_zeroPages`.
* `countP_mem_range`, `countP_not_mem_range` — how many of the first pages belong to a set of
  pages, and how many do not.
-/

namespace ByteMemory

variable {m : Mem} {base stride n i : ℕ} {mark : ℕ → BitVec 64} {D : Finset ℕ}

/-! ## Markers -/

/-- Store `mark i` in the first word of page `i`, for the first `n` pages. -/
def markPages (base stride : ℕ) (mark : ℕ → BitVec 64) (n : ℕ) (m : Mem) : Mem :=
  (List.range n).foldl (fun m i => store64 m (base + i * stride) (mark i)) m

/-- Marking one more page is one more store. -/
theorem markPages_succ : markPages base stride mark (n + 1) m =
    store64 (markPages base stride mark n m) (base + n * stride) (mark n) := by
  rw [markPages, List.range_succ, List.foldl_append]
  rfl

/-- The first words of two pages have no byte in common. -/
theorem word_disjoint_of_ne (hstride : 8 ≤ stride) {i j : ℕ} (h : i ≠ j) :
    base + i * stride + 8 ≤ base + j * stride ∨ base + j * stride + 8 ≤ base + i * stride := by
  have key : ∀ {x y : ℕ}, x < y → x * stride + 8 ≤ y * stride := by
    intro x y hxy
    calc x * stride + 8 ≤ x * stride + stride := Nat.add_le_add_left hstride _
      _ = (x + 1) * stride := (Nat.succ_mul x stride).symm
      _ ≤ y * stride := Nat.mul_le_mul_right stride hxy
  rcases Nat.lt_or_gt_of_ne h with hlt | hlt
  · have := key hlt
    omega
  · have := key hlt
    omega

/-- After the marking every page holds its own marker, since the strides keep their words apart. -/
theorem load64_markPages (hstride : 8 ≤ stride) (hi : i < n) :
    load64 (markPages base stride mark n m) (base + i * stride) = mark i := by
  induction n with
  | zero => omega
  | succ n ih =>
      rw [markPages_succ]
      by_cases hin : i = n
      · rw [hin, load64_store64]
      · rw [load64_store64_of_disjoint (word_disjoint_of_ne hstride hin)]
        exact ih (by omega)

/-! ## Zeroed pages -/

/-- The memory in which the pages of `D` read as zeros, and all else as in `m`. -/
def zeroPages (base stride : ℕ) (D : Finset ℕ) (m : Mem) : Mem :=
  fun a => if base ≤ a ∧ (a - base) / stride ∈ D then 0 else m a

/-- The first word of a page is zero if the page was zeroed, and else what it was. -/
theorem load64_zeroPages (hstride : 8 ≤ stride) (i : ℕ) :
    load64 (zeroPages base stride D m) (base + i * stride) =
      if i ∈ D then 0 else load64 m (base + i * stride) := by
  have hpage : ∀ b < 8, (base + i * stride + b - base) / stride = i := by
    intro b hb
    rw [Nat.add_assoc, Nat.add_sub_cancel_left, Nat.mul_comm, Nat.mul_add_div (by omega),
      Nat.div_eq_of_lt (by omega), Nat.add_zero]
  split_ifs with hi
  · have hz : load64 (zeroPages base stride D m) (base + i * stride) =
        load64 (fun _ => 0) (base + i * stride) := by
      apply load64_congr
      intro b hb
      rw [zeroPages, if_pos]
      exact ⟨by omega, by rw [hpage b hb]; exact hi⟩
    rw [hz]
    simp [load64, wordNat]
  · apply load64_congr
    intro b hb
    rw [zeroPages, if_neg]
    rintro ⟨-, hmem⟩
    rw [hpage b hb] at hmem
    exact hi hmem

/-! ## Counting -/

/-- A loop that adds one for each element with a property counts these elements. -/
theorem foldl_count {α : Type} (p : α → Bool) (l : List α) (k : ℕ) :
    l.foldl (fun n a => if p a then n + 1 else n) k = k + l.countP p := by
  induction l generalizing k with
  | nil => rfl
  | cons a l ih =>
      rw [List.foldl_cons, ih, List.countP_cons]
      split_ifs <;> omega

/-- A loop with two counters, the second of which counts only where the first does not, counts both
kinds. -/
theorem foldl_count_two {α : Type} (p q : α → Bool) (l : List α) (j k : ℕ) :
    l.foldl (fun (x, y) a => if p a then (x + 1, y) else if q a then (x, y + 1) else (x, y))
      (j, k) = (j + l.countP p, k + l.countP fun a => !p a && q a) := by
  induction l generalizing j k with
  | nil => rfl
  | cons a l ih =>
      rw [List.foldl_cons, List.countP_cons, List.countP_cons]
      cases hp : p a with
      | true =>
          simp only [if_true, ih, Bool.not_true, Bool.false_and, Bool.false_eq_true, if_false,
            Prod.mk.injEq]
          omega
      | false =>
          cases hq : q a with
          | true =>
              simp only [if_true, ih, Bool.not_false, Bool.and_true, Bool.false_eq_true, if_false,
                Prod.mk.injEq]
              omega
          | false =>
              simp only [ih, Bool.and_false, Bool.false_eq_true, if_false, Prod.mk.injEq]
              omega

/-- Of the first `n` pages as many belong to `D` as `D` has elements. -/
theorem countP_mem_range (hD : D ⊆ Finset.range n) :
    (List.range n).countP (fun i => decide (i ∈ D)) = D.card := by
  have hcard : (List.range n).countP (fun i => decide (i ∈ D)) =
      ((Finset.range n).filter (· ∈ D)).card := List.countP_eq_length_filter
  rw [hcard, Finset.filter_mem_eq_inter, Finset.inter_eq_right.mpr hD]

/-- Of the numbers below `n` all but those of `D` are not in `D`. -/
theorem countP_not_mem_range (hD : D ⊆ Finset.range n) :
    (List.range n).countP (fun i => decide (i ∉ D)) = n - D.card := by
  have hsum := List.length_eq_countP_add_countP (fun i => decide (i ∈ D)) (l := List.range n)
  rw [countP_mem_range hD, List.length_range] at hsum
  have heq : (List.range n).countP (fun i => decide (i ∉ D)) =
      (List.range n).countP fun i => ¬ (decide (i ∈ D)) = true := by
    simp
  omega

end ByteMemory
