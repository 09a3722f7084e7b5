import Mathlib.Data.Nat.Basic
import Mathlib.Tactic.Common
import Mathlib.Tactic.IntervalCases

/-!
# Byte-addressed memory with 64-bit little-endian words

Memory is a total function from byte addresses to bytes. A word access reads or writes the
eight bytes from its address upwards, aligned or not, and touches no other byte.

* `load64 m a` / `store64 m a v` — the word access, with its read-over-write laws
  (`load64_store64`, `load64_store64_of_disjoint`) and its frame law
  (`store64_apply_of_not_mem`).
* `load64_congr` — a word depends on its eight bytes only. This is what lets an invariant about
  one thread's words survive every write another thread makes elsewhere.
* `setRange f a n v` — overwrite `n` consecutive entries of any address-indexed function; used
  for whole-range operations (a page zeroed, a range mapped or unmapped).
* `mapRange f g n a` — let `n` consecutive entries of a translation point to `n` consecutive
  addresses.
-/

namespace ByteMemory

/-- Memory: one byte at every address. -/
abbrev Mem := ℕ → BitVec 8

/-! ## Words -/

/-- Byte `i` of a word, counted from the least significant one. -/
def byteOf (v : BitVec 64) (i : ℕ) : BitVec 8 := BitVec.ofNat 8 (v.toNat / 256 ^ i)

/-- The value of the eight bytes from address `a` upwards, least significant byte first. -/
def wordNat (m : Mem) (a : ℕ) : ℕ :=
  (m a).toNat + (m (a + 1)).toNat * 256 + (m (a + 2)).toNat * 256 ^ 2
    + (m (a + 3)).toNat * 256 ^ 3 + (m (a + 4)).toNat * 256 ^ 4 + (m (a + 5)).toNat * 256 ^ 5
    + (m (a + 6)).toNat * 256 ^ 6 + (m (a + 7)).toNat * 256 ^ 7

/-- Load the 64-bit word at byte address `a`, the lowest byte first. -/
def load64 (m : Mem) (a : ℕ) : BitVec 64 := BitVec.ofNat 64 (wordNat m a)

/-- Store the 64-bit word `v` at byte address `a`. -/
def store64 (m : Mem) (a : ℕ) (v : BitVec 64) : Mem :=
  fun b => if a ≤ b ∧ b < a + 8 then byteOf v (b - a) else m b

/-- A store leaves every byte outside its word unchanged. -/
theorem store64_apply_of_not_mem {m : Mem} {a b : ℕ} {v : BitVec 64} (h : b < a ∨ a + 8 ≤ b) :
    store64 m a v b = m b := by
  unfold store64
  rw [if_neg (by omega)]

/-- Byte `i < 8` of a stored word is byte `i` of the value. -/
theorem store64_apply_add {m : Mem} {a i : ℕ} {v : BitVec 64} (h : i < 8) :
    store64 m a v (a + i) = byteOf v i := by
  unfold store64
  rw [if_pos (by omega), Nat.add_sub_cancel_left]

/-- A word that is loaded depends on its eight bytes only. -/
theorem load64_congr {m m' : Mem} {a : ℕ} (h : ∀ i < 8, m (a + i) = m' (a + i)) :
    load64 m a = load64 m' a := by
  have h0 : m a = m' a := h 0 (by omega)
  unfold load64 wordNat
  rw [h0, h 1 (by omega), h 2 (by omega), h 3 (by omega), h 4 (by omega), h 5 (by omega),
    h 6 (by omega), h 7 (by omega)]

/-- Loading the word just stored gives the value back. -/
@[simp] theorem load64_store64 (m : Mem) (a : ℕ) (v : BitVec 64) :
    load64 (store64 m a v) a = v := by
  have h0 : store64 m a v a = byteOf v 0 := store64_apply_add (i := 0) (by omega)
  apply BitVec.eq_of_toNat_eq
  have hlt := v.isLt
  unfold load64 wordNat
  rw [h0]
  simp only [store64_apply_add (show (1 : ℕ) < 8 by omega),
    store64_apply_add (show (2 : ℕ) < 8 by omega), store64_apply_add (show (3 : ℕ) < 8 by omega),
    store64_apply_add (show (4 : ℕ) < 8 by omega), store64_apply_add (show (5 : ℕ) < 8 by omega),
    store64_apply_add (show (6 : ℕ) < 8 by omega), store64_apply_add (show (7 : ℕ) < 8 by omega),
    byteOf, BitVec.toNat_ofNat]
  omega

/-- A store leaves every word that shares no byte with it unchanged. -/
theorem load64_store64_of_disjoint {m : Mem} {a b : ℕ} {v : BitVec 64}
    (h : a + 8 ≤ b ∨ b + 8 ≤ a) : load64 (store64 m b v) a = load64 m a :=
  load64_congr fun _ _ => store64_apply_of_not_mem (by omega)

/-- The bytes of a word are the bytes it was read from. -/
theorem byteOf_load64 (m : Mem) (a : ℕ) {i : ℕ} (h : i < 8) :
    byteOf (load64 m a) i = m (a + i) := by
  have h0 := (m a).isLt
  have h1 := (m (a + 1)).isLt
  have h2 := (m (a + 2)).isLt
  have h3 := (m (a + 3)).isLt
  have h4 := (m (a + 4)).isLt
  have h5 := (m (a + 5)).isLt
  have h6 := (m (a + 6)).isLt
  have h7 := (m (a + 7)).isLt
  apply BitVec.eq_of_toNat_eq
  simp only [byteOf, load64, wordNat, BitVec.toNat_ofNat]
  interval_cases i <;> first | (rw [show m (a + 0) = m a from rfl]; omega) | omega

/-- Where two memories hold equal words, they hold equal bytes in them. -/
theorem eq_of_load64_eq {m m' : Mem} {a b : ℕ} (h : load64 m a = load64 m' a)
    (hb : a ≤ b ∧ b < a + 8) : m b = m' b := by
  obtain ⟨i, rfl⟩ := Nat.exists_eq_add_of_le hb.1
  rw [← byteOf_load64 m a (by omega), h, byteOf_load64 m' a (by omega)]

/-! ## Whole ranges -/

/-- Overwrite the entries `a, a + 1, …, a + n - 1` by `v`. -/
def setRange {α : Type} (f : ℕ → α) (a n : ℕ) (v : α) : ℕ → α :=
  fun b => if a ≤ b ∧ b < a + n then v else f b

/-- An entry inside the overwritten range is the new value. -/
theorem setRange_of_mem {α : Type} {f : ℕ → α} {a n b : ℕ} {v : α} (h : a ≤ b ∧ b < a + n) :
    setRange f a n v b = v := if_pos h

/-- An entry outside the overwritten range is as it was. -/
theorem setRange_of_not_mem {α : Type} {f : ℕ → α} {a n b : ℕ} {v : α}
    (h : b < a ∨ a + n ≤ b) : setRange f a n v b = f b :=
  if_neg (by omega)

/-- A word that lies inside a zeroed range reads zero. -/
theorem load64_setRange_zero {m : Mem} {a n b : ℕ} (h : a ≤ b ∧ b + 8 ≤ a + n) :
    load64 (setRange m a n 0) b = 0 := by
  have hz : load64 (setRange m a n 0) b = load64 (fun _ => 0) b :=
    load64_congr fun i hi => setRange_of_mem (by omega)
  rw [hz]
  simp [load64, wordNat]

/-- A word that lies outside an overwritten range reads as before. -/
theorem load64_setRange_of_disjoint {m : Mem} {a n b : ℕ} {v : BitVec 8}
    (h : b + 8 ≤ a ∨ a + n ≤ b) : load64 (setRange m a n v) b = load64 m b :=
  load64_congr fun _ _ => setRange_of_not_mem (by omega)

/-- Apply `g` to the entries `a, a + 1, …, a + n - 1`. -/
def updateRange {α : Type} (f : ℕ → α) (a n : ℕ) (g : α → α) : ℕ → α :=
  fun b => if a ≤ b ∧ b < a + n then g (f b) else f b

section updateRange

variable {α : Type} {f : ℕ → α} {a n b : ℕ} {g : α → α}

/-- An entry inside the range is updated. -/
theorem updateRange_of_mem (h : a ≤ b ∧ b < a + n) : updateRange f a n g b = g (f b) := if_pos h

/-- An entry outside the range is as it was. -/
theorem updateRange_of_not_mem (h : ¬ (a ≤ b ∧ b < a + n)) : updateRange f a n g b = f b := if_neg h

/-- Updating an empty range changes nothing. -/
@[simp] theorem updateRange_zero : updateRange f a 0 g = f := by
  funext b
  exact updateRange_of_not_mem (by omega)

/-- Updating one range twice is updating it once with the composition. -/
theorem updateRange_updateRange (f : ℕ → α) (a n : ℕ) (g g' : α → α) :
    updateRange (updateRange f a n g) a n g' = updateRange f a n fun x => g' (g x) := by
  funext b
  by_cases h : a ≤ b ∧ b < a + n
  · rw [updateRange_of_mem h, updateRange_of_mem h, updateRange_of_mem h]
  · rw [updateRange_of_not_mem h, updateRange_of_not_mem h, updateRange_of_not_mem h]

/-- Updating a range and then the one that follows it is updating both as one range. -/
theorem updateRange_add (f : ℕ → α) (a n k : ℕ) (g : α → α) :
    updateRange (updateRange f a n g) (a + n) k g = updateRange f a (n + k) g := by
  funext b
  by_cases h : a + n ≤ b ∧ b < a + n + k
  · rw [updateRange_of_mem h, updateRange_of_not_mem (by omega), updateRange_of_mem (by omega)]
  · rw [updateRange_of_not_mem h]
    by_cases h' : a ≤ b ∧ b < a + n
    · rw [updateRange_of_mem h', updateRange_of_mem (by omega)]
    · rw [updateRange_of_not_mem h', updateRange_of_not_mem (by omega)]

end updateRange

/-! ## Translations -/

/-- Let the entries `g, g + 1, …, g + n - 1` point to `a, a + 1, …, a + n - 1`. -/
def mapRange (f : ℕ → Option ℕ) (g n a : ℕ) : ℕ → Option ℕ :=
  fun x => if g ≤ x ∧ x < g + n then some (a + (x - g)) else f x

/-- An address inside the mapped range leads to the address at the same offset of the target. -/
theorem mapRange_of_mem {f : ℕ → Option ℕ} {g n a x : ℕ} (h : g ≤ x ∧ x < g + n) :
    mapRange f g n a x = some (a + (x - g)) := if_pos h

/-- An address outside the mapped range leads to where it led before. -/
theorem mapRange_of_not_mem {f : ℕ → Option ℕ} {g n a x : ℕ} (h : ¬ (g ≤ x ∧ x < g + n)) :
    mapRange f g n a x = f x := if_neg h

/-- An entry of the new translation is one of the mapped range, or lies outside of it and was there
before. -/
theorem mapRange_eq_some {f : ℕ → Option ℕ} {g n a x y : ℕ} (h : mapRange f g n a x = some y) :
    (g ≤ x ∧ x < g + n ∧ y = a + (x - g)) ∨ (¬ (g ≤ x ∧ x < g + n) ∧ f x = some y) := by
  by_cases hx : g ≤ x ∧ x < g + n
  · rw [mapRange_of_mem hx, Option.some.injEq] at h
    exact .inl ⟨hx.1, hx.2, h.symm⟩
  · rw [mapRange_of_not_mem hx] at h
    exact .inr ⟨hx, h⟩

/-- A range that is taken out of a translation and put back as it was. -/
theorem mapRange_setRange {f : ℕ → Option ℕ} {g n a : ℕ} (h : ∀ b < n, f (g + b) = some (a + b)) :
    mapRange (setRange f g n none) g n a = f := by
  funext x
  by_cases hx : g ≤ x ∧ x < g + n
  · obtain ⟨b, rfl⟩ := Nat.exists_eq_add_of_le hx.1
    rw [mapRange_of_mem hx, Nat.add_sub_cancel_left, h b (by omega)]
  · rw [mapRange_of_not_mem hx, setRange_of_not_mem (by omega)]

end ByteMemory
