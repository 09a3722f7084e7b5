import Mathlib.Data.List.Basic
import Mathlib.Tactic.Common

/-!
# Lines of a stream

A reader of a stream collects symbols until it meets a separator, hands out what it has collected,
separator included, and starts again. `complete` is what it has handed out, `pending` what it still
holds. Both are stated from an arbitrary held part, so that a stream may be read in pieces.

* `complete_append`, `pending_append` — reading in pieces is reading at once: how a stream is cut
  into chunks does not matter.
* `complete_pending_of_line` — a line that meets a reader which holds nothing comes out as it is.
* `length_complete` — as many lines as separators.
* `complete_map` — reading commutes with relabelling the symbols.
* `complete_encode` — the lines of an UTF-8 text are the UTF-8 texts of its lines.
-/

namespace Lines

variable {α β : Type} (p : α → Bool)

/-- The lines handed out while reading a stream, from a held part on. -/
def complete : List α → List α → List (List α)
  | _, [] => []
  | cur, x :: s => if p x then (cur ++ [x]) :: complete [] s else complete (cur ++ [x]) s

/-- What is held after reading a stream, from a held part on. -/
def pending : List α → List α → List α
  | cur, [] => cur
  | cur, x :: s => if p x then pending [] s else pending (cur ++ [x]) s

variable {p}

/-- Reading in two pieces hands out the lines of the first piece, and then those of the second
behind what the first has left. -/
theorem complete_append (cur s t : List α) :
    complete p cur (s ++ t) = complete p cur s ++ complete p (pending p cur s) t := by
  induction s generalizing cur with
  | nil => rfl
  | cons x s ih =>
      rw [List.cons_append, complete, complete, pending]
      split
      case isTrue => rw [ih, List.cons_append]
      case isFalse => exact ih _

/-- Reading in two pieces holds back what the second piece leaves behind what the first has left. -/
theorem pending_append (cur s t : List α) :
    pending p cur (s ++ t) = pending p (pending p cur s) t := by
  induction s generalizing cur with
  | nil => rfl
  | cons x s ih =>
      rw [List.cons_append, pending, pending]
      split
      case isTrue => exact ih _
      case isFalse => exact ih _

/-- Symbols without a separator complete no line and are all held back. -/
theorem complete_pending_of_forall {s : List α} (hs : ∀ x ∈ s, p x = false) (cur : List α) :
    complete p cur s = [] ∧ pending p cur s = cur ++ s := by
  induction s generalizing cur with
  | nil => exact ⟨rfl, (List.append_nil cur).symm⟩
  | cons x s ih =>
      have hx : ¬ p x = true := by simp [hs x List.mem_cons_self]
      obtain ⟨hc, hp⟩ := ih (fun y hy => hs y (List.mem_cons_of_mem _ hy)) (cur ++ [x])
      rw [complete, pending, if_neg hx, if_neg hx, hc, hp]
      exact ⟨rfl, by simp⟩

/-- A text that ends in the only separator it has completes one line, with what was held in front of
it, and leaves nothing held. -/
theorem complete_pending_of_line {s : List α} {x : α} (hs : ∀ y ∈ s, p y = false)
    (hx : p x = true) (cur : List α) :
    complete p cur (s ++ [x]) = [cur ++ (s ++ [x])] ∧ pending p cur (s ++ [x]) = [] := by
  obtain ⟨hc, hp⟩ := complete_pending_of_forall hs cur
  rw [complete_append, pending_append, hc, hp]
  simp [complete, pending, hx]

/-- There are as many complete lines as separators. -/
theorem length_complete (cur s : List α) : (complete p cur s).length = s.countP p := by
  induction s generalizing cur with
  | nil => rfl
  | cons x s ih =>
      rw [complete, List.countP_cons]
      split
      case isTrue => rw [List.length_cons, ih]
      case isFalse => rw [ih, Nat.add_zero]

/-- Splitting into lines commutes with relabelling the symbols, if separators stay separators. -/
theorem complete_map (f : α → β) {q : β → Bool} (hq : ∀ x, q (f x) = p x) (cur s : List α) :
    complete q (cur.map f) (s.map f) = (complete p cur s).map (List.map f) := by
  induction s generalizing cur with
  | nil => rfl
  | cons x s ih =>
      rw [List.map_cons, complete, complete, hq]
      split
      case isTrue => simpa using ih []
      case isFalse => simpa using ih (cur ++ [x])

/-- What is held back commutes with relabelling the symbols as well. -/
theorem pending_map (f : α → β) {q : β → Bool} (hq : ∀ x, q (f x) = p x) (cur s : List α) :
    pending q (cur.map f) (s.map f) = (pending p cur s).map f := by
  induction s generalizing cur with
  | nil => rfl
  | cons x s ih =>
      rw [List.map_cons, pending, pending, hq]
      split
      case isTrue => simpa using ih []
      case isFalse => simpa using ih (cur ++ [x])

/-- A complete line ends in a separator. -/
theorem exists_of_mem_complete {cur s l : List α} (h : l ∈ complete p cur s) :
    ∃ body x, l = body ++ [x] ∧ p x = true := by
  induction s generalizing cur with
  | nil => cases h
  | cons x s ih =>
      rw [complete] at h
      split at h
      case isTrue hx =>
        rcases List.mem_cons.mp h with rfl | h
        · exact ⟨cur, x, rfl, hx⟩
        · exact ih h
      case isFalse => exact ih h

/-! ## UTF-8 -/

/-- The newline byte. -/
def isNewlineByte (b : UInt8) : Bool := b == 10

/-- The newline character. -/
def isNewlineChar (c : Char) : Bool := c == '\n'

/-- The UTF-8 bytes of a text. -/
def encode (s : List Char) : List UInt8 := s.flatMap String.utf8EncodeChar

/-- The text of UTF-8 bytes, if they are valid. -/
def decode (bs : List UInt8) : Option (List Char) :=
  bs.toByteArray.utf8Decode?.map Array.toList

/-- Decoding inverts encoding: a text comes back from its bytes. -/
@[simp] theorem decode_encode (s : List Char) : decode (encode s) = some s := by
  have h := List.utf8Decode?_utf8Encode (l := s)
  rw [List.utf8Encode] at h
  rw [decode, encode, h, Option.map_some]

/-- The bytes of two texts in a row are those of the first and then those of the second. -/
@[simp] theorem encode_append (s t : List Char) : encode (s ++ t) = encode s ++ encode t :=
  List.flatMap_append

/-- The newline is encoded as the one byte 10. -/
theorem encode_newline : encode ['\n'] = [10] := rfl

/-- No other character has the newline byte in its encoding. -/
theorem newline_not_mem_utf8EncodeChar {c : Char} (hc : c ≠ '\n') :
    ∀ b ∈ String.utf8EncodeChar c, isNewlineByte b = false := by
  have hv : c.val.toNat ≠ 10 := by
    intro h
    exact hc (Char.ext (UInt32.toNat_inj.mp h))
  intro b hb
  have hb' : b.toNat ≠ 10 := by
    simp only [String.utf8EncodeChar] at hb
    split_ifs at hb <;>
      · simp only [List.mem_cons, List.not_mem_nil, or_false] at hb
        rcases hb with rfl | rfl | rfl | rfl <;> rw [UInt8.toNat_ofNat'] <;> omega
  rw [isNewlineByte, beq_eq_false_iff_ne]
  rintro rfl
  exact hb' rfl

/-- A text without newlines has no newline byte: no other character contains it in its encoding. -/
theorem newline_not_mem_encode {s : List Char} (hs : '\n' ∉ s) :
    ∀ b ∈ encode s, isNewlineByte b = false := by
  intro b hb
  obtain ⟨c, hc, hbc⟩ := List.mem_flatMap.mp hb
  exact newline_not_mem_utf8EncodeChar (fun h => hs (h ▸ hc)) b hbc

/-- The lines of an UTF-8 text are the UTF-8 texts of its lines. -/
theorem complete_encode (cur s : List Char) :
    complete isNewlineByte (encode cur) (encode s)
      = (complete isNewlineChar cur s).map encode := by
  induction s generalizing cur with
  | nil => rfl
  | cons c s ih =>
      have hcons : encode (c :: s) = String.utf8EncodeChar c ++ encode s := List.flatMap_cons
      have hcur : encode cur ++ String.utf8EncodeChar c = encode (cur ++ [c]) := by simp [encode]
      rw [hcons, complete]
      by_cases hc : c = '\n'
      · subst hc
        rw [if_pos (by decide), List.map_cons, complete_append]
        have hline := complete_pending_of_line (p := isNewlineByte) (s := []) (x := 10)
          (by simp) rfl (encode cur)
        rw [List.nil_append] at hline
        rw [show String.utf8EncodeChar '\n' = [10] from rfl, hline.1, hline.2]
        rw [← ih [], List.singleton_append, encode_append, encode_newline]
        rfl
      · rw [if_neg (by simpa [isNewlineChar] using hc), complete_append]
        obtain ⟨h₁, h₂⟩ :=
          complete_pending_of_forall (newline_not_mem_utf8EncodeChar hc) (encode cur)
        rw [h₁, h₂, List.nil_append, hcur]
        exact ih _

end Lines
