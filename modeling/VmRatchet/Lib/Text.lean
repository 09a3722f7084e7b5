import Mathlib.Data.List.DropRight
import Mathlib.Data.List.Infix
import Mathlib.Data.Nat.Digits.Defs
import Mathlib.Tactic.Common
import Mathlib.Tactic.IntervalCases

/-!
# Texts, lines and decimal numbers

The text operations of a line protocol, over lists of Unicode scalar values: white space and
trimming, splitting into words and into lines, stripping a literal, reading a bounded decimal
number and writing one. They follow the string methods of the Rust standard library.

* `trim_pad` — what trimming leaves of a padded text.
* `splitWhitespace_cons`, `lines_cons` — the first word and the first line of a text.
* `splitWhitespace_unwords` — the words of a line that was put together from words.
* `parse_decimal` — reading back a written number.
-/

namespace Text

/-! ## White space -/

/-- The characters with the Unicode property `White_Space`. -/
def isWhitespace (c : Char) : Bool :=
  (9 ≤ c.toNat && c.toNat ≤ 13) || c.toNat == 0x20 || c.toNat == 0x85 || c.toNat == 0xA0
    || c.toNat == 0x1680 || (0x2000 ≤ c.toNat && c.toNat ≤ 0x200A) || c.toNat == 0x2028
    || c.toNat == 0x2029 || c.toNat == 0x202F || c.toNat == 0x205F || c.toNat == 0x3000

/-- Whether all characters of a text are white space, or none is, is a matter of evaluation … -/
theorem forall_mem_of_all {s : List Char} {b : Bool}
    (h : (s.all fun c => isWhitespace c == b) = true) : ∀ c ∈ s, isWhitespace c = b := by
  simpa using h

/-- The same for a first or last character, if there is one. -/
theorem forall_mem_of_option_all {o : Option Char} {b : Bool}
    (h : (o.all fun c => isWhitespace c == b) = true) : ∀ c ∈ o, isWhitespace c = b := by
  intro c hc
  rw [Option.mem_def.mp hc] at h
  simpa using h

/-- Remove the white space at both ends. -/
def trim (s : List Char) : List Char := (s.dropWhile isWhitespace).rdropWhile isWhitespace

/-- The maximal runs of characters that are not white space. -/
def splitWhitespace (s : List Char) : List (List Char) :=
  (s.splitOnP isWhitespace).filter (· ≠ [])

/-- A text that begins and ends with a character that is not white space, or is empty. -/
def Trimmed (s : List Char) : Prop :=
  (∀ c ∈ s.head?, isWhitespace c = false) ∧ ∀ c ∈ s.getLast?, isWhitespace c = false

/-- A text without white space is trimmed. -/
theorem Trimmed.of_forall {s : List Char} (h : ∀ c ∈ s, isWhitespace c = false) : Trimmed s :=
  ⟨fun c hc => h c (List.mem_of_mem_head? hc), fun c hc => h c (List.mem_of_mem_getLast? hc)⟩

/-- Two nonempty texts in a row are trimmed if the first begins and the second ends well. -/
theorem Trimmed.append {s t : List Char} (hs : ∀ c ∈ s.head?, isWhitespace c = false)
    (hsne : s ≠ []) (ht : ∀ c ∈ t.getLast?, isWhitespace c = false) (htne : t ≠ []) :
    Trimmed (s ++ t) := by
  constructor
  · intro c hc
    rw [List.head?_append_of_ne_nil _ hsne] at hc
    exact hs c hc
  · intro c hc
    rw [List.getLast?_append_of_ne_nil _ htne] at hc
    exact ht c hc

/-- White space in front of a text that begins with something visible is dropped, and nothing
else. -/
theorem dropWhile_pad {a s : List Char} (ha : ∀ c ∈ a, isWhitespace c = true)
    (hs : ∀ c ∈ s.head?, isWhitespace c = false) : (a ++ s).dropWhile isWhitespace = s := by
  rw [List.dropWhile_append_of_pos ha]
  cases s with
  | nil => rfl
  | cons c s => rw [List.dropWhile_cons_of_neg (by simpa using hs c rfl)]

/-- White space behind a text that ends in something visible is dropped, and nothing else. -/
theorem rdropWhile_pad {s b : List Char} (hb : ∀ c ∈ b, isWhitespace c = true)
    (hs : ∀ c ∈ s.getLast?, isWhitespace c = false) :
    (s ++ b).rdropWhile isWhitespace = s := by
  rw [List.rdropWhile, List.reverse_append, dropWhile_pad, List.reverse_reverse]
  · simpa using hb
  · simpa using hs

/-- Trimming a padded text removes the padding and nothing else. -/
theorem trim_pad {a s b : List Char} (ha : ∀ c ∈ a, isWhitespace c = true)
    (hb : ∀ c ∈ b, isWhitespace c = true) (hs : Trimmed s) : trim (a ++ s ++ b) = s := by
  by_cases hne : s = []
  · subst hne
    rw [trim, List.append_nil, List.dropWhile_eq_nil_iff.mpr, List.rdropWhile_nil]
    intro c hc
    rcases List.mem_append.mp hc with h | h
    · exact ha c h
    · exact hb c h
  · rw [trim, List.append_assoc, dropWhile_pad ha, rdropWhile_pad hb hs.2]
    rw [List.head?_append_of_ne_nil _ hne]
    exact hs.1

/-- A trimmed text stays as it is. -/
theorem trim_of_trimmed {s : List Char} (hs : Trimmed s) : trim s = s := by
  simpa using trim_pad (a := []) (b := []) (by simp) (by simp) hs

/-- A nonempty text without white space splits into itself as the only word. -/
theorem splitWhitespace_word {s : List Char} (hs : ∀ c ∈ s, isWhitespace c = false)
    (hne : s ≠ []) : splitWhitespace s = [s] := by
  rw [splitWhitespace, List.splitOnP_eq_singleton hs]
  simp [hne]

/-- The first word of a text, and the words behind its separator. -/
theorem splitWhitespace_cons {s : List Char} {x : Char} (hx : isWhitespace x = true)
    (hs : ∀ c ∈ s, isWhitespace c = false) (hne : s ≠ []) (t : List Char) :
    splitWhitespace (s ++ x :: t) = s :: splitWhitespace t := by
  rw [splitWhitespace, List.splitOnP_append_cons _ _ hx, List.splitOnP_eq_singleton hs,
    splitWhitespace]
  simp [hne]

/-- A text of two words with one separator between them splits into the two. -/
theorem splitWhitespace_two {s t : List Char} {x : Char} (hx : isWhitespace x = true)
    (hs : ∀ c ∈ s, isWhitespace c = false) (hsne : s ≠ [])
    (ht : ∀ c ∈ t, isWhitespace c = false) (htne : t ≠ []) :
    splitWhitespace (s ++ x :: t) = [s, t] := by
  rw [splitWhitespace_cons hx hs hsne, splitWhitespace_word ht htne]

/-- A word: characters that are not white space, at least one. -/
structure Word (s : List Char) : Prop where
  visible : ∀ c ∈ s, isWhitespace c = false
  ne_nil : s ≠ []

/-- Words with a blank between each two of them. -/
def unwords : List (List Char) → List Char
  | [] => []
  | [w] => w
  | w :: ws => w ++ ' ' :: unwords ws

/-- Words that were put on a line come back when the line is split at white space. -/
theorem splitWhitespace_unwords {ws : List (List Char)} (h : ∀ w ∈ ws, Word w) :
    splitWhitespace (unwords ws) = ws := by
  induction ws using unwords.induct with
  | case1 => rfl
  | case2 w =>
      have hw := h w (by simp)
      exact splitWhitespace_word hw.visible hw.ne_nil
  | case3 w ws hne ih =>
      have hw := h w (by simp)
      rw [unwords, splitWhitespace_cons (by decide) hw.visible hw.ne_nil, ih]
      · intro w' hw'
        exact h w' (List.mem_cons_of_mem _ hw')
      · exact hne

/-- Words on a line make one line: there is no newline among them. -/
theorem newline_not_mem_unwords {ws : List (List Char)} (h : ∀ w ∈ ws, Word w) :
    '\n' ∉ unwords ws := by
  have hword : ∀ w, Word w → '\n' ∉ w := by
    intro w hw hmem
    exact absurd (hw.visible _ hmem) (by decide)
  induction ws using unwords.induct with
  | case1 => simp [unwords]
  | case2 w => exact hword w (h w (by simp))
  | case3 w ws hne ih =>
      rw [unwords, List.mem_append, List.mem_cons]
      · rintro (hmem | hmem | hmem)
        · exact hword w (h w (by simp)) hmem
        · exact absurd hmem (by decide)
        · exact ih (fun w' hw' => h w' (List.mem_cons_of_mem _ hw')) hmem
      · exact hne

/-- Words on a line end in something visible. -/
theorem getLast?_unwords {ws : List (List Char)} (h : ∀ w ∈ ws, Word w) :
    ∀ c ∈ (unwords ws).getLast?, isWhitespace c = false := by
  induction ws using unwords.induct with
  | case1 => simp [unwords]
  | case2 w =>
      intro c hc
      exact (h w (by simp)).visible c (List.mem_of_mem_getLast? hc)
  | case3 w ws hne ih =>
      have hws : unwords ws ≠ [] := by
        cases ws with
        | nil => exact absurd rfl hne
        | cons w' ws =>
            have hw' := (h w' (by simp)).ne_nil
            cases ws <;> simp [unwords, hw']
      rw [unwords, List.append_cons, List.getLast?_append_of_ne_nil _ hws]
      · exact ih fun w' hw' => h w' (List.mem_cons_of_mem _ hw')
      · exact hne

/-! ## Literals -/

/-- The characters of a literal. -/
def chars (s : String) : List Char := s.toList

/-- Drop a literal from the front as often as it stands there, at most `n` times. -/
def dropRepeated (p : List Char) : ℕ → List Char → List Char
  | 0, s => s
  | n + 1, s =>
    match s.dropPrefix? p with
    | some rest => dropRepeated p n rest
    | none => s

/-- Drop a literal from the end as often as it stands there. -/
def trimEndMatches (p s : List Char) : List Char :=
  (dropRepeated p.reverse s.length s.reverse).reverse

/-- Stripping a literal that stands at the front leaves what follows it. -/
@[simp] theorem dropPrefix?_append_self (p s : List Char) : (p ++ s).dropPrefix? p = some s :=
  List.dropPrefix?_append_of_beq s (beq_self_eq_true p)

/-- Stripping a literal succeeds exactly if the text begins with it, and returns what follows. -/
theorem dropPrefix?_eq_some {p s rest : List Char} :
    s.dropPrefix? p = some rest ↔ s = p ++ rest := by
  rw [List.dropPrefix?_eq_some_iff]
  simp

/-- A literal that does not stand at the front is not stripped. -/
theorem dropPrefix?_eq_none {p s : List Char} : s.dropPrefix? p = none ↔ ¬ p <+: s := by
  rw [Option.eq_none_iff_forall_ne_some]
  constructor
  · rintro h ⟨rest, rfl⟩
    exact h rest (dropPrefix?_append_self p rest)
  · intro h rest hrest
    exact h ⟨rest, (dropPrefix?_eq_some.mp hrest).symm⟩

/-- A literal that stands at the end once is dropped once. -/
theorem trimEndMatches_append {p s : List Char} (hp : p ≠ [])
    (hs : s.reverse.dropPrefix? p.reverse = none) : trimEndMatches p (s ++ p) = s := by
  obtain ⟨n, hn⟩ : ∃ n, (s ++ p).length = n + 1 := by
    refine ⟨(s ++ p).length - 1, ?_⟩
    have := List.length_pos_iff.mpr hp
    simp only [List.length_append]
    omega
  rw [trimEndMatches, hn, List.reverse_append, dropRepeated, dropPrefix?_append_self]
  cases n with
  | zero => simp [dropRepeated]
  | succ n => simp [dropRepeated, hs]

/-! ## Lines -/

/-- Drop one carriage return from the end, if there is one. -/
def stripCr (s : List Char) : List Char :=
  if s.getLast? = some '\r' then s.dropLast else s

/-- A text that ends in something visible has no carriage return to drop. -/
theorem stripCr_of_visible {s : List Char} (h : ∀ c ∈ s.getLast?, isWhitespace c = false) :
    stripCr s = s := by
  refine if_neg fun hcr => ?_
  exact absurd (h '\r' hcr) (by decide)

/-- Dropping a carriage return leaves a text that begins like the old one. -/
theorem stripCr_prefix (s : List Char) : stripCr s <+: s := by
  unfold stripCr
  split_ifs
  · exact List.dropLast_prefix s
  · exact List.prefix_rfl

/-- The lines of a text: the pieces between newlines, without a carriage return before the
newline; a last piece without a newline counts unless it is empty. -/
def lines (s : List Char) : List (List Char) :=
  let pieces := s.splitOn '\n'
  let last := pieces.getLast?.getD []
  pieces.dropLast.map stripCr ++ if last = [] then [] else [last]

/-- The first line of a text, and the lines behind its newline. -/
theorem lines_cons {s : List Char} (hs : '\n' ∉ s) (t : List Char) :
    lines (s ++ '\n' :: t) = stripCr s :: lines t := by
  have hne : t.splitOn '\n' ≠ [] := List.splitOn_ne_nil _ _
  simp only [lines, List.splitOn_append_cons_self_of_not_mem hs, List.dropLast_cons_of_ne_nil hne,
    List.map_cons, List.cons_append, List.getLast?_cons_of_ne_nil hne]

/-! ## Decimal numbers -/

/-- The value of a decimal digit. -/
def digitValue (c : Char) : Option ℕ :=
  if '0' ≤ c ∧ c ≤ '9' then some (c.toNat - '0'.toNat) else none

/-- Read digits, most significant first, after a number already read. -/
def parseDigits : ℕ → List Char → Option ℕ
  | acc, [] => some acc
  | acc, c :: s => (digitValue c).bind fun d => parseDigits (acc * 10 + d) s

/-- Drop a leading plus sign. -/
def stripPlus : List Char → List Char
  | '+' :: s => s
  | s => s

/-- Read an unsigned number of `w` bits: an optional plus sign, at least one digit, and nothing
else; a value that does not fit is an error. -/
def parse (w : ℕ) (s : List Char) : Option ℕ :=
  if stripPlus s = [] then none
  else (parseDigits 0 (stripPlus s)).filter (· < 2 ^ w)

/-- Write a natural number in decimal, without leading zeros. -/
def decimal (n : ℕ) : List Char := Nat.toDigits 10 n

/-- The decimal digits of a number are those of its tenth and its last digit behind them. -/
theorem decimal_eq (n : ℕ) :
    decimal n = (if n < 10 then [] else decimal (n / 10)) ++ [Nat.digitChar (n % 10)] := by
  rw [decimal, Nat.toDigits_eq_if (by norm_num)]
  split
  case isTrue h => rw [Nat.mod_eq_of_lt h, List.nil_append]
  case isFalse => rfl

/-- A digit is read as its value. -/
theorem digitValue_digitChar {d : ℕ} (hd : d < 10) : digitValue (Nat.digitChar d) = some d := by
  interval_cases d <;> decide

/-- A digit is not white space. -/
theorem isWhitespace_digitChar {d : ℕ} (hd : d < 10) :
    isWhitespace (Nat.digitChar d) = false := by
  interval_cases d <;> decide

/-- A number written in decimal is made of digits. -/
theorem mem_decimal {n : ℕ} {c : Char} (hc : c ∈ decimal n) : ∃ d < 10, c = Nat.digitChar d := by
  induction n using Nat.strong_induction_on with
  | _ n ih =>
      rw [decimal_eq] at hc
      rcases List.mem_append.mp hc with h | h
      · split at h
        case isTrue => cases h
        case isFalse hn => exact ih (n / 10) (by omega) h
      · exact ⟨n % 10, Nat.mod_lt _ (by norm_num), List.mem_singleton.mp h⟩

/-- A number written in decimal has at least one digit. -/
theorem decimal_ne_nil (n : ℕ) : decimal n ≠ [] := by
  rw [decimal_eq]
  simp

/-- A number written in decimal has no white space. -/
theorem isWhitespace_of_mem_decimal {n : ℕ} {c : Char} (hc : c ∈ decimal n) :
    isWhitespace c = false := by
  obtain ⟨d, hd, rfl⟩ := mem_decimal hc
  exact isWhitespace_digitChar hd

/-- A number written in decimal is trimmed. -/
theorem trimmed_decimal (n : ℕ) : Trimmed (decimal n) :=
  Trimmed.of_forall fun _ hc => isWhitespace_of_mem_decimal hc

/-- Digits may be read piece by piece, the second piece behind what the first has given. -/
theorem parseDigits_append (s t : List Char) (acc : ℕ) :
    parseDigits acc (s ++ t) = (parseDigits acc s).bind fun m => parseDigits m t := by
  induction s generalizing acc with
  | nil => rfl
  | cons c s ih =>
      cases hc : digitValue c with
      | none => simp [parseDigits, hc]
      | some d => simp [parseDigits, hc, ih]

/-- The digits of a number written in decimal read back as the number. -/
theorem parseDigits_decimal (n : ℕ) : parseDigits 0 (decimal n) = some n := by
  induction n using Nat.strong_induction_on with
  | _ n ih =>
      have hlast : digitValue (Nat.digitChar (n % 10)) = some (n % 10) :=
        digitValue_digitChar (Nat.mod_lt _ (by norm_num))
      rw [decimal_eq, parseDigits_append]
      split
      case isTrue hn =>
        simp only [Option.bind_some, parseDigits, hlast, Option.some.injEq]
        omega
      case isFalse hn =>
        rw [ih (n / 10) (by omega)]
        simp only [Option.bind_some, parseDigits, hlast, Option.some.injEq]
        omega

/-- A number written in decimal has no plus sign in front. -/
theorem stripPlus_decimal (n : ℕ) : stripPlus (decimal n) = decimal n := by
  cases h : decimal n with
  | nil => rfl
  | cons c s =>
      obtain ⟨d, hd, rfl⟩ := mem_decimal (h ▸ List.mem_cons_self : c ∈ decimal n)
      interval_cases d <;> rfl

/-- A written number reads back exactly if it fits. -/
theorem parse_decimal {w n : ℕ} (h : n < 2 ^ w) : parse w (decimal n) = some n := by
  rw [parse, stripPlus_decimal, if_neg (decimal_ne_nil n), parseDigits_decimal]
  simpa using h

/-- What `parse` reads as an integer of `w` bits fits `w` bits. -/
theorem parse_lt {w n : ℕ} {s : List Char} (h : parse w s = some n) : n < 2 ^ w := by
  rw [parse] at h
  split at h
  case isTrue => cases h
  case isFalse =>
    rw [Option.filter_eq_some_iff] at h
    simpa using h.2

end Text
