import Mathlib.Algebra.Order.Field.Rat
import Mathlib.Tactic.Ring
import VmRatchet.Lib.Text

/-!
# Decimal fractions

Numbers with a sign and a decimal point: writing a rational number with a fixed number of places,
and reading a number back. They follow the `{:.p}` format and the `from_str` method of the
floating-point numbers of the Rust standard library, with exact rational numbers in the place of
floating-point ones. The texts of infinities and of NaN are left out.

* `showFixed`, `rounded` — a number with `p` places, as a text and as a number. Ties go to even;
  a negative number that is rounded to zero keeps its sign.
* `parseFloat` — reading: an optional sign, digits with at most one point among them, and an
  optional exponent.
* `parseFloat_showFixed` — reading back what was written.
-/

namespace Text

/-! ## Writing -/

/-- The last `p` decimal digits of a number, with leading zeros. -/
def lastDigits : ℕ → ℕ → List Char
  | 0, _ => []
  | p + 1, n => lastDigits p (n / 10) ++ [Nat.digitChar (n % 10)]

/-- The number `t / 10 ^ p`, with a sign, as a text with `p` places. -/
def fixed (p : ℕ) (neg : Bool) (t : ℕ) : List Char :=
  (if neg then ['-'] else []) ++ decimal (t / 10 ^ p) ++ if p = 0 then [] else '.' :: lastDigits p t

/-- The natural number nearest to the absolute value of `q`; a tie goes to the even one. -/
def roundHalfEven (q : ℚ) : ℕ :=
  let n := q.num.natAbs / q.den
  let twice := 2 * (q.num.natAbs % q.den)
  if twice < q.den ∨ (twice = q.den ∧ n % 2 = 0) then n else n + 1

/-- Write a number with `p` decimal places, rounded to the nearest, a tie to the even digit. -/
def showFixed (p : ℕ) (x : ℚ) : List Char :=
  fixed p (decide (x < 0)) (roundHalfEven (x * 10 ^ p))

/-- A sign and an absolute value. -/
def signed (neg : Bool) (x : ℚ) : ℚ := if neg then -x else x

/-- The number that is written when `x` is written with `p` decimal places. -/
def rounded (p : ℕ) (x : ℚ) : ℚ :=
  signed (decide (x < 0)) (roundHalfEven (x * 10 ^ p) / 10 ^ p)

/-- Write an integer. -/
def integer (n : ℤ) : List Char := (if n < 0 then ['-'] else []) ++ decimal n.natAbs

/-! ## Reading -/

/-- Take a sign off the front; `true` stands for a minus. -/
def splitSign : List Char → Bool × List Char
  | '-' :: s => (true, s)
  | '+' :: s => (false, s)
  | s => (false, s)

/-- Digits with at most one point among them, and at least one digit. -/
def parseMantissa (s : List Char) : Option ℚ :=
  let whole := s.takeWhile (· ≠ '.')
  let frac := (s.dropWhile (· ≠ '.')).drop 1
  if whole ++ frac = [] then none
  else (parseDigits 0 (whole ++ frac)).map fun n : ℕ => (n : ℚ) / 10 ^ frac.length

/-- The power of ten an exponent stands for; no exponent stands for one. -/
def parseExponent : List Char → Option ℚ
  | [] => some 1
  | _ :: e =>
    let (neg, digits) := splitSign e
    if digits = [] then none
    else (parseDigits 0 digits).map fun n : ℕ => if neg then 1 / 10 ^ n else 10 ^ n

/-- Read a number: an optional sign, digits with an optional point, and an optional power of ten. -/
def parseFloat (s : List Char) : Option ℚ :=
  let (neg, s) := splitSign s
  let mantissa := s.takeWhile fun c => c ≠ 'e' && c ≠ 'E'
  let exponent := s.dropWhile fun c => c ≠ 'e' && c ≠ 'E'
  (parseMantissa mantissa).bind fun x =>
    (parseExponent exponent).map fun power => signed neg (x * power)

/-! ## Reading back -/

/-- The last digits of a number are decimal digits. -/
theorem mem_lastDigits {p n : ℕ} {c : Char} (hc : c ∈ lastDigits p n) :
    ∃ d < 10, c = Nat.digitChar d := by
  induction p generalizing n with
  | zero => cases hc
  | succ p ih =>
      rcases List.mem_append.mp hc with h | h
      · exact ih h
      · exact ⟨n % 10, Nat.mod_lt _ (by norm_num), List.mem_singleton.mp h⟩

/-- There are as many last digits as places are asked for, with zeros in front where the number is
short. -/
theorem length_lastDigits (p n : ℕ) : (lastDigits p n).length = p := by
  induction p generalizing n with
  | zero => rfl
  | succ p ih => rw [lastDigits, List.length_append, ih, List.length_singleton]

/-- The last `p` digits of `n` read back as the remainder of `n` modulo `10 ^ p`, behind what was
read before. -/
theorem parseDigits_lastDigits (p n acc : ℕ) :
    parseDigits acc (lastDigits p n) = some (acc * 10 ^ p + n % 10 ^ p) := by
  induction p generalizing n with
  | zero => simp [lastDigits, parseDigits, Nat.mod_one]
  | succ p ih =>
      have hlast : digitValue (Nat.digitChar (n % 10)) = some (n % 10) :=
        digitValue_digitChar (Nat.mod_lt _ (by norm_num))
      rw [lastDigits, parseDigits_append, ih, Option.bind_some]
      simp only [parseDigits, hlast, Option.bind_some, Option.some.injEq]
      rw [pow_succ, Nat.mul_comm (10 ^ p) 10, Nat.mod_mul]
      ring

/-- A digit is neither a point nor the mark of an exponent. -/
theorem digitChar_ne {d : ℕ} (hd : d < 10) :
    Nat.digitChar d ≠ '.' ∧ Nat.digitChar d ≠ 'e' ∧ Nat.digitChar d ≠ 'E' := by
  interval_cases d <;> decide

/-- A written number has no sign to take off. -/
theorem splitSign_decimal_append (n : ℕ) (s : List Char) :
    splitSign (decimal n ++ s) = (false, decimal n ++ s) := by
  cases h : decimal n with
  | nil => exact absurd h (decimal_ne_nil n)
  | cons c t =>
      obtain ⟨d, hd, rfl⟩ := mem_decimal (h ▸ List.mem_cons_self : c ∈ decimal n)
      interval_cases d <;> rfl

/-- A number of thousandths (or any other decimal places) written with a point reads back as the
fraction it is. -/
theorem parseMantissa_point {p t : ℕ} :
    parseMantissa (decimal (t / 10 ^ p) ++ if p = 0 then [] else '.' :: lastDigits p t) =
      some ((t : ℚ) / 10 ^ p) := by
  have hpoint : ∀ c ∈ decimal (t / 10 ^ p), (decide (c ≠ '.')) = true := by
    intro c hc
    obtain ⟨d, hd, rfl⟩ := mem_decimal hc
    exact decide_eq_true (digitChar_ne hd).1
  have hread : parseDigits 0 (decimal (t / 10 ^ p) ++ lastDigits p t) = some t := by
    rw [parseDigits_append, parseDigits_decimal, Option.bind_some, parseDigits_lastDigits,
      Nat.div_add_mod']
  have hne : decimal (t / 10 ^ p) ++ lastDigits p t ≠ [] := by simp [decimal_ne_nil]
  have hsplit : (decimal (t / 10 ^ p) ++ if p = 0 then [] else '.' :: lastDigits p t).takeWhile
        (· ≠ '.') = decimal (t / 10 ^ p) ∧
      ((decimal (t / 10 ^ p) ++ if p = 0 then [] else '.' :: lastDigits p t).dropWhile
        (· ≠ '.')).drop 1 = lastDigits p t := by
    rw [List.takeWhile_append_of_pos hpoint, List.dropWhile_append_of_pos hpoint]
    split_ifs with hp
    · subst hp
      simp [lastDigits]
    · simp
  simp only [parseMantissa, hsplit.1, hsplit.2, if_neg hne, hread, length_lastDigits,
    Option.map_some]

/-- **Reading back** a number written with `p` decimal places, with its sign or without, gives
exactly the fraction that was written. -/
theorem parseFloat_fixed (p : ℕ) (neg : Bool) (t : ℕ) :
    parseFloat (fixed p neg t) = some (signed neg (t / 10 ^ p)) := by
  let digits := decimal (t / 10 ^ p) ++ if p = 0 then [] else '.' :: lastDigits p t
  have hsign : splitSign (fixed p neg t) = (neg, digits) := by
    cases neg with
    | true => rfl
    | false => exact splitSign_decimal_append _ _
  have hexp : ∀ c ∈ digits, (c ≠ 'e' && c ≠ 'E') = true := by
    intro c hc
    have hdigit : (∃ d < 10, c = Nat.digitChar d) ∨ c = '.' := by
      rcases List.mem_append.mp hc with h | h
      · exact .inl (mem_decimal h)
      · split_ifs at h with hp
        · cases h
        · rcases List.mem_cons.mp h with h | h
          · exact .inr h
          · exact .inl (mem_lastDigits h)
    rcases hdigit with ⟨d, hd, rfl⟩ | rfl
    · simp [digitChar_ne hd]
    · decide
  have hmantissa : parseMantissa digits = some ((t : ℚ) / 10 ^ p) := parseMantissa_point
  simp only [parseFloat, hsign, List.takeWhile_eq_self_iff.mpr hexp,
    List.dropWhile_eq_nil_iff.mpr hexp, hmantissa, parseExponent, Option.bind_some,
    Option.map_some, mul_one]

/-- Reading back what was written gives the number that was written. -/
theorem parseFloat_showFixed (p : ℕ) (x : ℚ) : parseFloat (showFixed p x) = some (rounded p x) :=
  parseFloat_fixed p _ _

/-! ## Words -/

/-- A number written with a fixed number of places is one word. -/
theorem showFixed_word (p : ℕ) (x : ℚ) : Word (showFixed p x) := by
  constructor
  · intro c hc
    rcases List.mem_append.mp hc with h | h
    · rcases List.mem_append.mp h with h | h
      · split_ifs at h
        · rw [List.mem_singleton.mp h]
          decide
        · cases h
      · exact isWhitespace_of_mem_decimal h
    · split_ifs at h
      · cases h
      · rcases List.mem_cons.mp h with rfl | h
        · decide
        · obtain ⟨d, hd, rfl⟩ := mem_lastDigits h
          exact isWhitespace_digitChar hd
  · simp [showFixed, fixed, decimal_ne_nil]

/-- A written integer has no white space, with its sign or without. -/
theorem isWhitespace_of_mem_integer {n : ℤ} {c : Char} (hc : c ∈ integer n) :
    isWhitespace c = false := by
  rcases List.mem_append.mp hc with h | h
  · split_ifs at h
    · rw [List.mem_singleton.mp h]
      decide
    · cases h
  · exact isWhitespace_of_mem_decimal h

end Text
