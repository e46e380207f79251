import Mathlib.Algebra.Order.Ring.Int
import Mathlib.Data.List.TakeWhile

/-!
# Numbers as text

What the standard library prints for an `int`, and what it reads: `strtol`, `std::stoi`
and the extraction of an `int` from a stream. All three skip white space, take a sign
and go as far as there are digits; they differ in the bases, in what follows the digits,
and in what happens without digits or with too many of them. Characters are bytes of the
source's `char`.
-/

namespace LebStudy

namespace Numerals

/-! ### Machine numbers -/

/-- The values of an `int`. -/
def FitsInt (i : ℤ) : Prop := -2 ^ 31 ≤ i ∧ i < 2 ^ 31

instance (i : ℤ) : Decidable (FitsInt i) := inferInstanceAs (Decidable (_ ∧ _))

/-- What an `int` holds behind an operation with this result. -/
def wrapInt (i : ℤ) : ℤ := i.bmod (2 ^ 32)

theorem wrapInt_of_fits {i : ℤ} (h : FitsInt i) : wrapInt i = i := by
  obtain ⟨hlow, hhigh⟩ := h
  rw [wrapInt, Int.bmod_eq_of_le (by omega) (by omega)]

/-- The nearest number of so many bits, the sign included. -/
def clamp (bits : ℕ) (i : ℤ) : ℤ := max (-2 ^ (bits - 1)) (min i (2 ^ (bits - 1) - 1))

theorem clamp_of_fits {i : ℤ} (h : FitsInt i) : clamp 32 i = i := by
  obtain ⟨hlow, hhigh⟩ := h
  rw [clamp]
  omega

/-! ### Printing -/

/-- `os << i` -/
def putInt : ℤ → List Char
  | .ofNat n => Nat.toDigits 10 n
  | .negSucc n => '-' :: Nat.toDigits 10 (n + 1)

theorem putInt_natCast (n : ℕ) : putInt n = Nat.toDigits 10 n := rfl

/-- Two numbers are not printed alike. -/
theorem toDigits_injective {m n : ℕ} (h : Nat.toDigits 10 m = Nat.toDigits 10 n) : m = n := by
  have hvalue := congrArg (fun ds => Nat.ofDigitChars 10 ds 0) h
  simpa only [Nat.ofDigitChars_ten_toDigits] using hvalue

theorem isDigit_or_minus {i : ℤ} {c : Char} (h : c ∈ putInt i) : c.isDigit ∨ c = '-' := by
  cases i with
  | ofNat n => exact .inl (Nat.isDigit_of_mem_toDigits (by decide) (Nat.le_refl _) h)
  | negSucc n =>
    rcases List.mem_cons.mp h with rfl | h
    · exact .inr rfl
    · exact .inl (Nat.isDigit_of_mem_toDigits (by decide) (Nat.le_refl _) h)

/-! ### Digits -/

/-- `isspace` in the C locale. -/
def isSpace (c : Char) : Bool :=
  c = ' ' || c = '\t' || c = '\n' || c = '\x0b' || c = '\x0c' || c = '\x0d'

/-- The value of a character as a digit: letters go on behind the nine. -/
def digitValue (c : Char) : Option ℕ :=
  if '0' ≤ c ∧ c ≤ '9' then some (c.toNat - '0'.toNat)
  else if 'a' ≤ c ∧ c ≤ 'z' then some (c.toNat - 'a'.toNat + 10)
  else if 'A' ≤ c ∧ c ≤ 'Z' then some (c.toNat - 'A'.toNat + 10)
  else none

/-- The character is a digit in this base. -/
def isDigitIn (base : ℕ) (c : Char) : Bool := (digitValue c).any (· < base)

/-- The number that the digits denote. -/
def numeral (base : ℕ) (ds : List Char) : ℕ :=
  ds.foldl (fun n c => base * n + (digitValue c).getD 0) 0

/-- The sign in front: whether it is a minus, and what follows. -/
def takeSign : List Char → Bool × List Char
  | '-' :: s => (true, s)
  | '+' :: s => (false, s)
  | s => (false, s)

/-- The number with its sign. -/
def signed (minus : Bool) (n : ℕ) : ℤ := if minus then -n else n

/-- The base that `strtol` uses, and the digits behind a prefix `0x`. -/
def radix (base : ℕ) (s : List Char) : ℕ × List Char :=
  match s with
  | '0' :: x :: rest =>
    if (x = 'x' ∨ x = 'X') ∧ (base = 0 ∨ base = 16) ∧ rest.head?.any (isDigitIn 16) then
      (16, rest)
    else (if base = 0 then 8 else base, s)
  | '0' :: [] => (if base = 0 then 8 else base, s)
  | s => (if base = 0 then 10 else base, s)

/-- What `strtol` finds: how many digits, and the number as a `long`, the nearest one if it is
out of range. -/
structure Strtol where
  digits : ℕ
  value : ℤ
  deriving DecidableEq, Repr

/-- `strtol(s, &end, base)`, with `end == s` if there are no digits. -/
def strtol (base : ℕ) (s : List Char) : Strtol :=
  let (minus, s) := takeSign (s.dropWhile isSpace)
  let (base, s) := radix base s
  let ds := s.takeWhile (isDigitIn base)
  ⟨ds.length, clamp 64 (signed minus (numeral base ds))⟩

/-- The exceptions of `std::stoi`. -/
inductive StoiError
  | invalidArgument
  | outOfRange
  deriving DecidableEq, Repr

/-- `std::stoi(s, nullptr, base)` -/
def stoi (base : ℕ) (s : List Char) : Except StoiError ℤ :=
  let result := strtol base s
  if result.digits = 0 then .error .invalidArgument
  else if FitsInt result.value then .ok result.value
  else .error .outOfRange

/-- `is >> i` for an `int`, from a stream that starts with this text: 0 without digits, and the
nearest `int` if the number is none. -/
def extractInt (s : List Char) : ℤ :=
  let (minus, s) := takeSign (s.dropWhile isSpace)
  clamp 32 (signed minus (numeral 10 (s.takeWhile (isDigitIn 10))))

/-! ### Texts of digits -/

section Digits

variable {base : ℕ} {ds : List Char}

theorem isSpace_of_isDigitIn {c : Char} (h : isDigitIn base c = true) : isSpace c = false := by
  cases hspace : isSpace c with
  | false => rfl
  | true =>
    exfalso
    simp only [isSpace, Bool.or_eq_true, decide_eq_true_eq] at hspace
    rcases hspace with (((((rfl | rfl) | rfl) | rfl) | rfl) | rfl) <;>
      exact absurd h (by simp [isDigitIn, digitValue])

theorem takeSign_of_digits (h : ∀ c ∈ ds, isDigitIn base c = true) : takeSign ds = (false, ds) := by
  cases ds with
  | nil => rfl
  | cons c ds =>
    have hc := h c List.mem_cons_self
    rw [takeSign]
    · rintro s heq
      cases heq
      exact absurd hc (by simp [isDigitIn, digitValue])
    · rintro s heq
      cases heq
      exact absurd hc (by simp [isDigitIn, digitValue])

theorem dropWhile_isSpace_of_digits (h : ∀ c ∈ ds, isDigitIn base c = true) :
    ds.dropWhile isSpace = ds := by
  cases ds with
  | nil => rfl
  | cons c ds =>
    rw [List.dropWhile_cons, isSpace_of_isDigitIn (h c List.mem_cons_self)]
    rfl

/-- There is no prefix among digits, since `x` is none up to base 16. -/
theorem radix_of_digits (hpos : base ≠ 0) (hle : base ≤ 16)
    (h : ∀ c ∈ ds, isDigitIn base c = true) : radix base ds = (base, ds) := by
  unfold radix
  split
  · next x rest =>
    have hx := h x (List.mem_cons_of_mem _ List.mem_cons_self)
    have hnot : ¬ (x = 'x' ∨ x = 'X') := by
      rintro (rfl | rfl)
      · simp [isDigitIn, digitValue] at hx
        omega
      · simp [isDigitIn, digitValue] at hx
        omega
    rw [if_neg fun hc => hnot hc.1, if_neg hpos]
  · rw [if_neg hpos]
  · rw [if_neg hpos]

theorem strtol_of_digits (hpos : base ≠ 0) (hle : base ≤ 16)
    (h : ∀ c ∈ ds, isDigitIn base c = true) :
    strtol base ds = ⟨ds.length, clamp 64 (numeral base ds)⟩ := by
  rw [strtol, dropWhile_isSpace_of_digits h, takeSign_of_digits h]
  simp only [radix_of_digits hpos hle h, List.takeWhile_eq_self_iff.mpr h, signed,
    Bool.false_eq_true, if_false]

/-- A text of digits is converted if its number is an `int`. -/
theorem stoi_of_digits (hpos : base ≠ 0) (hle : base ≤ 16) (hne : ds ≠ [])
    (h : ∀ c ∈ ds, isDigitIn base c = true) :
    stoi base ds =
      if numeral base ds < 2 ^ 31 then .ok (numeral base ds : ℤ) else .error .outOfRange := by
  have hlen : ds.length ≠ 0 := fun hzero => hne (List.length_eq_zero_iff.mp hzero)
  rw [stoi, strtol_of_digits hpos hle h]
  simp only [if_neg hlen]
  by_cases hlt : numeral base ds < 2 ^ 31
  · have hvalue : clamp 64 (numeral base ds : ℤ) = numeral base ds := by
      rw [clamp]
      omega
    rw [hvalue, if_pos hlt, if_pos ⟨by omega, by omega⟩]
  · have hbig : ¬ FitsInt (clamp 64 (numeral base ds : ℤ)) := by
      rw [FitsInt, clamp]
      omega
    rw [if_neg hlt, if_neg hbig]

end Digits

end Numerals

end LebStudy
