import NetworkHomework.Base.Numerals

/-!
# Characters and integers of C

Bytes of the character set and its classes, the conversions between signed and unsigned 64-bit
integers, and the functions of the standard library that read a number from its digits.
-/

namespace NetworkHomework.Conversions

open Numerals

/-! ### Integers -/

def toSize (n : Int) : Nat := (n % 2 ^ 64).toNat

def toSsize (n : Nat) : Int := if n < 2 ^ 63 then n else n - 2 ^ 64

theorem toSize_of_nonneg {n : Int} (hpos : 0 ≤ n) (hlt : n < 2 ^ 64) : (toSize n : Int) = n := by
  rw [toSize]
  omega

theorem toSsize_of_lt {n : Nat} (hlt : n < 2 ^ 63) : toSsize n = n := if_pos hlt

/-! ### Characters -/

def ascii (s : String) : List UInt8 := s.toList.map fun c => UInt8.ofNat c.toNat

def isDigit (c : UInt8) : Bool := 0x30 ≤ c && c ≤ 0x39

def isSpace (c : UInt8) : Bool := c == 0x20 || (0x09 ≤ c && c ≤ 0x0d)

def decimal (digits : List UInt8) : Nat := digits.foldl (fun n c => 10 * n + (c.toNat - 0x30)) 0

theorem isSpace_of_isDigit {c : UInt8} (hc : isDigit c = true) : isSpace c = false := by
  simp only [isDigit, Bool.and_eq_true, decide_eq_true_eq, UInt8.le_iff_toNat_le] at hc
  simp only [isSpace, Bool.or_eq_false_iff, Bool.and_eq_false_iff, decide_eq_false_iff_not,
    beq_eq_false_iff_ne,
    UInt8.le_iff_toNat_le, ne_eq, ← UInt8.toNat_inj]
  simp at hc ⊢
  omega

theorem not_sign_of_isDigit {c : UInt8} (hc : isDigit c = true) : c ≠ 0x2d ∧ c ≠ 0x2b := by
  constructor
  · rintro rfl
    exact absurd hc (by decide)
  · rintro rfl
    exact absurd hc (by decide)

/-! ### Numbers -/

/-- `std::stoll` on digits; `none` if it throws. -/
def stoll (digits : List UInt8) : Option Int :=
  if decimal digits < 2 ^ 63 then some (decimal digits) else none

/-- `std::stoi`, which skips white space, takes a sign and ignores what follows the digits; `none`
if it throws. -/
def stoi (s : List UInt8) : Option Int :=
  let s := s.dropWhile isSpace
  let (negative, s) :=
    match s with
    | 0x2d :: rest => (true, rest)
    | 0x2b :: rest => (false, rest)
    | rest => (false, rest)
  let digits := s.takeWhile isDigit
  let value : Int := if negative then - (decimal digits : Int) else decimal digits
  if digits = [] ∨ value < - 2 ^ 31 ∨ 2 ^ 31 ≤ value then none else some value

theorem numeral_digits (n : Nat) :
    (∀ c ∈ numeral UInt8.ofNat n, isDigit c = true) ∧ decimal (numeral UInt8.ofNat n) = n := by
  have hdigits : ∀ d < 10, isDigit (UInt8.ofNat (0x30 + d)) = true := by decide
  have hvalues : ∀ d < 10, (UInt8.ofNat (0x30 + d)).toNat - 0x30 = d := by decide
  constructor
  · intro c hc
    obtain ⟨d, hd, rfl⟩ := mem_numeral hc
    exact hdigits d hd
  · exact @foldl_numeral UInt8 UInt8.ofNat (fun c => c.toNat - 0x30) hvalues n

theorem numeral_read (n : Nat) :
    ∃ c cs, numeral UInt8.ofNat n = c :: cs ∧ isSpace c = false ∧ (c ≠ 0x2d ∧ c ≠ 0x2b) ∧
      (c :: cs).takeWhile isDigit = c :: cs ∧ decimal (c :: cs) = n := by
  obtain ⟨hdigits, hvalue⟩ := numeral_digits n
  cases hnumeral : numeral UInt8.ofNat n with
  | nil => exact absurd hnumeral (numeral_ne_nil n)
  | cons c cs =>
      rw [hnumeral] at hdigits hvalue
      have hc := hdigits c List.mem_cons_self
      exact ⟨c, cs, rfl, isSpace_of_isDigit hc, not_sign_of_isDigit hc,
        List.takeWhile_eq_self_iff.mpr hdigits, hvalue⟩

end NetworkHomework.Conversions
