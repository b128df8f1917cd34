import NetworkHomework.Base.Conversions

/-!
# The command line of the hw4 server

`iss >> command >> filename >> fiction >> size_fict`: three words and a decimal integer from a
`std::istringstream`. An extraction that finds nothing leaves its variable as it is and fails the
stream, and so all that follow. A number that does not fit an `int` becomes the largest one
(`parseCommand_request`).
-/

namespace NetworkHomework.FileServer

open Conversions Numerals

/-- A `std::istringstream`: what has not been extracted, and whether no extraction has failed. -/
structure IStringStream where
  rest : List UInt8
  good : Bool
deriving DecidableEq

namespace IStringStream

/-- `operator>>(std::string&)`. -/
def word (iss : IStringStream) (str : List UInt8) : List UInt8 × IStringStream :=
  if !iss.good then (str, iss)
  else
    match iss.rest.dropWhile isSpace with
    | [] => (str, ⟨[], false⟩)
    | c :: cs => ((c :: cs).takeWhile (! isSpace ·), ⟨(c :: cs).dropWhile (! isSpace ·), true⟩)

/-- `operator>>(int&)`: digits with an optional sign. Without a digit it stores `0`, and out of
range the bound it has passed, and fails either way. -/
def int (iss : IStringStream) (n : Int) : Int × IStringStream :=
  if !iss.good then (n, iss)
  else
    match iss.rest.dropWhile isSpace with
    | [] => (n, ⟨[], false⟩)
    | c :: cs =>
        let signed := c = 0x2d ∨ c = 0x2b
        let rest := if signed then cs else c :: cs
        let digits := rest.takeWhile isDigit
        let rest := rest.dropWhile isDigit
        let value : Int := if c = 0x2d then - (decimal digits : Int) else decimal digits
        if digits = [] then (0, ⟨rest, false⟩)
        else if value < - 2 ^ 31 then (- 2 ^ 31, ⟨rest, false⟩)
        else if 2 ^ 31 ≤ value then (2 ^ 31 - 1, ⟨rest, false⟩)
        else (value, ⟨rest, true⟩)

end IStringStream

/-- A command as it is read from `str_buffer`; each of the strings starts as one null character. -/
structure Command where
  command : List UInt8
  filename : List UInt8
  fiction : List UInt8
  sizeFict : Int
deriving DecidableEq

def parseCommand (strBuffer : List UInt8) : Command :=
  let iss : IStringStream := ⟨strBuffer, true⟩
  let (command, iss) := iss.word [0]
  let (filename, iss) := iss.word [0]
  let (fiction, iss) := iss.word [0]
  let (sizeFict, _) := iss.int 0
  ⟨command, filename, fiction, sizeFict⟩

def Command.fict (c : Command) : Nat :=
  if c.fiction = ascii "beans" then 1 else if c.fiction = ascii "size" then 2 else 0

/-! ### A well-formed request -/

/-- A word of a request: not empty, and without white space. -/
structure Word (token : List UInt8) : Prop where
  nonempty : token ≠ []
  noSpace : ∀ c ∈ token, isSpace c = false

namespace IStringStream

theorem word_token {token : List UInt8} (htoken : Word token) {rest : List UInt8}
    (hrest : ∀ c ∈ rest.head?, isSpace c = true) (str : List UInt8) (blank : List UInt8)
    (hblank : ∀ c ∈ blank, isSpace c = true) :
    word ⟨blank ++ token ++ rest, true⟩ str = (token, ⟨rest, true⟩) := by
  obtain ⟨hdrop, htake, hleft⟩ := word_behind_blanks htoken.nonempty htoken.noSpace hblank hrest
  cases htoken' : token with
  | nil => exact absurd htoken' htoken.nonempty
  | cons c cs =>
      rw [htoken'] at hdrop htake hleft
      rw [word, if_neg (by simp), hdrop]
      exact congrArg₂ (fun s rest => (s, IStringStream.mk rest true)) htake hleft

theorem int_numeral (n : Nat) (k : Int) {blank : List UInt8}
    (hblank : ∀ c ∈ blank, isSpace c = true) :
    (int ⟨blank ++ numeral UInt8.ofNat n, true⟩ k).1 = min (n : Int) (2 ^ 31 - 1) := by
  obtain ⟨c, cs, hnumeral, hspace, ⟨hminus, hplus⟩, htake, hvalue⟩ := numeral_read n
  have hdrop : (blank ++ c :: cs).dropWhile isSpace = c :: cs := by
    rw [List.dropWhile_append_of_pos hblank, List.dropWhile_cons_of_neg (by simp [hspace])]
  rw [hnumeral, int, if_neg (by simp), hdrop]
  simp only [hminus, hplus, or_self, if_false, htake, hvalue, reduceCtorEq]
  split_ifs <;> omega

end IStringStream

/-- `get <filename> <beans/size> <number>`, with the number in decimal. -/
def getRequest (filename fiction : List UInt8) (n : Nat) : List UInt8 :=
  ascii "get" ++ (0x20 :: filename) ++ (0x20 :: fiction) ++ (0x20 :: numeral UInt8.ofNat n)

theorem parseCommand_request {filename fiction : List UInt8} (hfilename : Word filename)
    (hfiction : Word fiction) (n : Nat) :
    parseCommand (getRequest filename fiction n) =
      ⟨ascii "get", filename, fiction, min (n : Int) (2 ^ 31 - 1)⟩ := by
  have hget : Word (ascii "get") := ⟨by decide, by
    have hchars : ascii "get" = [0x67, 0x65, 0x74] := rfl
    simp [hchars, isSpace]⟩
  have hblank : ∀ c ∈ ([0x20] : List UInt8), isSpace c = true := by simp [isSpace]
  have hbehind : ∀ rest : List UInt8, ∀ c ∈ (0x20 :: rest).head?, isSpace c = true := by
    simp [isSpace]
  have hfirst := IStringStream.word_token hget
    (hbehind (filename ++ 0x20 :: (fiction ++ 0x20 :: numeral UInt8.ofNat n))) [0] [] (by simp)
  have hsecond := IStringStream.word_token hfilename
    (hbehind (fiction ++ 0x20 :: numeral UInt8.ofNat n)) [0] [0x20] hblank
  have hthird :=
    IStringStream.word_token hfiction (hbehind (numeral UInt8.ofNat n)) [0] [0x20] hblank
  have hfourth := IStringStream.int_numeral n 0 hblank
  simp only [List.nil_append, List.cons_append] at hfirst hsecond hthird hfourth
  simp only [parseCommand, getRequest, List.cons_append, List.append_assoc, hfirst, hsecond,
    hthird, hfourth]

end NetworkHomework.FileServer
