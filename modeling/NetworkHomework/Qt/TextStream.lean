import NetworkHomework.Qt.DataStream

/-!
# `QTextStream` over a request

What `iss >> command >> filename >> fiction >> size_fict` reads out of a request: three words
between white space, then an integer. `QTextStream` guesses the base of an integer from its prefix
and wraps at 64 bits; a number that is missing or malformed leaves `0`.
-/

namespace NetworkHomework.Qt

namespace QChar

/-- `QChar::isSpace`: the ASCII white space, NEL, NBSP and the separators. -/
def isSpace (u : UInt16) : Bool :=
  let n := u.toNat
  n == 0x20 || (0x09 ≤ n && n ≤ 0x0d) || n == 0x85 || n == 0xa0 || n == 0x1680 ||
    (0x2000 ≤ n && n ≤ 0x200a) || n == 0x2028 || n == 0x2029 || n == 0x202f ||
      n == 0x205f || n == 0x3000

/-- The zeros of the decimal digits, each followed by the other nine. -/
def zeros : List Nat :=
  [0x30, 0x660, 0x6f0, 0x7c0, 0x966, 0x9e6, 0xa66, 0xae6, 0xb66, 0xbe6, 0xc66, 0xce6, 0xd66, 0xde6,
    0xe50, 0xed0, 0xf20, 0x1040, 0x1090, 0x17e0, 0x1810, 0x1946, 0x19d0, 0x1a80, 0x1a90, 0x1b50,
    0x1bb0, 0x1c40, 0x1c50, 0xa620, 0xa8d0, 0xa900, 0xa9d0, 0xa9f0, 0xaa50, 0xabf0, 0xff10]

def digitValue (u : UInt16) : Option Nat :=
  (zeros.find? fun start => start ≤ u.toNat && u.toNat < start + 10).map (u.toNat - ·)

/-- The value of an ASCII digit in a base up to 16, letters in either case. -/
def asciiDigit (base : Nat) (u : UInt16) : Option Nat :=
  let n := u.toNat
  let value := if 0x30 ≤ n ∧ n ≤ 0x39 then n - 0x30
    else if 0x61 ≤ n ∧ n ≤ 0x66 then n - 0x57
    else if 0x41 ≤ n ∧ n ≤ 0x46 then n - 0x37
    else base
  if value < base then some value else none

end QChar

namespace QTextStream

/-- `operator>>(QString)`: the next word, null if there is none. -/
def word (us : List UInt16) : QString × List UInt16 :=
  let us := us.dropWhile QChar.isSpace
  match us.takeWhile (! QChar.isSpace ·) with
  | [] => (.null, us)
  | u :: token => (.units (u :: token), us.dropWhile (! QChar.isSpace ·))

/-- The number spelled by the leading digits, wrapped at 64 bits. -/
def digits (base : Nat) (value : UInt16 → Option Nat) (us : List UInt16) : Nat :=
  ((us.takeWhile fun u => (value u).isSome).foldl (fun n u => base * n + (value u).getD 0) 0) %
    2 ^ 64

/-- A decimal number with an optional sign; a minus negates what is positive as a `qlonglong`. -/
def decimal : List UInt16 → Nat
  | [] => 0
  | sign :: us =>
      if sign = 0x2d then
        let n := digits 10 QChar.digitValue us
        if n < 2 ^ 63 then (2 ^ 64 - n) % 2 ^ 64 else n
      else if sign = 0x2b then digits 10 QChar.digitValue us
      else digits 10 QChar.digitValue (sign :: us)

/-- `operator>>(ulong)` with the base guessed: `0x`, `0b` and `0` before an octal digit are
prefixes. -/
def number (us : List UInt16) : Nat :=
  match us.dropWhile QChar.isSpace with
  | 0x30 :: mark :: rest =>
      if mark = 0x78 ∨ mark = 0x58 then digits 16 (QChar.asciiDigit 16) rest
      else if mark = 0x62 ∨ mark = 0x42 then digits 2 (QChar.asciiDigit 2) rest
      else if (QChar.digitValue mark).any (· ≤ 7) then digits 8 (QChar.asciiDigit 8) (mark :: rest)
      else decimal (0x30 :: mark :: rest)
  | us => decimal us

end QTextStream

structure Command where
  command : QString
  filename : QString
  fiction : QString
  sizeFict : Nat
deriving DecidableEq

def parseCommand (str : QString) : Command :=
  let command := QTextStream.word str.data
  let filename := QTextStream.word command.2
  let fiction := QTextStream.word filename.2
  ⟨command.1, filename.1, fiction.1, QTextStream.number fiction.2⟩

example : parseCommand (.lit " get  a.txt\tsize 0x10 ") =
    ⟨.lit "get", .lit "a.txt", .lit "size", 16⟩ := by
  decide

end NetworkHomework.Qt
