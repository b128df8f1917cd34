import NetworkHomework.FileServer.Command
import NetworkHomework.FileServer.Transceiver
import NetworkHomework.Http.Slice
import NetworkHomework.Qt.Server

/-!
# The number of a request in the three file servers

A request for a part of a file carries a number, and each server cuts it down to the length of the
file. On the way there it goes through an `int` in hw4, through a `size_t` in hw5 and through
`std::stoi` in hw7: the first stores the largest `int` for a number that is too large, the last
throws. `bounds_agree_iff` says for which numbers the servers come to the same bound.
-/

namespace NetworkHomework

open Conversions Numerals

/-- `if (size_fict > count) size_fict = count;`, as all the servers have it. -/
def clamp (sizeFict count : Nat) : Nat := if sizeFict > count then count else sizeFict

theorem clamp_eq_min (sizeFict count : Nat) : clamp sizeFict count = min sizeFict count := by
  rw [clamp]
  split <;> omega

theorem clamp_clamp (sizeFict count : Nat) :
    clamp (clamp sizeFict count) count = clamp sizeFict count := by
  rw [clamp_eq_min, clamp_eq_min, min_assoc, min_self]

/-- The words of a request for a part of a file. -/
inductive Fiction where
  | beans
  | size
deriving DecidableEq

def Fiction.text : Fiction → String
  | .beans => "beans"
  | .size => "size"

/-! ### hw4 -/

namespace FileServer

/-- The `size_fict` of a command for a file of `count` bytes: `main` has it as an `int`, `Client`
takes it as a `size_t`, and `Transceiver::send_file` cuts it down. -/
def boundOf (strBuffer : List UInt8) (count : Nat) : Nat :=
  clamp (toSize (parseCommand strBuffer).sizeFict) count

theorem sendFile_clamp (content : List UInt8) (fict : Int) (size : Nat)
    (results : List SendResult) :
    sendFile (some content) fict size results =
      sendFile (some content) fict (clamp size content.length) results := by
  rw [sendFile_eq, sendFile_eq, clamp_eq_min, min_assoc, min_self]

theorem word_fiction (fiction : Fiction) : Word (ascii fiction.text) := by
  have hbeans : ascii "beans" = [0x62, 0x65, 0x61, 0x6e, 0x73] := rfl
  have hsize : ascii "size" = [0x73, 0x69, 0x7a, 0x65] := rfl
  cases fiction with
  | beans => exact ⟨by decide, by simp [Fiction.text, hbeans, isSpace]⟩
  | size => exact ⟨by decide, by simp [Fiction.text, hsize, isSpace]⟩

theorem boundOf_request {filename : List UInt8} (hfilename : Word filename) (fiction : Fiction)
    (n count : Nat) :
    boundOf (getRequest filename (ascii fiction.text) n) count =
      min (min n (2 ^ 31 - 1)) count := by
  have hsize : toSize (min (n : Int) (2 ^ 31 - 1)) = min n (2 ^ 31 - 1) := by
    rw [toSize]
    omega
  rw [boundOf, parseCommand_request hfilename (word_fiction fiction), clamp_eq_min, hsize]

end FileServer

/-! ### hw5 -/

namespace Qt

/-- The `size_fict` of a request for a file of `count` bytes, as `send_to_file` cuts it down. -/
def boundOf (str : QString) (count : Nat) : Nat := clamp (parseCommand str).sizeFict count

theorem slice_clamp (file : File) (fict size : Nat) :
    file.slice fict size = file.slice fict (clamp size file.size) := by
  have hslice : ∀ size, file.slice fict size =
      if fict = 1 then file.read (clamp size file.size) (file.size - clamp size file.size)
      else if fict = 2 then file.read 0 (clamp size file.size) else file.read 0 file.size :=
        fun _ => rfl
  rw [hslice, hslice, clamp_clamp]

/-- A word of a request: not empty, and without white space. -/
structure Word (token : List UInt16) : Prop where
  nonempty : token ≠ []
  noSpace : ∀ u ∈ token, QChar.isSpace u = false

def getRequest (filename fiction : List UInt16) (n : Nat) : QString :=
  .units ((QString.lit "get").data ++ (0x20 :: filename) ++ (0x20 :: fiction) ++ (0x20 :: numeral UInt16.ofNat n))

theorem word_token {token : List UInt16} (htoken : Word token) {rest : List UInt16}
    (hrest : ∀ u ∈ rest.head?, QChar.isSpace u = true) (blank : List UInt16)
    (hblank : ∀ u ∈ blank, QChar.isSpace u = true) :
    QTextStream.word (blank ++ token ++ rest) = (.units token, rest) := by
  obtain ⟨hdrop, htake, hleft⟩ := word_behind_blanks htoken.nonempty htoken.noSpace hblank hrest
  cases htoken' : token with
  | nil => exact absurd htoken' htoken.nonempty
  | cons u us =>
      rw [htoken'] at hdrop htake hleft
      rw [List.cons_append] at hdrop htake hleft
      simp only [QTextStream.word, hdrop, htake, hleft]

theorem number_numeral {n : Nat} (hn : n < 2 ^ 64) :
    QTextStream.number (0x20 :: numeral UInt16.ofNat n) = n := by
  have hvalues : ∀ d < 10, QChar.digitValue (UInt16.ofNat (0x30 + d)) = some d := by decide
  have hread : QTextStream.digits 10 QChar.digitValue (numeral UInt16.ofNat n) = n := by
    have htake : (numeral UInt16.ofNat n).takeWhile (fun u => (QChar.digitValue u).isSome) =
        numeral UInt16.ofNat n := by
      refine List.takeWhile_eq_self_iff.mpr fun u hu => ?_
      obtain ⟨d, hd, rfl⟩ := mem_numeral hu
      rw [hvalues d hd]
      rfl
    have hvalue := @foldl_numeral UInt16 UInt16.ofNat (fun u => (QChar.digitValue u).getD 0)
      (fun d hd => by rw [hvalues d hd]; rfl) n
    rw [QTextStream.digits, htake, hvalue, Nat.mod_eq_of_lt hn]
  rcases Nat.eq_zero_or_pos n with rfl | hpos
  · decide
  · have hfirst : ∀ d < 10, 0 < d → QChar.isSpace (UInt16.ofNat (0x30 + d)) = false ∧
        UInt16.ofNat (0x30 + d) ≠ 0x30 ∧ UInt16.ofNat (0x30 + d) ≠ 0x2d ∧
        UInt16.ofNat (0x30 + d) ≠ 0x2b := by decide
    obtain ⟨d, rest, hd, hd', hnumeral⟩ := @numeral_leading UInt16 UInt16.ofNat n hpos
    obtain ⟨hspace, hzero, hminus, hplus⟩ := hfirst d hd' hd
    have hblank : QChar.isSpace 0x20 = true := by decide
    rw [hnumeral] at hread ⊢
    rw [QTextStream.number, List.dropWhile_cons_of_pos hblank,
      List.dropWhile_cons_of_neg (by rw [hspace]; simp)]
    split
    · next heq => exact absurd (List.cons.inj heq).1 hzero
    · rw [QTextStream.decimal, if_neg hminus, if_neg hplus, hread]

theorem word_get : Word (QString.lit "get").data := by
  have hunits : (QString.lit "get").data = [0x67, 0x65, 0x74] := rfl
  rw [hunits]
  exact ⟨by decide, by simp [QChar.isSpace]⟩

theorem word_fiction (fiction : Fiction) : Word (QString.lit fiction.text).data := by
  have hbeans : (QString.lit "beans").data = [0x62, 0x65, 0x61, 0x6e, 0x73] := rfl
  have hsize : (QString.lit "size").data = [0x73, 0x69, 0x7a, 0x65] := rfl
  cases fiction with
  | beans => exact ⟨by decide, by simp [Fiction.text, hbeans, QChar.isSpace]⟩
  | size => exact ⟨by decide, by simp [Fiction.text, hsize, QChar.isSpace]⟩

theorem parseCommand_request {filename fiction : List UInt16} (hfilename : Word filename)
    (hfiction : Word fiction) {n : Nat} (hn : n < 2 ^ 64) :
    parseCommand (getRequest filename fiction n) =
      ⟨.units (QString.lit "get").data, .units filename, .units fiction, n⟩ := by
  have hblank : ∀ u ∈ ([0x20] : List UInt16), QChar.isSpace u = true := by simp [QChar.isSpace]
  have hbehind : ∀ rest : List UInt16, ∀ u ∈ (0x20 :: rest).head?, QChar.isSpace u = true := by
    simp [QChar.isSpace]
  have hdata : ∀ us, (QString.units us).data = us := fun _ => rfl
  have hfirst := word_token word_get
    (hbehind (filename ++ 0x20 :: (fiction ++ 0x20 :: numeral UInt16.ofNat n))) [] (by simp)
  have hsecond :=
    word_token hfilename (hbehind (fiction ++ 0x20 :: numeral UInt16.ofNat n)) [0x20] hblank
  have hthird := word_token hfiction (hbehind (numeral UInt16.ofNat n)) [0x20] hblank
  simp only [List.nil_append, List.cons_append] at hfirst hsecond hthird
  simp only [parseCommand, getRequest, hdata, List.cons_append, List.append_assoc, hfirst,
    hsecond, hthird,
    number_numeral hn]

theorem boundOf_request {filename : List UInt16} (hfilename : Word filename) (fiction : Fiction)
    {n : Nat} (hn : n < 2 ^ 64) (count : Nat) :
    boundOf (getRequest filename (QString.lit fiction.text).data n) count = min n count := by
  rw [boundOf, parseCommand_request hfilename (word_fiction fiction) hn, clamp_eq_min]

end Qt

/-! ### hw7 -/

namespace Http

/-- The `size_fict` of the parameters of a request for a file of `count` bytes, as the handler of
`/get` cuts it down; for an empty file it answers 404 instead. `none` if `std::stoi` throws. -/
def boundOf (params : List (List UInt8 × List UInt8)) (count : Nat) : Option (Option Nat) :=
  (params.foldlM Params.read ⟨[0], 0, 0⟩).map fun p => if count = 0 then
    none else some (clamp p.sizeFict count)

theorem slice_clamp (file : RegularFile) (p : Params) :
    slice file p = slice file { p with sizeFict := clamp p.sizeFict file.content.length } := by
  have hcut : min (min p.sizeFict file.content.length) file.content.length =
      min p.sizeFict file.content.length := by
    rw [min_assoc, min_self]
  rw [slice_eq, slice_eq, clamp_eq_min]
  simp only [portion, portionLength, hcut]

def getParams (filename : List UInt8) (n : Nat) : Fiction → List (List UInt8 × List UInt8)
  | .beans => [(ascii "beans", numeral UInt8.ofNat n), (ascii "filename", filename)]
  | .size => [(ascii "filename", filename), (ascii "size", numeral UInt8.ofNat n)]

theorem stoi_numeral (n : Nat) :
    stoi (numeral UInt8.ofNat n) = if n < 2 ^ 31 then some (n : Int) else none := by
  obtain ⟨c, cs, hnumeral, hspace, ⟨hminus, hplus⟩, htake, hvalue⟩ := numeral_read n
  rw [hnumeral, stoi, List.dropWhile_cons_of_neg (by simp [hspace])]
  split
  next negative rest hsign =>
    split at hsign
    · next heq => exact absurd (List.cons.inj heq).1 hminus
    · next heq => exact absurd (List.cons.inj heq).1 hplus
    · cases hsign
      simp only [htake, hvalue, Bool.false_eq_true, if_false]
      have hfits : (c :: cs = [] ∨ (n : Int) < - 2 ^ 31 ∨ 2 ^ 31 ≤ (n : Int)) ↔ ¬ n < 2 ^ 31 := by
        rw [or_iff_right (List.cons_ne_nil c cs)]
        omega
      simp only [hfits, ite_not]

theorem boundOf_params (filename : List UInt8) (fiction : Fiction) (n count : Nat) :
    boundOf (getParams filename n fiction) count =
      if n < 2 ^ 31 then some (if count = 0 then none else some (min n count)) else none := by
  have hstoi := stoi_numeral n
  by_cases hn : n < 2 ^ 31
  · have hvalue : toSize (n : Int) = n := by
      rw [toSize]
      omega
    rw [if_pos hn] at hstoi ⊢
    cases fiction <;>
      simp [boundOf, getParams, Params.read_filename, Params.read_beans, Params.read_size, hstoi,
        hvalue, clamp_eq_min]
  · rw [if_neg hn] at hstoi ⊢
    cases fiction <;> simp [boundOf, getParams, Params.read_filename, Params.read_beans,
      Params.read_size, hstoi]

end Http

/-! ### All three -/

/-- For a file of `count` bytes and the number `n`, the three servers come to the smaller of the
two; hw7 only if the file is not empty, since otherwise it does not come to a bound. -/
def BoundsAgree (filename : List UInt8) (filename' : List UInt16) (fiction : Fiction)
    (n count : Nat) : Prop :=
  FileServer.boundOf (FileServer.getRequest filename (ascii fiction.text) n) count = min n count ∧
    Qt.boundOf (Qt.getRequest filename' (Qt.QString.lit fiction.text).data n) count = min n count ∧
    Http.boundOf (Http.getParams filename n fiction) count =
      some (if count = 0 then none else some (min n count))

/-- **The bounds.** For every file and every number that a `size_t` holds, the three servers come to
the smaller of the number and the length of the file exactly if an `int` holds the number. -/
theorem bounds_agree_iff {n : Nat} (hn : n < 2 ^ 64) (count : Nat) (fiction : Fiction)
    {filename : List UInt8} (hfilename : FileServer.Word filename) {filename' : List UInt16}
    (hfilename' : Qt.Word filename') :
    BoundsAgree filename filename' fiction n count ↔ n < 2 ^ 31 := by
  rw [BoundsAgree, FileServer.boundOf_request hfilename, Qt.boundOf_request hfilename' fiction hn,
    Http.boundOf_params]
  constructor
  · rintro ⟨_, _, hparams⟩
    by_contra hlarge
    rw [if_neg hlarge] at hparams
    cases hparams
  · intro hsmall
    rw [if_pos hsmall, Nat.min_eq_left (by omega : n ≤ 2 ^ 31 - 1)]
    exact ⟨rfl, rfl, rfl⟩

theorem bounds_agree_ten : BoundsAgree [0x61] [0x61] .size 10 4 := by
  refine (bounds_agree_iff (by decide) 4 .size ⟨by decide, ?_⟩ ⟨by decide, ?_⟩).mpr (by decide)
  · simp [isSpace]
  · simp [Qt.QChar.isSpace]

/-- For the number 2^31 and a file of 2^31 bytes hw4 comes to one byte less, and hw7 to no bound. -/
theorem bounds_differ :
    ¬ ∀ (n count : Nat) (filename : List UInt8) (filename' : List UInt16), n < 2 ^ 64 →
    FileServer.Word filename →
      Qt.Word filename' → BoundsAgree filename filename' .size n count := by
  intro h
  have hword : FileServer.Word [0x61] := ⟨by decide, by simp [isSpace]⟩
  have hbound :=
    (h (2 ^ 31) (2 ^ 31) [0x61] [0x61] (by decide) hword ⟨by decide, by simp [Qt.QChar.isSpace]⟩).1
  rw [FileServer.boundOf_request hword] at hbound
  omega

end NetworkHomework
