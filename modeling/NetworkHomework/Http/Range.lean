import NetworkHomework.Base.Conversions

/-!
# Range headers

`parse_range_header` reads a list of ranges `first-last` in which either end may be missing, and
`get_range_offset_and_length` turns one of them into the offset and the length that are asked of a
content, in 64-bit arithmetic. It does not compare a range that has both ends with the content.
-/

namespace NetworkHomework.Http

open Conversions

/-! ### The header -/

def isSpaceOrTab (c : UInt8) : Bool := c == 0x20 || c == 0x09

/-- A range, with `-1` for an end that is missing. -/
structure Range where
  first : Int
  last : Int
deriving DecidableEq

/-- `(\\d*)-(\\d*)`, with what it captures. -/
def matchEnds (piece : List UInt8) : Option (List UInt8 × List UInt8) :=
  match piece.dropWhile isDigit with
  | 0x2d :: last => if last.all isDigit then some (piece.takeWhile isDigit, last) else none
  | _ => none

/-- `bytes=(\\d*-\\d*(?:,\\s*\\d*-\\d*)*)`, with the ranges it captures, between which the commas
stand. -/
def matchRanges (s : List UInt8) : Option (List (List UInt8)) :=
  let bytes : List UInt8 := [0x62, 0x79, 0x74, 0x65, 0x73, 0x3d]
  if s.take 6 = bytes then
    match (s.drop 6).splitOn 0x2c with
    | first :: more =>
        if (matchEnds first).isSome && more.all fun piece => (matchEnds (piece.dropWhile isSpace)).isSome then
          some (first :: more)
        else none
    | [] => none
  else none

def trim (piece : List UInt8) : List UInt8 :=
  ((piece.dropWhile isSpaceOrTab).reverse.dropWhile isSpaceOrTab).reverse

def rangeEnd (digits : List UInt8) : Option Int := if digits = [] then some (-1) else stoll digits

/-- What is done with each range between the commas; `none` if it is not valid or `stoll` throws. -/
def addRange (ranges : List Range) (piece : List UInt8) : Option (List Range) :=
  match matchEnds (piece.dropWhile isSpace) with
  | none => some ranges
  | some (digits, digits') => do
      let first ← rangeEnd digits
      let last ← rangeEnd digits'
      if first ≠ -1 ∧ last ≠ -1 ∧ first > last then none else some (ranges ++ [⟨first, last⟩])

/-- `parse_range_header`, `none` if it returns false. -/
def parseRangeHeader (s : List UInt8) : Option (List Range) := do
  let pieces ← matchRanges s
  ((pieces.map trim).filter (· ≠ [])).foldlM addRange []

/-- A range as it comes out of a header. -/
structure Range.Valid (r : Range) : Prop where
  first : -1 ≤ r.first
  first_lt : r.first < 2 ^ 63
  last : -1 ≤ r.last
  last_lt : r.last < 2 ^ 63
  ordered : r.first ≠ -1 → r.last ≠ -1 → r.first ≤ r.last

theorem rangeEnd_bounds {digits : List UInt8} {n : Int} (h : rangeEnd digits = some n) :
    -1 ≤ n ∧ n < 2 ^ 63 := by
  rw [rangeEnd] at h
  split_ifs at h
  · cases h
    decide
  · rw [stoll] at h
    split_ifs at h with hlt
    cases h
    omega

theorem addRange_valid {ranges ranges' : List Range} {piece : List UInt8}
    (hvalid : ∀ r ∈ ranges, r.Valid) (h : addRange ranges piece = some ranges') :
    ∀ r ∈ ranges', r.Valid := by
  rw [addRange] at h
  split at h
  · cases h
    exact hvalid
  · obtain ⟨first, hfirst, h⟩ := Option.bind_eq_some_iff.mp h
    obtain ⟨last, hlast, h⟩ := Option.bind_eq_some_iff.mp h
    split_ifs at h with hordered
    cases h
    intro r hr
    rcases List.mem_append.mp hr with hold | hnew
    · exact hvalid r hold
    · cases List.mem_singleton.mp hnew
      obtain ⟨hfirst, hfirst'⟩ := rangeEnd_bounds hfirst
      obtain ⟨hlast, hlast'⟩ := rangeEnd_bounds hlast
      exact ⟨hfirst, hfirst', hlast, hlast', fun hne hne' =>
        Int.not_lt.mp fun hgt => hordered ⟨hne, hne', hgt⟩⟩

theorem parseRangeHeader_valid {s : List UInt8} {ranges : List Range}
    (h : parseRangeHeader s = some ranges) : ∀ r ∈ ranges, r.Valid := by
  obtain ⟨pieces, _, h⟩ := Option.bind_eq_some_iff.mp h
  have hfold : ∀ (pieces : List (List UInt8)) (acc : List Range), (∀ r ∈ acc, r.Valid) →
      pieces.foldlM addRange acc = some ranges → ∀ r ∈ ranges, r.Valid := by
    intro pieces
    induction pieces with
    | nil =>
        intro acc hacc h
        rw [List.foldlM_nil] at h
        cases h
        exact hacc
    | cons piece pieces ih =>
        intro acc hacc h
        rw [List.foldlM_cons] at h
        obtain ⟨acc', hadd, h⟩ := Option.bind_eq_some_iff.mp h
        exact ih acc' (addRange_valid hacc hadd) h
  exact hfold _ [] (fun r hr => absurd hr List.not_mem_nil) h

/-! ### Offset and length -/

def Range.offsetAndLength (r : Range) (contentLength : Nat) : Nat × Nat :=
  if r.first = -1 ∧ r.last = -1 then (0, contentLength)
  else
    let slen := toSsize contentLength
    let r : Range := if r.first = -1 then ⟨max 0 (slen - r.last), slen - 1⟩ else r
    let r : Range := if r.last = -1 then ⟨r.first, slen - 1⟩ else r
    (toSize r.first, (toSize (r.last - r.first) + 1) % 2 ^ 64)

/-- `offset + length` as `write_content` computes it. -/
def Range.endOffset (r : Range) (contentLength : Nat) : Nat :=
  ((r.offsetAndLength contentLength).1 + (r.offsetAndLength contentLength).2) % 2 ^ 64

def Range.Closed (r : Range) : Prop := r.first ≠ -1 ∧ r.last ≠ -1

instance (r : Range) : Decidable r.Closed := inferInstanceAs (Decidable (_ ∧ _))

theorem Range.offsetAndLength_closed {r : Range} (hclosed : r.Closed) (contentLength : Nat) :
    r.offsetAndLength contentLength = (toSize r.first,
      (toSize (r.last - r.first) + 1) % 2 ^ 64) := by
  rw [offsetAndLength, if_neg fun h => hclosed.1 h.1]
  dsimp only
  rw [if_neg hclosed.1, if_neg hclosed.2]

theorem Range.closed_bounds {r : Range} (hvalid : r.Valid) (hclosed : r.Closed)
    (contentLength : Nat) :
    ((r.offsetAndLength contentLength).1 : Int) = r.first ∧
      (r.endOffset contentLength : Int) = r.last + 1 := by
  obtain ⟨hfirst, hfirst', hlast, hlast', hordered⟩ := hvalid
  have hle := hordered hclosed.1 hclosed.2
  have hne := hclosed.1
  have hoffset : (toSize r.first : Int) = r.first := toSize_of_nonneg (by omega) (by omega)
  have hlength : (toSize (r.last - r.first) : Int) = r.last - r.first :=
    toSize_of_nonneg (by omega) (by omega)
  rw [endOffset, offsetAndLength_closed hclosed]
  dsimp only
  omega

theorem Range.open_bounds {r : Range} (hvalid : r.Valid) (hopen : ¬ r.Closed) {contentLength : Nat}
    (hlength : contentLength < 2 ^ 63) :
    r.endOffset contentLength ≤ (r.offsetAndLength contentLength).1 ∨
      r.endOffset contentLength ≤ contentLength := by
  obtain ⟨hfirst, hfirst', hlast, hlast', _⟩ := hvalid
  have hslen := toSsize_of_lt hlength
  rw [endOffset, offsetAndLength]
  by_cases hwhole : r.first = -1 ∧ r.last = -1
  · rw [if_pos hwhole]
    dsimp only
    omega
  · rw [if_neg hwhole]
    dsimp only
    by_cases hsuffix : r.first = -1
    · -- the last bytes
      rw [if_pos hsuffix]
      dsimp only
      rw [hslen, ite_self]
      simp only [toSize]
      omega
    · -- from `first` to the end
      have hmissing : r.last = -1 := by
        by_contra hne
        exact hopen ⟨hsuffix, hne⟩
      rw [if_neg hsuffix, if_pos hmissing, hslen]
      simp only [toSize]
      omega

end NetworkHomework.Http
