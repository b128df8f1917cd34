import NetworkHomework.Text.Trim

/-!
# The positions of a `std::string`

`trim` with the `size_t` positions it computes with. A search that finds nothing returns `npos`, the
largest of them, and `npos + 1` is `0`; `npos` is more than any string is long, so that erasing as
many characters erases all there are. That is what `behind` and the counts of `erase` say without
wrapping.
-/

namespace NetworkHomework.Text

def npos : UInt64 := 0xffffffffffffffff

/-- A `std::string`; no string is as long as `npos`. -/
@[ext] structure StdString where
  chars : List UInt8
  fits : chars.length < npos.toNat

def position : Option Nat → UInt64
  | none => npos
  | some i => UInt64.ofNat i

namespace StdString

def size (s : StdString) : UInt64 := UInt64.ofNat s.chars.length

/-- How many characters `erase(pos, count)` removes: all behind `pos` if there are not more than
`count`. -/
def limit (s : StdString) (pos count : UInt64) : UInt64 :=
  if count < s.size - pos then count else s.size - pos

theorem erase_fits (s : StdString) (pos count : Nat) :
    (s.chars.take pos ++ (s.chars.drop pos).drop count).length < npos.toNat := by
  have hfits := s.fits
  rw [List.length_append, List.length_take, List.length_drop, List.length_drop]
  omega

/-- `s.erase(pos, count)`; `none` where it throws. -/
def erase (s : StdString) (pos count : UInt64) : Option StdString :=
  if s.size < pos then none
  else some ⟨s.chars.take pos.toNat ++ (s.chars.drop pos.toNat).drop (s.limit pos count).toNat,
    s.erase_fits _ _⟩

def findFirstNotOf (s : StdString) : UInt64 := position (Text.findFirstNotOf s.chars)

def findLastNotOf (s : StdString) : UInt64 := position (Text.findLastNotOf s.chars)

def rtrim (s : StdString) : Option StdString := s.erase (s.findLastNotOf + 1) npos

def ltrim (s : StdString) : Option StdString := s.erase 0 s.findFirstNotOf

def trim (s : StdString) : Option StdString := s.rtrim.bind ltrim

end StdString

/-! ### Positions as numbers -/

theorem position_toNat {p : Option Nat} (hp : ∀ i ∈ p, i < npos.toNat) :
    (position p).toNat = p.getD npos.toNat := by
  cases p with
  | none => rfl
  | some i => exact UInt64.toNat_ofNat_of_lt' (Nat.lt_trans (hp i rfl) (by decide))

theorem position_add_one {p : Option Nat} (hp : ∀ i ∈ p, i < npos.toNat) :
    (position p + 1).toNat = behind p := by
  cases p with
  | none => rfl
  | some i =>
      have hi : i < npos.toNat := hp i rfl
      have hmax : npos.toNat + 1 = 2 ^ 64 := by decide
      rw [UInt64.toNat_add, position_toNat hp, Option.getD_some, UInt64.toNat_one]
      exact Nat.mod_eq_of_lt (by omega)

theorem findFirstNotOf_lt {s : List UInt8} : ∀ i ∈ findFirstNotOf s, i < s.length := by
  intro i hi
  exact (List.findIdx?_eq_some_iff_getElem.mp hi).1

theorem findLastNotOf_lt {s : List UInt8} : ∀ i ∈ findLastNotOf s, i < s.length := by
  intro i hi
  obtain ⟨j, hj, hji⟩ := Option.map_eq_some_iff.mp hi
  have hlt := (List.findIdx?_eq_some_iff_getElem.mp hj).1
  rw [List.length_reverse] at hlt
  omega

namespace StdString

@[simp] theorem size_toNat (s : StdString) : s.size.toNat = s.chars.length :=
  UInt64.toNat_ofNat_of_lt' (Nat.lt_trans s.fits (by decide))

theorem limit_toNat (s : StdString) {pos : UInt64} (hpos : pos.toNat ≤ s.chars.length)
    (count : UInt64) :
    (s.limit pos count).toNat = min count.toNat (s.chars.length - pos.toNat) := by
  have hsub : (s.size - pos).toNat = s.chars.length - pos.toNat := by
    rw [UInt64.toNat_sub_of_le _ _ (by rwa [UInt64.le_iff_toNat_le, size_toNat]), size_toNat]
  rw [limit]
  split_ifs with hcount
  · rw [UInt64.lt_iff_toNat_lt, hsub] at hcount
    omega
  · rw [UInt64.lt_iff_toNat_lt, hsub] at hcount
    omega

theorem erase_chars (s : StdString) (pos : UInt64) {count : Option Nat}
    (hcount : ∀ n ∈ count, n < npos.toNat) :
    (s.erase pos (position count)).map chars = Text.erase s.chars pos.toNat count := by
  have hfits := s.fits
  rw [erase, Text.erase]
  by_cases hpos : pos.toNat ≤ s.chars.length
  · rw [if_neg (by rw [UInt64.lt_iff_toNat_lt, size_toNat]; omega), if_pos hpos, Option.map_some]
    change some (_ ++ _) = _
    have hdrop :
        s.chars.drop (pos.toNat + min (count.getD npos.toNat) (s.chars.length - pos.toNat)) =
        s.chars.drop (pos.toNat + count.getD s.chars.length) := by
      cases count with
      | none =>
          rw [Option.getD_none, Option.getD_none, List.drop_eq_nil_of_le (by omega),
            List.drop_eq_nil_of_le (by omega)]
      | some n =>
          rw [Option.getD_some, Option.getD_some]
          by_cases hn : n ≤ s.chars.length - pos.toNat
          · rw [Nat.min_eq_left hn]
          · rw [List.drop_eq_nil_of_le (by omega), List.drop_eq_nil_of_le (by omega)]
    rw [List.drop_drop, s.limit_toNat hpos, position_toNat hcount, hdrop]
  · rw [if_pos (by rw [UInt64.lt_iff_toNat_lt, size_toNat]; omega), if_neg hpos]
    rfl

theorem rtrim_chars (s : StdString) : s.rtrim.map chars = Text.rtrim s.chars := by
  have hlast : ∀ i ∈ Text.findLastNotOf s.chars, i < npos.toNat :=
    fun i hi => Nat.lt_trans (findLastNotOf_lt i hi) s.fits
  have herase := @erase_chars s (s.findLastNotOf + 1) none nofun
  rw [findLastNotOf, position_add_one hlast] at herase
  exact herase

theorem ltrim_chars (s : StdString) : s.ltrim.map chars = Text.ltrim s.chars := by
  have hfirst : ∀ i ∈ Text.findFirstNotOf s.chars, i < npos.toNat :=
    fun i hi => Nat.lt_trans (findFirstNotOf_lt i hi) s.fits
  rw [ltrim, findFirstNotOf, s.erase_chars 0 hfirst]
  rfl

/-- Every string can be trimmed, and the wrapping of its positions does not show. -/
theorem trim_eq (s : StdString) : ∃ r, s.trim = some r ∧ r.chars = stripped s.chars := by
  have hright := s.rtrim_chars
  rw [Text.rtrim_eq] at hright
  obtain ⟨right, hrtrim, hchars⟩ := Option.map_eq_some_iff.mp hright
  have hleft := right.ltrim_chars
  rw [Text.ltrim_eq] at hleft
  obtain ⟨r, hltrim, hr⟩ := Option.map_eq_some_iff.mp hleft
  refine ⟨r, ?_, ?_⟩
  · rw [trim, hrtrim, Option.bind_some, hltrim]
  · rw [hr, hchars, stripped]

theorem trim_eq_some_iff {s r : StdString} : s.trim = some r ↔ Trimmed s.chars r.chars := by
  obtain ⟨left, htrim, hleft⟩ := s.trim_eq
  rw [htrim]
  constructor
  · intro h
    rw [← Option.some.inj h, hleft]
    exact stripped_trimmed s.chars
  · intro h
    rw [h.stripped_eq] at hleft
    exact congrArg some (StdString.ext hleft)

theorem findLastNotOf_of_ws {s : StdString} (hws : ∀ c ∈ s.chars, c ∈ ws) :
    s.findLastNotOf = npos := by
  have hnone : s.chars.reverse.findIdx? (! isWs ·) = none := by
    rw [List.findIdx?_eq_none_iff]
    intro c hc
    rw [isWs_iff.mpr (hws c (List.mem_reverse.mp hc))]
    rfl
  rw [findLastNotOf, Text.findLastNotOf, hnone]
  rfl

/-- What `trim` leaves of a string, a string of white space only included: white space has gone from
its two ends, nothing else has, and there is nothing left to trim. -/
theorem trim_trimmed (s : StdString) :
    ∃ r, s.trim = some r ∧ Trimmed s.chars r.chars ∧ r.trim = some r ∧
      ((∀ c ∈ s.chars, c ∈ ws) → s.findLastNotOf = npos ∧ s.findLastNotOf + 1 = 0 ∧
        r.chars = []) := by
  obtain ⟨r, htrim, hr⟩ := s.trim_eq
  have htrimmed : Trimmed s.chars r.chars := by
    rw [hr]
    exact stripped_trimmed s.chars
  refine ⟨r, htrim, htrimmed, trim_eq_some_iff.mpr htrimmed.self, fun hws => ?_⟩
  have hnpos := findLastNotOf_of_ws hws
  have hempty : Trimmed s.chars [] := ⟨⟨s.chars, [], hws, nofun, by simp⟩, Or.inl rfl⟩
  refine ⟨hnpos, ?_, ?_⟩
  · rw [hnpos]
    rfl
  · rw [hr, hempty.stripped_eq]

end StdString

end NetworkHomework.Text
