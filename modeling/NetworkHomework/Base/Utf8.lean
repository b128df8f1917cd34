import Mathlib

/-!
# UTF-8

Characters as bytes, one to four of them. Bytes that no characters are encoded as have none:
`decode` is the partial inverse of `encode`. One string stands in front of another in bytes exactly
if it does in characters, and what is on either side of a byte of ASCII is UTF-8 on its own.
-/

namespace NetworkHomework.Utf8

def encode (s : List Char) : List UInt8 := s.flatMap String.utf8EncodeChar

def decode (bytes : List UInt8) : Option (List Char) :=
  bytes.toByteArray.utf8Decode?.map Array.toList

def Valid (bytes : List UInt8) : Prop := (decode bytes).isSome

instance (bytes : List UInt8) : Decidable (Valid bytes) := inferInstanceAs (Decidable (_ = true))

theorem encode_append (s t : List Char) : encode (s ++ t) = encode s ++ encode t :=
  List.flatMap_append

theorem encode_cons (c : Char) (s : List Char) :
    encode (c :: s) = String.utf8EncodeChar c ++ encode s :=
  List.flatMap_cons

theorem decode_encode (s : List Char) : decode (encode s) = some s := by
  have hwhole : (encode s).toByteArray.utf8Decode? = some s.toArray := List.utf8Decode?_utf8Encode
  rw [decode, hwhole]
  rfl

theorem decode_eq_some_iff {bytes : List UInt8} {s : List Char} :
    decode bytes = some s ↔ encode s = bytes := by
  constructor
  · intro h
    obtain ⟨chars, hchars, rfl⟩ := Option.map_eq_some_iff.mp h
    have hsome := Option.isSome_of_eq_some hchars
    have hback : (encode (bytes.toByteArray.utf8Decode?.get hsome).toList).toByteArray =
        bytes.toByteArray :=
      ByteArray.utf8Encode_get_utf8Decode?
    rw [Option.get_of_eq_some hsome hchars] at hback
    have hdata := congrArg (fun b => b.data.toList) hback
    simpa using hdata
  · rintro rfl
    exact decode_encode s

theorem valid_iff {bytes : List UInt8} : Valid bytes ↔ ∃ s, encode s = bytes := by
  rw [Valid, Option.isSome_iff_exists]
  exact exists_congr fun s => decode_eq_some_iff

theorem valid_encode (s : List Char) : Valid (encode s) := valid_iff.mpr ⟨s, rfl⟩

theorem encode_prefix_iff {s t : List Char} : encode s <+: encode t ↔ s <+: t := by
  constructor
  · rintro ⟨rest, hrest⟩
    apply List.isPrefix_of_utf8Encode_append_eq_utf8Encode rest.toByteArray
    have hbytes := congrArg List.toByteArray hrest
    rwa [List.toByteArray_append] at hbytes
  · rintro ⟨rest, rfl⟩
    exact ⟨encode rest, (encode_append s rest).symm⟩

theorem encode_drop {s t : List Char} (h : s <+: t) :
    encode (t.drop s.length) = (encode t).drop (encode s).length := by
  obtain ⟨rest, rfl⟩ := h
  rw [List.drop_left, encode_append, List.drop_left]

/-! ### ASCII -/

theorem eq_singleton_of_mem {c : Char} {b : UInt8} (hb : b.toNat < 0x80)
    (hmem : b ∈ String.utf8EncodeChar c) :
    String.utf8EncodeChar c = [b] := by
  have hlarge (n : Nat) (hn : 0x80 ≤ n) (hlt : n < 0x100) : b ≠ UInt8.ofNat n := by
    rintro rfl
    rw [UInt8.toNat_ofNat'] at hb
    omega
  rw [String.utf8EncodeChar] at hmem ⊢
  split_ifs at hmem ⊢ with hone htwo hthree
  · rw [List.mem_singleton.mp hmem]
  · simp only [List.mem_cons, List.not_mem_nil, or_false] at hmem
    rcases hmem with h | h
    · exact absurd h (hlarge _ (by omega) (by omega))
    · exact absurd h (hlarge _ (by omega) (by omega))
  · simp only [List.mem_cons, List.not_mem_nil, or_false] at hmem
    rcases hmem with h | h | h
    · exact absurd h (hlarge _ (by omega) (by omega))
    · exact absurd h (hlarge _ (by omega) (by omega))
    · exact absurd h (hlarge _ (by omega) (by omega))
  · simp only [List.mem_cons, List.not_mem_nil, or_false] at hmem
    rcases hmem with h | h | h | h
    · exact absurd h (hlarge _ (by omega) (by omega))
    · exact absurd h (hlarge _ (by omega) (by omega))
    · exact absurd h (hlarge _ (by omega) (by omega))
    · exact absurd h (hlarge _ (by omega) (by omega))

/-- A byte of ASCII is a character of its own. -/
theorem split_at_ascii {b : UInt8} (hb : b.toNat < 0x80) {s : List Char} {front back : List UInt8}
    (h : encode s = front ++ b :: back) :
    ∃ t c u, s = t ++ c :: u ∧ encode t = front ∧ String.utf8EncodeChar c = [b] ∧
    encode u = back := by
  induction s generalizing front with
  | nil => exact absurd h.symm (List.append_ne_nil_of_right_ne_nil _ (List.cons_ne_nil _ _))
  | cons c s ih =>
      rw [encode_cons] at h
      rcases List.append_eq_append_iff.mp h with ⟨more, hfront, hrest⟩ | ⟨more, hchar, hrest⟩
      · obtain ⟨t, d, u, rfl, ht, hd, hu⟩ := ih hrest
        exact ⟨c :: t, d, u, rfl, by rw [encode_cons, ht, hfront], hd, hu⟩
      · cases more with
        | nil =>
            obtain ⟨t, d, u, rfl, ht, hd, hu⟩ := @ih [] hrest.symm
            rw [List.append_nil] at hchar
            exact ⟨c :: t, d, u, rfl, by rw [encode_cons, ht, hchar, List.append_nil], hd, hu⟩
        | cons d more =>
            obtain ⟨rfl, hback⟩ := List.cons.inj hrest
            have hmem : b ∈ String.utf8EncodeChar c := by simp [hchar]
            have hsingle := eq_singleton_of_mem hb hmem
            obtain ⟨rfl, rfl⟩ : front = [] ∧ more = [] := by
              have hlength := congrArg List.length (hchar.symm.trans hsingle)
              simp only [List.length_append, List.length_cons, List.length_nil] at hlength
              exact ⟨List.length_eq_zero_iff.mp (by omega), List.length_eq_zero_iff.mp (by omega)⟩
            exact ⟨[], c, s, rfl, rfl, hsingle, hback.symm⟩

theorem valid_append {front back : List UInt8} (hfront : Valid front) (hback : Valid back) :
    Valid (front ++ back) := by
  obtain ⟨s, rfl⟩ := valid_iff.mp hfront
  obtain ⟨t, rfl⟩ := valid_iff.mp hback
  exact valid_iff.mpr ⟨s ++ t, encode_append s t⟩

theorem valid_singleton {b : UInt8} (hb : b.toNat < 0x80) : Valid [b] := by
  refine valid_iff.mpr ⟨[Char.ofNat b.toNat], ?_⟩
  have hvalue : (Char.ofNat b.toNat).val.toNat = b.toNat := by
    have hvalid : b.toNat.isValidChar := Or.inl (by omega)
    exact (Char.toNat_ofNat _).trans (if_pos hvalid)
  rw [encode_cons, String.utf8EncodeChar, hvalue, if_pos (by omega), UInt8.ofNat_toNat]
  rfl

theorem valid_append_cons_iff {b : UInt8} (hb : b.toNat < 0x80) {front back : List UInt8} :
    Valid (front ++ b :: back) ↔ Valid front ∧ Valid back := by
  constructor
  · intro h
    obtain ⟨s, hs⟩ := valid_iff.mp h
    obtain ⟨t, c, u, -, rfl, -, rfl⟩ := split_at_ascii hb hs
    exact ⟨valid_encode t, valid_encode u⟩
  · rintro ⟨hfront, hback⟩
    exact valid_append hfront (valid_append (valid_singleton hb) hback)

end NetworkHomework.Utf8
