import Mathlib

/-!
# UTF-16

Characters as code units: one below `0x10000`, above that a high and a low surrogate. A decoder
meets units that no encoder writes and puts a replacement in the place of each surrogate that is not
half of a pair. `decode_encode_append` reads back what was encoded, whatever units follow it.
-/

namespace NetworkHomework.Utf16

def IsHigh (u : UInt16) : Prop := 0xd800 ≤ u.toNat ∧ u.toNat < 0xdc00

def IsLow (u : UInt16) : Prop := 0xdc00 ≤ u.toNat ∧ u.toNat < 0xe000

instance (u : UInt16) : Decidable (IsHigh u) := inferInstanceAs (Decidable (_ ∧ _))

instance (u : UInt16) : Decidable (IsLow u) := inferInstanceAs (Decidable (_ ∧ _))

def high (n : Nat) : UInt16 := UInt16.ofNat (0xd800 + (n - 0x10000) / 0x400)

def low (n : Nat) : UInt16 := UInt16.ofNat (0xdc00 + (n - 0x10000) % 0x400)

def encodeChar (c : Char) : List UInt16 :=
  if c.toNat < 0x10000 then [UInt16.ofNat c.toNat] else [high c.toNat, low c.toNat]

def encode (s : List Char) : List UInt16 := s.flatMap encodeChar

def pair (u v : UInt16) : Char :=
  Char.ofNat (0x10000 + 0x400 * (u.toNat - 0xd800) + (v.toNat - 0xdc00))

variable (replacement : Char)

def decodeUnit (u : UInt16) : Char :=
  if IsHigh u ∨ IsLow u then replacement else Char.ofNat u.toNat

def decode : List UInt16 → List Char
  | [] => []
  | [u] => [decodeUnit replacement u]
  | u :: v :: us =>
      if IsHigh u ∧ IsLow v then pair u v :: decode us
      else decodeUnit replacement u :: decode (v :: us)

theorem decode_cons_of_not_high {u : UInt16} (hu : ¬ IsHigh u) (us : List UInt16) :
    decode replacement (u :: us) = decodeUnit replacement u :: decode replacement us := by
  cases us with
  | nil => rfl
  | cons v us => exact if_neg fun h => hu h.1

theorem toNat_valid (c : Char) : c.toNat < 0xd800 ∨ 0xdfff < c.toNat ∧ c.toNat < 0x110000 := c.valid

theorem high_toNat {n : Nat} (hn : n < 0x110000) :
    (high n).toNat = 0xd800 + (n - 0x10000) / 0x400 := by
  rw [high, UInt16.toNat_ofNat']
  omega

theorem low_toNat (n : Nat) : (low n).toNat = 0xdc00 + (n - 0x10000) % 0x400 := by
  rw [low, UInt16.toNat_ofNat']
  omega

theorem pair_high_low {c : Char} (hc : ¬ c.toNat < 0x10000) :
    pair (high c.toNat) (low c.toNat) = c := by
  have hvalid := toNat_valid c
  have hsum : 0x10000 + 0x400 * ((c.toNat - 0x10000) / 0x400) + (c.toNat - 0x10000) % 0x400 =
      c.toNat := by omega
  rw [pair, high_toNat (by omega), low_toNat, Nat.add_sub_cancel_left,
    Nat.add_sub_cancel_left, hsum,
    Char.ofNat_toNat]

theorem decode_encodeChar_append (c : Char) (us : List UInt16) :
    decode replacement (encodeChar c ++ us) = c :: decode replacement us := by
  have hvalid := toNat_valid c
  rw [encodeChar]
  split_ifs with hc
  · have hunit : (UInt16.ofNat c.toNat).toNat = c.toNat := by
      rw [UInt16.toNat_ofNat']
      omega
    have hhigh : ¬ IsHigh (UInt16.ofNat c.toNat) := by
      rw [IsHigh, hunit]
      omega
    have hlow : ¬ IsLow (UInt16.ofNat c.toNat) := by
      rw [IsLow, hunit]
      omega
    rw [List.singleton_append, decode_cons_of_not_high replacement hhigh, decodeUnit,
      if_neg (not_or.mpr ⟨hhigh, hlow⟩), hunit, Char.ofNat_toNat]
  · have hhigh : IsHigh (high c.toNat) := by
      rw [IsHigh, high_toNat (by omega)]
      omega
    have hlow : IsLow (low c.toNat) := by
      rw [IsLow, low_toNat]
      omega
    change (if IsHigh (high c.toNat) ∧ IsLow (low c.toNat) then _ else _) = _
    rw [if_pos ⟨hhigh, hlow⟩, pair_high_low hc]
    rfl

theorem decode_encode_append (s : List Char) (us : List UInt16) :
    decode replacement (encode s ++ us) = s ++ decode replacement us := by
  induction s with
  | nil => rfl
  | cons c s ih =>
      rw [encode, List.flatMap_cons, List.append_assoc, decode_encodeChar_append]
      exact congrArg (c :: ·) ih

theorem toNat_pair {u v : UInt16} (hu : IsHigh u) (hv : IsLow v) : 0x10000 ≤ (pair u v).toNat := by
  obtain ⟨hu₁, hu₂⟩ := hu
  obtain ⟨hv₁, hv₂⟩ := hv
  have hvalid : (0x10000 + 0x400 * (u.toNat - 0xd800) + (v.toNat - 0xdc00)).isValidChar := by
    right
    omega
  rw [pair, Char.toNat_ofNat, if_pos hvalid]
  omega

theorem decodeUnit_eq {u : UInt16} {c : Char} (hc : c ≠ replacement)
    (h : decodeUnit replacement u = c) :
    u = UInt16.ofNat c.toNat := by
  rw [decodeUnit] at h
  split_ifs at h with hsurrogate
  · exact absurd h.symm hc
  · have hvalid : u.toNat.isValidChar := by
      simp only [IsHigh, IsLow] at hsurrogate
      have hu := u.toNat_lt
      rw [Nat.isValidChar]
      omega
    rw [← h, Char.toNat_ofNat, if_pos hvalid, UInt16.ofNat_toNat]

theorem mem_of_mem_decode {c : Char} (hc : c.toNat < 0x10000) (hreplacement : c ≠ replacement)
    {us : List UInt16} (h : c ∈ decode replacement us) : UInt16.ofNat c.toNat ∈ us := by
  fun_induction decode replacement us with
  | case1 => exact absurd h List.not_mem_nil
  | case2 u =>
      rw [List.mem_singleton] at h ⊢
      exact (decodeUnit_eq replacement hreplacement h.symm).symm
  | case3 u v us hpair ih =>
      rcases List.mem_cons.mp h with hfirst | hrest
      · have hlarge := toNat_pair hpair.1 hpair.2
        rw [← hfirst] at hlarge
        omega
      · exact List.mem_cons_of_mem _ (List.mem_cons_of_mem _ (ih hrest))
  | case4 u v us hpair ih =>
      rcases List.mem_cons.mp h with hfirst | hrest
      · rw [decodeUnit_eq replacement hreplacement hfirst.symm]
        exact List.mem_cons_self
      · exact List.mem_cons_of_mem _ (ih hrest)

end NetworkHomework.Utf16
