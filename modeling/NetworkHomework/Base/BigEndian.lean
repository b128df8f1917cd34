import Mathlib

/-!
# Big-endian numbers in byte strings

Fixed-width unsigned integers, most significant byte first. A value that fits its width is read back
exactly, and a read takes as many bytes as the width says, which is all the wire formats need.
-/

namespace NetworkHomework

namespace BigEndian

/-- The `width` low bytes of `n`, most significant first. -/
def toBytes : Nat → Nat → List UInt8
  | 0, _ => []
  | width + 1, n => toBytes width (n / 256) ++ [UInt8.ofNat n]

def ofBytes (bytes : List UInt8) : Nat := bytes.foldl (fun n byte => 256 * n + byte.toNat) 0

@[simp] theorem toBytes_length (width n : Nat) : (toBytes width n).length = width := by
  induction width generalizing n with
  | zero => rfl
  | succ width ih => simp [toBytes, ih]

theorem ofBytes_concat (bytes : List UInt8) (byte : UInt8) :
    ofBytes (bytes ++ [byte]) = 256 * ofBytes bytes + byte.toNat := by
  simp [ofBytes]

theorem ofBytes_toBytes (width n : Nat) : ofBytes (toBytes width n) = n % 256 ^ width := by
  induction width generalizing n with
  | zero => simp [toBytes, ofBytes, Nat.mod_one]
  | succ width ih =>
      have hbyte : (UInt8.ofNat n).toNat = n % 256 := by simp
      rw [toBytes, ofBytes_concat, ih, hbyte, Nat.pow_succ, Nat.mul_comm (256 ^ width), Nat.mod_mul]
      omega

theorem ofBytes_lt (bytes : List UInt8) : ofBytes bytes < 256 ^ bytes.length := by
  induction bytes using List.reverseRecOn with
  | nil => simp [ofBytes]
  | append_singleton bytes byte ih =>
      have hbyte := byte.toNat_lt
      rw [ofBytes_concat, List.length_append, List.length_singleton, Nat.pow_succ]
      omega

theorem toBytes_ofBytes (bytes : List UInt8) : toBytes bytes.length (ofBytes bytes) = bytes := by
  induction bytes using List.reverseRecOn with
  | nil => rfl
  | append_singleton bytes byte ih =>
      have hbyte := byte.toNat_lt
      have hdiv : (256 * ofBytes bytes + byte.toNat) / 256 = ofBytes bytes := by omega
      have hlow : UInt8.ofNat (256 * ofBytes bytes + byte.toNat) = byte := by
        apply UInt8.toNat.inj
        rw [UInt8.toNat_ofNat']
        omega
      rw [ofBytes_concat, List.length_append, List.length_singleton, toBytes, hdiv, ih, hlow]

theorem toBytes_inj {width m n : Nat} (hm : m < 256 ^ width) (hn : n < 256 ^ width)
    (h : toBytes width m = toBytes width n) : m = n := by
  have hvalue := congrArg ofBytes h
  rwa [ofBytes_toBytes, ofBytes_toBytes, Nat.mod_eq_of_lt hm, Nat.mod_eq_of_lt hn] at hvalue

/-- Reading a `width`-byte number off a buffer: a buffer that holds fewer bytes is used up and the
value read is `0`. -/
def read (width : Nat) (buffer : List UInt8) : Nat × List UInt8 :=
  if buffer.length < width then (0, []) else (ofBytes (buffer.take width), buffer.drop width)

theorem read_toBytes_append (width n : Nat) (rest : List UInt8) :
    read width (toBytes width n ++ rest) = (n % 256 ^ width, rest) := by
  have hlength : ¬ (toBytes width n ++ rest).length < width := by simp
  rw [read, if_neg hlength, List.take_left' (toBytes_length width n),
    List.drop_left' (toBytes_length width n), ofBytes_toBytes]

theorem read_lt (width : Nat) (buffer : List UInt8) : (read width buffer).1 < 256 ^ width := by
  rw [read]
  split
  · exact Nat.pow_pos (by omega)
  · next hlength =>
      have h := ofBytes_lt (buffer.take width)
      rwa [List.length_take, Nat.min_eq_left (by omega)] at h

theorem toBytes_read {width : Nat} {buffer : List UInt8} (hlength : width ≤ buffer.length) :
    toBytes width (read width buffer).1 ++ (read width buffer).2 = buffer := by
  have htake : (buffer.take width).length = width := by simp [hlength]
  have h := toBytes_ofBytes (buffer.take width)
  rw [htake] at h
  rw [read, if_neg (by omega), h, List.take_append_drop]

theorem read_length (width : Nat) (buffer : List UInt8) :
    (read width buffer).2.length = buffer.length - width := by
  rw [read]
  split
  · simp; omega
  · simp

end BigEndian

end NetworkHomework
