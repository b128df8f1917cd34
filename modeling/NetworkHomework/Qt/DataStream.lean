import NetworkHomework.Base.BigEndian
import NetworkHomework.Base.Decoder

/-!
# `QDataStream`, version `Qt_5_3`

The part of `QDataStream` the Qt programs use: big-endian integers and `QString`s, a string being a
32-bit byte count followed by its UTF-16 code units, with `0xffffffff` for the null string. A read
that runs past what is buffered takes what there is, which is how malformed frames are consumed.

Both ends frame a text the same way, a 16-bit payload size in front of the string. `FrameReader` is
the part of the receiving loops they share: it takes the size off first and keeps it until the
payload has arrived. Put back in front of the buffer, a size already taken gives the bytes `unread`,
and on those the reader is the stateless `decodeFrame`.
-/

namespace NetworkHomework.Qt

open BigEndian

/-- A `QString`: null, or a sequence of UTF-16 code units. -/
inductive QString where
  | null
  | units (us : List UInt16)
deriving DecidableEq, Repr

namespace QString

def data : QString → List UInt16
  | null => []
  | units us => us

def size (s : QString) : Nat := s.data.length

def lit (s : String) : QString := units (s.toList.map fun c => UInt16.ofNat c.toNat)

/-- `operator==`, which does not tell a null string from an empty one. -/
def Same (s t : QString) : Prop := s.data = t.data

instance (s t : QString) : Decidable (s.Same t) := inferInstanceAs (Decidable (s.data = t.data))

def append (s t : QString) : QString := units (s.data ++ t.data)

instance : Append QString := ⟨append⟩

@[simp] theorem data_append (s t : QString) : (s ++ t).data = s.data ++ t.data := rfl

@[simp] theorem size_append (s t : QString) : (s ++ t).size = s.size + t.size :=
  List.length_append

end QString

/-! ### Strings on the wire -/

def unitBytes (us : List UInt16) : List UInt8 := us.flatMap fun u => toBytes 2 u.toNat

def bytesUnits : List UInt8 → List UInt16
  | high :: low :: rest => UInt16.ofNat (256 * high.toNat + low.toNat) :: bytesUnits rest
  | _ => []

@[simp] theorem unitBytes_length (us : List UInt16) : (unitBytes us).length = 2 * us.length := by
  induction us with
  | nil => rfl
  | cons u us ih =>
      rw [unitBytes, List.flatMap_cons, List.length_append, toBytes_length, List.length_cons]
      rw [unitBytes] at ih
      omega

theorem bytesUnits_unitBytes (us : List UInt16) : bytesUnits (unitBytes us) = us := by
  induction us with
  | nil => rfl
  | cons u us ih =>
      have hu := u.toNat_lt
      have hword : UInt16.ofNat
          (256 * (UInt8.ofNat (u.toNat / 256)).toNat + (UInt8.ofNat u.toNat).toNat) = u := by
        apply UInt16.toNat.inj
        simp only [UInt8.toNat_ofNat', UInt16.toNat_ofNat']
        omega
      change UInt16.ofNat _ :: bytesUnits (unitBytes us) = _
      rw [hword, ih]

def nullMark : Nat := 0xffffffff

def writeQString : QString → List UInt8
  | .null => toBytes 4 nullMark
  | .units us => toBytes 4 (2 * us.length) ++ unitBytes us

/-- `QDataStream::operator>>(QString)`: an odd byte count leaves the string null, and so does one
that runs past the buffer, which is then used up. -/
def readQString (rx : List UInt8) : QString × List UInt8 :=
  let bytes := (read 4 rx).1
  let rest := (read 4 rx).2
  if bytes = nullMark then (.null, rest)
  else if bytes = 0 then (.units [], rest)
  else if bytes % 2 = 1 then (.null, rest)
  else if rest.length < bytes then (.null, [])
  else (.units (bytesUnits (rest.take bytes)), rest.drop bytes)

/-- The strings whose byte count is neither truncated nor mistaken for the null mark. -/
def Encodable (s : QString) : Prop := 2 * s.size < nullMark

theorem writeQString_length (s : QString) : (writeQString s).length = 4 + 2 * s.size := by
  cases s with
  | null => rfl
  | units us => simp [writeQString, QString.size, QString.data]

theorem readQString_writeQString (s : QString) (hs : Encodable s) (rest : List UInt8) :
    readQString (writeQString s ++ rest) = (s, rest) := by
  cases s with
  | null =>
      have hread : read 4 (toBytes 4 nullMark ++ rest) = (nullMark, rest) :=
        read_toBytes_append 4 nullMark rest
      rw [writeQString, readQString, hread]
      rfl
  | units us =>
      have hsize : 2 * us.length < nullMark := hs
      have hmark : nullMark < 256 ^ 4 := by decide
      have hread : read 4 (toBytes 4 (2 * us.length) ++ (unitBytes us ++ rest)) =
          (2 * us.length, unitBytes us ++ rest) := by
        rw [read_toBytes_append, Nat.mod_eq_of_lt (by omega)]
      rw [writeQString, List.append_assoc, readQString, hread]
      dsimp only
      rw [if_neg (by omega)]
      by_cases hnil : us = []
      · subst hnil
        rfl
      · have hpos := List.length_pos_iff.mpr hnil
        have hlong : ¬ (unitBytes us ++ rest).length < 2 * us.length := by simp
        have hlength : (unitBytes us).length = 2 * us.length := unitBytes_length us
        rw [if_neg (by omega), if_neg (by omega), if_neg hlong, List.take_left' hlength,
          List.drop_left' hlength, bytesUnits_unitBytes]

theorem readQString_shorter {rx : List UInt8} (hrx : rx ≠ []) :
    (readQString rx).2.length < rx.length := by
  have hpos := List.length_pos_iff.mpr hrx
  have hread := read_length 4 rx
  have hdrop : ∀ n, ((read 4 rx).2.drop n).length ≤ (read 4 rx).2.length := fun n => by simp
  have hdropped := hdrop (read 4 rx).1
  rw [readQString]
  split_ifs <;> simp only [List.length_nil] <;> omega

theorem readQString_length_le (rx : List UInt8) : (readQString rx).2.length ≤ rx.length := by
  by_cases hrx : rx = []
  · subst hrx
    exact Nat.le_refl 0
  · exact Nat.le_of_lt (readQString_shorter hrx)

/-! ### Text frames -/

/-- The frame both `send_to_client` and `slot_send_to_server` build: a placeholder for the size and
the string, then the size written over the placeholder. -/
def textFrame (text : QString) : List UInt8 :=
  let block := toBytes 2 0 ++ writeQString text
  toBytes 2 (block.length - 2) ++ block.drop 2

def announcement : QString := .lit "get"

/-- The texts whose frame carries its true payload size. -/
def FitsFrame (text : QString) : Prop := text.size ≤ 32765

instance (text : QString) : Decidable (FitsFrame text) :=
  inferInstanceAs (Decidable (text.size ≤ 32765))

theorem textFrame_eq (text : QString) :
    textFrame text = toBytes 2 (4 + 2 * text.size) ++ writeQString text := by
  have hlength := writeQString_length text
  rw [textFrame, List.drop_left' (toBytes_length 2 0), List.length_append, toBytes_length, hlength]
  congr 2
  omega

theorem announcement_fits : FitsFrame announcement := by decide

theorem FitsFrame.encodable {text : QString} (htext : FitsFrame text) : Encodable text := by
  rw [FitsFrame] at htext
  rw [Encodable, nullMark]
  omega

/-- `next_block_size_` and the bytes the socket has received and nobody has read. -/
structure FrameReader where
  nextBlockSize : UInt16
  rx : List UInt8
deriving DecidableEq

namespace FrameReader

/-- The payload of a frame whose size has been taken: nothing until all of it has arrived, then a
string, after which the size is forgotten. -/
def payload (r : FrameReader) : Option QString × FrameReader :=
  if r.rx.length < r.nextBlockSize.toNat then (none, r)
  else (some (readQString r.rx).1, ⟨0, (readQString r.rx).2⟩)

/-- The head of both `for (;;)` bodies, up to the string: `none` is their `break`. -/
def readFrame (r : FrameReader) : Option QString × FrameReader :=
  if r.nextBlockSize = 0 then
    if r.rx.length < 2 then (none, r)
    else payload ⟨UInt16.ofNat (read 2 r.rx).1, (read 2 r.rx).2⟩
  else payload r

/-- The unread bytes with a size already taken put back in front. -/
def unread (r : FrameReader) : List UInt8 :=
  if r.nextBlockSize = 0 then r.rx else toBytes 2 r.nextBlockSize.toNat ++ r.rx

def receive (r : FrameReader) (chunk : List UInt8) : FrameReader := { r with rx := r.rx ++ chunk }

@[simp] theorem unread_receive (r : FrameReader) (chunk : List UInt8) :
    (r.receive chunk).unread = r.unread ++ chunk := by
  rw [receive, unread, unread]
  split_ifs
  · rfl
  · simp

end FrameReader

/-- A frame cut off the front of the bytes received, with no state kept between calls. -/
def decodeFrame (buffer : List UInt8) : Option (QString × List UInt8) :=
  if buffer.length < 2 then none
  else if (read 2 buffer).2.length < (read 2 buffer).1 then none
  else some (readQString (read 2 buffer).2)

theorem decodeFrame_shorter {buffer rest : List UInt8} {str : QString}
    (h : decodeFrame buffer = some (str, rest)) : rest.length < buffer.length := by
  have hread := read_length 2 buffer
  have hstring := readQString_length_le (read 2 buffer).2
  rw [decodeFrame] at h
  split_ifs at h with hheader
  have hrest := congrArg Prod.snd (Option.some.inj h)
  rw [hrest] at hstring
  change rest.length ≤ _ at hstring
  omega

def frameDecoder : Decoder QString UInt8 := ⟨decodeFrame, decodeFrame_shorter⟩

theorem frameDecoder_decodes : frameDecoder.Decodes textFrame FitsFrame where
  next_word {text} htext rest := by
    have hsize : text.size ≤ 32765 := htext
    have hread : read 2 (textFrame text ++ rest) =
        (4 + 2 * text.size, writeQString text ++ rest) := by
      rw [textFrame_eq, List.append_assoc, read_toBytes_append, Nat.mod_eq_of_lt (by omega)]
    have hlength := writeQString_length text
    change decodeFrame (textFrame text ++ rest) = _
    rw [decodeFrame, hread, textFrame_eq]
    simp only [List.length_append, toBytes_length, hlength]
    rw [if_neg (by omega), if_neg (by omega), readQString_writeQString text htext.encodable]
  next_part {text} htext {p q} hword hq := by
    have hsize : text.size ≤ 32765 := htext
    have hpos := List.length_pos_iff.mpr hq
    have hlength := congrArg List.length hword
    rw [textFrame_eq] at hword hlength
    simp only [List.length_append, toBytes_length, writeQString_length] at hlength
    change decodeFrame p = none
    rw [decodeFrame]
    split_ifs with hheader hpayload
    · rfl
    · rfl
    · have hp := @toBytes_read 2 p (by omega)
      have hrest := read_length 2 p
      rw [← hp, List.append_assoc] at hword
      obtain ⟨hvalue, _⟩ := List.append_inj hword (by simp)
      have := toBytes_inj (by omega) (read_lt 2 p) hvalue
      omega

namespace FrameReader

/-- The reader is between two reads that found too little: less than a size, or less than the
payload whose size it has. -/
def Waiting (r : FrameReader) : Prop :=
  (r.nextBlockSize = 0 ∧ r.rx.length < 2) ∨ r.rx.length < r.nextBlockSize.toNat

theorem unread_of_ne_zero {r : FrameReader} (hsize : r.nextBlockSize ≠ 0) :
    r.unread = toBytes 2 r.nextBlockSize.toNat ++ r.rx := if_neg hsize

private theorem decodeFrame_put_back (size : UInt16) (rest : List UInt8) :
    decodeFrame (toBytes 2 size.toNat ++ rest) =
      if rest.length < size.toNat then none else some (readQString rest) := by
  have hsize : size.toNat < 256 ^ 2 := size.toNat_lt
  rw [decodeFrame, read_toBytes_append, Nat.mod_eq_of_lt hsize]
  simp only [List.length_append, toBytes_length]
  rw [if_neg (by omega)]

theorem payload_eq (r : FrameReader) :
    r.payload = match decodeFrame (toBytes 2 r.nextBlockSize.toNat ++ r.rx) with
      | none => (none, r)
      | some (str, rest) => (some str, ⟨0, rest⟩) := by
  rw [decodeFrame_put_back, payload]
  split_ifs <;> rfl

theorem readFrame_of_some {r : FrameReader} {str : QString} {rest : List UInt8}
    (h : decodeFrame r.unread = some (str, rest)) : r.readFrame = (some str, ⟨0, rest⟩) := by
  rw [readFrame]
  by_cases hzero : r.nextBlockSize = 0
  · rw [unread, if_pos hzero] at h
    have hlength : ¬ r.rx.length < 2 := fun hlt => by
      rw [decodeFrame, if_pos hlt] at h
      cases h
    have hsize : (UInt16.ofNat (read 2 r.rx).1).toNat = (read 2 r.rx).1 := by
      rw [UInt16.toNat_ofNat']
      exact Nat.mod_eq_of_lt (read_lt 2 r.rx)
    rw [if_pos hzero, if_neg hlength, payload_eq]
    dsimp only
    rw [hsize, toBytes_read (by omega), h]
  · rw [unread_of_ne_zero hzero] at h
    rw [if_neg hzero, payload_eq, h]

theorem readFrame_of_none {r : FrameReader} (h : decodeFrame r.unread = none) :
    ∃ r', r.readFrame = (none, r') ∧ r'.unread = r.unread ∧ r'.Waiting := by
  rw [readFrame]
  by_cases hzero : r.nextBlockSize = 0
  · rw [if_pos hzero]
    by_cases hlength : r.rx.length < 2
    · rw [if_pos hlength]
      exact ⟨r, rfl, rfl, Or.inl ⟨hzero, hlength⟩⟩
    · rw [if_neg hlength]
      have hsize : (UInt16.ofNat (read 2 r.rx).1).toNat = (read 2 r.rx).1 := by
        rw [UInt16.toNat_ofNat']
        exact Nat.mod_eq_of_lt (read_lt 2 r.rx)
      rw [unread, if_pos hzero] at h
      rw [decodeFrame, if_neg hlength] at h
      split_ifs at h with hshort
      refine ⟨⟨UInt16.ofNat (read 2 r.rx).1, (read 2 r.rx).2⟩, ?_, ?_,
        Or.inr (by rw [hsize]; exact hshort)⟩
      · rw [payload, if_pos (by rw [hsize]; exact hshort)]
      · have hne : UInt16.ofNat (read 2 r.rx).1 ≠ 0 := by
          intro hz
          rw [hz] at hsize
          have : (0 : UInt16).toNat = 0 := rfl
          omega
        rw [unread_of_ne_zero hne, hsize, toBytes_read (by omega), unread, if_pos hzero]
  · rw [if_neg hzero]
    have hshort : r.rx.length < r.nextBlockSize.toNat := by
      rw [unread_of_ne_zero hzero, decodeFrame_put_back] at h
      split_ifs at h with hshort
      exact hshort
    exact ⟨r, by rw [payload, if_pos hshort], rfl, Or.inr hshort⟩

theorem readFrame_shorter {r r' : FrameReader} {str : QString} (h : r.readFrame = (some str, r')) :
    r'.unread.length < r.unread.length := by
  cases hdecode : decodeFrame r.unread with
  | none =>
      obtain ⟨_, hnone, _⟩ := readFrame_of_none hdecode
      rw [hnone] at h
      cases h
  | some item =>
      obtain ⟨str', rest⟩ := item
      rw [readFrame_of_some hdecode] at h
      cases h
      exact decodeFrame_shorter hdecode

end FrameReader

end NetworkHomework.Qt
