import NetworkHomework.Base.Arrays
import NetworkHomework.Qt.Client
import NetworkHomework.Qt.Server

/-!
# The encoders of frames and file blocks

Both ends put a text into a frame the same way: a placeholder and the string are streamed into a
byte array, then the stream goes back and overwrites the placeholder with the size. `send_to_file`
puts the content of a file behind the string as well, past the stream. `Scratch` is that byte array
with the position of the stream, and the encoders of the data stream's and the server's module are
what the steps leave in it (`encodeText_eq`, `encodeBlock_eq`).

The size of a frame has 16 bits, so it is right for texts of up to 32765 units only
(`frame_size_iff`); that of a file block has 32, and the block is the name and the part of the file
that was asked for (`encodeBlock_exact`).
-/

namespace NetworkHomework.Qt

open BigEndian

/-! ### The byte array behind the stream -/

/-- A `QByteArray` a stream writes to, and the stream's position in it. -/
structure Scratch where
  data : List UInt8
  pos : Nat

namespace Scratch

def empty : Scratch := ⟨[], 0⟩

def write (s : Scratch) (bytes : List UInt8) : Scratch :=
  ⟨s.data.take s.pos ++ bytes ++ s.data.drop (s.pos + bytes.length), s.pos + bytes.length⟩

/-- `block.append(q)`, which the stream does not see. -/
def append (s : Scratch) (bytes : List UInt8) : Scratch := { s with data := s.data ++ bytes }

def seek (s : Scratch) (pos : Nat) : Scratch := { s with pos := pos }

/-- A placeholder, what is streamed behind it, and what is appended behind the stream. -/
def filled (width : Nat) (streamed appended : List UInt8) : Scratch :=
  ((empty.write (toBytes width 0)).write streamed).append appended

theorem filled_data (width : Nat) (streamed appended : List UInt8) :
    (filled width streamed appended).data = toBytes width 0 ++ streamed ++ appended := by
  have hplaceholder : (empty.write (toBytes width 0)) = ⟨toBytes width 0, width⟩ := by
    rw [write, toBytes_length]
    simp [empty]
  rw [filled, hplaceholder, append, write]
  dsimp only
  rw [List.take_of_length_le (by rw [toBytes_length]),
    List.drop_of_length_le (by rw [toBytes_length]; omega),
    List.append_nil]

theorem filled_patched (width n : Nat) (streamed appended : List UInt8) :
    (((filled width streamed appended).seek 0).write (toBytes width n)).data =
      toBytes width n ++ (streamed ++ appended) := by
  have hdata : ((filled width streamed appended).seek 0).data = toBytes width 0 ++
      (streamed ++ appended) :=
    (filled_data width streamed appended).trans (List.append_assoc _ _ _)
  rw [write, hdata]
  change [] ++ toBytes width n ++ List.drop (0 + _) _ = _
  rw [Nat.zero_add, toBytes_length, List.drop_left' (toBytes_length width 0), List.nil_append]

theorem filled_length (width : Nat) (streamed appended : List UInt8) :
    (filled width streamed appended).data.length = width + (streamed.length + appended.length) := by
  rw [filled_data, List.length_append, List.length_append, toBytes_length, Nat.add_assoc]

end Scratch

/-! ### Frames -/

def encodeText (text : QString) : List UInt8 :=
  let block := Scratch.filled 2 (writeQString text) []
  ((block.seek 0).write (toBytes 2 (block.data.length - 2))).data

theorem encodeText_eq (text : QString) : encodeText text = textFrame text := by
  rw [encodeText, Scratch.filled_patched, Scratch.filled_length, textFrame_eq, writeQString_length,
    List.append_nil, List.length_nil, Nat.add_zero, Nat.add_sub_cancel_left]

/-- The size in front of a frame is that of what follows, and not 0. -/
def SizeRight (frame : List UInt8) : Prop :=
  (read 2 frame).1 = (frame.drop 2).length ∧ (read 2 frame).1 ≠ 0

theorem textFrame_size (text : QString) :
    (read 2 (textFrame text)).1 = (4 + 2 * text.size) % 256 ^ 2 := by
  rw [textFrame_eq, read_toBytes_append]

theorem textFrame_sizeRight_iff (text : QString) :
    SizeRight (textFrame text) ↔ text.size ≤ 32765 := by
  have hrest : ((textFrame text).drop 2).length = 4 + 2 * text.size := by
    rw [textFrame_eq, List.drop_left' (toBytes_length 2 _), writeQString_length]
  rw [SizeRight, textFrame_size, hrest]
  omega

theorem readFrame_textFrame {text : QString} (htext : FitsFrame text) :
    (FrameReader.readFrame ⟨0, textFrame text⟩).1 = some text := by
  have hnext : decodeFrame (textFrame text ++ []) = some (text, []) :=
    frameDecoder_decodes.next_word htext []
  rw [List.append_nil] at hnext
  rw [@FrameReader.readFrame_of_some ⟨0, textFrame text⟩ text [] hnext]

def TcpClient.frameSent (c : TcpClient) (line : QString) : List UInt8 :=
  (c.slotSendToServer line).tx.drop c.tx.length

def Output.frameSent (out : Output) (text : QString) : List UInt8 :=
  (out.sendToClient text).tx.drop out.tx.length

theorem TcpClient.frameSent_eq (c : TcpClient) (line : QString) :
    c.frameSent line = textFrame line := List.drop_left

theorem Output.frameSent_eq (out : Output) (text : QString) : out.frameSent text = textFrame text :=
  List.drop_left

/-- **Frame sizes.** For every line the client sends, every string the server echoes and the three
texts the server has of its own, the size in front of the frame is right exactly if the text is
short enough. -/
theorem frame_size_iff (c : TcpClient) (line : QString) (out : Output) (str : QString) :
    (SizeRight (c.frameSent line) ↔ line.size ≤ 32765) ∧
      (SizeRight (out.frameSent (echo str)) ↔ str.size ≤ 32737) ∧
      SizeRight (out.frameSent (.lit "Server Response: Connected!")) ∧
      SizeRight (out.frameSent (.lit "exit")) ∧ SizeRight (out.frameSent (.lit "get")) := by
  have hown : ∀ text : QString, text.size ≤ 32765 → SizeRight (out.frameSent text) := by
    intro text htext
    rw [out.frameSent_eq, textFrame_sizeRight_iff]
    exact htext
  refine ⟨?_, ?_, hown _ (by decide), hown _ (by decide), hown _ (by decide)⟩
  · rw [c.frameSent_eq, textFrame_sizeRight_iff]
  · rw [out.frameSent_eq, textFrame_sizeRight_iff, echo_size]
    omega

private theorem size_wraps {line str : QString} (hline : line.size = 32766)
    (hstr : str.size = 32738) :
    line.size ≤ 32767 ∧ (read 2 (TcpClient.start.frameSent line)).1 = 0 ∧
      ¬ SizeRight (TcpClient.start.frameSent line) ∧
      SizeRight (textFrame str) ∧ (FrameReader.readFrame ⟨0, textFrame str⟩).1 = some str ∧
      ¬ SizeRight (Output.start.frameSent (echo str)) := by
  have hfits : FitsFrame str := by
    rw [FitsFrame]
    omega
  rw [TcpClient.frameSent_eq, Output.frameSent_eq, textFrame_size, textFrame_sizeRight_iff,
    textFrame_sizeRight_iff, textFrame_sizeRight_iff, echo_size]
  exact ⟨by omega, by omega, by omega, by omega, readFrame_textFrame hfits, by omega⟩

/-- A line of 32766 units is sent with the size 0; and a string of 32738, which comes in a right
frame, is echoed with a wrong one. -/
theorem frame_size_wraps :
    let line := QString.units (List.replicate 32766 0x61)
    let str := QString.units (List.replicate 32738 0x61)
    line.size ≤ 32767 ∧ (read 2 (TcpClient.start.frameSent line)).1 = 0 ∧
      ¬ SizeRight (TcpClient.start.frameSent line) ∧
      SizeRight (textFrame str) ∧ (FrameReader.readFrame ⟨0, textFrame str⟩).1 = some str ∧
      ¬ SizeRight (Output.start.frameSent (echo str)) :=
  size_wraps List.length_replicate List.length_replicate

/-! ### File blocks -/

/-- `a - b` on unsigned numbers, with no result where it would wrap around. -/
def minus (a b : Nat) : Option Nat := if b ≤ a then some (a - b) else none

theorem minus_of_le {a b : Nat} (hle : b ≤ a) : minus a b = some (a - b) := if_pos hle

/-- What `send_to_file` comes to before it writes: it refuses the file, a subtraction wraps around,
or there is a block. -/
inductive Encoded where
  | refused
  | wrapped
  | block (bytes : List UInt8)
deriving DecidableEq

section EncodeBlock

variable (currentPath : List UInt16) (disk : FileSystem) (filename : QString) (fict size : Nat)

/-- The steps of `send_to_file` up to the write loop. -/
def encodeBlock : Encoded :=
  if filename.size = 0 then .refused
  else
    let path := currentPath ++ [0x2f] ++ filename.data
    if !(disk path).present && !(disk path).opens then .refused
    else
      let count := (disk path).size
      let sizeFict := if size > count then count else size
      let pos := if fict = 1 then sizeFict else 0
      match if fict = 1 then minus count sizeFict else if fict = 2 then
        some sizeFict else some count with
      | none => .wrapped
      | some count =>
          let block := Scratch.filled 4 (writeQString (.units path)) ((disk path).read pos count)
          match minus block.data.length 4 with
          | none => .wrapped
          | some length => .block ((block.seek 0).write (toBytes 4 length)).data

theorem filled_block (name : QString) (content : List UInt8) :
    (match minus (Scratch.filled 4 (writeQString name) content).data.length 4 with
      | none => Encoded.wrapped
      | some length =>
          .block (((Scratch.filled 4 (writeQString name) content).seek 0).write (toBytes 4 length)).data) =
      .block (blockOf name content) := by
  rw [Scratch.filled_length, minus_of_le (Nat.le_add_right _ _), Nat.add_sub_cancel_left]
  dsimp only
  rw [Scratch.filled_patched, blockOf, List.append_assoc]

theorem encodeBlock_eq :
    encodeBlock currentPath disk filename fict size =
      match fileBlock currentPath disk filename fict size with
      | none => .refused
      | some block => .block block := by
  rw [fileBlock_eq, encodeBlock]
  dsimp only
  by_cases hname : filename.size = 0
  · rw [if_pos hname, if_pos (Or.inl hname)]
  · rw [if_neg hname]
    generalize disk (currentPath ++ [0x2f] ++ filename.data) = file
    generalize currentPath ++ [0x2f] ++ filename.data = path
    by_cases hfile : file.present = false ∧ file.opens = false
    · rw [if_pos (Or.inr hfile), if_pos (by simp [hfile])]
    · have hclip : (if size > file.size then file.size else size) ≤ file.size := by
        split <;> omega
      have hneither : ¬ (filename.size = 0 ∨ (file.present = false ∧ file.opens = false)) := by
        rintro (h | h)
        · exact hname h
        · exact hfile h
      rw [if_neg hneither, if_neg (by simpa using hfile), File.slice]
      dsimp only
      by_cases hbeans : fict = 1
      · rw [if_pos hbeans, if_pos hbeans, if_pos hbeans, minus_of_le hclip]
        exact filled_block _ _
      · rw [if_neg hbeans, if_neg hbeans, if_neg hbeans]
        by_cases hsize : fict = 2
        · rw [if_pos hsize, if_pos hsize]
          exact filled_block _ _
        · rw [if_neg hsize, if_neg hsize]
          exact filled_block _ _

end EncodeBlock

theorem File.slice_eq {file : File} (hopens : file.opens = true)
    (hsize : file.size = file.content.length) (fict size : Nat) :
    file.slice fict size = portion file.content fict size := by
  have hclip : (if size > file.size then file.size else size) = min size file.content.length := by
    rw [hsize]
    split <;> omega
  have hread : ∀ pos count, file.read pos count = (file.content.drop pos).take count :=
    fun pos count => if_pos hopens
  rw [portion_eq, portionStart, portionLength, File.slice, hclip, hread, hread, hread, hsize]
  split_ifs <;> rfl

/-- **File blocks.** For every readable file, mode and number, `send_to_file` builds a block without
wrapping around: behind its size come the encoded name and the part of the file that was asked for,
and as long as the block is smaller than 2 GiB its size is that of the rest, from which name and
part are read back. -/
theorem encodeBlock_exact (currentPath : List UInt16) (disk : FileSystem) (filename : QString)
    (fict size : Nat) (hname : filename.size ≠ 0)
    (hopens : (disk (currentPath ++ [0x2f] ++ filename.data)).opens = true)
    (hsize : (disk (currentPath ++ [0x2f] ++ filename.data)).size =
      (disk (currentPath ++ [0x2f] ++ filename.data)).content.length) :
    ∃ block, encodeBlock currentPath disk filename fict size = .block block ∧
      block.drop 4 = writeQString (.units (currentPath ++ [0x2f] ++ filename.data)) ++
        portion (disk (currentPath ++ [0x2f] ++ filename.data)).content fict size ∧
      (block.length < 2 ^ 31 →
        (read 4 block).1 = (block.drop 4).length ∧
          readQString (block.drop 4) = (.units (currentPath ++ [0x2f] ++ filename.data),
            portion (disk (currentPath ++ [0x2f] ++ filename.data)).content fict size)) := by
  rw [encodeBlock_eq, fileBlock_eq]
  dsimp only
  rw [if_neg (by rintro (h | h); exacts [hname h, absurd (hopens.symm.trans h.2) (by decide)]),
    File.slice_eq hopens hsize]
  generalize currentPath ++ [0x2f] ++ filename.data = path
  generalize portion (disk path).content fict size = content
  have hdrop : (blockOf (.units path) content).drop 4 = writeQString (.units path) ++ content := by
    rw [blockOf, List.append_assoc, List.drop_left' (toBytes_length 4 _)]
  have hlength : (blockOf (.units path) content).length =
      4 + (writeQString (.units path) ++ content).length := by
    rw [blockOf, List.append_assoc, List.length_append, toBytes_length]
  refine ⟨_, rfl, hdrop, fun hsmall => ?_⟩
  rw [hlength] at hsmall
  rw [hdrop]
  refine ⟨?_, readQString_writeQString _ ?_ content⟩
  · rw [blockOf, List.append_assoc, read_toBytes_append, ← List.length_append]
    exact Nat.mod_eq_of_lt (by omega)
  · rw [List.length_append, writeQString_length] at hsmall
    rw [Encodable, nullMark]
    omega

/-- Five bytes behind a name of two units, of which the first two are left out. -/
theorem encodeBlock_exact_five_bytes :
    ∃ block, encodeBlock [] (fun _ => ⟨true, true, 5, [1, 2, 3, 4, 5]⟩) (.lit "a") 1 2 =
      .block block ∧
      block.drop 4 = [0, 0, 0, 4, 0, 0x2f, 0, 0x61, 3, 4, 5] ∧ (read 4 block).1 = 11 := by
  obtain ⟨block, hblock, hrest, hsize⟩ :=
    encodeBlock_exact [] (fun _ => ⟨true, true, 5, [1, 2, 3, 4, 5]⟩)
    (.lit "a") 1 2 (by decide) rfl rfl
  have hbytes : block.drop 4 = [0, 0, 0, 4, 0, 0x2f, 0, 0x61, 3, 4, 5] := hrest.trans (by decide)
  have hlength : (block.drop 4).length = 11 := by rw [hbytes]; rfl
  rw [List.length_drop] at hlength
  refine ⟨block, hblock, hbytes, ?_⟩
  rw [(hsize (by omega)).1, hbytes]
  rfl

end NetworkHomework.Qt
