import NetworkHomework.Qt.Download
import NetworkHomework.Qt.Grammar

/-!
# Where a frame and a file block end

A frame carries its payload size, and its payload carries the byte count of a string; a file block
carries the length of the rest, and its name a byte count. The receiving ends wait until as many
bytes have come in as the outer number says, and then do not look at it again: a string is read by
its own count, and the content of a file is whatever is buffered. `frame_contained_iff` and
`readFile_exact_iff` say when that is what the outer number says too.
-/

namespace NetworkHomework.Qt

open BigEndian

theorem drop_append_eq_right_iff {α : Type*} {xs ys : List α} {k : Nat} :
    (xs ++ ys).drop k = ys ↔ xs.length = k ∨ (ys = [] ∧ xs.length ≤ k) := by
  constructor
  · intro h
    have hlength := congrArg List.length h
    rw [List.length_drop, List.length_append] at hlength
    by_cases hys : ys = []
    · subst hys
      exact Or.inr ⟨rfl, by rw [List.length_nil] at hlength; omega⟩
    · have hpos := List.length_pos_iff.mpr hys
      exact Or.inl (by omega)
  · rintro (hk | ⟨rfl, hk⟩)
    · exact List.drop_left' hk
    · rw [List.append_nil]
      exact List.drop_eq_nil_of_le hk

/-! ### Frames -/

/-- The bytes a string takes behind its count, as the count says: none if it is the null mark or
odd. -/
def storedLength (payload : List UInt8) : Nat :=
  let bytes := (read 4 payload).1
  if bytes = nullMark ∨ bytes % 2 = 1 then 0 else bytes

/-- The string's own length leads to the end of the payload, or nothing is behind the payload. -/
def Contained (payload behind : List UInt8) : Prop :=
  payload.length = 4 + storedLength payload ∨
  (behind = [] ∧ payload.length ≤ 4 + storedLength payload)

instance (payload behind : List UInt8) : Decidable (Contained payload behind) :=
  inferInstanceAs (Decidable (_ ∨ _))

theorem readQString_rest (rx : List UInt8) :
    (readQString rx).2 = rx.drop (4 + storedLength rx) := by
  by_cases hshort : rx.length < 4
  · have hread : read 4 rx = (0, []) := if_pos hshort
    have hstored : storedLength rx = 0 := by
      rw [storedLength, hread]
      rfl
    have hdrop : rx.drop 4 = [] := List.drop_eq_nil_of_le (by omega)
    rw [readQString, hread, hstored, Nat.add_zero, hdrop]
    rfl
  · have hread : (read 4 rx).2 = rx.drop 4 := by rw [BigEndian.read, if_neg hshort]
    rw [readQString, storedLength, hread, ← List.drop_drop]
    by_cases hnull : (read 4 rx).1 = nullMark
    · rw [if_pos hnull, if_pos (Or.inl hnull)]
      rfl
    · by_cases hzero : (read 4 rx).1 = 0
      · rw [if_neg hnull, if_pos hzero, hzero]
        rfl
      · by_cases hodd : (read 4 rx).1 % 2 = 1
        · rw [if_neg hnull, if_neg hzero, if_pos hodd, if_pos (Or.inr hodd)]
          rfl
        · rw [if_neg hnull, if_neg hzero, if_neg hodd, if_neg (not_or.mpr ⟨hnull, hodd⟩)]
          split_ifs with hlong
          · exact (List.drop_eq_nil_of_le (by omega)).symm
          · rfl

theorem storedLength_append {payload : List UInt8} (hlong : 4 ≤ payload.length)
    (behind : List UInt8) :
    storedLength (payload ++ behind) = storedLength payload := by
  have hread : (read 4 (payload ++ behind)).1 = (read 4 payload).1 := by
    rw [BigEndian.read, BigEndian.read, if_neg (by rw [List.length_append]; omega),
      if_neg (by omega),
      List.take_append_of_le_length hlong]
  rw [storedLength, storedLength, hread]

/-- A payload too short for a count counts as one that stores `0`, which is right for both
numbers. -/
theorem readQString_contained_iff (payload behind : List UInt8) :
    (readQString (payload ++ behind)).2 = behind ↔ Contained payload behind := by
  rw [readQString_rest, drop_append_eq_right_iff, Contained]
  by_cases hlong : 4 ≤ payload.length
  · rw [storedLength_append hlong]
  · have hread : read 4 payload = (0, []) := if_pos (by omega)
    have hstored : storedLength payload = 0 := by
      rw [storedLength, hread]
      rfl
    rw [hstored]
    refine or_congr (iff_of_false (by omega) (by omega)) (and_congr_right fun _ => ?_)
    exact iff_of_true (by omega) (by omega)

/-- A whole frame is buffered, with `behind` behind it. Its size may have been taken off already. -/
structure FrameReader.Holds (r : FrameReader) (payload behind : List UInt8) : Prop where
  size : payload.length < 2 ^ 16
  unread : r.unread = toBytes 2 payload.length ++ (payload ++ behind)

theorem FrameReader.Holds.decodeFrame {r : FrameReader} {payload behind : List UInt8}
    (h : r.Holds payload behind) : decodeFrame r.unread =
      some ((readQString (payload ++ behind)).1, (readQString (payload ++ behind)).2) := by
  have hsize : payload.length < 256 ^ 2 := h.size
  have hread : read 2 r.unread = (payload.length, payload ++ behind) := by
    rw [h.unread, read_toBytes_append, Nat.mod_eq_of_lt hsize]
  have hlong : ¬ r.unread.length < 2 := by
    rw [h.unread, List.length_append, toBytes_length]
    omega
  have hall : ¬ (payload ++ behind).length < payload.length := by
    rw [List.length_append]
    omega
  rw [Qt.decodeFrame, if_neg hlong, hread]
  exact if_neg hall

section

variable (currentPath : List UInt16)

theorem slotTurn_contained_iff (edition : Edition) (disk : Nat → FileSystem)
    {payload behind : List UInt8} {s : Slot} (hs : s.reader.Holds payload behind) :
    (∃ s', slotTurn edition currentPath disk s = .again s' ∧ s'.reader.unread = behind) ↔
      Contained payload behind := by
  have hturn : slotTurn edition currentPath disk s =
      .again ⟨⟨0, (readQString (payload ++ behind)).2⟩,
      answer edition currentPath (disk s.out.served)
        (readQString (payload ++ behind)).1 s.out⟩ := by
    rw [slotTurn, FrameReader.readFrame_of_some hs.decodeFrame]
  rw [← readQString_contained_iff, hturn]
  constructor
  · rintro ⟨s', hagain, hbehind⟩
    obtain rfl := Turn.again.inj hagain
    exact hbehind
  · exact fun hrest => ⟨_, rfl, hrest⟩

theorem readyTurn_contained_iff (canOpen : List UInt16 → Bool) {payload behind : List UInt8}
    {c : TcpClient} (hc : c.reader.Holds payload behind)
    (htext : ¬ (readQString (payload ++ behind)).1.Same announcement) :
    (∃ c', readyTurn currentPath canOpen c = .again c' ∧ c'.reader.unread = behind) ↔
      Contained payload behind := by
  have hturn : readyTurn currentPath canOpen c = .again (c.take currentPath canOpen
      ⟨0, (readQString (payload ++ behind)).2⟩ (readQString (payload ++ behind)).1) := by
    rw [readyTurn, FrameReader.readFrame_of_some hc.decodeFrame]
  obtain ⟨hreader, _, _⟩ :=
    c.take_of_not_get currentPath canOpen ⟨0, (readQString (payload ++ behind)).2⟩ htext
  rw [← readQString_contained_iff, hturn]
  constructor
  · rintro ⟨c', hagain, hbehind⟩
    obtain rfl := Turn.again.inj hagain
    rw [hreader] at hbehind
    exact hbehind
  · intro hrest
    refine ⟨_, rfl, ?_⟩
    rw [hreader]
    exact hrest

/-- **Frame containment.** Whatever the payload of a frame, a turn of either loop takes off the
buffer this payload and nothing else exactly if the string in it ends where the payload does, or
runs on into nothing. -/
theorem frame_contained_iff (edition : Edition) (disk : Nat → FileSystem)
    (canOpen : List UInt16 → Bool) {payload behind : List UInt8} {s : Slot} {c : TcpClient}
    (hs : s.reader.Holds payload behind) (hc : c.reader.Holds payload behind) :
    ((∃ s', slotTurn edition currentPath disk s = .again s' ∧ s'.reader.unread = behind) ↔
        Contained payload behind) ∧
      (¬ (readQString (payload ++ behind)).1.Same announcement →
        ((∃ c', readyTurn currentPath canOpen c = .again c' ∧ c'.reader.unread = behind) ↔
          Contained payload behind)) :=
  ⟨slotTurn_contained_iff currentPath edition disk hs,
    readyTurn_contained_iff currentPath canOpen hc⟩

end

private theorem holds_buffered {payload : List UInt8} (hsize : payload.length < 2 ^ 16)
    (behind : List UInt8) :
    FrameReader.Holds ⟨0, toBytes 2 payload.length ++ (payload ++ behind)⟩ payload behind :=
  ⟨hsize, rfl⟩

theorem frame_contained_hi :
    (∃ s', slotTurn .hw5 [] (fun _ => noFiles) ⟨⟨0, toBytes 2 8 ++ (writeQString (.lit "hi") ++ [0x00])⟩, .start⟩ =
        .again s' ∧ s'.reader.unread = [0x00]) ∧
      ∃ c', readyTurn [] (fun _ => true) { TcpClient.start with
        reader := ⟨0, toBytes 2 8 ++ (writeQString (.lit "hi") ++ [0x00])⟩ } = .again c' ∧
          c'.reader.unread = [0x00] := by
  have hholds := @holds_buffered (writeQString (.lit "hi")) (by decide) [0x00]
  have hcontained : Contained (writeQString (.lit "hi")) [0x00] := by decide
  obtain ⟨hserver, hclient⟩ := frame_contained_iff [] .hw5 (fun _ => noFiles) (fun _ => true)
    (s := ⟨⟨0, toBytes 2 8 ++ (writeQString (.lit "hi") ++ [0x00])⟩, .start⟩)
    (c := { TcpClient.start with reader := ⟨0, toBytes 2 8 ++ (writeQString (.lit "hi") ++ [0x00])⟩ })
    hholds hholds
  exact ⟨hserver.mpr hcontained, (hclient (by decide)).mpr hcontained⟩

/-- Six bytes are announced and the string in them is empty: its count is taken off and the two
bytes behind it stay, in front of the next frame. -/
theorem frame_not_contained :
    let behind := textFrame (.lit "hi")
    let reader : FrameReader := ⟨0, toBytes 2 6 ++ ([0, 0, 0, 0, 0, 2] ++ behind)⟩
    reader.Holds [0, 0, 0, 0, 0, 2] behind ∧
      ¬ ∃ s', slotTurn .hw5 [] (fun _ => noFiles) ⟨reader, .start⟩ = .again s' ∧
      s'.reader.unread = behind := by
  have hholds := @holds_buffered [0, 0, 0, 0, 0, 2] (by decide) (textFrame (.lit "hi"))
  refine ⟨hholds, ?_⟩
  rw [slotTurn_contained_iff [] .hw5 (fun _ => noFiles) hholds]
  decide

/-! ### File blocks -/

/-- A whole file block is buffered, with `behind` behind it. Its length may have been taken off
already. -/
inductive TcpClient.Holds (c : TcpClient) (name : QString) (content behind : List UInt8) : Prop
  | whole (hsize : c.blockSize = 0) (hrx : c.reader.rx = blockOf name content ++ behind)
  | begun (hsize : c.blockSize = toQint32 ((writeQString name).length + content.length))
      (hrx : c.reader.rx = writeQString name ++ (content ++ behind))

section

variable (currentPath : List UInt16) (canOpen : List UInt16 → Bool)

/-- What `read_file` makes of a block: all that is buffered behind the name is its content. -/
def TcpClient.written (c : TcpClient) (name : QString) (content : List UInt8) : Bool × TcpClient :=
  let target := targetPath currentPath name
  let c := { c with blockSize := 0, reader := { c.reader with rx := [] } }
  if canOpen target then (true, { c with files := c.files ++ [(target, content)] }) else (false, c)

theorem readBlock_held {name : QString} {content behind : List UInt8} {c : TcpClient}
    (hlength : (writeQString name).length + content.length < 2 ^ 32)
    (hsize : c.blockSize = toQint32 ((writeQString name).length + content.length))
    (hrx : c.reader.rx = writeQString name ++ (content ++ behind)) :
    c.readBlock currentPath canOpen = c.written currentPath canOpen name (content ++ behind) := by
  have hname : Encodable name := by
    rw [Encodable, nullMark]
    rw [writeQString_length] at hlength
    omega
  have hall : ¬ (c.reader.rx.length : Int) < c.blockSize := by
    rw [hsize, hrx, toQint32]
    simp only [List.length_append]
    split_ifs <;> omega
  rw [TcpClient.readBlock, if_neg hall, hrx, readQString_writeQString name hname]
  rfl

theorem readFile_held {name : QString} {content behind : List UInt8} {c : TcpClient}
    (hlength : (writeQString name).length + content.length < 2 ^ 32)
    (hc : c.Holds name content behind) :
    c.readFile currentPath canOpen = c.written currentPath canOpen name (content ++ behind) := by
  have hpos : 4 ≤ (writeQString name).length := by
    rw [writeQString_length]
    exact Nat.le_add_right _ _
  rw [TcpClient.readFile]
  cases hc with
  | whole hzero hrx =>
      have hread : read 4 c.reader.rx = ((writeQString name).length + content.length,
          writeQString name ++ (content ++ behind)) := by
        rw [hrx, blockOf, List.append_assoc, List.append_assoc, read_toBytes_append]
        exact congrArg (·, _) (Nat.mod_eq_of_lt hlength)
      have hheader : ¬ c.reader.rx.length < 4 := by
        rw [hrx, List.length_append, blockOf_length]
        omega
      rw [if_pos hzero, if_neg hheader, hread]
      exact readBlock_held currentPath canOpen (c := { c with
        blockSize := toQint32 ((writeQString name).length + content.length)
        reader := { c.reader with rx := writeQString name ++ (content ++ behind) } })
          hlength rfl rfl
  | begun hsize hrx =>
      have hbegun : c.blockSize ≠ 0 := by
        rw [hsize, toQint32]
        split_ifs <;> omega
      rw [if_neg hbegun]
      exact readBlock_held currentPath canOpen hlength hsize hrx

/-- **File blocks.** `read_file` on a file block that is all there writes the block's content and
leaves what is behind the block exactly if nothing is behind it and the file can be opened. -/
theorem readFile_exact_iff {name : QString} {content behind : List UInt8} {c : TcpClient}
    (hlength : (writeQString name).length + content.length < 2 ^ 32)
    (hc : c.Holds name content behind) :
    c.readFile currentPath canOpen = (true, { c with
        blockSize := 0
        reader := { c.reader with rx := behind }
        files := c.files ++ [(targetPath currentPath name, content)] }) ↔
      behind = [] ∧ canOpen (targetPath currentPath name) = true := by
  rw [readFile_held currentPath canOpen hlength hc, TcpClient.written]
  dsimp only
  constructor
  · intro h
    split_ifs at h with hopen
    · have hrx := congrArg (fun r => r.2.reader.rx) h
      exact ⟨hrx.symm, hopen⟩
    · have hresult := congrArg Prod.fst h
      cases hresult
  · rintro ⟨rfl, hopen⟩
    rw [if_pos hopen, List.append_nil]

/-- However much is behind a file block that has come in with its announcement, `slot_ready_read`
delivers none of it. -/
theorem slotReadyRead_behind_block {name : QString} {content behind : List UInt8} {c : TcpClient}
    (hlength : (writeQString name).length + content.length < 2 ^ 32) (hsize : c.blockSize = 0)
    (hunread : c.reader.unread = textFrame announcement ++ (blockOf name content ++ behind)) :
    receivedOf (slotReadyRead currentPath canOpen c).shown = receivedOf c.shown ++ [announcement] ∧
      (slotReadyRead currentPath canOpen c).reader.unread = [] := by
  have hnext : decodeFrame c.reader.unread =
      some (announcement, blockOf name content ++ behind) := by
    rw [hunread]
    exact frameDecoder_decodes.next_word announcement_fits _
  have hempty :
      (c.take currentPath canOpen ⟨0, blockOf name content ++ behind⟩ announcement).reader.unread =
      [] := by
    obtain ⟨hreader, _⟩ := take_announcement currentPath canOpen c (blockOf name content ++ behind)
    have hholds : TcpClient.Holds { c with
        reader := ⟨0, blockOf name content ++ behind⟩
        shown := c.shown ++ [Shown.received announcement] } name content behind := .whole hsize rfl
    rw [hreader, readFile_held currentPath canOpen hlength hholds, TcpClient.written]
    dsimp only
    split <;> rfl
  obtain ⟨r, hcall, hr, _⟩ := slotReadyRead_of_none currentPath canOpen
    (c := c.take currentPath canOpen ⟨0, blockOf name content ++ behind⟩ announcement)
      (by rw [hempty]; rfl)
  rw [slotReadyRead_of_some currentPath canOpen hnext, hcall]
  exact ⟨receivedOf_take currentPath canOpen c _ announcement, hr.trans hempty⟩

end

theorem readFile_exact_one_byte :
    TcpClient.readFile [] (fun _ => true) { TcpClient.start with reader := ⟨0, oneByte.bytes⟩ } =
      (true, { TcpClient.start with files := [(targetPath [] oneByte.name, oneByte.content)] }) := by
  have hholds : TcpClient.Holds { TcpClient.start with reader := ⟨0, oneByte.bytes⟩ } oneByte.name
      oneByte.content [] := .whole rfl (List.append_nil _).symm
  exact (readFile_exact_iff [] (fun _ => true) (by decide) hholds).mpr ⟨rfl, rfl⟩

/-- A text frame behind the block ends up in the file. -/
theorem readFile_takes_frame :
    let c := { TcpClient.start with reader := ⟨0, oneByte.bytes ++ textFrame (.lit "hi")⟩ }
    c.Holds oneByte.name oneByte.content (textFrame (.lit "hi")) ∧
      (c.readFile [] fun _ => true).2.files =
        [(targetPath [] oneByte.name, oneByte.content ++ textFrame (.lit "hi"))] ∧
      (c.readFile [] fun _ => true).2.reader.rx = [] ∧
      c.readFile [] (fun _ => true) ≠ (true, { c with
        reader := ⟨0, textFrame (.lit "hi")⟩
        files := [(targetPath [] oneByte.name, oneByte.content)] }) := by
  have hempty : (TcpClient.readFile [] (fun _ => true) { TcpClient.start with
      reader := ⟨0, oneByte.bytes ++ textFrame (.lit "hi")⟩ }).2.reader.rx = [] := by decide +kernel
  refine ⟨.whole rfl rfl, ?_, hempty, fun h => ?_⟩
  · decide +kernel
  · rw [h] at hempty
    exact absurd hempty (by decide)

end NetworkHomework.Qt
