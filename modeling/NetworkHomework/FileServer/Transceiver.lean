import NetworkHomework.Base.Loop
import NetworkHomework.Base.Outbound

/-!
# `Transceiver`: sending a file over a socket

`send_buffer` sends all of a buffer, however little each call of `send` takes. `send_file` reads a
file block by block into one buffer and sends the buffer each time, all 4096 bytes of it.
`sendFile_exact_iff` says for which files and modes that is the file, or the part of it that was
asked for.
-/

namespace NetworkHomework.FileServer

/-! ### `send_buffer` -/

def needToRepeat : Errno → Bool
  | .eintr | .eagain => true
  | .other => false

structure Socket where
  sent : List UInt8
  results : List SendResult
deriving DecidableEq

/-- The loop of `send_buffer` with `transmitted` bytes gone; `none` if it waits in `send` for
good. -/
def sendRest (buffer : List UInt8) (transmitted : Nat) (sent : List UInt8) :
    List SendResult → Option (Bool × Socket)
  | [] => if transmitted = buffer.length then some (true, ⟨sent, []⟩) else none
  | .accepted count :: results =>
      if transmitted = buffer.length then some (true, ⟨sent, .accepted count :: results⟩)
      else
        let count := min count (buffer.length - transmitted)
        sendRest buffer (transmitted + count) (sent ++ (buffer.drop transmitted).take count) results
  | .failed errno :: results =>
      if transmitted = buffer.length then some (true, ⟨sent, .failed errno :: results⟩)
      else if needToRepeat errno then sendRest buffer transmitted sent results
      else some (false, ⟨sent, results⟩)

def sendBuffer (socket : Socket) (buffer : List UInt8) : Option (Bool × Socket) :=
  sendRest buffer 0 socket.sent socket.results

private theorem sendRest_true {buffer sent : List UInt8} {results : List SendResult}
    {transmitted : Nat} {socket : Socket} (hle : transmitted ≤ buffer.length)
    (h : sendRest buffer transmitted sent results = some (true, socket)) :
    socket.sent = sent ++ buffer.drop transmitted := by
  induction results generalizing transmitted sent with
  | nil =>
      rw [sendRest] at h
      split_ifs at h with hall
      cases h
      rw [hall, List.drop_length, List.append_nil]
  | cons result results ih =>
      cases result with
      | accepted count =>
          rw [sendRest] at h
          split_ifs at h with hall
          · cases h
            rw [hall, List.drop_length, List.append_nil]
          · rw [ih (by omega) h, List.append_assoc, ← List.drop_drop, List.take_append_drop]
      | failed errno =>
          rw [sendRest] at h
          split_ifs at h with hall
          · cases h
            rw [hall, List.drop_length, List.append_nil]
          · exact ih hle h
          · cases h

theorem sendBuffer_true {socket socket' : Socket} {buffer : List UInt8}
    (h : sendBuffer socket buffer = some (true, socket')) : socket'.sent = socket.sent ++ buffer :=
  sendRest_true (Nat.zero_le _) h

/-! ### The file -/

/-- An open `std::ifstream` on a regular file; `good` is its conversion to `bool`. -/
structure InputStream where
  content : List UInt8
  pos : Nat
  good : Bool

namespace InputStream

def seekg (stream : InputStream) (pos : Nat) : InputStream := { stream with pos := pos }

def seekgEnd (stream : InputStream) : InputStream := { stream with pos := stream.content.length }

def tellg (stream : InputStream) : Nat := stream.pos

/-- `read(&buffer[0], count)`: what the file still has goes to the front of the buffer, and if that
is less than `count` the stream fails. -/
def read (stream : InputStream) (buffer : List UInt8) (count : Nat) : List UInt8 × InputStream :=
  let got := (stream.content.drop stream.pos).take count
  (got ++ buffer.drop got.length,
    { stream with pos := stream.pos + got.length, good := decide (got.length = count) })

end InputStream

/-! ### `send_file` -/

def bufferSize : Nat := 4096

structure Transfer where
  stream : InputStream
  buffer : List UInt8
  count : Nat
  socket : Socket
  verdict : Option Bool

def Transfer.transmit (t : Transfer) (count : Nat) : Turn Transfer :=
  match sendBuffer t.socket t.buffer with
  | none => .leave { t with verdict := none }
  | some (false, socket) => .leave { t with socket := socket, verdict := some false }
  | some (true, socket) => .again { t with socket := socket, count := count }

/-- A turn of `while (file_stream && count > 0)`. -/
def sendTurn (t : Transfer) : Turn Transfer :=
  if t.stream.good && 0 < t.count then
    if t.count < bufferSize then
      let (buffer, stream) := t.stream.read t.buffer t.count
      { t with buffer := buffer, stream := stream }.transmit 0
    else
      let (buffer, stream) := t.stream.read t.buffer t.buffer.length
      { t with buffer := buffer, stream := stream }.transmit (t.count - bufferSize)
  else .leave { t with verdict := some true }

/-- A turn that is followed by another: `want` bytes were asked for, and the whole buffer was
sent. -/
theorem sendTurn_again {t t' : Transfer} (h : sendTurn t = .again t') :
    ∃ want, t.stream.good = true ∧ 0 < t.count ∧
      (t.count < bufferSize ∧ want = t.count ∧ t'.count = 0 ∨
        bufferSize ≤ t.count ∧ want = t.buffer.length ∧ t'.count = t.count - bufferSize) ∧
      t'.buffer = (t.stream.read t.buffer want).1 ∧ t'.stream = (t.stream.read t.buffer want).2 ∧
      t'.socket.sent = t.socket.sent ++ t'.buffer := by
  have htransmit : ∀ (t : Transfer) (count : Nat), t.transmit count = .again t' →
      t'.count = count ∧ t'.buffer = t.buffer ∧ t'.stream = t.stream ∧
        t'.socket.sent = t.socket.sent ++ t'.buffer := by
    intro t count htransmit
    rw [Transfer.transmit] at htransmit
    split at htransmit
    · cases htransmit
    · cases htransmit
    · next hsend =>
        cases htransmit
        exact ⟨rfl, rfl, rfl, sendBuffer_true hsend⟩
  rw [sendTurn] at h
  split_ifs at h with hgoing hlast
  · obtain ⟨hgood, hcount⟩ := Bool.and_eq_true_iff.mp hgoing
    obtain ⟨hcount', hbuffer, hstream, hsent⟩ := htransmit _ _ h
    exact ⟨t.count, hgood, of_decide_eq_true hcount, Or.inl ⟨hlast, rfl, hcount'⟩, hbuffer,
      hstream, hsent⟩
  · obtain ⟨hgood, hcount⟩ := Bool.and_eq_true_iff.mp hgoing
    obtain ⟨hcount', hbuffer, hstream, hsent⟩ := htransmit _ _ h
    exact ⟨t.buffer.length, hgood, of_decide_eq_true hcount,
      Or.inr ⟨Nat.le_of_not_lt hlast, rfl, hcount'⟩,
      hbuffer, hstream, hsent⟩

theorem sendTurn_lowers {t t' : Transfer} (h : sendTurn t = .again t') : t'.count < t.count := by
  obtain ⟨_, _, hcount, hcount', _⟩ := sendTurn_again h
  have hsize : 0 < bufferSize := by decide
  omega

def sendLoop : Loop Transfer where
  body := sendTurn
  measure := Transfer.count
  lowers := sendTurn_lowers

/-- `send_file` with the `fict_` and `size_fict_` of its object, on a file that may not open: what
it returns and the bytes the socket has taken, or `none` if it does not return. -/
def sendFile (file : Option (List UInt8)) (fict : Int) (size : Nat) (results : List SendResult) :
    Option (Bool × List UInt8) :=
  match file with
  | none => some (false, [])
  | some content =>
      let stream : InputStream := ⟨content, 0, true⟩
      let stream := stream.seekgEnd
      let count := stream.tellg
      let stream := stream.seekg 0
      let sizeFict := if size > count then count else size
      let stream := if fict = 1 then stream.seekg sizeFict else stream
      let count := if fict = 1 then count else if fict = 2 then sizeFict else count
      let t := sendLoop.exec ⟨stream, List.replicate bufferSize 0, count, ⟨[], results⟩, none⟩
      t.verdict.map (·, t.socket.sent)

/-! ### How much is sent -/

namespace InputStream

theorem read_fst_length (stream : InputStream) {buffer : List UInt8} {count : Nat}
    (hcount : count ≤ buffer.length) : (stream.read buffer count).1.length = buffer.length := by
  simp only [read, List.length_append, List.length_take, List.length_drop]
  omega

theorem read_good (stream : InputStream) (buffer : List UInt8) (count : Nat) :
    (stream.read buffer count).2.good = true ↔ count ≤ stream.content.length - stream.pos := by
  simp only [read, List.length_take, List.length_drop, decide_eq_true_eq]
  omega

theorem read_pos (stream : InputStream) {buffer : List UInt8} {count : Nat}
    (hgood : (stream.read buffer count).2.good = true) :
    (stream.read buffer count).2.pos = stream.pos + count := by
  rw [read_good] at hgood
  simp only [read, List.length_take, List.length_drop]
  omega

theorem read_full (stream : InputStream) {buffer : List UInt8}
    (hfull : buffer.length ≤ stream.content.length - stream.pos) :
    (stream.read buffer buffer.length).1 = (stream.content.drop stream.pos).take buffer.length := by
  have hgot : ((stream.content.drop stream.pos).take buffer.length).length = buffer.length := by
    simp only [List.length_take, List.length_drop]
    omega
  rw [read]
  dsimp only
  rw [hgot, List.drop_length, List.append_nil]

end InputStream

theorem bufferSize_pos : 0 < bufferSize := by decide

theorem sendTurn_leave {t t' : Transfer} (h : sendTurn t = .leave t')
    (hverdict : t'.verdict = some true) :
    t'.socket.sent = t.socket.sent ∧ (t.stream.good = false ∨ t.count = 0) := by
  have htransmit : ∀ (t : Transfer) (count : Nat), t.transmit count ≠ .leave t' := by
    intro t count hleave
    rw [Transfer.transmit] at hleave
    split at hleave
    · cases hleave
      cases hverdict
    · cases hleave
      cases hverdict
    · cases hleave
  rw [sendTurn] at h
  split_ifs at h with hgoing
  · exact absurd h (htransmit _ _)
  · exact absurd h (htransmit _ _)
  · cases h
    refine ⟨rfl, ?_⟩
    rw [Bool.and_eq_true, not_and_or, decide_eq_true_eq] at hgoing
    rcases hgoing with hbad | hzero
    · exact Or.inl (Bool.not_eq_true _ ▸ hbad)
    · exact Or.inr (by omega)

/-- Every turn sends a whole buffer, for at most as many bytes of `count` and of the file. -/
structure Paced (content : List UInt8) (start count : Nat) (t : Transfer) : Prop where
  file : t.stream.content = content
  buffer : t.buffer.length = bufferSize
  whole : t.socket.sent.length % bufferSize = 0
  enough : count ≤ t.count + t.socket.sent.length
  pos : t.stream.good = true → 0 < t.count → t.stream.pos = start + t.socket.sent.length
  ended : t.stream.good = false → content.length < start + t.socket.sent.length

theorem Paced.again {content : List UInt8} {start count : Nat} {t t' : Transfer}
    (h : Paced content start count t) (hturn : sendTurn t = .again t') :
    Paced content start count t' := by
  obtain ⟨want, hgood, hcount, hwant, hbuffer, hstream, hsent⟩ := sendTurn_again hturn
  have hsize := bufferSize_pos
  have hbound : want ≤ t.buffer.length := by
    rw [h.buffer]
    rcases hwant with ⟨hlast, rfl, _⟩ | ⟨_, rfl, _⟩
    · exact Nat.le_of_lt hlast
    · exact Nat.le_of_eq h.buffer
  have hlength : t'.buffer.length = bufferSize := by
    rw [hbuffer, t.stream.read_fst_length hbound, h.buffer]
  have hsent' : t'.socket.sent.length = t.socket.sent.length + bufferSize := by
    rw [hsent, List.length_append, hlength]
  have hpos := h.pos hgood hcount
  refine ⟨by rw [hstream]; exact h.file, hlength, ?_, ?_, ?_, ?_⟩
  · rw [hsent', Nat.add_mod_right]
    exact h.whole
  · have henough := h.enough
    rcases hwant with ⟨_, _, hcount'⟩ | ⟨_, _, hcount'⟩ <;> omega
  · intro hgood' hcount'
    rcases hwant with ⟨_, _, hzero⟩ | ⟨_, rfl, _⟩
    · omega
    · rw [hstream] at hgood' ⊢
      rw [t.stream.read_pos hgood', hpos, hsent', h.buffer]
      omega
  · intro hbad
    have hshort : ¬ want ≤ t.stream.content.length - t.stream.pos := by
      rw [← t.stream.read_good t.buffer, ← hstream, hbad]
      exact Bool.false_ne_true
    rw [h.file, hpos] at hshort
    rw [h.buffer] at hbound
    rcases hwant with ⟨_, hwant, _⟩ | ⟨_, hwant, _⟩ <;> omega

/-- What a transfer that returns true has sent: whole buffers, and more than the file had behind the
starting point, or at least `count` bytes. -/
theorem Paced.exec {content : List UInt8} {start count : Nat} {t : Transfer}
    (h : Paced content start count t) (hverdict : (sendLoop.exec t).verdict = some true) :
    (sendLoop.exec t).socket.sent.length % bufferSize = 0 ∧
      (content.length < start + (sendLoop.exec t).socket.sent.length ∨
        count ≤ (sendLoop.exec t).socket.sent.length) := by
  revert h hverdict
  apply sendLoop.exec_induction (R := fun t t' => Paced content start count t →
    t'.verdict = some true →
    t'.socket.sent.length % bufferSize = 0 ∧
      (content.length < start + t'.socket.sent.length ∨ count ≤ t'.socket.sent.length))
  · intro t t' hturn h hverdict
    obtain ⟨hsent, hend⟩ := sendTurn_leave hturn hverdict
    rw [hsent]
    refine ⟨h.whole, ?_⟩
    rcases hend with hbad | hzero
    · exact Or.inl (h.ended hbad)
    · have henough := h.enough
      exact Or.inr (by omega)
  · intro t t' hturn ih h
    exact ih (h.again hturn)

structure InBlocks (content : List UInt8) (start count : Nat) (t : Transfer) : Prop where
  file : t.stream.content = content
  buffer : t.buffer.length = bufferSize
  good : t.stream.good = true
  pos : t.stream.pos = start + t.socket.sent.length
  left : t.count % bufferSize = 0
  total : t.count + t.socket.sent.length = count
  sent : t.socket.sent = (content.drop start).take t.socket.sent.length

theorem InBlocks.again {content : List UInt8} {start count : Nat}
    (hbound : start + count ≤ content.length) {t t' : Transfer} (h : InBlocks content start count t)
    (hturn : sendTurn t = .again t') :
    InBlocks content start count t' := by
  obtain ⟨want, _, hcount, hwant, hbuffer, hstream, hsent⟩ := sendTurn_again hturn
  have hleft := h.left
  have htotal := h.total
  have hpos := h.pos
  have hsize := bufferSize_pos
  obtain ⟨hblock, rfl, hcount'⟩ :
      bufferSize ≤ t.count ∧ want = t.buffer.length ∧ t'.count = t.count - bufferSize := by
    rcases hwant with ⟨hlast, _, _⟩ | hblock
    · rw [Nat.mod_eq_of_lt hlast] at hleft
      omega
    · exact hblock
  have hfull : t.buffer.length ≤ t.stream.content.length - t.stream.pos := by
    rw [h.buffer, h.file, hpos]
    omega
  have hgood' : (t.stream.read t.buffer t.buffer.length).2.good = true :=
    (t.stream.read_good t.buffer t.buffer.length).mpr hfull
  have hlength : t'.buffer.length = bufferSize := by
    rw [hbuffer, t.stream.read_fst_length (Nat.le_refl _), h.buffer]
  have hsent' : t'.socket.sent.length = t.socket.sent.length + bufferSize := by
    rw [hsent, List.length_append, hlength]
  refine ⟨by rw [hstream]; exact h.file, hlength, by rw [hstream]; exact hgood', ?_, ?_, ?_, ?_⟩
  · rw [hstream, t.stream.read_pos hgood', hpos, hsent', h.buffer, Nat.add_assoc]
  · rw [hcount', ← hleft]
    exact (Nat.mod_eq_sub_mod hblock).symm
  · omega
  · rw [hsent', List.take_add, ← h.sent, hsent, hbuffer, t.stream.read_full hfull, h.file, hpos,
      h.buffer, List.drop_drop]

theorem InBlocks.exec {content : List UInt8} {start count : Nat}
    (hbound : start + count ≤ content.length) {t : Transfer} (h : InBlocks content start count t)
    (hverdict : (sendLoop.exec t).verdict = some true) :
    (sendLoop.exec t).socket.sent = (content.drop start).take count := by
  revert h hverdict
  apply sendLoop.exec_induction (R := fun t t' => InBlocks content start count t →
    t'.verdict = some true → t'.socket.sent = (content.drop start).take count)
  · intro t t' hturn h hverdict
    obtain ⟨hsent, hend⟩ := sendTurn_leave hturn hverdict
    have htotal := h.total
    rcases hend with hbad | hzero
    · exact absurd (h.good.symm.trans hbad) (by decide)
    · rw [hzero, Nat.zero_add] at htotal
      rw [hsent, h.sent, htotal]
  · intro t t' hturn ih h
    exact ih (h.again hbound hturn)

/-! ### Which transfers are exact -/

/-- What a request asks for: in mode 1 the file without its first bytes, in mode 2 only these,
otherwise all of it. -/
def requested (content : List UInt8) (fict : Int) (size : Nat) : List UInt8 :=
  if fict = 1 then content.drop (min size content.length)
  else if fict = 2 then content.take (min size content.length)
  else content

/-- What is to be sent comes in whole blocks, and in mode 1 nothing is left out. -/
def WholeBlocks (length : Nat) (fict : Int) (size : Nat) : Prop :=
  if fict = 1 then min size length = 0 ∧ length % 4096 = 0
  else if fict = 2 then min size length % 4096 = 0
  else length % 4096 = 0

instance (length : Nat) (fict : Int) (size : Nat) : Decidable (WholeBlocks length fict size) :=
  inferInstanceAs (Decidable (if fict = 1 then min size length = 0 ∧ length % 4096 = 0
    else if fict = 2 then min size length % 4096 = 0 else length % 4096 = 0))

def enter (content : List UInt8) (start count : Nat) (results : List SendResult) : Transfer :=
  ⟨⟨content, start, true⟩, List.replicate bufferSize 0, count, ⟨[], results⟩, none⟩

theorem sendFile_eq (content : List UInt8) (fict : Int) (size : Nat) (results : List SendResult) :
    sendFile (some content) fict size results =
      let start := if fict = 1 then min size content.length else 0
      let count := if fict = 2 then min size content.length else content.length
      let t := sendLoop.exec (enter content start count results)
      t.verdict.map (·, t.socket.sent) := by
  have hclip : (if size > content.length then content.length else size) =
      min size content.length := by
    split <;> omega
  rw [← hclip]
  by_cases hbeans : fict = 1
  · have hsize : fict ≠ 2 := by omega
    simp only [sendFile, InputStream.seekgEnd, InputStream.tellg, InputStream.seekg, if_pos hbeans,
      if_neg hsize, enter]
    rfl
  · simp only [sendFile, InputStream.seekgEnd, InputStream.tellg, InputStream.seekg,
      if_neg hbeans, enter]
    rfl

private theorem paced_enter (content : List UInt8) (start count : Nat) (results : List SendResult) :
    Paced content start count (enter content start count results) :=
  ⟨rfl, List.length_replicate, rfl, Nat.le_refl _, fun _ _ => rfl, fun hbad => by cases hbad⟩

private theorem inBlocks_enter (content : List UInt8) (start : Nat) {count : Nat}
    (hblocks : count % bufferSize = 0) (results : List SendResult) :
    InBlocks content start count (enter content start count results) :=
  ⟨rfl, List.length_replicate, rfl, rfl, hblocks, rfl, rfl⟩

private theorem enter_exact_iff {content : List UInt8} {count : Nat} {results : List SendResult}
    (hcount : count ≤ content.length)
    (hverdict : (sendLoop.exec (enter content 0 count results)).verdict = some true) :
    (sendLoop.exec (enter content 0 count results)).socket.sent = content.take count ↔
      count % 4096 = 0 := by
  constructor
  · intro hsent
    obtain ⟨hwhole, _⟩ := (paced_enter content 0 count results).exec hverdict
    rwa [hsent, List.length_take, Nat.min_eq_left hcount] at hwhole
  · intro hblocks
    exact (inBlocks_enter content 0 hblocks results).exec (by omega) hverdict

/-- **File transfer.** When `send_file` returns true, the socket has taken what was requested
exactly if that is a number of whole blocks, and in mode 1 the whole file. -/
theorem sendFile_exact_iff (content : List UInt8) (fict : Int) (size : Nat)
    (results : List SendResult) (sent : List UInt8)
    (hsend : sendFile (some content) fict size results = some (true, sent)) :
    sent = requested content fict size ↔ WholeBlocks content.length fict size := by
  rw [sendFile_eq] at hsend
  obtain ⟨verdict, hverdict, hpair⟩ := Option.map_eq_some_iff.mp hsend
  obtain ⟨rfl, rfl⟩ := Prod.mk.inj hpair
  clear hsend hpair
  rw [requested, WholeBlocks]
  by_cases hbeans : fict = 1
  · have hsize : fict ≠ 2 := by omega
    rw [if_pos hbeans, if_neg hsize] at hverdict ⊢
    rw [if_pos hbeans, if_pos hbeans]
    by_cases hzero : min size content.length = 0
    · rw [hzero] at hverdict ⊢
      rw [List.drop_zero, and_iff_right rfl]
      have hexact := enter_exact_iff (Nat.le_refl _) hverdict
      rwa [List.take_length] at hexact
    · -- the counter runs over the whole file, so the last read goes past its end
      refine iff_of_false (fun hsent => ?_) fun h => hzero h.1
      obtain ⟨_, hmore⟩ := (paced_enter content _ content.length results).exec hverdict
      rw [hsent, List.length_drop] at hmore
      omega
  · rw [if_neg hbeans] at hverdict ⊢
    rw [if_neg hbeans, if_neg hbeans]
    by_cases hsize : fict = 2
    · rw [if_pos hsize] at hverdict ⊢
      rw [if_pos hsize, if_pos hsize]
      exact enter_exact_iff (Nat.min_le_right _ _) hverdict
    · rw [if_neg hsize] at hverdict ⊢
      rw [if_neg hsize, if_neg hsize]
      have hexact := enter_exact_iff (Nat.le_refl _) hverdict
      rwa [List.take_length] at hexact

/-- A file of one block, taken in two parts with an interrupted call between them. -/
theorem sendFile_exact_iff_one_block :
    ∃ sent, sendFile (some (List.replicate 4096 0x41)) 0 0
        [.accepted 1000, .failed .eintr, .accepted 4096] = some (true, sent) ∧
      sent = requested (List.replicate 4096 0x41) 0 0 := by
  have htrue : (sendFile (some (List.replicate 4096 0x41)) 0 0
      [.accepted 1000, .failed .eintr, .accepted 4096]).map (·.1) = some true := by decide +kernel
  obtain ⟨⟨ok, sent⟩, hsend, rfl⟩ := Option.map_eq_some_iff.mp htrue
  exact ⟨sent, hsend, (sendFile_exact_iff _ 0 0 _ sent hsend).mpr (by decide +kernel)⟩

/-- A file of one byte goes out as a whole block. -/
theorem sendFile_padded :
    ∃ sent, sendFile (some [0x41]) 0 0 [.accepted 4096] = some (true, sent) ∧
      sent ≠ requested [0x41] 0 0 := by
  have hlength : (sendFile (some [0x41]) 0 0 [.accepted 4096]).map (fun r => (r.1, r.2.length)) =
      some (true, 4096) := by decide +kernel
  obtain ⟨⟨ok, sent⟩, hsend, hpair⟩ := Option.map_eq_some_iff.mp hlength
  obtain ⟨rfl, hsent⟩ := Prod.mk.inj hpair
  refine ⟨sent, hsend, ?_⟩
  rintro rfl
  cases hsent

end NetworkHomework.FileServer
