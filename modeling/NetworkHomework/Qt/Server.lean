import NetworkHomework.Qt.TextStream

/-!
# `TcpServer`: one call of `slot_read_client`

The receiving slot and the two functions it answers with. A call works on the sender's socket and on
`next_block_size_`, which is all it shares with other calls; the files it reads may change between
one request and the next. `slotReadClient_spec` says what a call does, whatever the bytes: it takes
off the buffer what the stateless frame decoder takes off the unread bytes, and answers the strings
in turn.

The servers of hw5 and hw6 are the same text but for the guard in front of the announcement.
-/

namespace NetworkHomework.Qt

open BigEndian

/-- The homework whose copy of the server is meant. -/
inductive Edition where
  | hw5
  | hw6
deriving DecidableEq

/-- The second half of the guard of the `get` branch: `filename.size() > 0` in hw5, and
`sizeof(filename) > 0` in hw6, where a `QString` is one pointer. -/
def Edition.guard : Edition → QString → Bool
  | .hw5, filename => 0 < filename.size
  | .hw6, _ => 0 < 8

/-! ### Files -/

/-- What `QFile` says about a path and delivers from it: `exists()`, the result of
`open(QFile::ReadOnly)`, `size()` and the bytes behind it. -/
structure File where
  present : Bool
  opens : Bool
  size : Nat
  content : List UInt8

/-- `file.read(count)` at a position; a file that is not open reads as empty. -/
def File.read (file : File) (pos count : Nat) : List UInt8 :=
  if file.opens then (file.content.drop pos).take count else []

abbrev FileSystem := List UInt16 → File

def noFiles : FileSystem := fun _ => ⟨false, false, 0, []⟩

/-- What `send_to_file` reads of a file: all of it, or without its first `size` bytes in mode 1, or
only these in mode 2, with `size` cut down to the size of the file. -/
def File.slice (file : File) (fict size : Nat) : List UInt8 :=
  let sizeFict := if size > file.size then file.size else size
  if fict = 1 then file.read sizeFict (file.size - sizeFict)
  else if fict = 2 then file.read 0 sizeFict
  else file.read 0 file.size

def fileBlock (currentPath : List UInt16) (disk : FileSystem) (filename : QString)
    (fict size : Nat) :
    Option (List UInt8) :=
  if filename.size = 0 then none
  else
    let path := currentPath ++ [0x2f] ++ filename.data
    if !(disk path).present && !(disk path).opens then none
    else
      -- the content goes behind what the stream wrote, then the stream overwrites its placeholder
      let block := toBytes 4 0 ++ writeQString (.units path) ++ (disk path).slice fict size
      some (toBytes 4 (block.length - 4) ++ block.drop 4)

/-- A file block: the 32-bit length of the rest, the name, the content. -/
def blockOf (name : QString) (content : List UInt8) : List UInt8 :=
  toBytes 4 ((writeQString name).length + content.length) ++ writeQString name ++ content

theorem fileBlock_eq (currentPath : List UInt16) (disk : FileSystem) (filename : QString)
    (fict size : Nat) :
    fileBlock currentPath disk filename fict size =
      let path := currentPath ++ [0x2f] ++ filename.data
      if filename.size = 0 ∨ ((disk path).present = false ∧ (disk path).opens = false) then none
      else some (blockOf (.units path) ((disk path).slice fict size)) := by
  have hpatch : ∀ (name : QString) (content : List UInt8),
      toBytes 4 ((toBytes 4 0 ++ writeQString name ++ content).length - 4) ++
        (toBytes 4 0 ++ writeQString name ++ content).drop 4 = blockOf name content := by
    intro name content
    have hlength : (toBytes 4 0 ++ writeQString name ++ content).length - 4 =
        (writeQString name).length + content.length := by
      simp only [List.length_append, toBytes_length]
      omega
    rw [hlength, List.append_assoc, List.drop_left' (toBytes_length 4 0), blockOf,
      List.append_assoc]
  rw [fileBlock]
  dsimp only
  rw [hpatch]
  by_cases hsize : filename.size = 0
  · rw [if_pos hsize, if_pos (Or.inl hsize)]
  · rw [if_neg hsize]
    simp [hsize]

/-- `while (x < block.size())`: every turn offers the whole block again, and `results` are what the
calls of `write` return, of which a positive one says how many bytes went out. -/
def writeLoop (block : List UInt8) : List Int → Int → List UInt8 → Option (List UInt8)
  | [], x, sent => if x < block.length then none else some sent
  | y :: results, x, sent =>
      if x < block.length then writeLoop block results (x + y)
        (sent ++ block.take y.toNat) else some sent

/-! ### One call of the slot -/

inductive Line where
  | clientHasSent (str : QString)
  | breaking
deriving DecidableEq

/-- What the calls for one client leave behind: the bytes written to its socket, the lines in the
window, whether the window was closed, and the number of requests answered in this call. -/
structure Output where
  tx : List UInt8
  txt : List Line
  closed : Bool
  served : Nat
deriving DecidableEq

def Output.start : Output := ⟨[], [], false, 0⟩

def Output.sendToClient (out : Output) (str : QString) : Output :=
  { out with tx := out.tx ++ textFrame str }

/-- `send_to_file` on a connected socket, whose `write` takes all it is offered. -/
def Output.sendToFile (out : Output) (currentPath : List UInt16) (disk : FileSystem)
    (filename : QString) (fict size : Nat) : Output :=
  match fileBlock currentPath disk filename fict size with
  | none => out
  | some block => { out with tx := out.tx ++ (writeLoop block [block.length] 0 []).getD [] }

def fictOf (fiction : QString) : Nat :=
  if fiction.Same (.lit "beans") then 1 else if fiction.Same (.lit "size") then 2 else 0

def echo (str : QString) : QString := .lit "Server Response: Received \"" ++ str ++ .lit "\""

theorem echo_size (str : QString) : (echo str).size = str.size + 28 := by
  have hquoted : (QString.lit "Server Response: Received \"").size = 27 := by decide
  have hquote : (QString.lit "\"").size = 1 := by decide
  rw [echo, QString.size_append, QString.size_append, hquoted, hquote]
  omega

/-- The rest of the loop body once a request has been read. -/
def answer (edition : Edition) (currentPath : List UInt16) (disk : FileSystem) (str : QString)
    (out : Output) : Output :=
  let out := { out with txt := out.txt ++ [Line.clientHasSent str], served := out.served + 1 }
  let out := out.sendToClient (echo str)
  let cmd := parseCommand str
  let out :=
    if cmd.command.Same (.lit "exit") then
      { { out with txt := out.txt ++ [Line.breaking] }.sendToClient cmd.command with
        closed := true }
    else out
  if cmd.command.Same (.lit "get") ∧ edition.guard cmd.filename then
    (out.sendToClient cmd.command).sendToFile currentPath disk cmd.filename
      (fictOf cmd.fiction) cmd.sizeFict
  else out

/-- The requests of one call answered in turn; `disk` is what the files look like at each of
them. -/
def answerAll (edition : Edition) (currentPath : List UInt16) (disk : Nat → FileSystem)
    (strs : List QString) (out : Output) : Output :=
  strs.foldl (fun out str => answer edition currentPath (disk out.served) str out) out

theorem answerAll_cons (edition : Edition) (currentPath : List UInt16) (disk : Nat → FileSystem)
    (str : QString) (strs : List QString) (out : Output) :
    answerAll edition currentPath disk (str :: strs) out =
      answerAll edition currentPath disk strs
        (answer edition currentPath (disk out.served) str out) := rfl

/-- The state of a call: the receiving end of the sender's socket with the server's
`next_block_size_`, and the output. -/
structure Slot where
  reader : FrameReader
  out : Output
deriving DecidableEq

section Call

variable (edition : Edition) (currentPath : List UInt16) (disk : Nat → FileSystem)

def slotTurn (s : Slot) : Turn Slot :=
  match s.reader.readFrame with
  | (none, reader) => .leave { s with reader := reader }
  | (some str, reader) =>
      .again ⟨reader, answer edition currentPath (disk s.out.served) str s.out⟩

theorem slotTurn_lowers {s s' : Slot} (h : slotTurn edition currentPath disk s = .again s') :
    s'.reader.unread.length < s.reader.unread.length := by
  rw [slotTurn] at h
  split at h
  · cases h
  · next hread =>
      cases h
      exact FrameReader.readFrame_shorter hread

def slotLoop : Loop Slot where
  body := slotTurn edition currentPath disk
  measure s := s.reader.unread.length
  lowers := slotTurn_lowers edition currentPath disk

def slotReadClient (s : Slot) : Slot := (slotLoop edition currentPath disk).exec s

/-- A call takes off the unread bytes what the frame decoder does, answers the strings, and stops
where it needs more bytes. -/
theorem slotReadClient_spec (s : Slot) :
    (slotReadClient edition currentPath disk s).reader.unread =
      (frameDecoder.drain s.reader.unread).2 ∧
      (slotReadClient edition currentPath disk s).out =
        answerAll edition currentPath disk (frameDecoder.drain s.reader.unread).1 s.out ∧
      (slotReadClient edition currentPath disk s).reader.Waiting := by
  apply (slotLoop edition currentPath disk).exec_induction
    (R := fun s s' => s'.reader.unread = (frameDecoder.drain s.reader.unread).2 ∧
      s'.out = answerAll edition currentPath disk (frameDecoder.drain s.reader.unread).1 s.out ∧
      s'.reader.Waiting)
  · intro s s' hbody
    change slotTurn edition currentPath disk s = .leave s' at hbody
    cases hdecode : decodeFrame s.reader.unread with
    | some item =>
        rw [slotTurn, FrameReader.readFrame_of_some hdecode] at hbody
        cases hbody
    | none =>
        obtain ⟨r, hread, hunread, hwaiting⟩ := FrameReader.readFrame_of_none hdecode
        rw [slotTurn, hread] at hbody
        cases hbody
        rw [frameDecoder.drain_of_none hdecode]
        exact ⟨hunread, rfl, hwaiting⟩
  · intro s s' hbody ih
    change slotTurn edition currentPath disk s = .again s' at hbody
    cases hdecode : decodeFrame s.reader.unread with
    | none =>
        obtain ⟨r, hread, _⟩ := FrameReader.readFrame_of_none hdecode
        rw [slotTurn, hread] at hbody
        cases hbody
    | some item =>
        obtain ⟨str, rest⟩ := item
        rw [slotTurn, FrameReader.readFrame_of_some hdecode] at hbody
        cases hbody
        rw [frameDecoder.drain_of_some hdecode]
        exact ih

end Call

/-! ### What the answers leave in the window -/

/-- The strings the server has read from a socket, as its window shows them. -/
def requestsOf (txt : List Line) : List QString :=
  txt.filterMap fun
    | .clientHasSent str => some str
    | .breaking => none

@[simp] theorem Output.sendToFile_txt (out : Output) (currentPath : List UInt16) (disk : FileSystem)
    (filename : QString) (fict size : Nat) :
    (out.sendToFile currentPath disk filename fict size).txt = out.txt := by
  rw [Output.sendToFile]
  split <;> rfl

theorem requestsOf_answer (edition : Edition) (currentPath : List UInt16) (disk : FileSystem)
    (str : QString) (out : Output) :
    requestsOf (answer edition currentPath disk str out).txt = requestsOf out.txt ++ [str] := by
  rw [answer]
  split_ifs <;> simp [Output.sendToClient, requestsOf]

theorem requestsOf_answerAll (edition : Edition) (currentPath : List UInt16)
    (disk : Nat → FileSystem) (strs : List QString) (out : Output) :
    requestsOf (answerAll edition currentPath disk strs out).txt = requestsOf out.txt ++ strs := by
  induction strs generalizing out with
  | nil => exact (List.append_nil _).symm
  | cons str strs ih =>
      rw [answerAll_cons, ih, requestsOf_answer, List.append_assoc]
      rfl

/-! ### One connection -/

/-- The bytes that have come in when `readyRead` is emitted, and the files during the call. -/
structure Delivery where
  bytes : List UInt8
  disk : Nat → FileSystem

/-- The connection as `slot_new_connection` leaves it: nothing read, and the greeting sent. -/
def Slot.connected : Slot :=
  ⟨⟨0, []⟩, Output.start.sendToClient (.lit "Server Response: Connected!")⟩

section Connection

variable (edition : Edition) (currentPath : List UInt16)

def Slot.call (s : Slot) (d : Delivery) : Slot :=
  slotReadClient edition currentPath d.disk ⟨s.reader.receive d.bytes, { s.out with served := 0 }⟩

def calls (ds : List Delivery) : Slot := ds.foldl (Slot.call edition currentPath) .connected

theorem calls_concat (ds : List Delivery) (d : Delivery) :
    calls edition currentPath (ds ++ [d]) = (calls edition currentPath ds).call edition
      currentPath d := by
  simp [calls]

theorem calls_spec (ds : List Delivery) :
    (calls edition currentPath ds).reader.unread = (frameDecoder.feedAll (ds.map (·.bytes))).2 ∧
      requestsOf (calls edition currentPath ds).out.txt =
        (frameDecoder.feedAll (ds.map (·.bytes))).1 ∧
      (calls edition currentPath ds).reader.Waiting := by
  induction ds using List.reverseRecOn with
  | nil => exact ⟨rfl, rfl, Or.inl ⟨rfl, Nat.two_pos⟩⟩
  | append_singleton ds d ih =>
      obtain ⟨hunread, hrequests, _⟩ := ih
      obtain ⟨hunread', hout, hwaiting⟩ := slotReadClient_spec edition currentPath d.disk
        ⟨(calls edition currentPath ds).reader.receive d.bytes,
          { (calls edition currentPath ds).out with served := 0 }⟩
      rw [FrameReader.unread_receive, hunread] at hunread' hout
      rw [calls_concat, List.map_append, List.map_singleton, Decoder.feedAll_concat]
      refine ⟨hunread', ?_, hwaiting⟩
      rw [Slot.call, hout, requestsOf_answerAll, hrequests]
      rfl

end Connection

end NetworkHomework.Qt
