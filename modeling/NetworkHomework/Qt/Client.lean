import NetworkHomework.Qt.DataStream

/-!
# `TcpClient`: `slot_ready_read`, `read_file` and `slot_send_to_server`

The client's side of the connection, the same in hw5 and hw6 but for the socket's type. A text `get`
makes `slot_ready_read` call `read_file` once, on whatever is buffered at that moment; `block_size_`
keeps the block length between calls of `read_file`, and its type is signed.
-/

namespace NetworkHomework.Qt

open BigEndian

inductive Shown where
  | received (str : QString)
  | breaking
  | fileCantWrite
  | fileWrite
deriving DecidableEq

/-- The client: its socket with `next_block_size_`, `block_size_`, the lines shown, the files
written, whether the window was closed, and the bytes written to the server. -/
structure TcpClient where
  reader : FrameReader
  blockSize : Int
  shown : List Shown
  files : List (List UInt16 × List UInt8)
  closed : Bool
  tx : List UInt8
deriving DecidableEq

namespace TcpClient

def start : TcpClient := ⟨⟨0, []⟩, 0, [], [], false, []⟩

def slotSendToServer (c : TcpClient) (text : QString) : TcpClient :=
  { c with tx := c.tx ++ textFrame text }

theorem slotSendToServer_tx (texts : List QString) (c : TcpClient) :
    (texts.foldl slotSendToServer c).tx = c.tx ++ stream textFrame texts := by
  induction texts generalizing c with
  | nil => exact (List.append_nil _).symm
  | cons text texts ih => rw [List.foldl_cons, ih, stream_cons, slotSendToServer, List.append_assoc]

end TcpClient

/-- A `quint32` stored in a `qint32`. -/
def toQint32 (n : Nat) : Int := if n < 2 ^ 31 then n else n - 2 ^ 32

theorem toQint32_of_lt {n : Nat} (hn : n < 2 ^ 31) : toQint32 n = n := if_pos hn

/-- `section("/", -1)`: what follows the last slash. -/
def lastSection (us : List UInt16) : List UInt16 := (us.reverse.takeWhile (· != 0x2f)).reverse

theorem lastSection_append (us vs : List UInt16) :
    lastSection (us ++ [0x2f] ++ vs) = lastSection vs := by
  have hcut : ∀ ws : List UInt16, (ws ++ 0x2f :: us.reverse).takeWhile (· != 0x2f) =
      ws.takeWhile (· != 0x2f) := by
    intro ws
    induction ws with
    | nil => rfl
    | cons w ws ih => by_cases hw : w = 0x2f <;> simp [hw, ih]
  simp [lastSection, hcut]

section ReadyRead

variable (currentPath : List UInt16) (canOpen : List UInt16 → Bool)

def targetPath (fileName : QString) : List UInt16 :=
  currentPath ++ [0x2f] ++ lastSection fileName.data

/-- `read_file` from the second test on. -/
def TcpClient.readBlock (c : TcpClient) : Bool × TcpClient :=
  if (c.reader.rx.length : Int) < c.blockSize then (false, c)
  else
    let name := readQString c.reader.rx
    let target := targetPath currentPath name.1
    -- `readAll` empties the buffer
    let c := { c with blockSize := 0, reader := { c.reader with rx := [] } }
    if canOpen target then (true, { c with files := c.files ++ [(target, name.2)] }) else (false, c)

/-- `read_file`: `canOpen` is what `open(QIODevice::WriteOnly)` answers for a path. -/
def TcpClient.readFile (c : TcpClient) : Bool × TcpClient :=
  if c.blockSize = 0 then
    if c.reader.rx.length < 4 then (false, c)
    else
      TcpClient.readBlock currentPath canOpen
        { c with
          blockSize := toQint32 (read 4 c.reader.rx).1
          reader := { c.reader with rx := (read 4 c.reader.rx).2 } }
  else TcpClient.readBlock currentPath canOpen c

/-- What the loop of `slot_ready_read` does with a text. -/
def TcpClient.take (c : TcpClient) (reader : FrameReader) (str : QString) : TcpClient :=
  let c := { c with reader := reader, shown := c.shown ++ [Shown.received str] }
  let c := if str.Same (.lit "exit") then { c with shown := c.shown ++ [Shown.breaking], closed := true } else c
  if str.Same (.lit "get") then
    let (ok, c) := c.readFile currentPath canOpen
    { c with shown := c.shown ++ [if ok then Shown.fileWrite else Shown.fileCantWrite] }
  else c

theorem TcpClient.readBlock_reader (c : TcpClient) :
    (c.readBlock currentPath canOpen).2.reader.nextBlockSize = c.reader.nextBlockSize ∧
      (c.readBlock currentPath canOpen).2.reader.rx.length ≤ c.reader.rx.length := by
  rw [readBlock]
  dsimp only
  split_ifs <;> simp

theorem TcpClient.readFile_reader (c : TcpClient) :
    (c.readFile currentPath canOpen).2.reader.nextBlockSize = c.reader.nextBlockSize ∧
      (c.readFile currentPath canOpen).2.reader.rx.length ≤ c.reader.rx.length := by
  rw [readFile]
  split_ifs
  · exact ⟨rfl, Nat.le_refl _⟩
  · obtain ⟨hsize, hrx⟩ := readBlock_reader currentPath canOpen
      { c with
        blockSize := toQint32 (read 4 c.reader.rx).1
        reader := { c.reader with rx := (read 4 c.reader.rx).2 } }
    refine ⟨hsize, hrx.trans ?_⟩
    rw [read_length]
    exact Nat.sub_le _ _
  · exact readBlock_reader currentPath canOpen c

def readyTurn (c : TcpClient) : Turn TcpClient :=
  match c.reader.readFrame with
  | (none, reader) => .leave { c with reader := reader }
  | (some str, reader) => .again (c.take currentPath canOpen reader str)

theorem TcpClient.take_reader (c : TcpClient) (rest : List UInt8) (str : QString) :
    (c.take currentPath canOpen ⟨0, rest⟩ str).reader.nextBlockSize = 0 ∧
      (c.take currentPath canOpen ⟨0, rest⟩ str).reader.rx.length ≤ rest.length := by
  rw [take]
  split_ifs
  · exact readFile_reader currentPath canOpen _
  · exact readFile_reader currentPath canOpen _
  · exact ⟨rfl, Nat.le_refl _⟩
  · exact ⟨rfl, Nat.le_refl _⟩

theorem readyTurn_lowers {c c' : TcpClient} (h : readyTurn currentPath canOpen c = .again c') :
    c'.reader.unread.length < c.reader.unread.length := by
  cases hdecode : decodeFrame c.reader.unread with
  | none =>
      obtain ⟨r, hread, _⟩ := FrameReader.readFrame_of_none hdecode
      rw [readyTurn, hread] at h
      cases h
  | some item =>
      obtain ⟨str, rest⟩ := item
      rw [readyTurn, FrameReader.readFrame_of_some hdecode] at h
      cases h
      obtain ⟨hsize, hrx⟩ := c.take_reader currentPath canOpen rest str
      have hshorter := decodeFrame_shorter hdecode
      rw [FrameReader.unread, if_pos hsize]
      omega

def readyLoop : Loop TcpClient where
  body := readyTurn currentPath canOpen
  measure c := c.reader.unread.length
  lowers := readyTurn_lowers currentPath canOpen

def slotReadyRead (c : TcpClient) : TcpClient := (readyLoop currentPath canOpen).exec c

def TcpClient.arrive (c : TcpClient) (chunk : List UInt8) : TcpClient :=
  slotReadyRead currentPath canOpen { c with reader := c.reader.receive chunk }

theorem slotReadyRead_of_some {c : TcpClient} {str : QString} {rest : List UInt8}
    (h : decodeFrame c.reader.unread = some (str, rest)) :
    slotReadyRead currentPath canOpen c =
      slotReadyRead currentPath canOpen (c.take currentPath canOpen ⟨0, rest⟩ str) := by
  apply (readyLoop currentPath canOpen).exec_of_again
  change readyTurn currentPath canOpen c = _
  rw [readyTurn, FrameReader.readFrame_of_some h]

theorem slotReadyRead_of_none {c : TcpClient} (h : decodeFrame c.reader.unread = none) :
    ∃ r, slotReadyRead currentPath canOpen c = { c with reader := r } ∧
      r.unread = c.reader.unread ∧ r.Waiting := by
  obtain ⟨r, hread, hunread, hwaiting⟩ := FrameReader.readFrame_of_none h
  refine ⟨r, ?_, hunread, hwaiting⟩
  apply (readyLoop currentPath canOpen).exec_of_leave
  change readyTurn currentPath canOpen c = _
  rw [readyTurn, hread]

/-- What holds whatever the reader, and still holds when a text has been taken, holds as long as the
client runs. -/
theorem slotReadyRead_keeps {I : TcpClient → Prop} (hreader : ∀ c reader, I c → I { c with reader := reader })
    (htake : ∀ c reader str, I c → I (c.take currentPath canOpen reader str))
      {c : TcpClient} (h : I c) :
    I (slotReadyRead currentPath canOpen c) := by
  apply (readyLoop currentPath canOpen).exec_keeps
  · intro c c' hc hbody
    change readyTurn currentPath canOpen c = .leave c' at hbody
    rw [readyTurn] at hbody
    split at hbody
    · cases hbody
      exact hreader c _ hc
    · cases hbody
  · intro c c' hc hbody
    change readyTurn currentPath canOpen c = .again c' at hbody
    rw [readyTurn] at hbody
    split at hbody
    · cases hbody
    · cases hbody
      exact htake c _ _ hc
  · exact h

theorem arrive_keeps {I : TcpClient → Prop} (hreader : ∀ c reader, I c → I { c with reader := reader })
    (htake : ∀ c reader str, I c → I (c.take currentPath canOpen reader str))
      {c : TcpClient} (h : I c)
    (chunks : List (List UInt8)) : I (chunks.foldl (TcpClient.arrive currentPath canOpen) c) := by
  induction chunks generalizing c with
  | nil => exact h
  | cons chunk chunks ih =>
      exact ih (slotReadyRead_keeps currentPath canOpen hreader htake (hreader c _ h))

end ReadyRead

/-! ### The texts shown -/

def receivedOf (shown : List Shown) : List QString :=
  shown.filterMap fun
    | .received str => some str
    | _ => none

@[simp] theorem receivedOf_append (shown shown' : List Shown) :
    receivedOf (shown ++ shown') = receivedOf shown ++ receivedOf shown' :=
  List.filterMap_append

section

variable (currentPath : List UInt16) (canOpen : List UInt16 → Bool)

theorem TcpClient.readBlock_shown (c : TcpClient) :
    (c.readBlock currentPath canOpen).2.shown = c.shown := by
  rw [readBlock]
  dsimp only
  split_ifs <;> rfl

theorem TcpClient.readFile_shown (c : TcpClient) : (c.readFile currentPath canOpen).2.shown = c.shown := by
  rw [readFile]
  split_ifs
  · rfl
  · exact readBlock_shown currentPath canOpen _
  · exact readBlock_shown currentPath canOpen _

theorem receivedOf_take (c : TcpClient) (reader : FrameReader) (str : QString) :
    receivedOf (c.take currentPath canOpen reader str).shown = receivedOf c.shown ++ [str] := by
  rw [TcpClient.take]
  dsimp only
  split_ifs <;> simp only [receivedOf_append, TcpClient.readFile_shown] <;>
    simp [receivedOf]

end

end NetworkHomework.Qt
