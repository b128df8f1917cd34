import NetworkHomework.Qt.Client
import NetworkHomework.Qt.Server

/-!
# The receiving loops end

The `for (;;)` loops of `slot_read_client` and `slot_ready_read` look at what is buffered and at
sizes that earlier calls have left behind, whatever these are. A turn that does not break has taken
bytes off the buffer: the size in front of a frame if it had none, else part of a payload that is
not empty, and what `read_file` does afterwards takes off more or nothing. So the loops end after as
many turns as there are bytes, and one more (`receiving_loops_end`).
-/

namespace NetworkHomework.Qt

open BigEndian

theorem FrameReader.payload_some {r r' : FrameReader} {str : QString}
    (h : r.payload = (some str, r')) :
    r.nextBlockSize.toNat ≤ r.rx.length ∧ r' = ⟨0, (readQString r.rx).2⟩ := by
  rw [payload] at h
  split_ifs at h with hshort
  · cases h
  · cases h
    exact ⟨Nat.le_of_not_lt hshort, rfl⟩

theorem FrameReader.readFrame_consumes {r r' : FrameReader} {str : QString}
    (h : r.readFrame = (some str, r')) : r'.nextBlockSize = 0 ∧ r'.rx.length < r.rx.length := by
  rw [readFrame] at h
  by_cases hzero : r.nextBlockSize = 0
  · rw [if_pos hzero] at h
    split_ifs at h with hheader
    · cases h
    · obtain ⟨_, rfl⟩ := payload_some h
      have hstring := readQString_length_le (BigEndian.read 2 r.rx).2
      rw [read_length] at hstring
      refine ⟨rfl, ?_⟩
      change (readQString (BigEndian.read 2 r.rx).2).2.length < r.rx.length
      omega
  · rw [if_neg hzero] at h
    obtain ⟨harrived, rfl⟩ := payload_some h
    have hpos : r.nextBlockSize.toNat ≠ 0 := fun hz => hzero (UInt16.toNat.inj hz)
    refine ⟨rfl, readQString_shorter ?_⟩
    intro hempty
    rw [hempty, List.length_nil] at harrived
    omega

section Server

variable (edition : Edition) (currentPath : List UInt16) (disk : Nat → FileSystem)

theorem slotTurn_consumes {s s' : Slot} (h : slotTurn edition currentPath disk s = .again s') :
    s'.reader.rx.length < s.reader.rx.length := by
  rw [slotTurn] at h
  split at h
  · cases h
  · next hread =>
      cases h
      exact (FrameReader.readFrame_consumes hread).2

def slotBytes : Loop Slot where
  body := slotTurn edition currentPath disk
  measure s := s.reader.rx.length
  lowers := slotTurn_consumes edition currentPath disk

theorem slotBytes_turns (s : Slot) :
    turns (slotTurn edition currentPath disk) (s.reader.rx.length + 1) s =
      some (slotReadClient edition currentPath disk s) := by
  have hexec : slotReadClient edition currentPath disk s =
      (slotBytes edition currentPath disk).exec s :=
    (slotBytes edition currentPath disk).exec_congr (slotLoop edition currentPath disk) rfl s
  rw [hexec]
  exact (slotBytes edition currentPath disk).turns_eq_exec _ s (Nat.lt_succ_self _)

end Server

section Client

variable (currentPath : List UInt16) (canOpen : List UInt16 → Bool)

theorem readyTurn_consumes {c c' : TcpClient} (h : readyTurn currentPath canOpen c = .again c') :
    c'.reader.rx.length < c.reader.rx.length := by
  rw [readyTurn] at h
  split at h
  · cases h
  · next str reader hread =>
      cases h
      obtain ⟨nextBlockSize, rest⟩ := reader
      obtain ⟨hzero, hshorter⟩ := FrameReader.readFrame_consumes hread
      change nextBlockSize = 0 at hzero
      subst hzero
      exact Nat.lt_of_le_of_lt (c.take_reader currentPath canOpen rest str).2 hshorter

def readyBytes : Loop TcpClient where
  body := readyTurn currentPath canOpen
  measure c := c.reader.rx.length
  lowers := readyTurn_consumes currentPath canOpen

theorem readyBytes_turns (c : TcpClient) :
    turns (readyTurn currentPath canOpen) (c.reader.rx.length + 1) c =
      some (slotReadyRead currentPath canOpen c) := by
  have hexec : slotReadyRead currentPath canOpen c = (readyBytes currentPath canOpen).exec c :=
    (readyBytes currentPath canOpen).exec_congr (readyLoop currentPath canOpen) rfl c
  rw [hexec]
  exact (readyBytes currentPath canOpen).turns_eq_exec _ c (Nat.lt_succ_self _)

end Client

/-- **Termination.** From every state of the server's connection and of the client, whatever is
buffered and whatever sizes are left over, a turn that does not break consumes a byte, and so the
loop is left after at most one more turn than there are bytes. -/
theorem receiving_loops_end (edition : Edition) (currentPath : List UInt16)
    (disk : Nat → FileSystem) (canOpen : List UInt16 → Bool) :
    (∀ s : Slot,
      (∀ s', slotTurn edition currentPath disk s = .again s' →
        s'.reader.rx.length < s.reader.rx.length) ∧
      turns (slotTurn edition currentPath disk) (s.reader.rx.length + 1) s =
        some (slotReadClient edition currentPath disk s)) ∧
      ∀ c : TcpClient,
        (∀ c', readyTurn currentPath canOpen c = .again c' →
          c'.reader.rx.length < c.reader.rx.length) ∧
        turns (readyTurn currentPath canOpen) (c.reader.rx.length + 1) c =
          some (slotReadyRead currentPath canOpen c) := by
  constructor
  · intro s
    exact ⟨fun s' h => slotTurn_consumes edition currentPath disk h,
      slotBytes_turns edition currentPath disk s⟩
  · intro c
    exact ⟨fun c' h => readyTurn_consumes currentPath canOpen h,
      readyBytes_turns currentPath canOpen c⟩

end NetworkHomework.Qt
