import NetworkHomework.FileServer.CommandLoop

/-!
# The bytes on a connection of the hw4 server

`send_file` sends whole buffers. What it has not read anew in the last of them is what an earlier
block left there, or zeros. So a client always gets what it has asked for first, and behind it at
most one block of bytes it could have had anyway (`sendFile_wire`). Over a whole connection the
server sends nothing but texts of the client and such files, each in its turn (`connection_stream`).
-/

namespace NetworkHomework.FileServer

open Conversions

/-! ### What the buffers hold -/

/-- The buffers that are sent from a position in the file on, with `count` as the loop counts, until
a read falls short. -/
def wire (content : List UInt8) (start count : Nat) (buffer : List UInt8) : List UInt8 :=
  if count = 0 then []
  else
    let want := min count bufferSize
    let got := (content.drop start).take want
    let buffer := got ++ buffer.drop got.length
    buffer ++ if got.length = want then wire content (start + want) (count - want) buffer else []
termination_by count
decreasing_by
  have hsize := bufferSize_pos
  omega

theorem wire_zero (content : List UInt8) (start : Nat) (buffer : List UInt8) :
    wire content start 0 buffer = [] := by
  rw [wire, if_pos rfl]

theorem last_padded {got buffer : List UInt8} (hgot : got.length ≤ bufferSize)
    (hbuffer : buffer.length = bufferSize) :
    bufferSize ∣ (got ++ buffer.drop got.length).length ∧
    (buffer.drop got.length).length ≤ bufferSize ∧
      ∀ b ∈ buffer.drop got.length, b ∈ buffer ∨ b ∈ got := by
  have hlength : (got ++ buffer.drop got.length).length = bufferSize := by
    rw [List.length_append, List.length_drop]
    omega
  refine ⟨by rw [hlength], ?_, fun b hb => Or.inl (List.mem_of_mem_drop hb)⟩
  rw [List.length_drop]
  omega

/-- What is asked for comes first, and the rest of the last buffer is old. -/
theorem wire_padded (content : List UInt8) (start count : Nat) {buffer : List UInt8}
    (hbuffer : buffer.length = bufferSize) :
    ∃ pad, wire content start count buffer = (content.drop start).take count ++ pad ∧
      bufferSize ∣ (wire content start count buffer).length ∧ pad.length ≤ bufferSize ∧
      ∀ b ∈ pad, b ∈ buffer ∨ b ∈ (content.drop start).take count := by
  induction hn : count using Nat.strong_induction_on generalizing start count buffer with
  | _ n ih =>
      subst hn
      have hsize := bufferSize_pos
      by_cases hzero : count = 0
      · subst hzero
        rw [wire_zero]
        exact ⟨[], rfl, dvd_zero _, Nat.zero_le _, fun b hb => by cases hb⟩
      rw [wire, if_neg hzero]
      dsimp only
      generalize hgot : (content.drop start).take (min count bufferSize) = got
      have hlength : got.length = min (min count bufferSize) (content.length - start) := by
        rw [← hgot, List.length_take, List.length_drop]
      have hlast := @last_padded got buffer (by omega) hbuffer
      by_cases hfull : got.length = min count bufferSize
      · rw [if_pos hfull]
        have hsplit : (content.drop start).take count =
            got ++ (content.drop (start + min count bufferSize)).take
              (count - min count bufferSize) := by
          rw [← hgot, ← List.drop_drop, ← List.take_add]
          congr 1
          omega
        rcases Nat.lt_or_ge bufferSize count with hmore | hend
        · -- a whole buffer, and more behind it
          have hall : got ++ buffer.drop got.length = got := by
            rw [List.drop_eq_nil_of_le (by omega), List.append_nil]
          obtain ⟨pad, hwire, hdvd, hpad, hold⟩ := @ih (count - min count bufferSize) (by omega)
            (start + min count bufferSize) (count - min count bufferSize) got (by omega) rfl
          rw [hall, hsplit]
          refine ⟨pad, ?_, ?_, hpad, fun b hb => Or.inr ?_⟩
          · rw [hwire, List.append_assoc]
          · rw [List.length_append]
            refine (Nat.dvd_add_right ?_).mpr hdvd
            rw [hfull, Nat.min_eq_right (Nat.le_of_lt hmore)]
          · exact List.mem_append.mpr (hold b hb)
        · have hdone : count - min count bufferSize = 0 := by omega
          rw [hsplit, hdone, wire_zero, List.take_zero, List.append_nil, List.append_nil]
          exact ⟨_, rfl, hlast⟩
      · rw [if_neg hfull]
        -- the file ends here
        have hshort : (content.drop start).take count = got := by
          rw [← hgot, List.take_of_length_le (by rw [List.length_drop]; omega),
            List.take_of_length_le (by rw [List.length_drop]; omega)]
        rw [hshort, List.append_nil]
        exact ⟨_, rfl, hlast⟩

/-! ### What the socket takes -/

private theorem sendRest_false {buffer sent : List UInt8} {results : List SendResult}
    {transmitted : Nat} {socket : Socket}
    (h : sendRest buffer transmitted sent results = some (false, socket)) :
    ∃ p, socket.sent = sent ++ p ∧ p <+: buffer.drop transmitted := by
  induction results generalizing transmitted sent with
  | nil =>
      rw [sendRest] at h
      split_ifs at h
      cases h
  | cons result results ih =>
      cases result with
      | accepted count =>
          rw [sendRest] at h
          split_ifs at h
          · cases h
          · obtain ⟨p, hsent, rest, hp⟩ := ih h
            refine ⟨(buffer.drop transmitted).take (min count (buffer.length - transmitted)) ++ p,
              ?_, rest, ?_⟩
            · rw [hsent, List.append_assoc]
            · rw [List.append_assoc, hp, ← List.drop_drop, List.take_append_drop]
      | failed errno =>
          rw [sendRest] at h
          split_ifs at h
          · cases h
          · exact ih h
          · cases h
            exact ⟨[], (List.append_nil _).symm, List.nil_prefix⟩

theorem sendBuffer_false {socket socket' : Socket} {buffer : List UInt8}
    (h : sendBuffer socket buffer = some (false, socket')) :
    ∃ p, socket'.sent = socket.sent ++ p ∧ p <+: buffer := sendRest_false h

def Transfer.wire (t : Transfer) : List UInt8 :=
  if t.stream.good then FileServer.wire t.stream.content t.stream.pos t.count t.buffer else []

def Transfer.filled (t : Transfer) : Transfer :=
  let read := t.stream.read t.buffer (min t.count bufferSize)
  { t with buffer := read.1, stream := read.2 }

theorem Transfer.filled_buffer {t : Transfer} (hbuffer : t.buffer.length = bufferSize) :
    t.filled.buffer.length = bufferSize := by
  rw [← hbuffer]
  exact t.stream.read_fst_length (by rw [hbuffer]; exact Nat.min_le_right _ _)

theorem sendTurn_eq {t : Transfer} (hbuffer : t.buffer.length = bufferSize) :
    sendTurn t =
      if t.stream.good && 0 < t.count then t.filled.transmit (t.count - min t.count bufferSize)
      else .leave { t with verdict := some true } := by
  rw [sendTurn, Transfer.filled]
  by_cases hshort : t.count < bufferSize
  · rw [if_pos hshort, Nat.min_eq_left (Nat.le_of_lt hshort), Nat.sub_self]
  · rw [if_neg hshort, Nat.min_eq_right (Nat.le_of_not_lt hshort), hbuffer]

theorem Transfer.wire_eq {t : Transfer} (hgood : t.stream.good = true) (hcount : t.count ≠ 0) :
    t.wire = t.filled.buffer ++ { t.filled with
      count := t.count - min t.count bufferSize }.wire := by
  rw [Transfer.wire, if_pos hgood, FileServer.wire, if_neg hcount]
  show _ = _ ++ if decide (((t.stream.content.drop t.stream.pos).take (min t.count bufferSize)).length =
    min t.count bufferSize) = true then _ else []
  dsimp only
  congr 1
  by_cases hfull : ((t.stream.content.drop t.stream.pos).take (min t.count bufferSize)).length =
    min t.count bufferSize
  · rw [if_pos hfull, if_pos (decide_eq_true hfull)]
    exact congrArg (fun n => FileServer.wire t.stream.content (t.stream.pos + n) (t.count - min t.count bufferSize)
      t.filled.buffer) hfull.symm
  · rw [if_neg hfull, if_neg (by rw [decide_eq_true_eq]; exact hfull)]

/-- However little each call of `send` takes and wherever one fails, the socket takes the buffers in
turn, and all of them if the loop returns true. -/
theorem sendLoop_wire {t : Transfer} (hbuffer : t.buffer.length = bufferSize) {ok : Bool}
    (hverdict : (sendLoop.exec t).verdict = some ok) :
    ∃ p, (sendLoop.exec t).socket.sent = t.socket.sent ++ p ∧ p <+: t.wire ∧
    (ok = true → p = t.wire) := by
  revert hbuffer hverdict
  apply sendLoop.exec_induction (R := fun t t' => t.buffer.length = bufferSize →
    t'.verdict = some ok →
    ∃ p, t'.socket.sent = t.socket.sent ++ p ∧ p <+: t.wire ∧ (ok = true → p = t.wire))
  · intro t t' hturn hbuffer hverdict
    change sendTurn t = .leave t' at hturn
    rw [sendTurn_eq hbuffer] at hturn
    split_ifs at hturn with hgoing
    · -- a call of `send` has failed
      obtain ⟨hgood, hcount⟩ := Bool.and_eq_true_iff.mp hgoing
      rw [Transfer.transmit] at hturn
      split at hturn
      · cases hturn
        cases hverdict
      · next socket hsend =>
          cases hturn
          cases hverdict
          obtain ⟨p, hsent, hp⟩ := sendBuffer_false hsend
          refine ⟨p, hsent, ?_, fun h => by cases h⟩
          rw [Transfer.wire_eq hgood (Nat.ne_of_gt (of_decide_eq_true hcount))]
          exact hp.trans (List.prefix_append _ _)
      · cases hturn
    · cases hturn
      have hnothing : t.wire = [] := by
        rw [Bool.and_eq_true, not_and_or, decide_eq_true_eq] at hgoing
        rw [Transfer.wire]
        rcases hgoing with hbad | hzero
        · rw [if_neg hbad]
        · rw [Nat.eq_zero_of_not_pos hzero, wire_zero, ite_self]
      rw [hnothing]
      exact ⟨[], (List.append_nil _).symm, List.nil_prefix, fun _ => rfl⟩
  · intro t t' hturn ih hbuffer hverdict
    change sendTurn t = .again t' at hturn
    rw [sendTurn_eq hbuffer] at hturn
    split_ifs at hturn with hgoing
    obtain ⟨hgood, hcount⟩ := Bool.and_eq_true_iff.mp hgoing
    rw [Transfer.transmit] at hturn
    split at hturn
    · cases hturn
    · cases hturn
    · next socket hsend =>
        cases hturn
        obtain ⟨p, hsent, ⟨rest, hp⟩, hall⟩ := ih (Transfer.filled_buffer hbuffer) hverdict
        rw [Transfer.wire_eq hgood (Nat.ne_of_gt (of_decide_eq_true hcount))]
        refine ⟨t.filled.buffer ++ p, ?_, ⟨rest, ?_⟩, fun h => ?_⟩
        · rw [hsent, ← List.append_assoc]
          exact congrArg (· ++ p) (sendBuffer_true hsend)
        · rw [List.append_assoc, hp]
          rfl
        · rw [hall h]
          rfl

/-! ### A file on the connection -/

/-- What is asked for, followed by at most a buffer of zeros and of bytes that are asked for too. -/
structure Padded (asked bytes : List UInt8) : Prop where
  whole : bufferSize ∣ bytes.length
  padded : ∃ pad, bytes = asked ++ pad ∧ pad.length ≤ bufferSize ∧ ∀ b ∈ pad, b = 0 ∨ b ∈ asked

theorem requested_eq (content : List UInt8) (fict : Int) (size : Nat) :
    requested content fict size =
      (content.drop (if fict = 1 then min size content.length else 0)).take
        (if fict = 2 then min size content.length else content.length) := by
  rw [requested]
  by_cases hbeans : fict = 1
  · have hsize : fict ≠ 2 := by omega
    rw [if_pos hbeans, if_pos hbeans, if_neg hsize,
      List.take_of_length_le (by rw [List.length_drop]; omega)]
  · rw [if_neg hbeans, if_neg hbeans, List.drop_zero]
    split_ifs
    · rfl
    · rw [List.take_length]

/-- Whatever the calls of `send` return, what a client gets of a file are the first bytes of what it
has asked for and then of the padding, and all of them if `send_file` returns true. -/
theorem sendFile_wire (content : List UInt8) (fict : Int) (size : Nat) (results : List SendResult)
    (ok : Bool) (sent : List UInt8)
    (hsend : sendFile (some content) fict size results = some (ok, sent)) :
    ∃ bytes, Padded (requested content fict size) bytes ∧ sent <+: bytes ∧
    (ok = true → sent = bytes) := by
  rw [sendFile_eq] at hsend
  obtain ⟨verdict, hverdict, hpair⟩ := Option.map_eq_some_iff.mp hsend
  obtain ⟨rfl, rfl⟩ := Prod.mk.inj hpair
  rw [requested_eq]
  generalize (if fict = 1 then min size content.length else 0) = start at hverdict ⊢
  generalize (if fict = 2 then min size content.length else content.length) = count at hverdict ⊢
  have hbuffer : (enter content start count results).buffer.length = bufferSize :=
    List.length_replicate
  obtain ⟨p, hsent, hp, hall⟩ := sendLoop_wire hbuffer hverdict
  obtain ⟨pad, hwire, hwhole, hpad, hold⟩ := wire_padded content start count hbuffer
  have hstart : (sendLoop.exec (enter content start count results)).socket.sent = p := hsent
  rw [hstart]
  refine ⟨(enter content start count results).wire,
    ⟨hwhole, pad, hwire, hpad, fun b hb => ?_⟩, hp, hall⟩
  exact (hold b hb).imp_left List.eq_of_mem_replicate

/-! ### A connection -/

structure Connection where
  run : Bool
  turns : List (Visit × List UInt8)

namespace Connection

def start : Connection := ⟨true, []⟩

def step (s : Connection) (v : Visit) : Option Connection :=
  (loopTurn s.run v).map fun (run, bytes) => ⟨run, s.turns ++ [(v, bytes)]⟩

end Connection

/-- What a turn sends of the file that a text asks for: the first bytes of what is asked for and of
the padding behind it, or all of them. -/
structure Serves (v : Visit) (text file : List UInt8) : Prop where
  asked : (parseCommand text).command = ascii "get"
  sent : ∃ content ok padded, v.fileAt (parseCommand text).filename = some content ∧
    Padded (requested content (parseCommand text).fict (toSize (parseCommand text).sizeFict))
      padded ∧
    sendFile (some content) (parseCommand text).fict
      (toSize (parseCommand text).sizeFict) v.results =
      some (ok, file) ∧
    file <+: padded ∧ (ok = true → file = padded)

/-- What a turn sends: of the text just received, and behind that of the file that it asks for, if
any. -/
def Answers (v : Visit) (bytes : List UInt8) : Prop :=
  match v.recv with
  | .closed | .failed => bytes = []
  | .received received =>
      received = [] ∧ bytes = [] ∨
        ∃ echo file, v.echo = some echo ∧ bytes = echoOf (strBuffer received) echo ++ file ∧
          (file = [] ∨ Serves v (strBuffer received) file)

theorem process_serves {v : Visit} {text file : List UInt8} {result : Bool}
    (hasked : (parseCommand text).command = ascii "get")
    (h : process v (parseCommand text) = .returned result file) :
    file = [] ∨ Serves v text file := by
  rw [process] at h
  cases hpath : v.recvFilePath (parseCommand text).filename with
  | error e =>
      rw [hpath] at h
      cases h
  | ok filePath =>
      cases filePath with
      | none =>
          rw [hpath] at h
          cases h
          exact Or.inl rfl
      | some fileToSend =>
          rw [hpath] at h
          dsimp only at h
          have hfile : v.fileAt (parseCommand text).filename = v.disk.file fileToSend := by
            rw [Visit.fileAt, hpath]
          rw [← hfile] at h
          cases hcontent : v.fileAt (parseCommand text).filename with
          | none =>
              rw [hcontent] at h
              cases h
              exact Or.inl rfl
          | some content =>
              rw [hcontent] at h
              split at h
              · cases h
              · next ok sent hsend =>
                  cases h
                  obtain ⟨padded, hpadded, hprefix, hall⟩ :=
                    sendFile_wire content _ _ _ ok file hsend
                  exact Or.inr ⟨hasked, content, ok, padded, hcontent, hpadded, hsend,
                    hprefix, hall⟩

theorem loopTurn_answers {run run' : Bool} {v : Visit} {bytes : List UInt8}
    (h : loopTurn run v = some (run', bytes)) : Answers v bytes := by
  rw [loopTurn] at h
  rw [Answers]
  split_ifs at h
  cases hrecv : v.recv with
  | closed =>
      rw [hrecv] at h
      cases h
      rfl
  | failed =>
      rw [hrecv] at h
      cases h
      rfl
  | received received =>
      rw [hrecv] at h
      dsimp only at h ⊢
      generalize (if (parseCommand (strBuffer received)).command = ascii "exit" then
        false else run) = after at h
      by_cases hbytes : received.length > 0
      · rw [if_pos hbytes] at h
        cases hecho : v.echo with
        | none =>
            rw [hecho] at h
            cases h
        | some echo =>
            rw [hecho] at h
            dsimp only at h
            refine Or.inr ⟨echo, ?_⟩
            split_ifs at h with hget
            · cases hprocess : process v (parseCommand (strBuffer received)) with
              | returned result sent =>
                  rw [hprocess] at h
                  obtain ⟨_, rfl⟩ := Prod.mk.inj (Option.some.inj h)
                  exact ⟨sent, rfl, rfl, process_serves hget.1 hprocess⟩
              | threw e =>
                  rw [hprocess] at h
                  cases h
              | waits =>
                  rw [hprocess] at h
                  cases h
            · obtain ⟨_, rfl⟩ := Prod.mk.inj (Option.some.inj h)
              exact ⟨[], rfl, (List.append_nil _).symm, Or.inl rfl⟩
      · rw [if_neg hbytes] at h
        obtain ⟨_, rfl⟩ := Prod.mk.inj (Option.some.inj h)
        exact Or.inl ⟨List.length_eq_zero_iff.mp (by omega), rfl⟩

structure InTurn (s : Connection) : Prop where
  answers : ∀ turn ∈ s.turns, Answers turn.1 turn.2
  runs : s.run = true ↔ ∀ turn ∈ s.turns, ¬ Exits turn.1

theorem InTurn.step {s s' : Connection} {v : Visit} (h : InTurn s) (hstep : s.step v = some s') :
    InTurn s' := by
  obtain ⟨⟨run, bytes⟩, hturn, rfl⟩ := Option.map_eq_some_iff.mp hstep
  have hrun : s.run = true := by
    by_contra hleft
    rw [loopTurn, Bool.eq_false_of_not_eq_true hleft] at hturn
    cases hturn
  have hloop : runTurn true v = some run := by
    rw [runTurn, ← hrun, hturn]
    rfl
  refine ⟨List.forall_mem_append.mpr ⟨h.answers, List.forall_mem_singleton.mpr (loopTurn_answers hturn)⟩, ?_⟩
  show run = true ↔ ∀ turn ∈ s.turns ++ [(v, bytes)], ¬ Exits turn.1
  rw [List.forall_mem_append, List.forall_mem_singleton, and_iff_right (h.runs.mp hrun)]
  rcases runTurn_cases v with ⟨hexit, _, hleaves⟩ | ⟨hexit, _, hgoes⟩ | ⟨_, hstuck⟩
  · obtain rfl : false = run := Option.some.inj (hleaves.symm.trans hloop)
    exact iff_of_false Bool.false_ne_true (not_not_intro hexit)
  · obtain rfl : true = run := Option.some.inj (hgoes.symm.trans hloop)
    exact iff_of_true rfl hexit
  · cases hstuck.symm.trans hloop

/-- **A connection.** Whatever a client sends and however the calls of `recv` and `send` end, all
that the server puts on the connection is, turn by turn, the text it has just received and what that
asks for of a file, with padding that tells the client nothing new; and the turns go on until an
`exit`. -/
theorem connection_stream (visits : List Visit) :
    Runs.Always Connection.step
      (fun s => (∀ turn ∈ s.turns, Answers turn.1 turn.2) ∧
        (s.run = true ↔ ∀ turn ∈ s.turns, ¬ Exits turn.1))
      .start visits := by
  have hstart : InTurn .start :=
    ⟨fun _ h => absurd h List.not_mem_nil, iff_of_true rfl fun _ h => absurd h List.not_mem_nil⟩
  exact (Runs.always_of_step (fun _ _ _ h hstep => h.step hstep) hstart visits).mono
    fun _ h => ⟨h.answers, h.runs⟩

end NetworkHomework.FileServer
