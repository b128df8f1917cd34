import NetworkHomework.FileServer.Transceiver
import NetworkHomework.TcpEcho.Communicate

/-!
# `send_request`, `send_message` and `send_buffer`

The three loops around `send`, one result of `send` after the other. The two of hw3 try again after
any failure, and test for the end behind the addition; `send_buffer` of hw4 gives up on some
failures, and tests at the head. As long as `send` takes no more than it is offered, and something
if there is something left, all three keep `Outbound.Sound` (`sends_exact`).
-/

namespace NetworkHomework.SendLoops

open FileServer (needToRepeat)

/-! ### The loops -/

/-- A turn of `while (true)` in hw3. -/
def retryingStep (message : List UInt8) (s : Outbound UInt8) (result : SendResult) :
    Option (Outbound UInt8) :=
  if s.returned.isSome then none
  else
    match result with
    -- `EINTR` continues, and any other `errno` comes to the end of the body
    | .failed _ => some s
    | .accepted count =>
        if count = 0 then some (s.returning true)
        else
          let s := s.advance message count
          some (if s.pos ≥ message.length then s.returning true else s)

def sendRequestStep (request : List UInt8) :
    Outbound UInt8 → SendResult → Option (Outbound UInt8) :=
  retryingStep request

def sendMessageStep (message : List UInt8) :
    Outbound UInt8 → SendResult → Option (Outbound UInt8) :=
  retryingStep message

/-- `while (transmit_bytes_count != size)` and the `return true` behind it. -/
def bufferHead (buffer : List UInt8) (s : Outbound UInt8) : Outbound UInt8 :=
  if s.pos ≠ buffer.length then s else s.returning true

/-- A turn of the loop of `send_buffer`, up to the next test at the head. -/
def sendBufferStep (buffer : List UInt8) (s : Outbound UInt8) (result : SendResult) :
    Option (Outbound UInt8) :=
  if s.returned.isSome then none
  else
    match result with
    | .failed errno => some (if needToRepeat errno then bufferHead buffer s else s.returning false)
    | .accepted count => some (bufferHead buffer (s.advance buffer count))

/-- What a call of `send` may return: any failure, or a number of bytes that it was offered, and not
0 if it was offered any. -/
def Allowed (message : List UInt8) (s : Outbound UInt8) : SendResult → Prop
  | .failed _ => True
  | .accepted count => count ≤ message.length - s.pos ∧ (s.pos < message.length → 0 < count)

instance (message : List UInt8) (s : Outbound UInt8) :
    ∀ result, Decidable (Allowed message s result)
  | .failed _ => inferInstanceAs (Decidable True)
  | .accepted count =>
      inferInstanceAs (Decidable (count ≤ message.length - s.pos ∧ (s.pos < message.length → 0 < count)))

/-! ### hw3 -/

section Retrying

variable {message : List UInt8}

/-- The prefix invariant, and where the loop may have returned: at the end, if the message is not
empty. -/
structure Retrying (message : List UInt8) (s : Outbound UInt8) : Prop where
  sound : s.Sound message
  running : s.returned = none → s.pos < message.length ∨ message = []
  done : s.returned = some true → message ≠ [] → message.length ≤ s.pos

theorem retrying_start (message : List UInt8) : Retrying message .start where
  sound := Outbound.start_sound message
  running _ := by
    by_cases hmessage : message = []
    · exact Or.inr hmessage
    · exact Or.inl (List.length_pos_iff.mpr hmessage)
  done h := by cases h

theorem retryingStep_failed {s : Outbound UInt8} (hrunning : s.returned = none) (errno : Errno) :
    retryingStep message s (.failed errno) = some s := by
  rw [retryingStep.eq_def, hrunning]
  rfl

theorem retryingStep_accepted {s : Outbound UInt8} (hrunning : s.returned = none) (count : Nat) :
    retryingStep message s (.accepted count) =
      if count = 0 then some (s.returning true)
      else some (if s.pos + count ≥ message.length then (s.advance message count).returning true
        else s.advance message count) := by
  rw [retryingStep.eq_def, hrunning]
  rfl

theorem retryingStep_returning (s : Outbound UInt8) (verdict : Bool) (result : SendResult) :
    retryingStep message (s.returning verdict) result = none := by
  rw [retryingStep.eq_def]
  exact if_pos rfl

theorem retryingStep_cases {s s' : Outbound UInt8} {result : SendResult}
    (h : retryingStep message s result = some s') :
    s.returned = none ∧
      ((∃ errno, result = .failed errno ∧ s' = s) ∨
        (result = .accepted 0 ∧ s' = s.returning true) ∨
        ∃ count, 0 < count ∧ result = .accepted count ∧
          ((message.length ≤ s.pos + count ∧ s' = (s.advance message count).returning true) ∨
            (s.pos + count < message.length ∧ s' = s.advance message count))) := by
  cases hrunning : s.returned with
  | some verdict =>
      rw [retryingStep.eq_def, hrunning] at h
      cases h
  | none =>
      refine ⟨rfl, ?_⟩
      cases result with
      | failed errno =>
          rw [retryingStep_failed hrunning] at h
          exact Or.inl ⟨errno, rfl, (Option.some.inj h).symm⟩
      | accepted count =>
          rw [retryingStep_accepted hrunning] at h
          split_ifs at h with hzero hend
          · exact Or.inr (Or.inl ⟨by rw [hzero], (Option.some.inj h).symm⟩)
          · exact Or.inr (Or.inr ⟨count, by omega, rfl, Or.inl ⟨hend, (Option.some.inj h).symm⟩⟩)
          · have hmore : s.pos + count < message.length := Nat.lt_of_not_le hend
            exact Or.inr (Or.inr ⟨count, by omega, rfl, Or.inr ⟨hmore, (Option.some.inj h).symm⟩⟩)

theorem Retrying.step {s s' : Outbound UInt8} {result : SendResult} (hs : Retrying message s)
    (hallowed : Allowed message s result) (h : retryingStep message s result = some s') :
    Retrying message s' := by
  obtain ⟨hrunning, hturn⟩ := retryingStep_cases h
  rcases hturn with ⟨_, _, rfl⟩ | ⟨rfl, rfl⟩ | ⟨count, hpos, rfl, hturn⟩
  · exact hs
  · -- nothing is taken only where nothing is left
    have hempty : message = [] := by
      rcases hs.running hrunning with hmore | hempty
      · exact absurd (hallowed.2 hmore) (Nat.lt_irrefl 0)
      · exact hempty
    exact ⟨hs.sound.returning true, (fun hnone => by cases hnone), fun _ hne => absurd hempty hne⟩
  · have hsound := hs.sound.advance hallowed.1
    rcases hturn with ⟨hend, rfl⟩ | ⟨hmore, rfl⟩
    · exact ⟨hsound.returning true, (fun hnone => by cases hnone), fun _ _ => hend⟩
    · exact ⟨hsound, fun _ => Or.inl hmore, fun htrue =>
        absurd htrue (Outbound.not_returned hrunning true)⟩

theorem retrying_always {results : List SendResult}
    (hresults : Runs.Along (retryingStep message) (Allowed message) .start results) :
    Runs.Always (retryingStep message) (Retrying message) .start results :=
  Runs.always_of_along (fun _ _ _ hs hallowed h => hs.step hallowed h)
    (retrying_start message) hresults

end Retrying

/-! ### hw4 -/

section Buffer

variable {buffer : List UInt8}

/-- The prefix invariant, and where `send_buffer` may have returned: true at the end of the buffer,
and false before it. -/
structure Buffering (buffer : List UInt8) (s : Outbound UInt8) : Prop where
  sound : s.Sound buffer
  running : s.returned = none → s.pos < buffer.length
  done : s.returned = some true → buffer.length ≤ s.pos
  failed : s.returned = some false → s.pos < buffer.length

theorem buffering_head {s : Outbound UInt8} (hs : s.Sound buffer) (hrunning : s.returned = none) :
    Buffering buffer (bufferHead buffer s) := by
  rw [bufferHead]
  by_cases hmore : s.pos ≠ buffer.length
  · have hinside := hs.inside
    rw [if_pos hmore]
    refine ⟨hs, fun _ => by omega, fun htrue => ?_, fun hfalse => ?_⟩
    · exact absurd htrue (Outbound.not_returned hrunning true)
    · exact absurd hfalse (Outbound.not_returned hrunning false)
  · rw [if_neg hmore]
    refine ⟨hs.returning true, fun hnone => ?_, fun _ => ?_, fun hfalse => ?_⟩
    · cases hnone
    · exact Nat.le_of_eq (not_not.mp hmore).symm
    · cases hfalse

theorem sendBufferStep_failed {s : Outbound UInt8} (hrunning : s.returned = none) (errno : Errno) :
    sendBufferStep buffer s (.failed errno) =
      some (if needToRepeat errno then bufferHead buffer s else s.returning false) := by
  rw [sendBufferStep.eq_def, hrunning]
  rfl

theorem sendBufferStep_accepted {s : Outbound UInt8} (hrunning : s.returned = none) (count : Nat) :
    sendBufferStep buffer s (.accepted count) =
      some (bufferHead buffer (s.advance buffer count)) := by
  rw [sendBufferStep.eq_def, hrunning]
  rfl

theorem sendBufferStep_returning (s : Outbound UInt8) (verdict : Bool) (result : SendResult) :
    sendBufferStep buffer (s.returning verdict) result = none := by
  rw [sendBufferStep.eq_def]
  exact if_pos rfl

theorem sendBufferStep_cases {s s' : Outbound UInt8} {result : SendResult}
    (h : sendBufferStep buffer s result = some s') :
    s.returned = none ∧
      ((∃ errno, result = .failed errno ∧
          ((needToRepeat errno = true ∧ s' = bufferHead buffer s) ∨
            (needToRepeat errno = false ∧ s' = s.returning false))) ∨
        ∃ count, result = .accepted count ∧ s' = bufferHead buffer (s.advance buffer count)) := by
  cases hrunning : s.returned with
  | some verdict =>
      rw [sendBufferStep.eq_def, hrunning] at h
      cases h
  | none =>
      refine ⟨rfl, ?_⟩
      cases result with
      | accepted count =>
          rw [sendBufferStep_accepted hrunning] at h
          exact Or.inr ⟨count, rfl, (Option.some.inj h).symm⟩
      | failed errno =>
          rw [sendBufferStep_failed hrunning] at h
          refine Or.inl ⟨errno, rfl, ?_⟩
          cases hrepeat : needToRepeat errno with
          | true =>
              rw [if_pos hrepeat] at h
              exact Or.inl ⟨rfl, (Option.some.inj h).symm⟩
          | false =>
              rw [if_neg (by rw [hrepeat]; exact Bool.false_ne_true)] at h
              exact Or.inr ⟨rfl, (Option.some.inj h).symm⟩

theorem Buffering.step {s s' : Outbound UInt8} {result : SendResult} (hs : Buffering buffer s)
    (hallowed : Allowed buffer s result) (h : sendBufferStep buffer s result = some s') :
    Buffering buffer s' := by
  obtain ⟨hreturned, hturn⟩ := sendBufferStep_cases h
  rcases hturn with ⟨_, _, ⟨_, rfl⟩ | ⟨_, rfl⟩⟩ | ⟨count, rfl, rfl⟩
  · exact buffering_head hs.sound hreturned
  · refine ⟨hs.sound.returning false, fun hnone => ?_, fun htrue => ?_, fun _ =>
      hs.running hreturned⟩
    · cases hnone
    · cases htrue
  · exact buffering_head (hs.sound.advance hallowed.1) hreturned

theorem buffering_always {results : List SendResult}
    (hresults : Runs.Along (sendBufferStep buffer) (Allowed buffer) (bufferHead buffer .start) results) :
    Runs.Always (sendBufferStep buffer) (Buffering buffer) (bufferHead buffer .start) results :=
  Runs.always_of_along (fun _ _ _ hs hallowed h => hs.step hallowed h)
    (buffering_head (Outbound.start_sound buffer) rfl) hresults

end Buffer

/-! ### All three -/

/-- Before a message has been sent, and in every state on the way, what has gone is the part of it
that has been counted; and a call that returns true has sent all of it, if there was anything to
send. -/
def SendsExactly (step : Outbound UInt8 → SendResult → Option (Outbound UInt8))
    (start : Outbound UInt8) (message : List UInt8) (results : List SendResult) : Prop :=
  Runs.Always step (Outbound.Sound message) start results ∧
    (message ≠ [] → (Runs.final step start results).returned = some true →
      (Runs.final step start results).sent = message)

/-- **The send loops.** Whatever `send` returns within what it may, the three loops send the message
in order and once, never count more than it has, and `send_buffer` returns false only before its
end. -/
theorem sends_exact (message : List UInt8) (results : List SendResult) :
    (Runs.Along (sendRequestStep message) (Allowed message) .start results →
      SendsExactly (sendRequestStep message) .start message results) ∧
      (Runs.Along (sendMessageStep message) (Allowed message) .start results →
        SendsExactly (sendMessageStep message) .start message results) ∧
      (Runs.Along (sendBufferStep message) (Allowed message) (bufferHead message .start) results →
        SendsExactly (sendBufferStep message) (bufferHead message .start) message results ∧
          ((Runs.final (sendBufferStep message) (bufferHead message .start) results).returned =
              some false →
            (Runs.final (sendBufferStep message) (bufferHead message .start) results).sent <+:
              message ∧
              (Runs.final (sendBufferStep message) (bufferHead message .start) results).sent ≠
                message)) := by
  have hretrying : Runs.Along (retryingStep message) (Allowed message) .start results →
      SendsExactly (retryingStep message) .start message results := by
    intro hresults
    have halways := retrying_always hresults
    refine ⟨halways.mono fun s hs => hs.sound, fun hmessage htrue => ?_⟩
    exact halways.final.sound.whole (halways.final.done htrue hmessage)
  refine ⟨hretrying, hretrying, fun hresults => ?_⟩
  have halways := buffering_always hresults
  refine ⟨⟨halways.mono fun s hs => hs.sound, fun _ htrue => ?_⟩, fun hfalse => ?_⟩
  · exact halways.final.sound.whole (halways.final.done htrue)
  · exact halways.final.sound.proper (halways.final.failed hfalse)

/-- Two bytes in two parts, with an interrupted call between them; and one byte of two before a
failure. -/
theorem sends_exact_two_bytes :
    SendsExactly (sendRequestStep [0x68, 0x69]) .start [0x68, 0x69]
        [.accepted 1, .failed .eintr, .accepted 1] ∧
      SendsExactly (sendMessageStep [0x68, 0x69]) .start [0x68, 0x69]
        [.accepted 1, .failed .other, .accepted 1] ∧
      SendsExactly (sendBufferStep [0x68, 0x69]) (bufferHead [0x68, 0x69] .start) [0x68, 0x69]
        [.failed .eagain, .accepted 1, .failed .other] := by
  refine ⟨?_, ?_, ?_⟩
  · exact (sends_exact [0x68, 0x69] [.accepted 1, .failed .eintr, .accepted 1]).1 (by decide)
  · exact (sends_exact [0x68, 0x69] [.accepted 1, .failed .other, .accepted 1]).2.1 (by decide)
  · exact ((sends_exact [0x68, 0x69] [.failed .eagain, .accepted 1, .failed .other]).2.2 (by decide)).1

/-! ### As their callers see them -/

theorem final_cons {step : Outbound UInt8 → SendResult → Option (Outbound UInt8)}
    {s s' : Outbound UInt8} {result : SendResult} (hstep : step s result = some s')
    (results : List SendResult) :
    Runs.final step s (result :: results) = Runs.final step s' results := by
  simp only [Runs.final, hstep]

theorem final_returned {step : Outbound UInt8 → SendResult → Option (Outbound UInt8)}
    {s : Outbound UInt8} (hstep : ∀ result, step s result = none) (results : List SendResult) :
    Runs.final step s results = s := by
  cases results with
  | nil => rfl
  | cons result results => simp only [Runs.final, hstep]

private theorem sendRest_run {message : List UInt8} {s : Outbound UInt8} (hs : s.Sound message)
    (hreturned : s.returned = none) {results : List SendResult}
    (hresults : Runs.Along (retryingStep message) (Allowed message) s results) :
    match (Runs.final (retryingStep message) s results).returned with
    | none =>
        TcpEcho.sendRest message s.pos s.sent results =
          .waiting (Runs.final (retryingStep message) s results).sent
    | some _ =>
        ∃ rest, TcpEcho.sendRest message s.pos s.sent results =
          .returned (Runs.final (retryingStep message) s results).sent rest := by
  induction results generalizing s with
  | nil =>
      rw [Runs.final, hreturned]
      rfl
  | cons result results ih =>
      cases result with
      | failed errno =>
          have hstep := @retryingStep_failed message s hreturned errno
          rw [final_cons hstep, TcpEcho.sendRest]
          exact ih hs hreturned ((Runs.along_cons_iff hstep).mp hresults).2
      | accepted count =>
          have hstep := @retryingStep_accepted message s hreturned count
          have hall : count ≤ message.length - s.pos := by
            split_ifs at hstep <;> exact ((Runs.along_cons_iff hstep).mp hresults).1.1
          rw [TcpEcho.sendRest, Nat.min_eq_left hall]
          split_ifs at hstep ⊢ with hzero hend
          · rw [final_cons hstep, final_returned (retryingStep_returning _ true)]
            refine ⟨results, ?_⟩
            rw [hzero, List.take_zero, List.append_nil]
            rfl
          · rw [final_cons hstep, final_returned (retryingStep_returning _ true)]
            exact ⟨results, rfl⟩
          · rw [final_cons hstep]
            exact ih (hs.advance hall) hreturned ((Runs.along_cons_iff hstep).mp hresults).2

theorem sendMessage_run {message : List UInt8} {results : List SendResult}
    (hresults : Runs.Along (sendMessageStep message) (Allowed message) .start results) :
    match (Runs.final (sendMessageStep message) .start results).returned with
    | none =>
        TcpEcho.sendMessage message results =
          .waiting (Runs.final (sendMessageStep message) .start results).sent
    | some _ =>
        ∃ rest, TcpEcho.sendMessage message results =
          .returned (Runs.final (sendMessageStep message) .start results).sent rest :=
  sendRest_run (Outbound.start_sound message) rfl hresults

private theorem sendRest_buffer_run {buffer : List UInt8} {s : Outbound UInt8} (hs : s.Sound buffer)
    (hreturned : s.returned = none) {results : List SendResult}
    (hresults : Runs.Along (sendBufferStep buffer) (Allowed buffer) (bufferHead buffer s) results) :
    (FileServer.sendRest buffer s.pos s.sent results).map (fun r => (r.1, r.2.sent)) =
      (Runs.final (sendBufferStep buffer) (bufferHead buffer s) results).returned.map
        (·, (Runs.final (sendBufferStep buffer) (bufferHead buffer s) results).sent) := by
  induction results generalizing s with
  | nil =>
      rw [FileServer.sendRest, Runs.final, bufferHead]
      by_cases hend : s.pos = buffer.length
      · rw [if_pos hend, if_neg (not_not.mpr hend)]
        rfl
      · rw [if_neg hend, if_pos hend, hreturned]
        rfl
  | cons result results ih =>
      by_cases hend : s.pos = buffer.length
      · have hhead : bufferHead buffer s = s.returning true := if_neg (not_not.mpr hend)
        rw [hhead, final_returned (sendBufferStep_returning s true)]
        cases result <;> rw [FileServer.sendRest, if_pos hend] <;> rfl
      · have hhead : bufferHead buffer s = s := if_pos hend
        rw [hhead] at hresults ⊢
        cases result with
        | failed errno =>
            have hstep := @sendBufferStep_failed buffer s hreturned errno
            rw [FileServer.sendRest, if_neg hend]
            split_ifs at hstep ⊢ with hrepeat
            · rw [final_cons hstep]
              exact ih hs hreturned ((Runs.along_cons_iff hstep).mp hresults).2
            · rw [final_cons hstep, final_returned (sendBufferStep_returning s false)]
              rfl
        | accepted count =>
            have hstep := @sendBufferStep_accepted buffer s hreturned count
            obtain ⟨hallowed, hrest⟩ := (Runs.along_cons_iff hstep).mp hresults
            rw [FileServer.sendRest, if_neg hend, Nat.min_eq_left hallowed.1, final_cons hstep]
            exact ih (hs.advance hallowed.1) hreturned hrest

theorem sendBuffer_run {buffer : List UInt8} {results : List SendResult}
    (hresults : Runs.Along (sendBufferStep buffer) (Allowed buffer) (bufferHead buffer .start) results) :
    (FileServer.sendBuffer ⟨[], results⟩ buffer).map (fun r => (r.1, r.2.sent)) =
      (Runs.final (sendBufferStep buffer) (bufferHead buffer .start) results).returned.map
        (·, (Runs.final (sendBufferStep buffer) (bufferHead buffer .start) results).sent) :=
  sendRest_buffer_run (Outbound.start_sound buffer) rfl hresults

end NetworkHomework.SendLoops
