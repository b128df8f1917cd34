import NetworkHomework.SendLoops.Raw
import NetworkHomework.Text.Trim

/-!
# The TCP client and its server

The client sends the text of a line and shows what has come back by then; the server sends back what
it receives; between them lie two streams of bytes that either side may find cut anywhere. What is
under way from one end to the other, `System.stream`, changes in two ways only: it grows by the text
of a line, and it loses what stands behind a zero in a chunk. So what is shown has been sent, in its
order and once, and it is the echo of what has been sent if that has no zero (`shown_echo`). And as
long as the server is there, everything that is under way can arrive (`echo_drains`).
-/

namespace NetworkHomework.TcpEcho

open SendLoops Text

/-! ### The client's text -/

/-- What the client sends for a line; `none` if `trim` throws. A text that is too long is cut, and
ends with a line end and a terminator. -/
def requestText (line : List UInt8) : Option (List UInt8) := do
  let text ← trim line
  some (if text.length ≥ maxMessageLength then
    text.take (maxMessageLength - 3) ++ [0x0d, 0x0a, 0x00] else text)

def textOf (line : List UInt8) : List UInt8 :=
  if (stripped line).length ≥ maxMessageLength then
    (stripped line).take (maxMessageLength - 3) ++ [0x0d, 0x0a, 0x00]
  else stripped line

theorem requestText_eq (line : List UInt8) : requestText line = some (textOf line) := by
  rw [requestText, trim_eq]
  rfl

/-! ### A message on its way -/

/-- A call of `send_request` or `send_message` that has not returned. -/
structure Call where
  message : List UInt8
  progress : Outbound UInt8

namespace Call

def begin (message : List UInt8) : Call := ⟨message, .start⟩

/-- One more result of `send`: the call, if it goes on, and the bytes that have been taken. -/
def send (step : List UInt8 → Outbound UInt8 → SendResult → Option (Outbound UInt8)) (c : Call)
    (result : SendResult) :
    Option (Option Call × List UInt8) :=
  if Allowed c.message c.progress result then
    (step c.message c.progress result).map fun progress =>
      (if progress.returned.isSome then none else some { c with progress := progress },
        progress.sent.drop c.progress.sent.length)
  else none

structure Sound (c : Call) : Prop where
  retrying : Retrying c.message c.progress
  running : c.progress.returned = none

theorem begin_sound (message : List UInt8) : (begin message).Sound := ⟨retrying_start message, rfl⟩

end Call

/-- What a call has still to send. -/
def left : Option Call → List UInt8
  | none => []
  | some c => c.message.drop c.progress.pos

theorem Call.Sound.send {c : Call} (h : c.Sound) {result : SendResult} {next : Option Call}
    {bytes : List UInt8} (hsend : c.send retryingStep result = some (next, bytes)) :
    left (some c) = bytes ++ left next ∧ ∀ c', next = some c' → c'.Sound := by
  rw [Call.send] at hsend
  split_ifs at hsend with hallowed
  obtain ⟨progress, hstep, heq⟩ := Option.map_eq_some_iff.mp hsend
  have hafter := h.retrying.step hallowed hstep
  obtain ⟨_, hturn⟩ := retryingStep_cases hstep
  rcases hturn with ⟨_, _, rfl⟩ | ⟨rfl, rfl⟩ | ⟨count, hpos, rfl, ⟨hend, rfl⟩ | ⟨hmore, rfl⟩⟩
  · rw [h.running, List.drop_length] at heq
    cases heq
    exact ⟨rfl, fun c' hc' => Option.some.inj hc' ▸ h⟩
  · -- `send` takes nothing only if there is nothing left
    have hall : c.message.length ≤ c.progress.pos := by
      by_contra hlt
      exact absurd (hallowed.2 (Nat.lt_of_not_le hlt)) (Nat.lt_irrefl 0)
    cases heq
    refine ⟨?_, fun c' hc' => by cases hc'⟩
    show c.message.drop c.progress.pos = c.progress.sent.drop c.progress.sent.length ++ []
    rw [List.drop_eq_nil_of_le hall, List.drop_length]
    rfl
  · cases heq
    refine ⟨?_, fun c' hc' => by cases hc'⟩
    show c.message.drop c.progress.pos =
      (c.progress.sent ++ (c.message.drop c.progress.pos).take count).drop
        c.progress.sent.length ++ []
    rw [List.drop_left, List.append_nil, List.take_of_length_le]
    rw [List.length_drop]
    omega
  · have hrunning : (c.progress.advance c.message count).returned = none := h.running
    rw [hrunning] at heq
    cases heq
    refine ⟨?_, fun c' hc' => ?_⟩
    · show c.message.drop c.progress.pos =
        (c.progress.sent ++ (c.message.drop c.progress.pos).take count).drop
          c.progress.sent.length ++
          c.message.drop (c.progress.pos + count)
      rw [List.drop_left, ← List.drop_drop, List.take_append_drop]
    · obtain rfl := Option.some.inj hc'
      exact ⟨hafter, hrunning⟩

/-! ### The system -/

/-- The lines that the client has read, its call of `send_request`, whether it is in `recv_answer`,
and what it has shown. -/
structure Client where
  lines : List (List UInt8)
  request : Option Call
  reading : Bool
  shown : List UInt8

/-- The server in `communicate`: its buffer, its call of `send_message`, and whether `communicate`
has not returned, which ends the program. -/
structure Serving where
  buffer : Buffer
  reply : Option Call
  run : Bool

/-- The two programs, and what is under way in the two directions. -/
structure System where
  client : Client
  server : Serving
  toServer : List UInt8
  toClient : List UInt8

/-- The client reads a line; a call of `send` or `recv` returns, on either side. -/
inductive Event where
  | enter (line : List UInt8)
  | request (result : SendResult)
  | answer (chunk : Chunk)
  | answerFails (errno : Errno)
  | answerEnds
  | receive (chunk : Chunk)
  | receiveFails (errno : Errno)
  | receiveEnds
  | reply (result : SendResult)

namespace System

def start (buffer : Buffer) : System := ⟨⟨[], none, false, []⟩, ⟨buffer, none, true⟩, [], []⟩

/-- `none` where the event cannot happen. -/
def step (s : System) : Event → Option System
  | .enter line =>
      if s.client.request.isNone ∧ ¬ s.client.reading then
        (requestText line).map fun text =>
          { s with client := { s.client with lines := s.client.lines ++ [line], request := some (.begin text) } }
      else none
  | .request result =>
      s.client.request.bind fun c =>
        (c.send sendRequestStep result).map fun (next, bytes) =>
          { s with
            client := { s.client with request := next, reading := next.isNone }
            toServer := s.toServer ++ bytes }
  | .answer chunk =>
      if s.client.reading ∧ chunk.bytes <+: s.toClient then
        some { s with
          client := { s.client with shown := s.client.shown ++ chunk.bytes }
          toClient := s.toClient.drop chunk.bytes.length }
      else none
  | .answerFails errno =>
      if s.client.reading then
        some (if errno = .eintr then s else { s with client := { s.client with reading := false } })
      else none
  | .answerEnds =>
      if s.client.reading then
        some { s with client := { s.client with reading := false } } else none
  | .receive chunk =>
      if s.server.run ∧ s.server.reply.isNone ∧ chunk.bytes <+: s.toServer then
        (s.server.buffer.message chunk).map fun (buffer, message) =>
          { s with
            server := { s.server with buffer := buffer, reply := some (.begin message) }
            toServer := s.toServer.drop chunk.bytes.length }
      else none
  | .receiveFails errno =>
      if s.server.run ∧ s.server.reply.isNone then
        some (if errno = .eintr then s else { s with server := { s.server with run := false } })
      else none
  | .receiveEnds =>
      if s.server.run ∧ s.server.reply.isNone then
        some { s with server := { s.server with run := false } } else none
  | .reply result =>
      s.server.reply.bind fun c =>
        (c.send sendMessageStep result).map fun (next, bytes) =>
          { s with server := { s.server with reply := next }, toClient := s.toClient ++ bytes }

def sent (s : System) : List UInt8 := s.client.lines.flatMap textOf

/-- Everything on its way from the client's input to its output, the oldest first. -/
def stream (s : System) : List UInt8 :=
  s.client.shown ++ s.toClient ++ left s.server.reply ++ s.toServer ++ left s.client.request

def Drained (s : System) : Prop :=
  s.toClient = [] ∧ s.server.reply = none ∧ s.toServer = [] ∧ s.client.request = none

end System

/-! ### What an event does -/

structure Calls (s : System) : Prop where
  request : ∀ c, s.client.request = some c → c.Sound
  reply : ∀ c, s.server.reply = some c → c.Sound

/-- What an event does to the stream. -/
inductive Flows (s s' : System) : Prop where
  | still (hlines : s'.client.lines = s.client.lines) (hstream : s'.stream = s.stream)
  | grows (line : List UInt8) (hlines : s'.client.lines = s.client.lines ++ [line])
      (hstream : s'.stream = s.stream ++ textOf line)
  | cut (front back : List UInt8) (chunk : Chunk) (hlines : s'.client.lines = s.client.lines)
      (hbefore : s.stream = front ++ chunk.bytes ++ back)
        (hstream : s'.stream = front ++ chunk.text ++ back)

theorem prefix_drop {p s : List UInt8} (h : p <+: s) : s = p ++ s.drop p.length := by
  obtain ⟨t, rfl⟩ := h
  rw [List.drop_left]

theorem step_flows {s s' : System} {e : Event} (h : Calls s) (hstep : s.step e = some s') :
    Calls s' ∧ Flows s s' := by
  cases e with
  | enter line =>
      rw [System.step] at hstep
      split_ifs at hstep with hready
      rw [requestText_eq] at hstep
      cases hstep
      have hnone : s.client.request = none := Option.isNone_iff_eq_none.mp hready.1
      refine ⟨⟨fun c hc => Option.some.inj hc ▸ Call.begin_sound _, h.reply⟩, .grows line rfl ?_⟩
      show _ ++ s.toServer ++ textOf line = _ ++ s.toServer ++ left s.client.request ++ textOf line
      rw [hnone, left, List.append_nil]
  | request result =>
      obtain ⟨c, hc, hmap⟩ := Option.bind_eq_some_iff.mp hstep
      obtain ⟨⟨next, bytes⟩, hsend, rfl⟩ := Option.map_eq_some_iff.mp hmap
      obtain ⟨hleft, hnext⟩ := (h.request c hc).send hsend
      refine ⟨⟨hnext, h.reply⟩, .still rfl ?_⟩
      show s.client.shown ++ s.toClient ++ left s.server.reply ++ (s.toServer ++ bytes) ++
        left next = s.stream
      rw [System.stream, hc, hleft]
      simp only [List.append_assoc]
  | answer chunk =>
      rw [System.step] at hstep
      split_ifs at hstep with hready
      cases hstep
      refine ⟨⟨h.request, h.reply⟩, .still rfl ?_⟩
      show s.client.shown ++ chunk.bytes ++ s.toClient.drop chunk.bytes.length ++ _ ++ _ ++ _ =
        s.client.shown ++ s.toClient ++ _ ++ _ ++ _
      rw [List.append_assoc s.client.shown, ← prefix_drop hready.2]
  | answerFails errno =>
      rw [System.step] at hstep
      split_ifs at hstep with hreading heintr
      · cases hstep
        exact ⟨h, .still rfl rfl⟩
      · cases hstep
        exact ⟨⟨h.request, h.reply⟩, .still rfl rfl⟩
  | answerEnds =>
      rw [System.step] at hstep
      split_ifs at hstep
      cases hstep
      exact ⟨⟨h.request, h.reply⟩, .still rfl rfl⟩
  | receive chunk =>
      rw [System.step] at hstep
      split_ifs at hstep with hready
      obtain ⟨hrun, hidle, hchunk⟩ := hready
      obtain ⟨buffer', hmessage⟩ := s.server.buffer.message_eq chunk
      rw [hmessage] at hstep
      cases hstep
      have hnone : s.server.reply = none := Option.isNone_iff_eq_none.mp hidle
      refine ⟨⟨h.request, fun c hc => Option.some.inj hc ▸ Call.begin_sound _⟩, ?_⟩
      refine .cut (s.client.shown ++ s.toClient)
        (s.toServer.drop chunk.bytes.length ++ left s.client.request) chunk
        rfl ?_ ?_
      · rw [System.stream, hnone, left, List.append_nil, List.append_assoc _ chunk.bytes,
          ← List.append_assoc chunk.bytes,
          ← prefix_drop hchunk, ← List.append_assoc]
      · show s.client.shown ++ s.toClient ++ chunk.text ++ s.toServer.drop chunk.bytes.length ++
          left s.client.request = _
        rw [List.append_assoc _ _ (left s.client.request)]
  | receiveFails errno =>
      rw [System.step] at hstep
      split_ifs at hstep with hready heintr
      · cases hstep
        exact ⟨h, .still rfl rfl⟩
      · cases hstep
        exact ⟨⟨h.request, h.reply⟩, .still rfl rfl⟩
  | receiveEnds =>
      rw [System.step] at hstep
      split_ifs at hstep
      cases hstep
      exact ⟨⟨h.request, h.reply⟩, .still rfl rfl⟩
  | reply result =>
      obtain ⟨c, hc, hmap⟩ := Option.bind_eq_some_iff.mp hstep
      obtain ⟨⟨next, bytes⟩, hsend, rfl⟩ := Option.map_eq_some_iff.mp hmap
      obtain ⟨hleft, hnext⟩ := (h.reply c hc).send hsend
      refine ⟨⟨h.request, hnext⟩, .still rfl ?_⟩
      show s.client.shown ++ (s.toClient ++ bytes) ++ left next ++ s.toServer ++
        left s.client.request = s.stream
      rw [System.stream, hc, hleft]
      simp only [List.append_assoc]

/-! ### Runs -/

/-- What is under way is what is sent less what has been cut off, and nothing less if there is no
zero in it. -/
structure Carried (s : System) : Prop where
  calls : Calls s
  sublist : s.stream.Sublist s.sent
  whole : (0 : UInt8) ∉ s.sent → s.stream = s.sent

theorem carried_start (buffer : Buffer) : Carried (System.start buffer) where
  calls :=
    ⟨fun _ h => (Option.some_ne_none _ h.symm).elim, fun _ h => (Option.some_ne_none _ h.symm).elim⟩
  sublist := List.Sublist.refl []
  whole _ := rfl

theorem Carried.step {s s' : System} {e : Event} (h : Carried s) (hstep : s.step e = some s') :
    Carried s' := by
  obtain ⟨hcalls, hflows⟩ := step_flows h.calls hstep
  cases hflows with
  | still hlines hstream =>
      refine ⟨hcalls, ?_, ?_⟩
      · rw [hstream, System.sent, hlines]
        exact h.sublist
      · rw [hstream, System.sent, hlines]
        exact h.whole
  | grows line hlines hstream =>
      have hsent : s'.sent = s.sent ++ textOf line := by
        rw [System.sent, hlines, List.flatMap_append, List.flatMap_singleton]
        rfl
      refine ⟨hcalls, ?_, fun hzero => ?_⟩
      · rw [hstream, hsent]
        exact h.sublist.append_right _
      · rw [hsent] at hzero ⊢
        rw [hstream, h.whole fun hmem => hzero (List.mem_append_left _ hmem)]
  | cut front back chunk hlines hbefore hstream =>
      have hsent : s'.sent = s.sent := by rw [System.sent, hlines, System.sent]
      refine ⟨hcalls, ?_, fun hzero => ?_⟩
      · rw [hstream, hsent]
        refine List.Sublist.trans ?_ (hbefore ▸ h.sublist)
        exact (chunk.text_isPrefix.sublist.append_left front).append_right back
      · rw [hsent] at hzero ⊢
        have hall := hbefore.symm.trans (h.whole hzero)
        have htext : chunk.text = chunk.bytes := by
          rw [chunk.text_eq_iff]
          intro hmem
          apply hzero
          rw [← hall]
          exact List.mem_append_left _ (List.mem_append_right _ hmem)
        rw [hstream, htext]
        exact hall

theorem System.shown_prefix (s : System) : s.client.shown <+: s.stream := by
  refine ⟨s.toClient ++ left s.server.reply ++ s.toServer ++ left s.client.request, ?_⟩
  simp only [System.stream, List.append_assoc]

theorem Carried.shown_drained {s : System} (h : Carried s) (hzero : (0 : UInt8) ∉ s.sent)
    (hdrained : s.Drained) :
    s.client.shown = s.sent := by
  obtain ⟨hclient, hreply, hserver, hrequest⟩ := hdrained
  rw [← h.whole hzero, System.stream, hclient, hreply, hserver, hrequest]
  simp only [left, List.append_nil]

/-- **The echo.** However the calls on the two sides follow each other, fail and cut the streams,
what the client has shown is part of what it has sent, in the same order. If that has no zero, what
is shown is a beginning of it, and all of it when nothing is under way. -/
theorem shown_echo (buffer : Buffer) (events : List Event) :
    Runs.Always System.step
      (fun s => s.client.shown.Sublist s.sent ∧
        ((0 : UInt8) ∉ s.sent → s.client.shown <+: s.sent ∧ (s.Drained → s.client.shown = s.sent)))
      (System.start buffer) events := by
  refine (Runs.always_of_step (fun _ _ _ h hstep => h.step hstep) (carried_start buffer) events).mono fun s h => ?_
  refine ⟨s.shown_prefix.sublist.trans h.sublist, fun hzero => ⟨?_, h.shown_drained hzero⟩⟩
  rw [← h.whole hzero]
  exact s.shown_prefix

/-! ### Nothing gets stuck -/

theorem Call.Sound.finish {c : Call} (h : c.Sound) :
    ∃ result, c.send retryingStep result = some (none, left (some c)) := by
  have hinside := h.retrying.sound.inside
  have hallowed : Allowed c.message c.progress (.accepted (c.message.length - c.progress.pos)) :=
    ⟨Nat.le_refl _, Nat.sub_pos_of_lt⟩
  refine ⟨.accepted (c.message.length - c.progress.pos), ?_⟩
  rw [Call.send, if_pos hallowed, retryingStep_accepted h.running]
  by_cases hzero : c.message.length - c.progress.pos = 0
  · rw [if_pos hzero]
    show some (none, c.progress.sent.drop c.progress.sent.length) =
      some (none, c.message.drop c.progress.pos)
    rw [List.drop_length, List.drop_eq_nil_of_le (by omega)]
  · rw [if_neg hzero, if_pos (by omega)]
    show some (none, (c.progress.sent ++ (c.message.drop c.progress.pos).take _).drop c.progress.sent.length) =
      some (none, c.message.drop c.progress.pos)
    rw [List.drop_left, List.take_of_length_le (by rw [List.length_drop])]

theorem finish_request {s : System} (h : Calls s) :
    ∃ t, Runs.Reaches System.step s t ∧ t.client.request = none ∧ t.server = s.server ∧
    t.sent = s.sent := by
  cases hrequest : s.client.request with
  | none => exact ⟨s, .refl s, hrequest, rfl, rfl⟩
  | some c =>
      obtain ⟨result, hsend⟩ := (h.request c hrequest).finish
      have hstep : s.step (.request result) = some { s with
          client := { s.client with request := none, reading := true }
          toServer := s.toServer ++ left (some c) } := by
        show s.client.request.bind _ = _
        rw [hrequest]
        show (c.send retryingStep result).map _ = _
        rw [hsend]
        rfl
      exact ⟨_, .single _ hstep, rfl, rfl, rfl⟩

theorem finish_reply {s : System} (h : Calls s) :
    ∃ t, Runs.Reaches System.step s t ∧ t.client = s.client ∧ t.server.reply = none ∧
      t.server.run = s.server.run ∧ t.toServer = s.toServer := by
  cases hreply : s.server.reply with
  | none => exact ⟨s, .refl s, rfl, hreply, rfl, rfl⟩
  | some c =>
      obtain ⟨result, hsend⟩ := (h.reply c hreply).finish
      have hstep : s.step (.reply result) = some { s with
          server := { s.server with reply := none }
          toClient := s.toClient ++ left (some c) } := by
        show s.server.reply.bind _ = _
        rw [hreply]
        show (c.send retryingStep result).map _ = _
        rw [hsend]
        rfl
      exact ⟨_, .single _ hstep, rfl, rfl, rfl, rfl⟩

theorem Calls.reaches {s t : System} (h : Calls s) (ht : Runs.Reaches System.step s t) : Calls t :=
  ht.invariant (fun _ _ _ h hstep => (step_flows h hstep).1) h

def firstChunk (bytes : List UInt8) (h : bytes ≠ []) : Chunk where
  bytes := bytes.take (maxMessageLength - 1)
  nonempty := by
    rw [List.length_take]
    exact Nat.lt_min.mpr ⟨by decide, List.length_pos_iff.mpr h⟩
  fits := List.length_take_le _ _

theorem drain_server {s : System} (h : Calls s) (hrun : s.server.run = true) :
    ∃ t, Runs.Reaches System.step s t ∧ t.client = s.client ∧ t.server.reply = none ∧ t.toServer = [] := by
  induction hn : s.toServer.length using Nat.strong_induction_on generalizing s with
  | _ n ih =>
      obtain ⟨t, hreach, hclient, hreply, hstill, hserver⟩ := finish_reply h
      by_cases hempty : t.toServer = []
      · exact ⟨t, hreach, hclient, hreply, hempty⟩
      · obtain ⟨buffer', hmessage⟩ := t.server.buffer.message_eq (firstChunk t.toServer hempty)
        have hready : t.server.run ∧ t.server.reply.isNone ∧
            (firstChunk t.toServer hempty).bytes <+: t.toServer :=
          ⟨hstill.trans hrun, by rw [hreply]; rfl, List.take_prefix _ _⟩
        have hstep : t.step (.receive (firstChunk t.toServer hempty)) = some { t with
            server := { t.server with buffer := buffer', reply := some (.begin (firstChunk t.toServer hempty).text) }
            toServer := t.toServer.drop (firstChunk t.toServer hempty).bytes.length } := by
          rw [System.step, if_pos hready, hmessage]
          rfl
        have hreach' := hreach.trans (.single _ hstep)
        have hshorter : (t.toServer.drop (firstChunk t.toServer hempty).bytes.length).length <
            n := by
          have hnonempty := (firstChunk t.toServer hempty).nonempty
          have hlength := List.length_pos_iff.mpr hempty
          rw [List.length_drop, ← hn, ← hserver]
          omega
        obtain ⟨u, hmore, hclient', hreply', hserver'⟩ :=
          ih _ hshorter (h.reaches hreach') (hstill.trans hrun) rfl
        exact ⟨u, hreach'.trans hmore, hclient'.trans hclient, hreply', hserver'⟩

theorem start_reading {s : System} (hrequest : s.client.request = none) :
    ∃ t, Runs.Reaches System.step s t ∧ t.client.request = none ∧ t.client.reading = true ∧
    t.server = s.server ∧
      t.toServer = s.toServer ∧ t.sent = s.sent := by
  by_cases hreading : s.client.reading = true
  · exact ⟨s, .refl s, hrequest, hreading, rfl, rfl, rfl⟩
  · have hready : s.client.request.isNone ∧ ¬ s.client.reading := ⟨by rw [hrequest]; rfl, hreading⟩
    have henter : s.step (.enter []) = some { s with
        client :=
      { s.client with lines := s.client.lines ++ [[]], request := some (.begin []) } } := by
      rw [System.step, if_pos hready]
      rfl
    have hsend : System.step { s with
        client := { s.client with lines := s.client.lines ++ [[]], request := some (.begin []) } }
          (.request (.accepted 0)) = some { s with
        client :=
      { s.client with lines := s.client.lines ++ [[]], request := none, reading := true }
        toServer := s.toServer ++ [] } := rfl
    refine ⟨_, Runs.Reaches.trans (.single _ henter) (.single _ hsend), rfl, rfl, rfl,
      List.append_nil _, ?_⟩
    show (s.client.lines ++ [[]]).flatMap textOf = s.client.lines.flatMap textOf
    rw [List.flatMap_append]
    exact List.append_nil _

theorem drain_client {s : System} (hreading : s.client.reading = true) :
    ∃ t, Runs.Reaches System.step s t ∧ t.toClient = [] ∧ t.client.request = s.client.request ∧
      t.server = s.server ∧ t.toServer = s.toServer ∧ t.sent = s.sent := by
  induction hn : s.toClient.length using Nat.strong_induction_on generalizing s with
  | _ n ih =>
      by_cases hempty : s.toClient = []
      · exact ⟨s, .refl s, hempty, rfl, rfl, rfl, rfl⟩
      · have hready : s.client.reading ∧ (firstChunk s.toClient hempty).bytes <+: s.toClient :=
          ⟨hreading, List.take_prefix _ _⟩
        have hstep : s.step (.answer (firstChunk s.toClient hempty)) = some { s with
            client :=
          { s.client with shown := s.client.shown ++ (firstChunk s.toClient hempty).bytes }
            toClient := s.toClient.drop (firstChunk s.toClient hempty).bytes.length } := by
          rw [System.step, if_pos hready]
        have hshorter : (s.toClient.drop (firstChunk s.toClient hempty).bytes.length).length <
            n := by
          have hnonempty := (firstChunk s.toClient hempty).nonempty
          have hlength := List.length_pos_iff.mpr hempty
          rw [List.length_drop, ← hn]
          omega
        obtain ⟨t, hmore, hrest⟩ := @ih _ hshorter { s with
            client :=
          { s.client with shown := s.client.shown ++ (firstChunk s.toClient hempty).bytes }
            toClient := s.toClient.drop (firstChunk s.toClient hempty).bytes.length } hreading rfl
        exact ⟨t, Runs.Reaches.trans (.single _ hstep) hmore, hrest⟩

/-- **Nothing gets stuck.** Wherever a run has come to, as long as the server is in `communicate` it
can go on until nothing is under way without another word from the client's user than a blank line;
so all of what has been sent can still be shown, if there is no zero in it. -/
theorem echo_drains (buffer : Buffer) (events : List Event)
    (hrun : (Runs.final System.step (System.start buffer) events).server.run = true) :
    ∃ more,
      (Runs.final System.step (Runs.final System.step (System.start buffer) events) more).Drained ∧
      (Runs.final System.step (Runs.final System.step (System.start buffer) events) more).sent =
        (Runs.final System.step (System.start buffer) events).sent ∧
      ((0 : UInt8) ∉ (Runs.final System.step (System.start buffer) events).sent →
        (Runs.final System.step (Runs.final System.step (System.start buffer) events) more).client.shown =
          (Runs.final System.step (System.start buffer) events).sent) := by
  have hs : Carried (Runs.final System.step (System.start buffer) events) :=
    (Runs.always_of_step (fun _ _ _ h hstep => h.step hstep) (carried_start buffer) events).final
  generalize Runs.final System.step (System.start buffer) events = s at hs hrun ⊢
  obtain ⟨t₁, h₁, hrequest₁, hserver₁, hsent₁⟩ := finish_request hs.calls
  obtain ⟨t₂, h₂, hclient₂, hreply₂, hempty₂⟩ :=
    drain_server (hs.calls.reaches h₁) (hserver₁ ▸ hrun)
  obtain ⟨t₃, h₃, hrequest₃, hreading₃, hserver₃, htoServer₃, hsent₃⟩ :=
    start_reading (hclient₂ ▸ hrequest₁)
  obtain ⟨t₄, h₄, hempty₄, hrequest₄, hserver₄, htoServer₄, hsent₄⟩ := drain_client hreading₃
  have hreach := ((h₁.trans h₂).trans h₃).trans h₄
  have hcarried : Carried t₄ := hreach.invariant (fun _ _ _ h hstep => h.step hstep) hs
  have hdrained : t₄.Drained :=
    ⟨hempty₄, by rw [hserver₄, hserver₃, hreply₂], by rw [htoServer₄, htoServer₃, hempty₂],
      hrequest₄.trans hrequest₃⟩
  have hsent : t₄.sent = s.sent := by
    rw [hsent₄, hsent₃, ← hsent₁, System.sent, hclient₂, System.sent]
  obtain ⟨more, rfl⟩ := hreach.exists_final
  refine ⟨more, hdrained, hsent, fun hzero => ?_⟩
  rw [← hsent] at hzero ⊢
  exact hcarried.shown_drained hzero hdrained

theorem echo_drains_hi :
    ∃ more, (Runs.final System.step (Runs.final System.step (System.start zeros)
      [.enter [0x68, 0x69], .request (.accepted 1), .receive ⟨[0x68], by decide, by decide⟩])
        more).Drained := by
  obtain ⟨more, hdrained, _⟩ := echo_drains zeros
    [.enter [0x68, 0x69], .request (.accepted 1), .receive ⟨[0x68], by decide, by decide⟩]
      (by decide +kernel)
  exact ⟨more, hdrained⟩

end NetworkHomework.TcpEcho
