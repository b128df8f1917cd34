import NetworkHomework.Base.Loop
import NetworkHomework.Base.Outbound

/-!
# `communicate`: the echo of the TCP server

`communicate` receives into a buffer of 1000 characters, puts a terminator behind what it has
received and hands the buffer to `send_message` as a C string. So a reply ends at the first zero of
its chunk, and never later: nothing an earlier message left in the buffer is sent
(`communicate_leaks_nothing`), and the echo is faithful exactly to the streams without zeros
(`communicate_echoes_iff`).
-/

namespace NetworkHomework.TcpEcho


/-! ### `send_message` -/

/-- How a call of `send_message` ends, with the bytes it has sent: it returns, with the results of
`send` that are left, or it waits in `send` for good. -/
inductive Sending where
  | returned (sent : List UInt8) (sends : List SendResult)
  | waiting (sent : List UInt8)
deriving DecidableEq

def Sending.sent : Sending → List UInt8
  | returned sent _ => sent
  | waiting sent => sent

/-- The loop of `send_message` with `reqPos` characters gone. Any failure is tried again: `EINTR` by
`continue`, another `errno` because nothing is done about it. -/
def sendRest (message : List UInt8) (reqPos : Nat) (sent : List UInt8) : List SendResult → Sending
  | [] => .waiting sent
  | .failed _ :: sends => sendRest message reqPos sent sends
  | .accepted count :: sends =>
      let count := min count (message.length - reqPos)
      let sent := sent ++ (message.drop reqPos).take count
      if count = 0 then .returned sent sends
      else if reqPos + count ≥ message.length then .returned sent sends
      else sendRest message (reqPos + count) sent sends

def sendMessage (message : List UInt8) (sends : List SendResult) : Sending :=
  sendRest message 0 [] sends

private theorem sent_more {message sent : List UInt8} {reqPos : Nat}
    (hsent : sent ++ message.drop reqPos = message) (n : Nat) :
    sent ++ (message.drop reqPos).take n ++ message.drop (reqPos + n) = message := by
  rw [List.append_assoc, ← List.drop_drop, List.take_append_drop]
  exact hsent

private theorem sendRest_isPrefix {message sent : List UInt8} {reqPos : Nat}
    (sends : List SendResult) (hsent : sent ++ message.drop reqPos = message) :
    (sendRest message reqPos sent sends).sent <+: message := by
  induction sends generalizing reqPos sent with
  | nil => exact ⟨_, hsent⟩
  | cons result sends ih =>
      cases result with
      | failed errno => exact ih hsent
      | accepted count =>
          rw [sendRest]
          split_ifs
          · exact ⟨_, sent_more hsent _⟩
          · exact ⟨_, sent_more hsent _⟩
          · exact ih (sent_more hsent _)

theorem sendMessage_isPrefix (message : List UInt8) (sends : List SendResult) :
    (sendMessage message sends).sent <+: message := sendRest_isPrefix sends rfl

private theorem sendRest_rest {message sent sent' : List UInt8} {reqPos : Nat}
    {sends rest : List SendResult} (h : sendRest message reqPos sent sends = .returned sent' rest) :
    rest <:+ sends := by
  induction sends generalizing reqPos sent with
  | nil => cases h
  | cons result sends ih =>
      cases result with
      | failed errno => exact (ih h).trans (List.suffix_cons _ _)
      | accepted count =>
          rw [sendRest] at h
          split_ifs at h
          · cases h
            exact List.suffix_cons _ _
          · cases h
            exact List.suffix_cons _ _
          · exact (ih h).trans (List.suffix_cons _ _)

/-- No `send` takes nothing of what it is offered. -/
def Progress (sends : List SendResult) : Prop :=
  ∀ count, SendResult.accepted count ∈ sends → 0 < count

theorem Progress.of_suffix {sends rest : List SendResult} (h : Progress sends)
    (hrest : rest <:+ sends) :
    Progress rest := fun count hcount => h count (hrest.subset hcount)

private theorem sendRest_all {message sent sent' : List UInt8} {reqPos : Nat}
    {sends rest : List SendResult} (hsent : sent ++ message.drop reqPos = message)
    (hpos : reqPos < message.length ∨ message = []) (hsends : Progress sends)
    (h : sendRest message reqPos sent sends = .returned sent' rest) :
    sent' = message := by
  induction sends generalizing reqPos sent with
  | nil => cases h
  | cons result sends ih =>
      have hrest := hsends.of_suffix (List.suffix_cons result sends)
      cases result with
      | failed errno => exact ih hsent hpos hrest h
      | accepted count =>
          have hcount := hsends count List.mem_cons_self
          rw [sendRest] at h
          split_ifs at h with hzero hall
          · cases h
            rcases hpos with hlt | rfl
            · omega
            · simpa using hsent
          · cases h
            have hdone := sent_more hsent (min count (message.length - reqPos))
            rwa [List.drop_eq_nil_of_le hall, List.append_nil] at hdone
          · exact ih (sent_more hsent _) (Or.inl (by omega)) hrest h

theorem sendMessage_all {message sent : List UInt8} {sends rest : List SendResult}
    (hsends : Progress sends) (h : sendMessage message sends = .returned sent rest) :
    sent = message := by
  refine sendRest_all rfl ?_ hsends h
  by_cases hmessage : message = []
  · exact Or.inr hmessage
  · exact Or.inl (List.length_pos_iff.mpr hmessage)

/-- How many of the calls of `send` do not fail. -/
def accepted (sends : List SendResult) : Nat :=
  sends.countP fun
    | .accepted _ => true
    | .failed _ => false

private theorem sendRest_returns {message sent : List UInt8} {reqPos k : Nat}
    {sends : List SendResult} (hsends : Progress sends) (hk : 0 < k)
    (hlength : message.length ≤ reqPos + k) (henough : k ≤ accepted sends) :
    ∃ sent' rest, sendRest message reqPos sent sends = .returned sent' rest ∧
      accepted sends ≤ accepted rest + k := by
  induction sends generalizing reqPos sent k with
  | nil =>
      rw [accepted, List.countP_nil] at henough
      omega
  | cons result sends ih =>
      have hrest := hsends.of_suffix (List.suffix_cons result sends)
      cases result with
      | failed errno =>
          have hfailed : accepted (.failed errno :: sends) = accepted sends :=
            List.countP_cons_of_neg (by simp)
          rw [hfailed] at henough
          obtain ⟨sent', rest, hreturned, hleft⟩ := ih hrest hk hlength henough
          exact ⟨sent', rest, hreturned, by omega⟩
      | accepted count =>
          have haccepted : accepted (.accepted count :: sends) = accepted sends + 1 :=
            List.countP_cons_of_pos rfl
          have hcount := hsends count List.mem_cons_self
          rw [sendRest]
          split_ifs with hzero hall
          · exact ⟨_, _, rfl, by omega⟩
          · exact ⟨_, _, rfl, by omega⟩
          · obtain ⟨sent', rest, hreturned, hleft⟩ := @ih
              (sent ++ (message.drop reqPos).take (min count (message.length - reqPos)))
              (reqPos + min count (message.length - reqPos)) (k - 1) hrest (by omega)
                (by omega) (by omega)
            exact ⟨sent', rest, hreturned, by omega⟩

/-! ### The buffer -/

def maxMessageLength : Nat := 1000

structure Buffer where
  chars : List UInt8
  size : chars.length = maxMessageLength

/-- What a successful `recv` delivers when it is asked for `buffer.size() - 1` bytes. -/
structure Chunk where
  bytes : List UInt8
  nonempty : 0 < bytes.length
  fits : bytes.length ≤ maxMessageLength - 1

/-- The chunk up to its first zero. -/
def Chunk.text (chunk : Chunk) : List UInt8 := chunk.bytes.takeWhile (· ≠ 0)

theorem Chunk.lt_size (chunk : Chunk) : chunk.bytes.length < maxMessageLength :=
  Nat.lt_of_le_of_lt chunk.fits (by decide)

theorem Chunk.text_isPrefix (chunk : Chunk) : chunk.text <+: chunk.bytes := List.takeWhile_prefix _

theorem Chunk.text_eq_iff (chunk : Chunk) :
    chunk.text = chunk.bytes ↔ (0 : UInt8) ∉ chunk.bytes := by
  rw [text, List.takeWhile_eq_self_iff]
  constructor
  · exact fun h hzero => absurd rfl (of_decide_eq_true (h 0 hzero))
  · exact fun h c hc => decide_eq_true fun hzero => h (hzero ▸ hc)

namespace Buffer

def recv (buffer : Buffer) (chunk : Chunk) : Buffer where
  chars := chunk.bytes ++ buffer.chars.drop chunk.bytes.length
  size := by
    have hsize := buffer.size
    have hfits := chunk.lt_size
    rw [List.length_append, List.length_drop]
    omega

/-- `buffer[i] = c`, which has no defined outcome if `i` is not an index. -/
def store (buffer : Buffer) (i : Nat) (c : UInt8) : Option Buffer :=
  if i < maxMessageLength then
    some ⟨buffer.chars.set i c, by rw [List.length_set, buffer.size]⟩ else none

/-- The `std::string` made of `buffer.data()`; without a zero in the buffer it is read past its
end. -/
def cString (buffer : Buffer) : Option (List UInt8) :=
  if 0 ∈ buffer.chars then some (buffer.chars.takeWhile (· ≠ 0)) else none

/-- What `communicate` makes of a chunk: the buffer with the terminator, and the string it is read
as. -/
def message (buffer : Buffer) (chunk : Chunk) : Option (Buffer × List UInt8) := do
  let buffer ← (buffer.recv chunk).store chunk.bytes.length 0
  let string ← buffer.cString
  some (buffer, string)

private theorem takeWhile_terminated (bytes rest : List UInt8) :
    (bytes ++ 0 :: rest).takeWhile (· ≠ 0) = bytes.takeWhile (· ≠ 0) := by
  induction bytes with
  | nil => rfl
  | cons c bytes ih => simp only [List.cons_append, List.takeWhile_cons, ih]

/-- The scan for the terminator stops in the chunk or right behind it, whatever was in the
buffer. -/
theorem message_eq (buffer : Buffer) (chunk : Chunk) :
    ∃ buffer', buffer.message chunk = some (buffer', chunk.text) := by
  have hset : (buffer.recv chunk).chars.set chunk.bytes.length 0 =
      chunk.bytes ++ 0 :: buffer.chars.drop (chunk.bytes.length + 1) := by
    have hsize := buffer.size
    have hfits := chunk.lt_size
    have hdrop : buffer.chars.drop chunk.bytes.length =
        buffer.chars[chunk.bytes.length] :: buffer.chars.drop (chunk.bytes.length + 1) :=
      List.drop_eq_getElem_cons (by omega)
    change (chunk.bytes ++ buffer.chars.drop chunk.bytes.length).set chunk.bytes.length 0 = _
    rw [List.set_append_right _ _ (Nat.le_refl _), Nat.sub_self, hdrop]
    rfl
  obtain ⟨buffer', hstore, hchars⟩ : ∃ buffer', (buffer.recv chunk).store chunk.bytes.length 0 =
    some buffer' ∧
      buffer'.chars = chunk.bytes ++ 0 :: buffer.chars.drop (chunk.bytes.length + 1) :=
    ⟨_, if_pos chunk.lt_size, hset⟩
  have hzero : 0 ∈ buffer'.chars := by
    rw [hchars]
    exact List.mem_append_right _ List.mem_cons_self
  have hstring : buffer'.cString = some chunk.text := by
    rw [cString, if_pos hzero, hchars, takeWhile_terminated]
    rfl
  exact ⟨buffer', Option.bind_eq_some_iff.mpr ⟨buffer', hstore, Option.bind_eq_some_iff.mpr ⟨_, hstring, rfl⟩⟩⟩

end Buffer

/-! ### `communicate` -/

/-- What a call of `recv` returns: some bytes, `-1` with an `errno`, or `0` at the end of the
stream. -/
inductive RecvResult where
  | received (chunk : Chunk)
  | failed (errno : Errno)
  | ended

/-- How `communicate` ends: it returns, waits in `recv` or `send` for good, or leaves the buffer. -/
inductive Ending where
  | returned
  | receiving
  | sending
  | undefined
deriving DecidableEq

/-- A run of `communicate`: the buffer it leaves, the chunks received with what was sent for each,
and how it ends. -/
structure Conversation where
  buffer : Buffer
  answers : List (Chunk × List UInt8)
  ending : Ending

def Conversation.sent (c : Conversation) : List UInt8 := c.answers.flatMap Prod.snd

def Conversation.behind (c : Conversation) (chunk : Chunk) (sent : List UInt8) : Conversation :=
  { c with answers := (chunk, sent) :: c.answers }

def communicate : Buffer → List SendResult → List RecvResult → Conversation
  | buffer, _, [] => ⟨buffer, [], .receiving⟩
  | buffer, sends, .received chunk :: recvs =>
      match buffer.message chunk with
      | none => ⟨buffer, [], .undefined⟩
      | some (buffer, message) =>
          match sendMessage message sends with
          | .waiting sent => ⟨buffer, [(chunk, sent)], .sending⟩
          | .returned sent sends => (communicate buffer sends recvs).behind chunk sent
  | buffer, sends, .failed errno :: recvs =>
      if errno = .eintr then communicate buffer sends recvs else ⟨buffer, [], .returned⟩
  | buffer, _, .ended :: _ => ⟨buffer, [], .returned⟩

theorem communicate_received (buffer : Buffer) (sends : List SendResult) (chunk : Chunk)
    (recvs : List RecvResult) :
    ∃ buffer', communicate buffer sends (.received chunk :: recvs) =
      match sendMessage chunk.text sends with
      | .waiting sent => ⟨buffer', [(chunk, sent)], .sending⟩
      | .returned sent sends => (communicate buffer' sends recvs).behind chunk sent := by
  obtain ⟨buffer', hmessage⟩ := buffer.message_eq chunk
  exact ⟨buffer', by rw [communicate, hmessage]⟩

def chunksOf : List RecvResult → List Chunk
  | [] => []
  | .received chunk :: recvs => chunk :: chunksOf recvs
  | .failed errno :: recvs => if errno = .eintr then chunksOf recvs else []
  | .ended :: _ => []

/-- **No old data.** What `communicate` sends does not depend on what is in the buffer, every reply
is a prefix of the chunk just received, and no index or scan leaves the buffer. -/
theorem communicate_leaks_nothing (buffer buffer' : Buffer) (sends : List SendResult)
    (recvs : List RecvResult) :
    (communicate buffer sends recvs).answers = (communicate buffer' sends recvs).answers ∧
      (communicate buffer sends recvs).ending = (communicate buffer' sends recvs).ending ∧
      (communicate buffer sends recvs).ending ≠ .undefined ∧
      ((communicate buffer sends recvs).answers.map Prod.fst <+: chunksOf recvs) ∧
      ∀ answer ∈ (communicate buffer sends recvs).answers, answer.2 <+: answer.1.bytes := by
  induction recvs generalizing buffer buffer' sends with
  | nil =>
      refine ⟨rfl, rfl, ?_, List.nil_prefix, fun answer h => absurd h List.not_mem_nil⟩
      exact (by decide : Ending.receiving ≠ .undefined)
  | cons result recvs ih =>
      have hreturned : Ending.returned ≠ .undefined := by decide
      cases result with
      | ended =>
          exact ⟨rfl, rfl, hreturned, List.nil_prefix, fun answer h => absurd h List.not_mem_nil⟩
      | failed errno =>
          rw [communicate, communicate, chunksOf]
          split_ifs
          · exact ih buffer buffer' sends
          · exact ⟨rfl, rfl, hreturned, List.nil_prefix, fun answer h => absurd h List.not_mem_nil⟩
      | received chunk =>
          obtain ⟨buffer₁, hleft⟩ := communicate_received buffer sends chunk recvs
          obtain ⟨buffer₂, hright⟩ := communicate_received buffer' sends chunk recvs
          have hreply := (sendMessage_isPrefix chunk.text sends).trans chunk.text_isPrefix
          rw [hleft, hright, chunksOf]
          cases hsend : sendMessage chunk.text sends with
          | waiting sent =>
              rw [hsend] at hreply
              have hsending : Ending.sending ≠ .undefined := by decide
              refine ⟨rfl, rfl, hsending, ⟨chunksOf recvs, rfl⟩, ?_⟩
              exact List.forall_mem_singleton.mpr hreply
          | returned sent rest =>
              rw [hsend] at hreply
              obtain ⟨hanswers, hending, hdefined, hchunks, hreplies⟩ := ih buffer₁ buffer₂ rest
              refine ⟨congrArg ((chunk, sent) :: ·) hanswers, hending, hdefined, ?_, ?_⟩
              · exact List.cons_prefix_cons.mpr ⟨rfl, hchunks⟩
              · exact List.forall_mem_cons.mpr ⟨hreply, hreplies⟩

/-! ### The echo -/

theorem communicate_answers (buffer : Buffer) {sends : List SendResult} (hsends : Progress sends)
    (recvs : List RecvResult) (hdone : (communicate buffer sends recvs).ending ≠ .sending) :
    (communicate buffer sends recvs).answers = (chunksOf recvs).map fun chunk =>
      (chunk, chunk.text) := by
  induction recvs generalizing buffer sends with
  | nil => rfl
  | cons result recvs ih =>
      cases result with
      | ended => rfl
      | failed errno =>
          rw [communicate] at hdone ⊢
          rw [chunksOf]
          split_ifs at hdone ⊢
          · exact ih buffer hsends hdone
          · rfl
      | received chunk =>
          obtain ⟨buffer', hturn⟩ := communicate_received buffer sends chunk recvs
          rw [hturn] at hdone ⊢
          cases hsend : sendMessage chunk.text sends with
          | waiting sent =>
              rw [hsend] at hdone
              exact absurd rfl hdone
          | returned sent rest =>
              rw [hsend] at hdone
              obtain rfl := sendMessage_all hsends hsend
              exact congrArg _ (ih buffer' (hsends.of_suffix (sendRest_rest hsend)) hdone)

/-- Enough calls of `send` that do not fail: one for every byte received. -/
def Enough (sends : List SendResult) (recvs : List RecvResult) : Prop :=
  ((chunksOf recvs).map (·.bytes.length)).sum ≤ accepted sends

instance (sends : List SendResult) (recvs : List RecvResult) : Decidable (Enough sends recvs) :=
  inferInstanceAs (Decidable (_ ≤ _))

theorem communicate_finishes (buffer : Buffer) {sends : List SendResult} (hsends : Progress sends)
    {recvs : List RecvResult} (henough : Enough sends recvs) :
    (communicate buffer sends recvs).ending ≠ .sending := by
  induction recvs generalizing buffer sends with
  | nil => exact (by decide : Ending.receiving ≠ .sending)
  | cons result recvs ih =>
      cases result with
      | ended => exact (by decide : Ending.returned ≠ .sending)
      | failed errno =>
          rw [Enough, chunksOf] at henough
          rw [communicate]
          split_ifs at henough ⊢
          · exact ih buffer hsends henough
          · exact (by decide : Ending.returned ≠ .sending)
      | received chunk =>
          rw [Enough, chunksOf, List.map_cons, List.sum_cons] at henough
          have hlength := chunk.text_isPrefix.length_le
          obtain ⟨sent, rest, hsend, hleft⟩ :=
            @sendRest_returns chunk.text [] 0 chunk.bytes.length sends hsends
            chunk.nonempty (by omega) (by omega)
          obtain ⟨buffer', hturn⟩ := communicate_received buffer sends chunk recvs
          rw [hturn, sendMessage, hsend]
          refine ih buffer' (hsends.of_suffix (sendRest_rest hsend)) ?_
          rw [Enough]
          omega

def received (recvs : List RecvResult) : List UInt8 := (chunksOf recvs).flatMap (·.bytes)

private theorem flatMap_text_length (chunks : List Chunk) :
    (chunks.flatMap (·.text)).length ≤ (chunks.flatMap (·.bytes)).length := by
  induction chunks with
  | nil => exact Nat.le_refl 0
  | cons chunk chunks ih =>
      rw [List.flatMap_cons, List.flatMap_cons, List.length_append, List.length_append]
      exact Nat.add_le_add chunk.text_isPrefix.length_le ih

/-- Texts cannot make up for one another: no text is longer than its chunk. -/
theorem flatMap_text_eq_iff (chunks : List Chunk) :
    chunks.flatMap (·.text) = chunks.flatMap (·.bytes) ↔
    ∀ chunk ∈ chunks, (0 : UInt8) ∉ chunk.bytes := by
  induction chunks with
  | nil => exact iff_of_true rfl fun chunk h => absurd h List.not_mem_nil
  | cons chunk chunks ih =>
      rw [List.flatMap_cons, List.flatMap_cons, List.forall_mem_cons, ← ih, ← chunk.text_eq_iff]
      constructor
      · intro h
        have hlength := congrArg List.length h
        have htext := chunk.text_isPrefix.length_le
        have hrest := flatMap_text_length chunks
        rw [List.length_append, List.length_append] at hlength
        exact List.append_inj h (by omega)
      · rintro ⟨htext, hrest⟩
        rw [htext, hrest]

/-- **Echo.** However the stream is cut and however little each `send` takes, what is sent back is
what was received exactly if there is no zero in it; and if enough calls of `send` take something,
all of it is sent. -/
theorem communicate_echoes_iff (buffer : Buffer) {sends : List SendResult} (hsends : Progress sends)
    (recvs : List RecvResult) :
    ((communicate buffer sends recvs).ending ≠ .sending →
      ((communicate buffer sends recvs).sent = received recvs ↔ (0 : UInt8) ∉ received recvs)) ∧
      (Enough sends recvs → (communicate buffer sends recvs).ending ≠ .sending) := by
  refine ⟨fun hdone => ?_, communicate_finishes buffer hsends⟩
  have hzero : (0 : UInt8) ∉ received recvs ↔
      ∀ chunk ∈ chunksOf recvs, (0 : UInt8) ∉ chunk.bytes := by
    rw [received, List.mem_flatMap]
    simp
  rw [hzero, ← flatMap_text_eq_iff, Conversation.sent,
    communicate_answers buffer hsends recvs hdone,
    List.flatMap_map]
  rfl

def zeros : Buffer := ⟨List.replicate maxMessageLength 0, List.length_replicate⟩

theorem communicate_echoes_hi :
    (communicate zeros [.accepted 1, .failed .eintr, .accepted 5]
      [.received ⟨[0x68, 0x69], by decide, by decide⟩, .ended]).sent = [0x68, 0x69] := by
  have hprogress : Progress [.accepted 1, .failed .eintr, .accepted 5] := by
    intro count hcount
    simp at hcount
    omega
  obtain ⟨hecho, hfinish⟩ := communicate_echoes_iff zeros hprogress
    [.received ⟨[0x68, 0x69], by decide, by decide⟩, .ended]
  exact (hecho (hfinish (by decide))).mpr (by decide)

/-- Three bytes with a zero in the middle: one is sent back. -/
theorem communicate_stops_at_zero :
    (communicate zeros [.accepted 3] [.received ⟨[0x61, 0x00, 0x62], by decide, by decide⟩, .ended]).ending =
        .returned ∧
      (communicate zeros [.accepted 3] [.received ⟨[0x61, 0x00, 0x62], by decide, by decide⟩, .ended]).sent =
        [0x61] ∧
      received [.received ⟨[0x61, 0x00, 0x62], by decide, by decide⟩, .ended] =
        [0x61, 0x00, 0x62] := by
  decide +kernel

end NetworkHomework.TcpEcho
