import NetworkHomework.Base.Pipe
import NetworkHomework.Base.Runs
import NetworkHomework.Qt.Client
import NetworkHomework.Qt.Server

/-!
# A client and its server

The slots of the two programs with the streams between them, both of which are read wherever they
happen to be cut. A user sends any texts but downloads. What the server has read is the front of
what was sent, what the client shows is the front of the replies to what the server has read, and
where nothing is under way nothing is missing: `session_in_order`.
-/

namespace NetworkHomework.Qt

/-! ### The server's replies to a text -/

/-- What the server sends for a text that is no download. -/
def repliesTo (str : QString) : List QString :=
  echo str :: if (parseCommand str).command.Same (.lit "exit") then
    [(parseCommand str).command] else []

def greeting : QString := .lit "Server Response: Connected!"

/-- A text that fits its frame, as its echo does, and asks for no file. -/
structure Question where
  text : QString
  fits : text.size + 28 ≤ 32765
  notGet : ¬ (parseCommand text).command.Same announcement

theorem answer_of_notGet (edition : Edition) (currentPath : List UInt16) (disk : FileSystem)
    {str : QString} (hget : ¬ (parseCommand str).command.Same announcement) (out : Output) :
    (answer edition currentPath disk str out).tx = out.tx ++ stream textFrame (repliesTo str) ∧
      (answer edition currentPath disk str out).closed =
        (out.closed || decide ((parseCommand str).command.Same (.lit "exit"))) := by
  rw [answer, repliesTo]
  dsimp only
  rw [if_neg fun h => hget h.1]
  by_cases hexit : (parseCommand str).command.Same (.lit "exit")
  · rw [if_pos hexit, if_pos hexit, decide_eq_true hexit, Bool.or_true]
    refine ⟨?_, rfl⟩
    show out.tx ++ textFrame (echo str) ++ textFrame (parseCommand str).command = _
    rw [stream_cons, stream_cons, stream_nil, List.append_nil, List.append_assoc]
  · rw [if_neg hexit, if_neg hexit, decide_eq_false hexit, Bool.or_false]
    refine ⟨?_, rfl⟩
    show out.tx ++ textFrame (echo str) = _
    rw [stream_cons, stream_nil, List.append_nil]

theorem answerAll_of_notGet (edition : Edition) (currentPath : List UInt16)
    (disk : Nat → FileSystem) {strs : List QString}
    (hget : ∀ str ∈ strs, ¬ (parseCommand str).command.Same announcement) (out : Output) :
    (answerAll edition currentPath disk strs out).tx =
      out.tx ++ stream textFrame (strs.flatMap repliesTo) ∧
      ((answerAll edition currentPath disk strs out).closed = true ↔
        out.closed = true ∨ ∃ str ∈ strs, (parseCommand str).command.Same (.lit "exit")) := by
  induction strs generalizing out with
  | nil => exact ⟨(List.append_nil _).symm, by simp [answerAll]⟩
  | cons str strs ih =>
      obtain ⟨htx, hclosed⟩ := answer_of_notGet edition currentPath (disk out.served)
        (hget str List.mem_cons_self) out
      obtain ⟨htx', hclosed'⟩ := ih (fun other hother => hget other (List.mem_cons_of_mem _ hother))
        (answer edition currentPath (disk out.served) str out)
      rw [answerAll_cons]
      constructor
      · rw [htx', htx, List.flatMap_cons, List.append_assoc, stream, stream, stream,
          ← List.flatMap_append]
      · rw [hclosed', hclosed]
        simp [or_assoc]

/-! ### Where a reply comes from -/

theorem echo_not_same (str : QString) {word : QString} (hword : word.size < 28) :
    ¬ (echo str).Same word := by
  intro h
  have hsize : (echo str).size = word.size := congrArg List.length h
  rw [echo_size] at hsize
  omega

theorem exit_of_reply {str reply word : QString} (hword : word.size < 28)
    (hreply : reply ∈ repliesTo str) (hsame : reply.Same word) :
    (parseCommand str).command.Same (.lit "exit") ∧ reply.Same (.lit "exit") := by
  rw [repliesTo] at hreply
  rcases List.mem_cons.mp hreply with rfl | hreply
  · exact absurd hsame (echo_not_same str hword)
  · split_ifs at hreply with hexit
    · obtain rfl := List.mem_singleton.mp hreply
      exact ⟨hexit, hexit⟩
    · exact absurd hreply List.not_mem_nil

theorem replies_fit {str reply : QString} (hfits : str.size + 28 ≤ 32765)
    (hreply : reply ∈ repliesTo str) :
    FitsFrame reply := by
  rw [repliesTo] at hreply
  rcases List.mem_cons.mp hreply with rfl | hreply
  · rw [FitsFrame, echo_size]
    exact hfits
  · split_ifs at hreply with hexit
    · obtain rfl := List.mem_singleton.mp hreply
      have hsize : (parseCommand str).command.size = (QString.lit "exit").size :=
        congrArg List.length hexit
      have hexact : (QString.lit "exit").size = 4 := by decide
      rw [FitsFrame]
      omega
    · exact absurd hreply List.not_mem_nil

/-! ### The client on texts -/

theorem take_text (currentPath : List UInt16) (canOpen : List UInt16 → Bool) (c : TcpClient)
    (reader : FrameReader) {str : QString} (hget : ¬ str.Same announcement) :
    (c.take currentPath canOpen reader str).reader = reader ∧
    (c.take currentPath canOpen reader str).tx = c.tx ∧
      ((c.take currentPath canOpen reader str).closed = true → c.closed = true ∨
        str.Same (.lit "exit")) := by
  rw [TcpClient.take]
  dsimp only
  rw [announcement] at hget
  rw [if_neg hget]
  split_ifs with hexit
  · exact ⟨rfl, rfl, fun _ => Or.inr hexit⟩
  · exact ⟨rfl, rfl, Or.inl⟩

theorem slotReadyRead_texts (currentPath : List UInt16) (canOpen : List UInt16 → Bool)
    {c : TcpClient}
    (hget : ∀ str ∈ (frameDecoder.drain c.reader.unread).1, ¬ str.Same announcement) :
    (slotReadyRead currentPath canOpen c).reader.unread = (frameDecoder.drain c.reader.unread).2 ∧
      receivedOf (slotReadyRead currentPath canOpen c).shown =
        receivedOf c.shown ++ (frameDecoder.drain c.reader.unread).1 ∧
      (slotReadyRead currentPath canOpen c).tx = c.tx ∧
      ((slotReadyRead currentPath canOpen c).closed = true →
        c.closed = true ∨ ∃ str ∈ (frameDecoder.drain c.reader.unread).1,
        str.Same (.lit "exit")) := by
  induction hn : c.reader.unread.length using Nat.strong_induction_on generalizing c with
  | _ n ih =>
      cases hdecode : decodeFrame c.reader.unread with
      | none =>
          obtain ⟨r, hcall, hunread, _⟩ := slotReadyRead_of_none currentPath canOpen hdecode
          rw [hcall, frameDecoder.drain_of_none hdecode]
          exact ⟨hunread, (List.append_nil _).symm, rfl, Or.inl⟩
      | some item =>
          obtain ⟨str, rest⟩ := item
          have hshorter := decodeFrame_shorter hdecode
          rw [frameDecoder.drain_of_some hdecode] at hget ⊢
          rw [slotReadyRead_of_some currentPath canOpen hdecode]
          obtain ⟨hreader, htx, hclosed⟩ :=
            take_text currentPath canOpen c ⟨0, rest⟩ (hget str List.mem_cons_self)
          have hunread : (c.take currentPath canOpen ⟨0, rest⟩ str).reader.unread = rest := by
            rw [hreader]
            rfl
          have hmore := @ih rest.length (by omega) (c.take currentPath canOpen ⟨0, rest⟩ str)
          rw [hunread, receivedOf_take, htx] at hmore
          obtain ⟨hunread', hshown', htx', hclosed'⟩ :=
            hmore (fun other hother => hget other (List.mem_cons_of_mem _ hother)) rfl
          refine ⟨hunread', ?_, htx', fun h => ?_⟩
          · rw [hshown', List.append_assoc]
            rfl
          · rcases hclosed' h with hnow | ⟨other, hother, hexit⟩
            · exact (hclosed hnow).imp_right fun hexit => ⟨str, List.mem_cons_self, hexit⟩
            · exact Or.inr ⟨other, List.mem_cons_of_mem _ hother, hexit⟩

/-! ### The system -/

/-- The texts that the user has sent, the two programs, and what is under way between them. -/
structure Session where
  texts : List QString
  client : TcpClient
  server : Slot
  toServer : List UInt8
  toClient : List UInt8

/-- The user sends a text; bytes come in on either side; a program whose window was closed ends, and
of what it has written only so much goes out. -/
inductive SessionEvent where
  | ask (question : Question)
  | atServer (d : Delivery)
  | atClient (bytes : List UInt8)
  | serverGone (count : Nat)
  | clientGone (count : Nat)

namespace Session

def start : Session := ⟨[], .start, .connected, [], Slot.connected.out.tx⟩

section

variable (edition : Edition) (currentPath clientPath : List UInt16) (canOpen : List UInt16 → Bool)

/-- `none` where the event cannot happen: a program ends with the call in which its window was
closed. -/
def step (s : Session) : SessionEvent → Option Session
  | .ask question =>
      if s.client.closed then none
      else
        let client := s.client.slotSendToServer question.text
        some { s with
          texts := s.texts ++ [question.text]
          client := client
          toServer := s.toServer ++ client.tx.drop s.client.tx.length }
  | .atServer d =>
      if s.server.out.closed = false ∧ d.bytes <+: s.toServer then
        let server := s.server.call edition currentPath d
        some { s with
          server := server
          toServer := s.toServer.drop d.bytes.length
          toClient := s.toClient ++ server.out.tx.drop s.server.out.tx.length }
      else none
  | .atClient bytes =>
      if s.client.closed = false ∧ bytes <+: s.toClient then
        some { s with
          client := s.client.arrive clientPath canOpen bytes
          toClient := s.toClient.drop bytes.length }
      else none
  | .serverGone count =>
      if s.server.out.closed then some { s with toClient := s.toClient.take count } else none
  | .clientGone count =>
      if s.client.closed then some { s with toServer := s.toServer.take count } else none

end

def requests (s : Session) : List QString := requestsOf s.server.out.txt

def shown (s : Session) : List QString := receivedOf s.client.shown

def repliesFor (requests : List QString) : List QString := greeting :: requests.flatMap repliesTo

end Session

/-! ### The invariant -/

/-- Both directions are in order, a program that is there loses nothing, and a window is closed for
an `exit` only, the client's for the one that the server has sent. -/
structure InSession (s : Session) : Prop where
  questions : ∀ text ∈ s.texts, text.size + 28 ≤ 32765 ∧
      ¬ (parseCommand text).command.Same announcement
  toServer : ∃ lost, Between textFrame s.texts s.requests s.server.reader.unread s.toServer lost ∧
    (s.client.closed = false → lost = [])
  toClient : ∃ lost, Between textFrame (Session.repliesFor s.requests) s.shown
      s.client.reader.unread s.toClient lost ∧
    (s.server.out.closed = false → lost = [])
  serverClosed : s.server.out.closed = true ↔
      ∃ str ∈ s.requests, (parseCommand str).command.Same (.lit "exit")
  clientClosed : s.client.closed = true → ∃ str ∈ s.shown, str.Same (.lit "exit")

namespace InSession

variable {s : Session}

theorem requests_prefix (h : InSession s) : s.requests <+: s.texts := by
  obtain ⟨lost, hbetween, _⟩ := h.toServer
  exact hbetween.got_prefix

theorem shown_prefix (h : InSession s) : s.shown <+: Session.repliesFor s.requests := by
  obtain ⟨lost, hbetween, _⟩ := h.toClient
  exact hbetween.got_prefix

theorem replies_fit (h : InSession s) : ∀ reply ∈ Session.repliesFor s.texts, FitsFrame reply := by
  intro reply hreply
  rcases List.mem_cons.mp hreply with rfl | hreply
  · decide
  · obtain ⟨str, hstr, hreply⟩ := List.mem_flatMap.mp hreply
    exact Qt.replies_fit (h.questions str hstr).1 hreply

theorem reply_not_get {requests : List QString} {reply : QString}
    (hreply : reply ∈ Session.repliesFor requests) :
    ¬ reply.Same announcement := by
  intro hget
  rcases List.mem_cons.mp hreply with rfl | hreply
  · exact absurd hget (by decide)
  · obtain ⟨str, _, hreply⟩ := List.mem_flatMap.mp hreply
    have hshort : announcement.size < 28 := by decide
    obtain ⟨_, hexit⟩ := exit_of_reply hshort hreply hget
    have hdifferent : ¬ announcement.Same (.lit "exit") := by decide
    exact hdifferent (hget.symm.trans hexit)

theorem repliesFor_append (requests more : List QString) :
    Session.repliesFor (requests ++ more) = Session.repliesFor requests ++
      more.flatMap repliesTo := by
  rw [Session.repliesFor, List.flatMap_append]
  rfl

theorem inSession_start : InSession .start where
  questions _ h := absurd h List.not_mem_nil
  toServer := ⟨[], .start textFrame, fun _ => rfl⟩
  toClient := by
    refine ⟨[], ?_, fun _ => rfl⟩
    have hgreeting : ∀ reply ∈ [greeting], FitsFrame reply :=
      List.forall_mem_singleton.mpr (by decide)
    exact (Between.start textFrame).send frameDecoder_decodes hgreeting
  serverClosed := ⟨fun h => Bool.noConfusion h, fun ⟨_, h, _⟩ => absurd h List.not_mem_nil⟩
  clientClosed h := Bool.noConfusion h

theorem ask (h : InSession s) (hopen : s.client.closed = false) (question : Question) :
    InSession { s with
      texts := s.texts ++ [question.text]
      client := s.client.slotSendToServer question.text
      toServer := s.toServer ++ textFrame question.text } := by
  obtain ⟨lost, hbetween, hlost⟩ := h.toServer
  obtain rfl := hlost hopen
  refine ⟨?_, ⟨[], ?_, fun _ => rfl⟩, h.toClient, h.serverClosed, h.clientClosed⟩
  · exact List.forall_mem_append.mpr
      ⟨h.questions, List.forall_mem_singleton.mpr ⟨question.fits, question.notGet⟩⟩
  · have hfits : ∀ text ∈ [question.text], FitsFrame text := by
      rw [List.forall_mem_singleton, FitsFrame]
      exact Nat.le_of_add_right_le question.fits
    have hmore := hbetween.send frameDecoder_decodes hfits
    rwa [stream_cons, stream_nil, List.append_nil] at hmore

theorem atServer (h : InSession s) (edition : Edition) (currentPath : List UInt16) {d : Delivery}
    {way : List UInt8} (hopen : s.server.out.closed = false) (hway : s.toServer = d.bytes ++ way) :
    InSession { s with
      server := s.server.call edition currentPath d
      toServer := way
      toClient :=
    s.toClient ++ (s.server.call edition currentPath d).out.tx.drop s.server.out.tx.length } := by
  obtain ⟨hunread, hout, _⟩ := slotReadClient_spec edition currentPath d.disk
    ⟨s.server.reader.receive d.bytes, { s.server.out with served := 0 }⟩
  rw [FrameReader.unread_receive] at hunread hout
  -- the texts that the call reads
  obtain ⟨lost, hrequests, hlost⟩ := h.toServer
  rw [hway] at hrequests
  have hfits : ∀ text ∈ s.texts, FitsFrame text := fun text htext => by
    rw [FitsFrame]
    exact Nat.le_of_add_right_le (h.questions text htext).1
  have hread := hrequests.receive frameDecoder_decodes hfits
  generalize (frameDecoder.drain (s.server.reader.unread ++ d.bytes)).1 = strs at hout hread
  have hget : ∀ str ∈ strs, str.size + 28 ≤ 32765 ∧
      ¬ (parseCommand str).command.Same announcement := by
    intro str hstr
    exact h.questions str (hread.got_prefix.subset (List.mem_append_right _ hstr))
  -- and what it answers
  obtain ⟨htx, hclosed⟩ :=
    answerAll_of_notGet edition currentPath d.disk (fun str hstr => (hget str hstr).2)
    { s.server.out with served := 0 }
  rw [← hout] at htx hclosed
  have htexts : requestsOf (s.server.call edition currentPath d).out.txt = s.requests ++ strs := by
    rw [Slot.call, hout, requestsOf_answerAll]
    rfl
  have hwritten : (s.server.call edition currentPath d).out.tx.drop s.server.out.tx.length =
      stream textFrame (strs.flatMap repliesTo) := by
    rw [Slot.call, htx, List.drop_left]
  obtain ⟨lost', hreplies, hlost'⟩ := h.toClient
  obtain rfl := hlost' hopen
  refine ⟨h.questions, ⟨lost, ?_, hlost⟩, ⟨[], ?_, fun _ => rfl⟩, ?_, h.clientClosed⟩
  · rw [Session.requests, htexts]
    show Between textFrame s.texts (s.requests ++ strs)
      (s.server.call edition currentPath d).reader.unread way lost
    rw [Slot.call, hunread]
    exact hread
  · rw [Session.requests, htexts, repliesFor_append]
    show Between textFrame _ s.shown s.client.reader.unread (s.toClient ++ _) []
    rw [hwritten]
    apply hreplies.send frameDecoder_decodes
    intro reply hreply
    obtain ⟨str, hstr, hreply⟩ := List.mem_flatMap.mp hreply
    exact Qt.replies_fit (hget str hstr).1 hreply
  · rw [Session.requests, htexts]
    show (s.server.call edition currentPath d).out.closed = true ↔ _
    rw [Slot.call, hclosed]
    simp only [hopen, Bool.false_eq_true, false_or, List.mem_append]
    constructor
    · rintro ⟨str, hstr, hexit⟩
      exact ⟨str, Or.inr hstr, hexit⟩
    · rintro ⟨str, hstr | hstr, hexit⟩
      · exact absurd (h.serverClosed.mpr ⟨str, hstr, hexit⟩)
          (by rw [hopen]; exact Bool.false_ne_true)
      · exact ⟨str, hstr, hexit⟩

theorem atClient (h : InSession s) (clientPath : List UInt16) (canOpen : List UInt16 → Bool)
    {bytes way : List UInt8} (hopen : s.client.closed = false) (hway : s.toClient = bytes ++ way) :
    InSession { s with client := s.client.arrive clientPath canOpen bytes, toClient := way } := by
  obtain ⟨lost, hreplies, hlost⟩ := h.toClient
  rw [hway] at hreplies
  have hfits : ∀ reply ∈ Session.repliesFor s.requests, FitsFrame reply := by
    intro reply hreply
    apply h.replies_fit
    rcases List.mem_cons.mp hreply with rfl | hreply
    · exact List.mem_cons_self
    · obtain ⟨str, hstr, hreply⟩ := List.mem_flatMap.mp hreply
      exact List.mem_cons_of_mem _ (List.mem_flatMap.mpr ⟨str, h.requests_prefix.subset hstr, hreply⟩)
  have hshown := hreplies.receive frameDecoder_decodes hfits
  obtain ⟨hunread, hreceived, _, hclosed⟩ := slotReadyRead_texts clientPath canOpen
    (c := { s.client with reader := s.client.reader.receive bytes }) (by
      intro str hstr
      rw [FrameReader.unread_receive] at hstr
      exact reply_not_get (hshown.got_prefix.subset (List.mem_append_right _ hstr)))
  rw [FrameReader.unread_receive] at hunread hreceived hclosed
  obtain ⟨lost', hrequests, hlost'⟩ := h.toServer
  refine ⟨h.questions, ⟨lost', hrequests, fun _ => hlost' hopen⟩, ⟨lost, ?_, hlost⟩, h.serverClosed,
    fun hafter => ?_⟩
  · show Between textFrame _ (receivedOf (s.client.arrive clientPath canOpen bytes).shown)
      (s.client.arrive clientPath canOpen bytes).reader.unread way lost
    rw [TcpClient.arrive, hunread, hreceived]
    exact hshown
  · show ∃ str ∈ receivedOf (s.client.arrive clientPath canOpen bytes).shown, _
    rw [TcpClient.arrive, hreceived]
    rcases hclosed hafter with hbefore | ⟨str, hstr, hexit⟩
    · exact absurd (hopen.symm.trans hbefore) Bool.false_ne_true
    · exact ⟨str, List.mem_append_right _ hstr, hexit⟩

theorem step (h : InSession s) {edition : Edition} {currentPath clientPath : List UInt16}
    {canOpen : List UInt16 → Bool} {e : SessionEvent} {s' : Session}
    (hstep : s.step edition currentPath clientPath canOpen e = some s') : InSession s' := by
  cases e with
  | ask question =>
      rw [Session.step] at hstep
      split_ifs at hstep with hclosed
      cases hstep
      have hwritten : (s.client.slotSendToServer question.text).tx.drop s.client.tx.length =
          textFrame question.text :=
        List.drop_left
      rw [hwritten]
      exact h.ask (Bool.eq_false_of_not_eq_true hclosed) question
  | atServer d =>
      rw [Session.step] at hstep
      split_ifs at hstep with hready
      cases hstep
      exact h.atServer edition currentPath hready.1 (List.prefix_iff_eq_append.mp hready.2).symm
  | atClient bytes =>
      rw [Session.step] at hstep
      split_ifs at hstep with hready
      cases hstep
      exact h.atClient clientPath canOpen hready.1 (List.prefix_iff_eq_append.mp hready.2).symm
  | serverGone count =>
      rw [Session.step] at hstep
      split_ifs at hstep with hclosed
      cases hstep
      obtain ⟨lost, hreplies, _⟩ := h.toClient
      rw [← List.take_append_drop count s.toClient] at hreplies
      refine ⟨h.questions, h.toServer, ⟨_, hreplies.lose, fun hopen => ?_⟩, h.serverClosed,
        h.clientClosed⟩
      exact absurd (hopen.symm.trans hclosed) Bool.false_ne_true
  | clientGone count =>
      rw [Session.step] at hstep
      split_ifs at hstep with hclosed
      cases hstep
      obtain ⟨lost, hrequests, _⟩ := h.toServer
      rw [← List.take_append_drop count s.toServer] at hrequests
      refine ⟨h.questions, ⟨_, hrequests.lose, fun hopen => ?_⟩, h.toClient, h.serverClosed,
        h.clientClosed⟩
      exact absurd (hopen.symm.trans hclosed) Bool.false_ne_true

theorem server_closed (h : InSession s) (hclosed : s.client.closed = true) :
    s.server.out.closed = true := by
  obtain ⟨reply, hreply, hexit⟩ := h.clientClosed hclosed
  rcases List.mem_cons.mp (h.shown_prefix.subset hreply) with rfl | hreply
  · exact absurd hexit (by decide)
  · obtain ⟨str, hstr, hreply⟩ := List.mem_flatMap.mp hreply
    exact h.serverClosed.mpr ⟨str, hstr, (exit_of_reply (by decide) hreply hexit).1⟩

theorem arrived (h : InSession s) (hopen : s.server.out.closed = false)
    (htoServer : s.toServer = []) (htoClient : s.toClient = []) :
    s.requests = s.texts ∧ s.shown = Session.repliesFor s.texts := by
  have hclient : s.client.closed = false := by
    by_contra hclosed
    rw [h.server_closed (Bool.eq_true_of_not_eq_false hclosed)] at hopen
    cases hopen
  obtain ⟨lost, hrequests, hlost⟩ := h.toServer
  obtain ⟨lost', hreplies, hlost'⟩ := h.toClient
  obtain rfl := hlost hclient
  obtain rfl := hlost' hopen
  rw [htoServer] at hrequests
  rw [htoClient] at hreplies
  have hall := hrequests.arrived
  rw [← hall]
  exact ⟨rfl, hreplies.arrived⟩

end InSession

/-- What holds of a session as it goes on: the server has read a beginning of the texts, the client
shows a beginning of the replies to what the server has read; if nothing is under way, it is all of
them. The server's window is closed by an `exit` and by nothing else, and the client's not before
the server's. -/
structure Session.InOrder (s : Session) : Prop where
  requests : s.requests <+: s.texts
  shown : s.shown <+: Session.repliesFor s.requests
  arrived : s.server.out.closed = false → s.toServer = [] → s.toClient = [] →
    s.requests = s.texts ∧ s.shown = Session.repliesFor s.texts
  serverClosed : s.server.out.closed = true ↔
      ∃ str ∈ s.requests, (parseCommand str).command.Same (.lit "exit")
  clientClosed : s.client.closed = true → s.server.out.closed = true

theorem InSession.inOrder {s : Session} (h : InSession s) : s.InOrder :=
  ⟨h.requests_prefix, h.shown_prefix, h.arrived, h.serverClosed, h.server_closed⟩

/-- In whatever order the user sends texts and the two programs get hold of what has been written,
and however it is cut, the session is in order. -/
theorem session_in_order (edition : Edition) (currentPath clientPath : List UInt16)
    (canOpen : List UInt16 → Bool) (events : List SessionEvent) :
    Runs.Always (Session.step edition currentPath clientPath canOpen) Session.InOrder
      .start events :=
  (Runs.always_of_step (fun _ _ _ h hstep => h.step hstep) InSession.inSession_start events).mono fun _ h =>
    h.inOrder

end NetworkHomework.Qt
