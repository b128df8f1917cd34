import NetworkHomework.Base.Runs
import NetworkHomework.UdpEcho.Server

/-!
# Clients, server and network

Any number of clients send the lines they read to one server and show what comes back. The network
loses, copies and reorders datagrams as it likes. What a client shows is the server's text of one of
its own lines (`shown_own`), a client leaves only with the server (`leaves_with_server`), and where
the network neither loses nor copies, a client sees the answers to its lines in their order, up to a
blank one (`shown_in_order`).
-/

namespace NetworkHomework.UdpEcho

open Text

/-! ### The client -/

/-- What the client sends for a line; `none` if `trim` throws. A text that is too long is cut, and
its last byte is a terminator. -/
def sendText (line : List UInt8) : Option (List UInt8) := do
  let text ← trim line
  some (if text.length ≥ maxMessageLength then text.take (maxMessageLength - 1) ++ [0] else text)

/-- The lines that the client has read, the answers that it has shown, whether it waits in
`recvfrom`, and whether it has not left its loop. -/
structure Client where
  lines : List (List UInt8)
  shown : List (List UInt8)
  waiting : Bool
  run : Bool

namespace Client

def start : Client := ⟨[], [], false, true⟩

/-- `recvfrom` takes so much of a datagram as fits; an empty one is as good as none. -/
def answered (c : Client) (bytes : List UInt8) : Client :=
  let answer := bytes.take (maxMessageLength - 1)
  if answer = [] then { c with waiting := false }
  else { c with shown := c.shown ++ [answer], waiting := false, run := answer ≠ exitCommand }

end Client

/-! ### The system -/

/-- What `recvfrom` of the server takes of a datagram. -/
def received {Address : Type} (d : Address × List UInt8) : Datagram Address :=
  ⟨d.1, d.2.take (maxMessageLength - 1), List.length_take_le _ _⟩

/-- The server until it throws, the clients, and the datagrams that are under way in the two
directions. -/
structure System (Address : Type) where
  server : Option (Server Address)
  clients : Address → Client
  toServer : Multiset (Address × List UInt8)
  toClient : Multiset (Address × List UInt8)

/-- A client reads a line; a datagram arrives, is lost or is copied; a `recvfrom` fails. -/
inductive Event (Address : Type) where
  | enter (a : Address) (line : List UInt8)
  | atServer (d : Address × List UInt8)
  | atClient (d : Address × List UInt8)
  | lostToServer (d : Address × List UInt8)
  | lostToClient (d : Address × List UInt8)
  | copiedToServer (d : Address × List UInt8)
  | copiedToClient (d : Address × List UInt8)
  | serverFails
  | clientFails (a : Address)

variable {Address : Type}

def Event.reliable : Event Address → Bool
  | .enter _ _ => true
  | .atServer _ => true
  | .atClient _ => true
  | _ => false

namespace System

def listening (s : System Address) : Option (Server Address) :=
  s.server.bind fun v => if v.run then some v else none

def start (buffer : List UInt8) (clientAddress : Address) : System Address :=
  ⟨some (Server.start buffer clientAddress), fun _ => Client.start, 0, 0⟩

variable [DecidableEq Address]

def setClient (s : System Address) (a : Address) (c : Client) : System Address :=
  { s with clients := Function.update s.clients a c }

theorem setClient_clients_self (s : System Address) (a : Address) (c : Client) :
    (s.setClient a c).clients a = c := by
  show Function.update s.clients a c a = c
  rw [Function.update_self]

theorem setClient_clients_of_ne {a b : Address} (h : b ≠ a) (s : System Address) (c : Client) :
    (s.setClient a c).clients b = s.clients b := by
  show Function.update s.clients a c b = s.clients b
  rw [Function.update_of_ne h]

/-- `none` where the event cannot happen. -/
def step (s : System Address) : Event Address → Option (System Address)
  | .enter a line =>
      if (s.clients a).run ∧ ¬ (s.clients a).waiting then
        (sendText line).map fun text =>
          { s.setClient a { s.clients a with lines := (s.clients a).lines ++ [line], waiting := true } with
            toServer := (a, text) ::ₘ s.toServer }
      else none
  | .atServer d =>
      if d ∈ s.toServer then
        s.listening.map fun v =>
          match turn v (.received (received d)) with
          | none => { s with server := none, toServer := s.toServer.erase d }
          | some v' =>
              { s with
                server := some v'
                toServer := s.toServer.erase d
                toClient := ↑(v'.sent.drop v.sent.length) + s.toClient }
      else none
  | .atClient d =>
      if d ∈ s.toClient ∧ (s.clients d.1).waiting then
        some { s.setClient d.1 ((s.clients d.1).answered d.2) with toClient := s.toClient.erase d }
      else none
  | .lostToServer d =>
      if d ∈ s.toServer then some { s with toServer := s.toServer.erase d } else none
  | .lostToClient d =>
      if d ∈ s.toClient then some { s with toClient := s.toClient.erase d } else none
  | .copiedToServer d =>
      if d ∈ s.toServer then some { s with toServer := d ::ₘ s.toServer } else none
  | .copiedToClient d =>
      if d ∈ s.toClient then some { s with toClient := d ::ₘ s.toClient } else none
  | .serverFails =>
      s.listening.map fun v => { s with server := turn v .failed }
  | .clientFails a =>
      if (s.clients a).waiting then
        some (s.setClient a { s.clients a with waiting := false }) else none

end System

/-! ### What a line comes to -/

def textOf (line : List UInt8) : List UInt8 :=
  if (stripped line).length ≥ maxMessageLength then
    (stripped line).take (maxMessageLength - 1) ++ [0]
  else stripped line

def answerTo (line : List UInt8) : List UInt8 :=
  stripped ((textOf line).take (maxMessageLength - 1))

theorem sendText_eq (line : List UInt8) : sendText line = some (textOf line) := by
  rw [sendText, trim_eq]
  rfl

theorem stripped_length_le (s : List UInt8) : (stripped s).length ≤ s.length := by
  obtain ⟨⟨a, b, _, _, hs⟩, _⟩ := stripped_trimmed s
  have hlength := congrArg List.length hs
  rw [List.length_append, List.length_append] at hlength
  omega

theorem answerTo_take (line : List UInt8) :
    (answerTo line).take (maxMessageLength - 1) = answerTo line := by
  apply List.take_of_length_le
  exact Nat.le_trans (stripped_length_le _) (List.length_take_le _ _)

theorem answerTo_eq_nil_iff (line : List UInt8) : answerTo line = [] ↔ textOf line = [] := by
  have hpos : 0 < maxMessageLength - 1 := by decide
  constructor
  · intro h
    by_contra hne
    rcases (stripped_trimmed line).ends with hnil | ⟨⟨c, hc, hws⟩, _⟩
    · apply hne
      rw [textOf, hnil, if_neg (by decide)]
    · -- the text begins with what is not white space, and so does the part of it that arrives
      have hfront : c ∈ ((textOf line).take (maxMessageLength - 1)).head? := by
        rw [List.head?_take, if_neg (Nat.ne_of_gt hpos), textOf]
        split_ifs
        · rw [List.head?_append, List.head?_take, if_neg (Nat.ne_of_gt hpos), hc]
          rfl
        · exact hc
      obtain ⟨⟨a, b, ha, hb, hcut⟩, _⟩ :=
        stripped_trimmed ((textOf line).take (maxMessageLength - 1))
      rw [← answerTo, h, List.append_nil] at hcut
      have hmem : c ∈ a ++ b := hcut ▸ List.mem_of_mem_head? hfront
      rcases List.mem_append.mp hmem with hmem | hmem
      · exact hws (ha c hmem)
      · exact hws (hb c hmem)
  · intro h
    rw [answerTo, h, List.take_nil]
    rfl

theorem turn_received_eq (v : Server Address) (d : Address × List UInt8) :
    ∃ v', turn v (.received (received d)) = some v' ∧
      v'.sent.drop v.sent.length = answer (.received (received d)) ∧
      v'.run = if IsExit (.received (received d)) then false else v.run := by
  obtain ⟨v', hturn, hsent, hrun⟩ := turn_received v (received d)
  refine ⟨v', hturn, ?_, hrun⟩
  rw [hsent, List.drop_left]

theorem answer_textOf (a : Address) (line : List UInt8) :
    answer (.received (received (a, textOf line))) =
      if answerTo line = [] then [] else [(a, answerTo line)] := by
  have hempty : (textOf line).take (maxMessageLength - 1) = [] ↔ answerTo line = [] := by
    rw [answerTo_eq_nil_iff, List.take_eq_nil_iff]
    exact or_iff_right (by decide)
  show (if (textOf line).take (maxMessageLength - 1) = [] then [] else [(a, answerTo line)]) = _
  simp only [hempty]

/-! ### What an event does -/

section Moved

variable [DecidableEq Address]

/-- Everything that an event can do, where it happens. -/
inductive Moved (s : System Address) : Event Address → System Address → Prop where
  | entered {a : Address} {line : List UInt8} (hrun : (s.clients a).run = true)
      (hidle : (s.clients a).waiting = false) :
      Moved s (.enter a line)
        { s.setClient a { s.clients a with lines := (s.clients a).lines ++ [line], waiting := true } with
          toServer := (a, textOf line) ::ₘ s.toServer }
  | served {d : Address × List UInt8} {v v' : Server Address} (hd : d ∈ s.toServer)
      (hv : s.listening = some v)
      (hrun : v'.run = if IsExit (.received (received d)) then false else v.run) :
      Moved s (.atServer d)
        { s with
          server := some v'
          toServer := s.toServer.erase d
          toClient := ↑(answer (.received (received d))) + s.toClient }
  | answered {d : Address × List UInt8} (hd : d ∈ s.toClient)
      (hwaiting : (s.clients d.1).waiting = true) :
      Moved s (.atClient d)
        { s.setClient d.1 ((s.clients d.1).answered d.2) with toClient := s.toClient.erase d }
  | requests {e : Event Address} {bag : Multiset (Address × List UInt8)} (he : e.reliable = false)
      (hbag : ∀ d ∈ bag, d ∈ s.toServer) : Moved s e { s with toServer := bag }
  | answers {e : Event Address} {bag : Multiset (Address × List UInt8)} (he : e.reliable = false)
      (hbag : ∀ d ∈ bag, d ∈ s.toClient) : Moved s e { s with toClient := bag }
  | serverFailed : Moved s .serverFails { s with server := none }
  | clientFailed {a : Address} :
      Moved s (.clientFails a) (s.setClient a { s.clients a with waiting := false })

theorem step_moved {s s' : System Address} {e : Event Address} (h : s.step e = some s') :
    Moved s e s' := by
  cases e with
  | enter a line =>
      rw [System.step] at h
      split_ifs at h with hready
      rw [sendText_eq] at h
      cases h
      exact .entered hready.1 (Bool.eq_false_of_not_eq_true hready.2)
  | atServer d =>
      rw [System.step] at h
      split_ifs at h with hd
      obtain ⟨v, hv, rfl⟩ := Option.map_eq_some_iff.mp h
      obtain ⟨v', hturn, hsent, hrun⟩ := turn_received_eq v d
      rw [hturn]
      dsimp only
      rw [hsent]
      exact .served hd hv hrun
  | atClient d =>
      rw [System.step] at h
      split_ifs at h with hd
      cases h
      exact .answered hd.1 hd.2
  | lostToServer d =>
      rw [System.step] at h
      split_ifs at h with hd
      cases h
      exact .requests rfl fun _ hmem => Multiset.mem_of_mem_erase hmem
  | lostToClient d =>
      rw [System.step] at h
      split_ifs at h with hd
      cases h
      exact .answers rfl fun _ hmem => Multiset.mem_of_mem_erase hmem
  | copiedToServer d =>
      rw [System.step] at h
      split_ifs at h with hd
      cases h
      exact .requests rfl fun _ hmem => (Multiset.mem_cons.mp hmem).elim (fun heq => heq ▸ hd) id
  | copiedToClient d =>
      rw [System.step] at h
      split_ifs at h with hd
      cases h
      exact .answers rfl fun _ hmem => (Multiset.mem_cons.mp hmem).elim (fun heq => heq ▸ hd) id
  | serverFails =>
      obtain ⟨v, _, rfl⟩ := Option.map_eq_some_iff.mp h
      rw [turn_failed]
      exact .serverFailed
  | clientFails a =>
      rw [System.step] at h
      split_ifs at h
      cases h
      exact .clientFailed

end Moved

/-! ### What holds whatever the network does -/

/-- The server's `exit` has come to a client, or is on its way. -/
def Exits (s : System Address) (a : Address) : Prop :=
  exitCommand ∈ (s.clients a).shown ∨ (a, exitCommand) ∈ s.toClient

structure Safe (s : System Address) : Prop where
  requests : ∀ d ∈ s.toServer, ∃ line ∈ (s.clients d.1).lines, d.2 = textOf line
  answers : ∀ d ∈ s.toClient, ∃ line ∈ (s.clients d.1).lines, d.2 = answerTo line
  shown : ∀ a, ∀ x ∈ (s.clients a).shown, ∃ line ∈ (s.clients a).lines, x = answerTo line
  left : ∀ a, (s.clients a).run = false → exitCommand ∈ (s.clients a).shown
  quiet : s.listening ≠ none → ∀ a, ¬ Exits s a
  once : ∀ a b, Exits s a → Exits s b → a = b
  stopped : ∀ v, s.server = some v → v.run = false → ∃ a, ∃ line ∈ (s.clients a).lines,
      answerTo line = exitCommand

theorem safe_start (buffer : List UInt8) (clientAddress : Address) :
    Safe (System.start buffer clientAddress : System Address) where
  requests := fun d hd => absurd hd (Multiset.notMem_zero d)
  answers := fun d hd => absurd hd (Multiset.notMem_zero d)
  shown := fun _ x hx => absurd hx List.not_mem_nil
  left := fun _ h => Bool.noConfusion h
  quiet := fun _ a h => h.elim List.not_mem_nil (Multiset.notMem_zero _)
  once := fun a _ h _ => (h.elim List.not_mem_nil (Multiset.notMem_zero _)).elim
  stopped := fun v hv hrun => by
    obtain rfl := Option.some.inj hv
    exact Bool.noConfusion hrun

/-- What keeps the invariant apart from the server's turn: lines are added, what is shown has been
under way, a client leaves for an `exit` only, and no answer is made. -/
theorem Safe.keep {s s' : System Address} (h : Safe s)
    (hlines : ∀ a, ∀ line ∈ (s.clients a).lines, line ∈ (s'.clients a).lines)
    (hshown : ∀ a, ∀ x ∈ (s'.clients a).shown, x ∈ (s.clients a).shown ∨ (a, x) ∈ s.toClient)
    (hleft : ∀ a, (s'.clients a).run = false → exitCommand ∈ (s'.clients a).shown)
    (hrequests : ∀ d ∈ s'.toServer, d ∈ s.toServer ∨ ∃ line ∈ (s'.clients d.1).lines,
      d.2 = textOf line)
    (hanswers : ∀ d ∈ s'.toClient, d ∈ s.toClient) (hserver : s'.server = s.server ∨
      s'.server = none) : Safe s' := by
  have hexits : ∀ a, Exits s' a → Exits s a := fun a ha =>
    ha.elim (hshown a exitCommand) fun hsent => Or.inr (hanswers _ hsent)
  constructor
  · intro d hd
    rcases hrequests d hd with hold | hnew
    · obtain ⟨line, hline, heq⟩ := h.requests d hold
      exact ⟨line, hlines _ line hline, heq⟩
    · exact hnew
  · intro d hd
    obtain ⟨line, hline, heq⟩ := h.answers d (hanswers d hd)
    exact ⟨line, hlines _ line hline, heq⟩
  · intro a x hx
    rcases hshown a x hx with hold | hsent
    · obtain ⟨line, hline, heq⟩ := h.shown a x hold
      exact ⟨line, hlines a line hline, heq⟩
    · obtain ⟨line, hline, heq⟩ := h.answers _ hsent
      exact ⟨line, hlines a line hline, heq⟩
  · exact hleft
  · intro hlistening a ha
    rcases hserver with heq | hnone
    · rw [System.listening, heq] at hlistening
      exact h.quiet hlistening a (hexits a ha)
    · exact hlistening (by rw [System.listening, hnone]; rfl)
  · exact fun a b ha hb => h.once a b (hexits a ha) (hexits b hb)
  · intro v hv hstopped
    rcases hserver with heq | hnone
    · obtain ⟨a, line, hline, hexit⟩ := h.stopped v (heq ▸ hv) hstopped
      exact ⟨a, line, hlines a line hline, hexit⟩
    · cases hnone.symm.trans hv

theorem Safe.keepClient [DecidableEq Address] {s : System Address} (h : Safe s) {a : Address}
    {c : Client} {requests answers : Multiset (Address × List UInt8)}
    (hlines : ∀ line ∈ (s.clients a).lines, line ∈ c.lines)
    (hshown : ∀ x ∈ c.shown, x ∈ (s.clients a).shown ∨ (a, x) ∈ s.toClient)
    (hleft : c.run = false → exitCommand ∈ c.shown)
    (hrequests : ∀ d ∈ requests, d ∈ s.toServer ∨ ∃ line ∈ c.lines, d = (a, textOf line))
    (hanswers : ∀ d ∈ answers, d ∈ s.toClient) :
    Safe { s.setClient a c with toServer := requests, toClient := answers } := by
  have hforall {P : Address → Client → Prop} (ha : P a c) (hs : ∀ b, P b (s.clients b)) :
      ∀ b, P b ((s.setClient a c).clients b) :=
    (Function.forall_update_iff _ _).mpr ⟨ha, fun b _ => hs b⟩
  refine h.keep ?_ ?_ ?_ ?_ hanswers (Or.inl rfl)
  · exact hforall (P := fun b c => ∀ line ∈ (s.clients b).lines, line ∈ c.lines) hlines
      fun _ _ hline => hline
  · exact hforall (P := fun b c => ∀ x ∈ c.shown, x ∈ (s.clients b).shown ∨
      (b, x) ∈ s.toClient) hshown
      fun _ _ hx => Or.inl hx
  · exact hforall (P := fun _ c => c.run = false → exitCommand ∈ c.shown) hleft h.left
  · intro d hd
    refine (hrequests d hd).imp_right ?_
    rintro ⟨line, hline, rfl⟩
    refine ⟨line, ?_, rfl⟩
    show line ∈ ((s.setClient a c).clients a).lines
    rwa [System.setClient_clients_self]

theorem listening_eq_some {s : System Address} {v : Server Address} (h : s.listening = some v) :
    s.server = some v ∧ v.run = true := by
  rw [System.listening, Option.bind_eq_some_iff] at h
  obtain ⟨w, hw, hrun⟩ := h
  split_ifs at hrun with hw'
  obtain rfl := Option.some.inj hrun
  exact ⟨hw, hw'⟩

theorem Safe.serve [DecidableEq Address] {s : System Address} (h : Safe s)
    {d : Address × List UInt8} {v v' : Server Address} (hd : d ∈ s.toServer)
    (hv : s.listening = some v)
    (hrun : v'.run = if IsExit (.received (received d)) then false else v.run) :
    Safe { s with
      server := some v'
      toServer := s.toServer.erase d
      toClient := ↑(answer (.received (received d))) + s.toClient } := by
  obtain ⟨a, text⟩ := d
  obtain ⟨line, hline, htext⟩ := h.requests _ hd
  obtain rfl : text = textOf line := htext
  have hquiet := h.quiet (by rw [hv]; exact Option.some_ne_none v)
  have hnew : ∀ d ∈ ↑(answer (.received (received (a, textOf line)))) + s.toClient,
      d = (a, answerTo line) ∨ d ∈ s.toClient := by
    intro d hd
    rw [answer_textOf, Multiset.mem_add, Multiset.mem_coe] at hd
    split_ifs at hd
    · exact hd.imp_left fun hnil => absurd hnil List.not_mem_nil
    · exact hd.imp_left List.mem_singleton.mp
  -- an `exit` that is under way now is this answer
  have hexits : ∀ b, exitCommand ∈ (s.clients b).shown ∨
      (b, exitCommand) ∈ ↑(answer (.received (received (a, textOf line)))) + s.toClient →
      b = a ∧ answerTo line = exitCommand := by
    intro b hb
    rcases hb with hshown | hsent
    · exact absurd (Or.inl hshown) (hquiet b)
    · rcases hnew _ hsent with heq | hold
      · exact ⟨congrArg Prod.fst heq, (congrArg Prod.snd heq).symm⟩
      · exact absurd (Or.inr hold) (hquiet b)
  constructor
  · exact fun d hd => h.requests d (Multiset.mem_of_mem_erase hd)
  · intro d hd
    rcases hnew d hd with rfl | hold
    · exact ⟨line, hline, rfl⟩
    · exact h.answers d hold
  · exact h.shown
  · exact h.left
  · intro hlistening b hb
    obtain ⟨_, hexit⟩ := hexits b hb
    rw [if_pos (show IsExit (.received (received (a, textOf line))) from hexit)] at hrun
    apply hlistening
    show (if v'.run then some v' else none) = none
    rw [hrun]
    rfl
  · exact fun b c hb hc => (hexits b hb).1.trans (hexits c hc).1.symm
  · intro w hw hstopped
    obtain rfl := Option.some.inj hw
    rw [hrun] at hstopped
    split_ifs at hstopped with hexit
    · exact ⟨a, line, hline, hexit⟩
    · rw [(listening_eq_some hv).2] at hstopped
      cases hstopped

theorem Safe.answer [DecidableEq Address] {s : System Address} (h : Safe s)
    {d : Address × List UInt8} (hd : d ∈ s.toClient) :
    Safe { s.setClient d.1 ((s.clients d.1).answered d.2) with
      toClient := s.toClient.erase d } := by
  obtain ⟨a, text⟩ := d
  obtain ⟨line, _, htext⟩ := h.answers _ hd
  obtain rfl : text = answerTo line := htext
  have hanswers : ∀ d ∈ s.toClient.erase (a, answerTo line), d ∈ s.toClient :=
    fun _ => Multiset.mem_of_mem_erase
  dsimp only
  rw [Client.answered, answerTo_take]
  split_ifs with hempty
  · exact h.keepClient (fun _ hline => hline) (fun _ hx => Or.inl hx) (h.left a) (fun _ hd =>
      Or.inl hd) hanswers
  · refine h.keepClient (fun _ hline => hline) ?_ ?_ (fun _ hd => Or.inl hd) hanswers
    · intro x hx
      refine (List.mem_append.mp hx).imp_right fun hx => ?_
      rwa [List.mem_singleton.mp hx]
    · intro hleft
      have hexit : answerTo line = exitCommand := of_not_not (of_decide_eq_false hleft)
      exact List.mem_append_right _ (hexit ▸ List.mem_singleton_self _)

theorem Safe.step [DecidableEq Address] {s s' : System Address} {e : Event Address} (h : Safe s)
    (hstep : s.step e = some s') : Safe s' := by
  cases step_moved hstep with
  | entered hrun hidle =>
      apply h.keepClient
      · exact fun _ hline => List.mem_append_left _ hline
      · exact fun _ hx => Or.inl hx
      · exact h.left _
      · intro d hd
        refine (Multiset.mem_cons.mp hd).symm.imp_right fun heq => ?_
        exact ⟨_, List.mem_append_right _ (List.mem_singleton_self _), heq⟩
      · exact fun _ hd => hd
  | served hd hv hrun => exact h.serve hd hv hrun
  | answered hd hwaiting => exact h.answer hd
  | requests he hbag =>
      exact h.keep (fun _ _ hline => hline) (fun _ _ hx => Or.inl hx) h.left (fun d hd =>
        Or.inl (hbag d hd))
        (fun _ hd => hd) (Or.inl rfl)
  | answers he hbag =>
      exact h.keep (fun _ _ hline => hline) (fun _ _ hx => Or.inl hx) h.left (fun _ hd => Or.inl hd)
        hbag (Or.inl rfl)
  | serverFailed =>
      exact h.keep (fun _ _ hline => hline) (fun _ _ hx => Or.inl hx) h.left (fun _ hd => Or.inl hd)
        (fun _ hd => hd) (Or.inr rfl)
  | clientFailed =>
      exact h.keepClient (fun _ hline => hline) (fun _ hx => Or.inl hx) (h.left _)
        (fun _ hd => Or.inl hd)
        fun _ hd => hd

theorem safe_run [DecidableEq Address] (buffer : List UInt8) (clientAddress : Address)
    (events : List (Event Address)) :
    Runs.Always System.step Safe (System.start buffer clientAddress) events :=
  Runs.always_of_step (fun _ _ _ h hstep => h.step hstep) (safe_start buffer clientAddress) events

/-- **Answers.** Whatever the network loses, copies and reorders and whoever fails, what a client
shows are the server's answers to lines of its own. -/
theorem shown_own [DecidableEq Address] (buffer : List UInt8) (clientAddress : Address)
    (events : List (Event Address)) :
    Runs.Always System.step (fun s => ∀ a, ∀ x ∈ (s.clients a).shown, ∃ line ∈ (s.clients a).lines,
      x = answerTo line)
      (System.start buffer clientAddress) events :=
  (safe_run buffer clientAddress events).mono fun _ h => h.shown

/-- **Leaving.** A client leaves its loop only for the answer to an `exit` of its own, and then the
server has left its loop or is gone; so no two clients leave. The server leaves its loop for a
client's line only. -/
theorem leaves_with_server [DecidableEq Address] (buffer : List UInt8) (clientAddress : Address)
    (events : List (Event Address)) :
    Runs.Always System.step
      (fun s =>
        (∀ a, (s.clients a).run = false →
          s.listening.isNone ∧ ∃ line ∈ (s.clients a).lines, answerTo line = exitCommand) ∧
        (∀ a b, (s.clients a).run = false → (s.clients b).run = false → a = b) ∧
        ∀ v, s.server = some v → v.run = false →
          ∃ a, ∃ line ∈ (s.clients a).lines, answerTo line = exitCommand)
      (System.start buffer clientAddress) events := by
  refine (safe_run buffer clientAddress events).mono fun s h => ⟨?_, ?_, h.stopped⟩
  · intro a ha
    have hexit := h.left a ha
    obtain ⟨line, hline, heq⟩ := h.shown a _ hexit
    refine ⟨?_, line, hline, heq.symm⟩
    rw [Option.isNone_iff_eq_none]
    by_contra hlistening
    exact h.quiet hlistening a (Or.inl hexit)
  · exact fun a b ha hb => h.once a b (Or.inl (h.left a ha)) (Or.inl (h.left b hb))

/-! ### A network that neither loses nor copies -/

theorem mem_answer {d x : Address × List UInt8} (hx : x ∈ answer (.received (received d))) :
    x.1 = d.1 := by
  rw [answer] at hx
  split_ifs at hx
  · exact absurd hx List.not_mem_nil
  · rw [List.mem_singleton.mp hx]
    rfl

section Own

variable [DecidableEq Address]

def own (a : Address) (bag : Multiset (Address × List UInt8)) : Multiset (Address × List UInt8) :=
  bag.filter fun d => d.1 = a

theorem own_cons_self (a : Address) (text : List UInt8) (bag : Multiset (Address × List UInt8)) :
    own a ((a, text) ::ₘ bag) = (a, text) ::ₘ own a bag := Multiset.filter_cons_of_pos bag rfl

theorem own_cons_of_ne {a : Address} {d : Address × List UInt8} (h : d.1 ≠ a)
    (bag : Multiset (Address × List UInt8)) : own a (d ::ₘ bag) = own a bag :=
  Multiset.filter_cons_of_neg bag h

theorem own_erase_self {d : Address × List UInt8} {bag : Multiset (Address × List UInt8)}
    (hd : d ∈ bag) :
    own d.1 bag = d ::ₘ own d.1 (bag.erase d) := by
  conv_lhs => rw [← Multiset.cons_erase hd]
  exact Multiset.filter_cons_of_pos _ rfl

theorem own_erase_of_ne {a : Address} {d : Address × List UInt8}
    {bag : Multiset (Address × List UInt8)} (h : d.1 ≠ a) (hd : d ∈ bag) :
    own a (bag.erase d) = own a bag := by
  conv_rhs => rw [← Multiset.cons_erase hd]
  exact (own_cons_of_ne h _).symm

theorem own_answer_self (d : Address × List UInt8) :
    own d.1 ↑(answer (.received (received d))) = ↑(answer (.received (received d))) :=
  Multiset.filter_eq_self.mpr fun _ hx => mem_answer hx

theorem own_answer_of_ne {a : Address} {d : Address × List UInt8} (h : d.1 ≠ a) :
    own a ↑(answer (.received (received d))) = 0 :=
  Multiset.filter_eq_nil.mpr fun _ hx heq => h ((mem_answer hx).symm.trans heq)

end Own

/-- Where a client stands, by what is under way to or from it: it is ready, its last line is under
way, or the answer is, or its last line has come to nothing. -/
inductive Phase (a : Address) (c : Client) (requests answers : Multiset (Address × List UInt8)) :
    Prop where
  | ready (hwaiting : c.waiting = false) (hshown : c.shown = c.lines.map answerTo)
      (hrequests : requests = 0)
      (hanswers : answers = 0)
  | asked {front : List (List UInt8)} {line : List UInt8} (hwaiting : c.waiting = true)
      (hlines : c.lines = front ++ [line]) (hshown : c.shown = front.map answerTo)
      (hrequests : requests = {(a, textOf line)}) (hanswers : answers = 0)
  | answered {front : List (List UInt8)} {line : List UInt8} (hwaiting : c.waiting = true)
      (hlines : c.lines = front ++ [line]) (hshown : c.shown = front.map answerTo)
        (hanswer : answerTo line ≠ [])
      (hrequests : requests = 0) (hanswers : answers = {(a, answerTo line)})
  | stuck {front : List (List UInt8)} {line : List UInt8} (hwaiting : c.waiting = true)
      (hlines : c.lines = front ++ [line]) (hshown : c.shown = front.map answerTo)
        (hanswer : answerTo line = [])
      (hrequests : requests = 0) (hanswers : answers = 0)

theorem Phase.enter {a : Address} {c : Client} {requests answers : Multiset (Address × List UInt8)}
    (h : Phase a c requests answers) (hwaiting : c.waiting = false) (line : List UInt8) :
    Phase a { c with lines := c.lines ++ [line], waiting := true } ((a, textOf line) ::ₘ requests)
      answers := by
  cases h with
  | ready _ hshown hrequests hanswers =>
      subst hrequests
      exact .asked rfl rfl hshown rfl hanswers
  | asked hbusy => cases hwaiting.symm.trans hbusy
  | answered hbusy => cases hwaiting.symm.trans hbusy
  | stuck hbusy => cases hwaiting.symm.trans hbusy

theorem Phase.serve {a : Address} {c : Client} {text : List UInt8}
    {requests answers : Multiset (Address × List UInt8)}
    (h : Phase a c ((a, text) ::ₘ requests) answers) :
    Phase a c requests (↑(answer (.received (received (a, text)))) + answers) := by
  cases h with
  | ready _ _ hrequests => exact absurd hrequests Multiset.cons_ne_zero
  | answered _ _ _ _ hrequests => exact absurd hrequests Multiset.cons_ne_zero
  | stuck _ _ _ _ hrequests => exact absurd hrequests Multiset.cons_ne_zero
  | @asked front line hwaiting hlines hshown hrequests hanswers =>
      obtain ⟨heq, rfl⟩ := (Multiset.singleton_eq_cons_iff requests).mp hrequests.symm
      obtain rfl : textOf line = text := congrArg Prod.snd heq
      subst hanswers
      rw [answer_textOf, add_zero]
      by_cases hanswer : answerTo line = []
      · rw [if_pos hanswer]
        exact .stuck hwaiting hlines hshown hanswer rfl rfl
      · rw [if_neg hanswer]
        exact .answered hwaiting hlines hshown hanswer rfl rfl

theorem Phase.answer {a : Address} {c : Client} {text : List UInt8}
    {requests answers : Multiset (Address × List UInt8)}
    (h : Phase a c requests ((a, text) ::ₘ answers)) :
    Phase a (c.answered text) requests answers ∧
    ∃ x ≠ [], (c.answered text).shown = c.shown ++ [x] := by
  cases h with
  | ready _ _ _ hanswers => exact absurd hanswers Multiset.cons_ne_zero
  | asked _ _ _ _ hanswers => exact absurd hanswers Multiset.cons_ne_zero
  | stuck _ _ _ _ _ hanswers => exact absurd hanswers Multiset.cons_ne_zero
  | @answered front line hwaiting hlines hshown hanswer hrequests hanswers =>
      obtain ⟨heq, rfl⟩ := (Multiset.singleton_eq_cons_iff answers).mp hanswers.symm
      obtain rfl : answerTo line = text := congrArg Prod.snd heq
      rw [Client.answered, answerTo_take, if_neg hanswer]
      refine ⟨.ready rfl ?_ hrequests rfl, _, hanswer, rfl⟩
      show c.shown ++ [answerTo line] = c.lines.map answerTo
      rw [hshown, hlines, List.map_append]
      rfl

section Orderly

variable [DecidableEq Address]

/-- Every client is in one of its phases, and no answer that it has shown is empty. -/
def Orderly (s : System Address) : Prop :=
  ∀ a, Phase a (s.clients a) (own a s.toServer) (own a s.toClient) ∧ [] ∉ (s.clients a).shown

theorem orderly_start (buffer : List UInt8) (clientAddress : Address) :
    Orderly (System.start buffer clientAddress) :=
  fun _ => ⟨.ready rfl rfl rfl rfl, List.not_mem_nil⟩

theorem Orderly.step {s s' : System Address} {e : Event Address} (h : Orderly s)
    (he : e.reliable = true) (hstep : s.step e = some s') : Orderly s' := by
  intro b
  obtain ⟨hphase, hblank⟩ := h b
  cases step_moved hstep with
  | @entered a line hrun hidle =>
      show Phase b ((s.setClient a _).clients b) (own b ((a, textOf line) ::ₘ s.toServer))
        (own b s.toClient) ∧
        [] ∉ ((s.setClient a _).clients b).shown
      rcases eq_or_ne b a with rfl | hb
      · rw [own_cons_self, System.setClient_clients_self]
        exact ⟨hphase.enter hidle line, hblank⟩
      · rw [own_cons_of_ne hb.symm, System.setClient_clients_of_ne hb]
        exact ⟨hphase, hblank⟩
  | @served d v v' hd hv hrun =>
      refine ⟨?_, hblank⟩
      show Phase b (s.clients b) (own b (s.toServer.erase d))
        (own b (↑(answer (.received (received d))) + s.toClient))
      rw [own, own, Multiset.filter_add]
      rcases eq_or_ne d.1 b with rfl | hb
      · rw [own_erase_self hd] at hphase
        have hserve := hphase.serve
        rw [← own_answer_self] at hserve
        exact hserve
      · have hnone := own_answer_of_ne hb
        have hold := own_erase_of_ne hb hd
        rw [own] at hnone hold
        rw [hnone, hold, zero_add]
        exact hphase
  | @answered d hd hwaiting =>
      show Phase b ((s.setClient d.1 _).clients b) (own b s.toServer) (own b (s.toClient.erase d)) ∧
        [] ∉ ((s.setClient d.1 _).clients b).shown
      rcases eq_or_ne b d.1 with rfl | hb
      · rw [own_erase_self hd] at hphase
        obtain ⟨hafter, x, hx, hshown⟩ := hphase.answer
        rw [System.setClient_clients_self, hshown, List.mem_append, List.mem_singleton]
        exact ⟨hafter, fun hmem => hmem.elim hblank hx.symm⟩
      · rw [own_erase_of_ne hb.symm hd, System.setClient_clients_of_ne hb]
        exact ⟨hphase, hblank⟩
  | requests hloss hbag => rw [he] at hloss; cases hloss
  | answers hloss hbag => rw [he] at hloss; cases hloss
  | serverFailed => cases he
  | clientFailed => cases he

end Orderly

/-- What a client has to show for its lines: all their answers, none of them empty, when it is ready
for the next line; before that all but the last one, and where nothing is under way to or from it,
the last one is empty. -/
structure InOrder (s : System Address) (a : Address) : Prop where
  ready : (s.clients a).waiting = false →
    (s.clients a).shown = (s.clients a).lines.map answerTo ∧ ∀ line ∈ (s.clients a).lines,
    answerTo line ≠ []
  waits : (s.clients a).waiting = true → ∃ front line, (s.clients a).lines = front ++ [line] ∧
    (s.clients a).shown = front.map answerTo ∧
    ((∀ d ∈ s.toServer, d.1 ≠ a) → (∀ d ∈ s.toClient, d.1 ≠ a) → answerTo line = [])

theorem Orderly.inOrder [DecidableEq Address] {s : System Address} (h : Orderly s) (a : Address) :
    InOrder s a := by
  obtain ⟨hphase, hblank⟩ := h a
  constructor
  · intro hwaiting
    cases hphase with
    | ready _ hshown =>
        refine ⟨hshown, fun line hline hempty => ?_⟩
        rw [hshown] at hblank
        exact hblank (List.mem_map.mpr ⟨line, hline, hempty⟩)
    | asked hbusy => cases hwaiting.symm.trans hbusy
    | answered hbusy => cases hwaiting.symm.trans hbusy
    | stuck hbusy => cases hwaiting.symm.trans hbusy
  · intro hwaiting
    cases hphase with
    | ready hidle => cases hwaiting.symm.trans hidle
    | asked _ hlines hshown hrequests =>
        refine ⟨_, _, hlines, hshown, fun hserver _ => ?_⟩
        exact absurd (hrequests.symm.trans (Multiset.filter_eq_nil.mpr hserver))
          (Multiset.singleton_ne_zero _)
    | answered _ hlines hshown _ _ hanswers =>
        refine ⟨_, _, hlines, hshown, fun _ hclient => ?_⟩
        exact absurd (hanswers.symm.trans (Multiset.filter_eq_nil.mpr hclient))
          (Multiset.singleton_ne_zero _)
    | stuck _ hlines hshown hanswer => exact ⟨_, _, hlines, hshown, fun _ _ => hanswer⟩

/-- **Order.** Where the network neither loses nor copies datagrams, however late they come, and no
call fails, every client sees the answers to its lines one by one; it is only at a blank line that
it waits in vain while the server listens. -/
theorem shown_in_order [DecidableEq Address] (buffer : List UInt8) (clientAddress : Address)
    (events : List (Event Address)) (hevents : ∀ e ∈ events, e.reliable = true) :
    Runs.Always System.step (fun s => ∀ a, InOrder s a)
      (System.start buffer clientAddress) events :=
  (Runs.always_of_along (fun _ _ _ h he hstep => h.step he hstep) (orderly_start buffer clientAddress)
    (Runs.along_of_forall _ hevents)).mono fun _ h => h.inOrder

/-- Two clients: the one's answer is still under way when the other has shown its own. -/
theorem shown_in_order_two :
    (∀ a, InOrder (Runs.final System.step (System.start [] 0)
      [.enter 7 [0x68, 0x69, 0x0a], .enter 8 [0x6f], .atServer (8, [0x6f]),
        .atServer (7, [0x68, 0x69]),
        .atClient (8, [0x6f])]) a) ∧
    ((Runs.final System.step (System.start [] 0)
      [.enter 7 [0x68, 0x69, 0x0a], .enter 8 [0x6f], .atServer (8, [0x6f]),
        .atServer (7, [0x68, 0x69]),
        .atClient (8, [0x6f])]).clients 8).shown = [[0x6f]] :=
  ⟨(shown_in_order [] 0 _ (by decide)).final, by decide⟩

end NetworkHomework.UdpEcho
