import NetworkHomework.Base.Runs

/-!
# The asynchronous echo server

One thread runs the handlers. `Server` keeps one accept outstanding; a `Session` reads a chunk into
its buffer, writes the chunk back from the same buffer, and only then reads again. A state holds the
operations that are outstanding, and an event is what one of them does next, in any order.
`good_always` says that no order makes a session overtake itself or mix with another.
-/

namespace NetworkHomework.Asio

/-! ### The buffer of a session -/

def maxLength : Nat := 1024

/-- `char data_[max_length + 1]`. -/
structure Buffer where
  bytes : List UInt8
  size : bytes.length = maxLength + 1
deriving DecidableEq

structure Chunk where
  bytes : List UInt8
  fits : bytes.length ≤ maxLength

namespace Buffer

def fill (data : Buffer) (chunk : Chunk) : Buffer where
  bytes := chunk.bytes ++ data.bytes.drop chunk.bytes.length
  size := by
    have hfits := chunk.fits
    rw [List.length_append, List.length_drop, data.size]
    omega

/-- `data_[length] = '\0'`. -/
def terminate (data : Buffer) (length : Fin (maxLength + 1)) : Buffer where
  bytes := data.bytes.set length 0
  size := by rw [List.length_set, data.size]

def isSpace (c : UInt8) : Bool := c == 0x20 || (0x09 ≤ c && c ≤ 0x0d)

/-- `command` after `iss >> command`: the first word of the string that ends at the first zero, or
the one zero it was initialised with if there is none. -/
def command (data : Buffer) : List UInt8 :=
  match ((data.bytes.takeWhile (· ≠ 0)).dropWhile isSpace).takeWhile (! isSpace ·) with
  | [] => [0]
  | c :: word => c :: word

theorem terminate_fill_take (data : Buffer) (chunk : Chunk) (length : Fin (maxLength + 1))
    (hlength : length.val = chunk.bytes.length) :
    ((data.fill chunk).terminate length).bytes.take chunk.bytes.length = chunk.bytes := by
  simp only [terminate, fill, hlength]
  rw [List.take_set_of_le (Nat.le_refl _), List.take_left]

end Buffer

/-! ### Server and sessions -/

structure Session where
  peer : Nat
  data : Buffer

/-- An `async_write` of the first `length` bytes of `data_`, of which `done` have been written; what
was in `data_` when it was started is kept for comparison. -/
structure Write where
  session : Nat
  length : Nat
  done : Nat
  snapshot : Buffer
deriving DecidableEq

inductive Op where
  | accept
  | read (session : Nat)
  | write (w : Write)
deriving DecidableEq

def Op.session : Op → Option Nat
  | accept => none
  | read session => some session
  | write w => some w.session

/-- The acceptor's `socket_`, connected to a peer or not open, the sessions, the outstanding
operations, how many connections there have been, the bytes read from and written to each peer, and
whether `std::exit` was called. -/
structure Server where
  socket : Option Nat
  sessions : List Session
  pending : List Op
  connections : Nat
  received : Nat → List UInt8
  written : Nat → List UInt8
  exited : Bool

/-- What an outstanding operation does next. A session's buffer starts with what is in memory. -/
inductive Event where
  | accepted (error : Bool) (memory : Buffer)
  | readFailed (session : Nat)
  | readSome (session : Nat) (chunk : Chunk)
  | wroteSome (w : Write) (count : Nat)
  | writeFailed (w : Write)
  | writeDone (w : Write)

namespace Server

def doAccept (s : Server) : Server := { s with pending := s.pending ++ [.accept] }

def doRead (s : Server) (i : Nat) : Server := { s with pending := s.pending ++ [.read i] }

def doCommand (s : Server) (i : Nat) (session : Session) (length : Fin (maxLength + 1)) : Server :=
  let data := session.data.terminate length
  let s := { s with sessions := s.sessions.set i { session with data := data } }
  if data.command = [0x65, 0x78, 0x69, 0x74] then { s with exited := true }
  else { s with pending := s.pending ++ [Op.write ⟨i, length, 0, data⟩] }

def start : Server := doAccept (⟨none, [], [], 0, fun _ => [], fun _ => [], false⟩ : Server)

/-- The handler of `async_accept`, which has put a new connection into `socket_` if there is no
error. -/
def onAccept (s : Server) (error : Bool) (memory : Buffer) : Server :=
  if error then s.doAccept
  else
    let s := { s with socket := some s.connections, connections := s.connections + 1 }
    match s.socket with
    | none => s.doAccept
    | some peer =>
        let s := { s with socket := none, sessions := s.sessions ++ [Session.mk peer memory] }
        (s.doRead (s.sessions.length - 1)).doAccept

/-- A chunk comes in from the peer of session `i`, and the handler of `async_read_some` runs. -/
def onRead (s : Server) (i : Nat) (session : Session) (chunk : Chunk) : Server :=
  let session := { session with data := session.data.fill chunk }
  let s := { s with
    received := Function.update s.received session.peer (s.received session.peer ++ chunk.bytes)
    sessions := s.sessions.set i session }
  s.doCommand i session ⟨chunk.bytes.length, Nat.lt_succ_of_le chunk.fits⟩

/-- `async_write` hands some of the bytes that `data_` holds now to the peer. -/
def onWrite (s : Server) (w : Write) (session : Session) (count : Nat) : Server :=
  { s with
    written := Function.update s.written session.peer
      (s.written session.peer ++ ((session.data.bytes.take w.length).drop w.done).take count)
    pending := s.pending ++ [Op.write { w with done := w.done + count }] }

def handle (s : Server) : Event → Option Server
  | .accepted error memory =>
      if .accept ∈ s.pending then
        some (({ s with pending := s.pending.erase .accept }).onAccept error memory)
      else none
  | .readFailed i =>
      if .read i ∈ s.pending then some { s with pending := s.pending.erase (.read i) } else none
  | .readSome i chunk =>
      if .read i ∈ s.pending then
        s.sessions[i]?.map fun session =>
          ({ s with pending := s.pending.erase (.read i) }).onRead i session chunk
      else none
  | .wroteSome w count =>
      if .write w ∈ s.pending ∧ w.done + count ≤ w.length then
        s.sessions[w.session]?.map fun session =>
          ({ s with pending := s.pending.erase (.write w) }).onWrite w session count
      else none
  | .writeFailed w =>
      if .write w ∈ s.pending then some { s with pending := s.pending.erase (.write w) } else none
  | .writeDone w =>
      if .write w ∈ s.pending ∧ w.done = w.length then
        some (({ s with pending := s.pending.erase (.write w) }).doRead w.session)
      else none

def step (s : Server) (e : Event) : Option Server := if s.exited then none else s.handle e

def outstanding (s : Server) (i : Nat) : Nat := s.pending.countP fun op => op.session = some i

/-! ### What always holds -/

/-- What the peers can rely on: no session has two operations outstanding, the buffer is as it was
when a write was started, each peer has been sent a prefix of what was read from it, and all of it
when its session reads again, no two sessions have the same peer, and the next connection is waited
for. -/
structure Good (s : Server) : Prop where
  single : ∀ i, s.outstanding i ≤ 1
  unchanged : ∀ w, .write w ∈ s.pending →
    ∃ session, s.sessions[w.session]? = some session ∧ session.data = w.snapshot
  echoes : ∀ session : Session, session ∈ s.sessions →
      s.written session.peer <+: s.received session.peer
  caughtUp : ∀ i (session : Session), .read i ∈ s.pending → s.sessions[i]? = some session →
    s.written session.peer = s.received session.peer
  separate : (s.sessions.map (·.peer)).Nodup
  rearmed : s.pending.count .accept = 1 ∧ s.socket = none

/-- What an outstanding operation stands for: a read that all bytes have been echoed, a write that
those still to be written are the rest of them. -/
def OpOk (s : Server) : Op → Prop
  | .accept => True
  | .read i => s.written i = s.received i
  | .write w =>
      (∃ session, s.sessions[w.session]? = some session ∧ session.data = w.snapshot) ∧
        s.written w.session ++ (w.snapshot.bytes.take w.length).drop w.done = s.received w.session

/-- The invariant: sessions are numbered as their peers are. -/
structure Invariant (s : Server) : Prop where
  peers : ∀ i (session : Session), s.sessions[i]? = some session → session.peer = i
  connections : s.connections = s.sessions.length
  fresh : ∀ i, s.sessions.length ≤ i → s.written i = s.received i
  single : ∀ i, s.outstanding i ≤ 1
  known : ∀ op ∈ s.pending, ∀ i, op.session = some i → i < s.sessions.length
  echoes : ∀ i, s.written i <+: s.received i
  ops : ∀ op ∈ s.pending, s.OpOk op
  rearmed : s.pending.count .accept = 1
  socket : s.socket = none

theorem Invariant.good {s : Server} (h : Invariant s) : s.Good where
  single := h.single
  unchanged w hw := (h.ops _ hw).1
  echoes session _ := h.echoes session.peer
  caughtUp i session hread hsession := by
    rw [h.peers i session hsession]
    exact h.ops _ hread
  separate := by
    rw [List.nodup_iff_getElem?_ne_getElem?]
    intro i j hij hj
    rw [List.length_map] at hj
    rw [List.getElem?_map, List.getElem?_map, List.getElem?_eq_getElem (by omega),
      List.getElem?_eq_getElem hj, Option.map_some, Option.map_some, ne_eq, Option.some.injEq,
      h.peers i _ (List.getElem?_eq_getElem (by omega)), h.peers j _ (List.getElem?_eq_getElem hj)]
    omega
  rearmed := ⟨h.rearmed, h.socket⟩

theorem invariant_start : Invariant start where
  peers i session hsession := by cases hsession
  connections := rfl
  fresh _ _ := rfl
  single i := by simp [outstanding, start, doAccept, Op.session]
  known op hop i hi := by
    cases List.mem_singleton.mp hop
    cases hi
  echoes _ := List.prefix_rfl
  ops op hop := by
    cases List.mem_singleton.mp hop
    trivial
  rearmed := rfl
  socket := rfl

theorem OpOk.frame {s s' : Server} {op : Op} (h : s.OpOk op)
    (hsame : ∀ i, op.session = some i → s'.sessions[i]? = s.sessions[i]? ∧
      s'.written i = s.written i ∧
      s'.received i = s.received i) : s'.OpOk op := by
  cases op with
  | accept => trivial
  | read i =>
      obtain ⟨_, hwritten, hreceived⟩ := hsame i rfl
      rw [OpOk, hwritten, hreceived]
      exact h
  | write w =>
      obtain ⟨hsessions, hwritten, hreceived⟩ := hsame w.session rfl
      rw [OpOk, hsessions, hwritten, hreceived]
      exact h

private theorem outstanding_erase {s : Server} {op : Op} {i : Nat} (hop : op ∈ s.pending)
    (hi : op.session = some i) (hsingle : s.outstanding i ≤ 1) :
    (s.pending.erase op).countP (fun op => op.session = some i) = 0 := by
  rw [outstanding] at hsingle
  rw [List.countP_erase, if_pos ⟨hop, by simpa using hi⟩]
  omega

private theorem outstanding_append {pending next : List Op} {i : Nat} (hlength : next.length ≤ 1)
    (hnext : ∀ op ∈ next, op.session = some i)
    (hnone : pending.countP (fun op => op.session = some i) = 0) {j : Nat}
    (hsingle : pending.countP (fun op => op.session = some j) ≤ 1) :
    (pending ++ next).countP (fun op => op.session = some j) ≤ 1 := by
  rw [List.countP_append]
  by_cases hj : j = i
  · rw [hj, hnone, Nat.zero_add]
    exact List.countP_le_length.trans hlength
  · have hother : next.countP (fun op => op.session = some j) = 0 := by
      rw [List.countP_eq_zero]
      intro op hop
      rw [hnext op hop]
      simpa using Ne.symm hj
    rw [hother, Nat.add_zero]
    exact hsingle

private theorem count_accept_append {pending next : List Op} {i : Nat}
    (hnext : ∀ op ∈ next, op.session = some i) :
    (pending ++ next).count .accept = pending.count .accept := by
  have hnone : next.count .accept = 0 := by
    rw [List.count_eq_zero]
    intro haccept
    cases hnext _ haccept
  rw [List.count_append, hnone, Nat.add_zero]

theorem Invariant.advance {s s' : Server} (h : Invariant s) {op : Op} (next : Option Op)
    (hop : op ∈ s.pending) {i : Nat} (hi : op.session = some i)
    (hpending : s'.pending = s.pending.erase op ++ next.toList)
    (hnext : ∀ op' ∈ next, op'.session = some i ∧ s'.OpOk op')
    (hlength : s'.sessions.length = s.sessions.length)
    (hpeers : ∀ j (session : Session), s'.sessions[j]? = some session → session.peer = j)
    (hother : ∀ j, j ≠ i → s'.sessions[j]? = s.sessions[j]? ∧ s'.written j = s.written j ∧
      s'.received j = s.received j)
    (hecho : s'.written i <+: s'.received i) (hconnections : s'.connections = s.connections)
    (hsocket : s'.socket = s.socket) : Invariant s' where
  peers := hpeers
  connections := by rw [hconnections, hlength, h.connections]
  fresh j hj := by
    have hknown := h.known op hop i hi
    rw [hlength] at hj
    obtain ⟨_, hwritten, hreceived⟩ := hother j (by omega)
    rw [hwritten, hreceived]
    exact h.fresh j hj
  single j := by
    rw [outstanding, hpending]
    refine outstanding_append ?_ (fun op' hop' => (hnext op' (Option.mem_toList.mp hop')).1)
      (outstanding_erase hop hi (h.single i)) ?_
    · cases next <;> simp
    · exact (List.Sublist.countP_le List.erase_sublist).trans (h.single j)
  known op' hop' j hj := by
    rw [hpending, List.mem_append] at hop'
    rw [hlength]
    rcases hop' with hold | hnew
    · exact h.known op' (List.mem_of_mem_erase hold) j hj
    · have hsession := (hnext op' (Option.mem_toList.mp hnew)).1
      rw [hj, Option.some.injEq] at hsession
      rw [hsession]
      exact h.known op hop i hi
  echoes j := by
    by_cases hj : j = i
    · rw [hj]
      exact hecho
    · obtain ⟨_, hwritten, hreceived⟩ := hother j hj
      rw [hwritten, hreceived]
      exact h.echoes j
  ops op' hop' := by
    rw [hpending, List.mem_append] at hop'
    rcases hop' with hold | hnew
    · -- it belongs to another session, since session `i` had no other operation
      refine (h.ops op' (List.mem_of_mem_erase hold)).frame fun j hj => hother j ?_
      rintro rfl
      have hzero := List.countP_eq_zero.mp (outstanding_erase hop hi (h.single j)) op' hold
      exact hzero (by simpa using hj)
    · exact (hnext op' (Option.mem_toList.mp hnew)).2
  rearmed := by
    have hne : op ≠ .accept := by
      rintro rfl
      cases hi
    have hsession := fun op' hop' => (hnext op' (Option.mem_toList.mp hop')).1
    rw [hpending, count_accept_append hsession, List.count_erase_of_ne (Ne.symm hne), h.rearmed]
  socket := hsocket.trans h.socket

theorem Invariant.perm {s : Server} (h : Invariant s) {pending : List Op}
    (hperm : pending.Perm s.pending) :
    Invariant { s with pending := pending } where
  peers := h.peers
  connections := h.connections
  fresh := h.fresh
  single i := (Nat.le_of_eq (hperm.countP_eq _)).trans (h.single i)
  known op hop := h.known op (hperm.mem_iff.mp hop)
  echoes := h.echoes
  ops op hop := (h.ops op (hperm.mem_iff.mp hop)).frame fun _ _ => ⟨rfl, rfl, rfl⟩
  rearmed := (hperm.count_eq _).trans h.rearmed
  socket := h.socket

theorem Invariant.connect {s : Server} (h : Invariant s) (memory : Buffer) :
    Invariant { s with
      sessions := s.sessions ++ [Session.mk s.connections memory]
      connections := s.connections + 1
      pending := s.pending ++ [Op.read s.sessions.length] } where
  peers i session hsession := by
    rcases Nat.lt_trichotomy i s.sessions.length with hlt | rfl | hgt
    · rw [List.getElem?_append_left hlt] at hsession
      exact h.peers i session hsession
    · rw [List.getElem?_concat_length] at hsession
      cases hsession
      exact h.connections
    · rw [List.getElem?_eq_none (by simp; omega)] at hsession
      cases hsession
  connections := by rw [List.length_append, List.length_singleton, h.connections]
  fresh i hi := by
    rw [List.length_append, List.length_singleton] at hi
    exact h.fresh i (by omega)
  single i := by
    refine outstanding_append (Nat.le_of_eq List.length_singleton)
      (List.forall_mem_singleton.mpr rfl) ?_
      (h.single i)
    rw [List.countP_eq_zero]
    intro op hop hsession
    have := h.known op hop _ (of_decide_eq_true hsession)
    omega
  known op hop i hi := by
    rw [List.length_append, List.length_singleton]
    rcases List.mem_append.mp hop with hold | hnew
    · exact Nat.lt_succ_of_lt (h.known op hold i hi)
    · cases List.mem_singleton.mp hnew
      cases hi
      exact Nat.lt_succ_self _
  echoes := h.echoes
  ops op hop := by
    rcases List.mem_append.mp hop with hold | hnew
    · refine (h.ops op hold).frame fun i hi => ⟨?_, rfl, rfl⟩
      exact List.getElem?_append_left (h.known op hold i hi)
    · cases List.mem_singleton.mp hnew
      exact h.fresh _ (Nat.le_refl _)
  rearmed := (count_accept_append (List.forall_mem_singleton.mpr rfl)).trans h.rearmed
  socket := h.socket

theorem Invariant.onAccept {s : Server} (h : Invariant s) (haccept : .accept ∈ s.pending)
    (error : Bool) (memory : Buffer) :
    Invariant (({ s with pending := s.pending.erase .accept } : Server).onAccept error memory) := by
  have hperm : (s.pending.erase .accept ++ [Op.accept]).Perm s.pending :=
    List.perm_append_comm.trans (List.perm_cons_erase haccept).symm
  cases error with
  | true => exact h.perm hperm
  | false =>
      have hsocket := h.socket
      have hconnect := (h.connect memory).perm
        (show (s.pending.erase .accept ++ [Op.read s.sessions.length] ++ [Op.accept]).Perm _ from ?_)
      · simp only [Server.onAccept, doRead, doAccept, Bool.false_eq_true, if_false,
          List.length_append, List.length_singleton, Nat.add_sub_cancel]
        rw [← hsocket]
        exact hconnect
      · rw [List.append_assoc]
        refine (List.perm_append_comm.append_left _).trans ?_
        rw [← List.append_assoc]
        exact hperm.append_right _

theorem Invariant.onRead {s : Server} (h : Invariant s) {i : Nat} (hread : .read i ∈ s.pending)
    {session : Session} (hsession : s.sessions[i]? = some session) (chunk : Chunk) :
    Invariant (({ s with pending := s.pending.erase (.read i) } : Server).onRead i session chunk) := by
  obtain rfl := h.peers i session hsession
  have hwritten : s.written session.peer = s.received session.peer := h.ops _ hread
  have hlt : session.peer < s.sessions.length := h.known _ hread _ rfl
  set data :=
    (session.data.fill chunk).terminate ⟨chunk.bytes.length, Nat.lt_succ_of_le chunk.fits⟩ with
      hdata
  have hpeers : ∀ j (session' : Session),
      (s.sessions.set session.peer { session with data := data })[j]? = some session' →
      session'.peer = j := by
    intro j session' hsession'
    rw [List.getElem?_set] at hsession'
    split_ifs at hsession' with hj
    · cases hsession'
      exact hj
    · exact h.peers j session' hsession'
  have hother : ∀ j, j ≠ session.peer →
      (s.sessions.set session.peer { session with data := data })[j]? = s.sessions[j]? ∧
        s.written j = s.written j ∧
        Function.update s.received session.peer (s.received session.peer ++ chunk.bytes) j =
          s.received j :=
    fun j hj => ⟨List.getElem?_set_ne (Ne.symm hj), rfl, Function.update_of_ne hj _ _⟩
  have hecho : s.written session.peer <+:
      Function.update s.received session.peer (s.received session.peer ++ chunk.bytes)
        session.peer := by
    rw [Function.update_self, hwritten]
    exact List.prefix_append _ _
  simp only [Server.onRead, doCommand, List.set_set, ← hdata]
  split
  · exact h.advance none hread rfl (List.append_nil _).symm (fun op' hop' => by cases hop')
      List.length_set hpeers hother hecho rfl rfl
  · refine h.advance (some (Op.write ⟨session.peer, chunk.bytes.length, 0, data⟩)) hread rfl rfl
      ?_ List.length_set hpeers hother hecho rfl rfl
    rintro op' ⟨⟩
    refine ⟨rfl, ⟨_, List.getElem?_set_self hlt, rfl⟩, ?_⟩
    dsimp only
    rw [List.drop_zero, hdata, Buffer.terminate_fill_take _ _ _ rfl, Function.update_self, hwritten]

theorem Invariant.onWrite {s : Server} (h : Invariant s) {w : Write} (hwrite : .write w ∈ s.pending)
    {session : Session} (hsession : s.sessions[w.session]? = some session) (count : Nat) :
    Invariant (({ s with pending := s.pending.erase (.write w) } : Server).onWrite w session count) := by
  have hpeer := h.peers w.session session hsession
  obtain ⟨⟨session', hsession', hdata⟩, hrest⟩ := h.ops _ hwrite
  rw [hsession] at hsession'
  cases hsession'
  have hsplit : ((session.data.bytes.take w.length).drop w.done).take count ++
      (w.snapshot.bytes.take w.length).drop (w.done + count) =
        (w.snapshot.bytes.take w.length).drop w.done := by
    rw [hdata, ← List.drop_drop, List.take_append_drop]
  have hnow : Function.update s.written session.peer
      (s.written session.peer ++ ((session.data.bytes.take w.length).drop w.done).take count)
        w.session ++
        (w.snapshot.bytes.take w.length).drop (w.done + count) = s.received w.session := by
    rw [← hpeer, Function.update_self, List.append_assoc, hsplit, hpeer]
    exact hrest
  refine h.advance (some (Op.write { w with done := w.done + count })) hwrite rfl rfl ?_ rfl
    h.peers (fun j hj => ⟨rfl, Function.update_of_ne (by rw [hpeer]; exact hj) _ _, rfl⟩) ?_ rfl rfl
  · rintro op' ⟨⟩
    exact ⟨rfl, ⟨session, hsession, hdata⟩, hnow⟩
  · exact ⟨_, hnow⟩

theorem Invariant.drop {s : Server} (h : Invariant s) {op : Op} (hop : op ∈ s.pending) {i : Nat}
    (hi : op.session = some i) : Invariant { s with pending := s.pending.erase op } :=
  h.advance none hop hi (List.append_nil _).symm (fun op' hop' => by cases hop') rfl h.peers
    (fun _ _ => ⟨rfl, rfl, rfl⟩) (h.echoes i) rfl rfl

theorem Invariant.writeDone {s : Server} (h : Invariant s) {w : Write}
    (hwrite : .write w ∈ s.pending) (hdone : w.done = w.length) :
    Invariant (({ s with pending := s.pending.erase (.write w) } : Server).doRead w.session) := by
  obtain ⟨_, hrest⟩ := h.ops _ hwrite
  rw [hdone, List.drop_eq_nil_of_le (List.length_take_le _ _), List.append_nil] at hrest
  refine h.advance (some (Op.read w.session)) hwrite rfl rfl ?_ rfl h.peers
    (fun _ _ => ⟨rfl, rfl, rfl⟩) (h.echoes w.session) rfl rfl
  rintro op' ⟨⟩
  exact ⟨rfl, hrest⟩

theorem Invariant.step {s s' : Server} {e : Event} (h : Invariant s) (hstep : s.step e = some s') :
    Invariant s' := by
  rw [Server.step] at hstep
  split_ifs at hstep
  cases e with
  | accepted error memory =>
      rw [handle] at hstep
      split_ifs at hstep with haccept
      cases hstep
      exact h.onAccept haccept error memory
  | readFailed i =>
      rw [handle] at hstep
      split_ifs at hstep with hread
      cases hstep
      exact h.drop hread rfl
  | readSome i chunk =>
      rw [handle] at hstep
      split_ifs at hstep with hread
      obtain ⟨session, hsession, rfl⟩ := Option.map_eq_some_iff.mp hstep
      exact h.onRead hread hsession chunk
  | wroteSome w count =>
      rw [handle] at hstep
      split_ifs at hstep with hwrite
      obtain ⟨session, hsession, rfl⟩ := Option.map_eq_some_iff.mp hstep
      exact h.onWrite hwrite.1 hsession count
  | writeFailed w =>
      rw [handle] at hstep
      split_ifs at hstep with hwrite
      cases hstep
      exact h.drop hwrite rfl
  | writeDone w =>
      rw [handle] at hstep
      split_ifs at hstep with hwrite
      cases hstep
      exact h.writeDone hwrite.1 hwrite.2

/-- **The echo server.** Whatever the order of events, every state is good. -/
theorem good_always (events : List Event) : Runs.Always step Good start events :=
  (Runs.always_of_step (fun _ _ _ h hstep => Invariant.step h hstep) invariant_start events).mono
    fun _ h => h.good

end Server

end NetworkHomework.Asio
