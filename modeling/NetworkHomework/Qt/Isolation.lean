import NetworkHomework.Base.Runs
import NetworkHomework.Qt.Server

/-!
# The server and several clients

`slot_read_client` is one slot for all connections. What it reads from a socket depends on that
socket and on `next_block_size_`, which belongs to the server: a size taken off one client's stream
is used for whichever client sends next. As long as nobody else sends while a size is pending, each
client is served as if it were alone: `served_as_if_alone`.
-/

namespace NetworkHomework.Qt

variable {Client : Type} [DecidableEq Client]

structure Socket where
  rx : List UInt8
  tx : List UInt8
deriving DecidableEq

inductive Peer where
  | pending
  | connected (socket : Socket)
  | disconnected
deriving DecidableEq

/-- The server. Each line of its window carries the client whose call has written it, and `turn` is
the client whose call was the last; the program has neither. -/
structure TcpServer (Client : Type) where
  nextBlockSize : UInt16
  peers : Client → Peer
  txt : List (Client × Line)
  closed : Bool
  turn : Option Client

inductive ServerEvent (Client : Type) where
  | newConnection (c : Client)
  | readyRead (c : Client) (d : Delivery)
  | disconnected (c : Client)

def ServerEvent.client : ServerEvent Client → Client
  | newConnection c | readyRead c _ | disconnected c => c

namespace TcpServer

def start : TcpServer Client := ⟨0, fun _ => .pending, [], false, none⟩

section

variable (edition : Edition) (currentPath : List UInt16)

/-- `slot_read_client` with `c` as its `sender()`, when `d` has come in. -/
def slotReadClient (server : TcpServer Client) (c : Client) (socket : Socket) (d : Delivery) :
    TcpServer Client :=
  let slot := Qt.slotReadClient edition currentPath d.disk
    ⟨⟨server.nextBlockSize, socket.rx ++ d.bytes⟩, ⟨socket.tx, [], false, 0⟩⟩
  { nextBlockSize := slot.reader.nextBlockSize
    peers := Function.update server.peers c (.connected ⟨slot.reader.rx, slot.out.tx⟩)
    txt := server.txt ++ slot.out.txt.map (c, ·)
    closed := server.closed || slot.out.closed
    turn := some c }

def handle (server : TcpServer Client) : ServerEvent Client → TcpServer Client
  | .newConnection c =>
      match server.peers c with
      | .pending =>
          { server with peers := Function.update server.peers c (.connected ⟨[], Slot.connected.out.tx⟩) }
      | _ => server
  | .readyRead c d =>
      match server.peers c with
      | .connected socket => server.slotReadClient edition currentPath c socket d
      | _ => server
  | .disconnected c =>
      match server.peers c with
      | .connected _ => { server with peers := Function.update server.peers c .disconnected }
      | _ => server

def step (server : TcpServer Client) (e : ServerEvent Client) : Option (TcpServer Client) :=
  some (server.handle edition currentPath e)

def after (es : List (ServerEvent Client)) : TcpServer Client :=
  Runs.final (step edition currentPath) start es

end

def linesOf (server : TcpServer Client) (c : Client) : List Line :=
  (server.txt.filter (·.1 = c)).map (·.2)

def readFrom (server : TcpServer Client) (c : Client) : List QString :=
  requestsOf (server.linesOf c)

/-- No size is pending when another client's bytes come in. -/
def Quiet (server : TcpServer Client) : ServerEvent Client → Prop
  | .readyRead c _ => server.nextBlockSize = 0 ∨ server.turn = some c
  | _ => True

instance (server : TcpServer Client) : (e : ServerEvent Client) → Decidable (server.Quiet e)
  | .readyRead c _ => inferInstanceAs (Decidable (server.nextBlockSize = 0 ∨ server.turn = some c))
  | .newConnection _ => isTrue trivial
  | .disconnected _ => isTrue trivial

/-! ### One client's view -/

/-- What the server does for `c` is what `alone` does, which is the server with `c` as its only
client: a size is pending there if it is pending here and was taken off the stream of `c`. -/
structure AsIfAlone (c : Client) (server alone : TcpServer Client) : Prop where
  peer : server.peers c = alone.peers c
  lines : server.linesOf c = alone.linesOf c
  pending : alone.nextBlockSize = if server.turn = some c then server.nextBlockSize else 0

section

variable (edition : Edition) (currentPath : List UInt16)

theorem linesOf_slotReadClient (server : TcpServer Client) (c : Client) (socket : Socket)
    (d : Delivery) (c' : Client) :
    (server.slotReadClient edition currentPath c socket d).linesOf c' =
      server.linesOf c' ++ if c = c' then
        (Qt.slotReadClient edition currentPath d.disk
          ⟨⟨server.nextBlockSize, socket.rx ++ d.bytes⟩,
            ⟨socket.tx, [], false, 0⟩⟩).out.txt else [] := by
  rw [linesOf, slotReadClient, List.filter_append, List.map_append, linesOf]
  congr 1
  by_cases hc : c = c'
  · rw [if_pos hc, List.filter_eq_self.mpr (by simp [hc]), List.map_map]
    exact List.map_id _
  · rw [if_neg hc, List.filter_eq_nil_iff.mpr (by simp [hc]), List.map_nil]

theorem AsIfAlone.own {c : Client} {server alone : TcpServer Client} {e : ServerEvent Client}
    (h : AsIfAlone c server alone) (hquiet : server.Quiet e) (hown : e.client = c) :
    AsIfAlone c (server.handle edition currentPath e) (alone.handle edition currentPath e) := by
  have ⟨hpeer, hlines, hpending⟩ := h
  subst hown
  cases e with
  | newConnection c =>
      change server.peers c = alone.peers c at hpeer
      simp only [handle, ← hpeer]
      cases server.peers c with
      | pending => exact ⟨by simp [ServerEvent.client], hlines, hpending⟩
      | connected socket => exact h
      | disconnected => exact h
  | readyRead c d =>
      change server.peers c = alone.peers c at hpeer
      simp only [handle, ← hpeer]
      cases server.peers c with
      | pending => exact h
      | disconnected => exact h
      | connected socket =>
          have hsize : alone.nextBlockSize = server.nextBlockSize := by
            rw [hpending]
            split
            · rfl
            · next hother => exact (Or.resolve_right hquiet hother).symm
          refine ⟨by simp [slotReadClient, ServerEvent.client, hsize], ?_,
            by simp [slotReadClient, ServerEvent.client, hsize]⟩
          rw [linesOf_slotReadClient, linesOf_slotReadClient, hsize]
          exact congrArg (· ++ _) hlines
  | disconnected c =>
      change server.peers c = alone.peers c at hpeer
      simp only [handle, ← hpeer]
      cases server.peers c with
      | pending => exact h
      | connected socket => exact ⟨by simp [ServerEvent.client], hlines, hpending⟩
      | disconnected => exact h

theorem AsIfAlone.other {c : Client} {server alone : TcpServer Client} {e : ServerEvent Client}
    (h : AsIfAlone c server alone) (hquiet : server.Quiet e) (hother : e.client ≠ c) :
    AsIfAlone c (server.handle edition currentPath e) alone := by
  have ⟨hpeer, hlines, hpending⟩ := h
  have hupdate : ∀ p, Function.update server.peers e.client p c = alone.peers c := fun p =>
    (Function.update_of_ne (Ne.symm hother) p server.peers).trans hpeer
  cases e with
  | newConnection c' =>
      simp only [handle]
      cases server.peers c' with
      | pending => exact ⟨hupdate _, hlines, hpending⟩
      | connected socket => exact h
      | disconnected => exact h
  | readyRead c' d =>
      simp only [handle]
      cases server.peers c' with
      | pending => exact h
      | disconnected => exact h
      | connected socket =>
          have hne : c' ≠ c := hother
          have hturn : (server.slotReadClient edition currentPath c' socket d).turn ≠ some c :=
            fun heq => hne (Option.some.inj heq)
          refine ⟨hupdate _, ?_, ?_⟩
          · rw [linesOf_slotReadClient, if_neg hne, List.append_nil]
            exact hlines
          · rw [if_neg hturn, hpending]
            split
            · next hlast =>
                refine Or.resolve_right hquiet fun heq => hne ?_
                exact Option.some.inj (heq.symm.trans hlast)
            · rfl
  | disconnected c' =>
      simp only [handle]
      cases server.peers c' with
      | pending => exact h
      | connected socket => exact ⟨hupdate _, hlines, hpending⟩
      | disconnected => exact h

/-- **Isolation.** Along every run in which nobody sends while a size from another client is
pending, the server has read from each client what it would have read with that client alone. -/
theorem served_as_if_alone (es : List (ServerEvent Client))
    (hquiet : Runs.Along (step edition currentPath) Quiet start es) (c : Client)
    (done rest : List (ServerEvent Client)) (hdone : es = done ++ rest) :
    (after edition currentPath done).readFrom c =
      (after edition currentPath (done.filter (·.client = c))).readFrom c := by
  subst hdone
  have hstart : AsIfAlone c (start : TcpServer Client) start := ⟨rfl, rfl, rfl⟩
  have h :=
    Runs.final_filter (fun server e => ⟨_, rfl⟩) (fun e : ServerEvent Client =>
      decide (e.client = c))
    (fun server alone e server' alone' h hquiet hown hserver halone => by
      cases hserver
      cases halone
      exact h.own edition currentPath hquiet (of_decide_eq_true hown))
    (fun server alone e server' h hquiet hother hserver => by
      cases hserver
      exact h.other edition currentPath hquiet (of_decide_eq_false hother)) hstart hquiet.of_append
  rw [readFrom, readFrom]
  exact congrArg requestsOf h.lines

end

theorem served_as_if_alone_in_turn :
    (after .hw5 [] [.newConnection false, .newConnection true,
      .readyRead false ⟨textFrame (.lit "hi"), fun _ => noFiles⟩,
      .readyRead true ⟨textFrame (.lit "yo"), fun _ => noFiles⟩]).readFrom true =
    (after .hw5 [] [.newConnection true,
      .readyRead true ⟨textFrame (.lit "yo"), fun _ => noFiles⟩]).readFrom true :=
  served_as_if_alone .hw5 [] [.newConnection false, .newConnection true,
    .readyRead false ⟨textFrame (.lit "hi"), fun _ => noFiles⟩,
    .readyRead true ⟨textFrame (.lit "yo"), fun _ => noFiles⟩] (by decide +kernel) true _ [] rfl

/-- One client sends the size of its frame and no more; the frame of the other is read as its
payload. -/
theorem served_differently :
    let mixed : List (ServerEvent Bool) := [.newConnection false, .newConnection true,
      .readyRead false ⟨[0, 8], fun _ => noFiles⟩,
      .readyRead true ⟨textFrame (.lit "yo"), fun _ => noFiles⟩]
    (after .hw5 [] mixed).readFrom true ≠
      (after .hw5 [] (mixed.filter (·.client = true))).readFrom true := by
  decide +kernel

end TcpServer

end NetworkHomework.Qt
