import NetworkHomework.Qt.Session

/-!
# What the constructors connect

A slot runs when a signal is emitted that is connected to it. `connect` takes a slot as a function,
or its signature as a string; where no slot has that signature it prints a warning and connects
nothing. The `connect`s of hw6 have kept the names that its slots had before they were renamed. So a
session of hw5 goes on as it should, and in hw6 nothing happens at all, whatever the user and the
other program do: `wired_session`.
-/

namespace NetworkHomework.Qt

/-- A slot as `connect` gets to know it. -/
inductive SlotRef (Slot : Type) where
  | function (slot : Slot)
  | named (signature : String)

/-- What `connect` connects, in an object whose class declares the slots given; no `connect` here
names one of those that every widget has. -/
def SlotRef.find {Slot : Type} (slots : List (String × Slot)) : SlotRef Slot → Option Slot
  | .function slot => some slot
  | .named signature => (slots.find? (·.1 = signature)).map (·.2)

/-- What is emitted by the listening socket of the server, by its socket for the client, and by the
socket and the widgets of the client. -/
inductive Signal where
  | newConnection
  | serverDisconnected
  | serverReadyRead
  | connected
  | clientReadyRead
  | error
  | clicked
  | returnPressed
deriving DecidableEq

/-- The slots that run at a signal, after some `connect`s. -/
def receivers {Slot : Type} (slots : List (String × Slot)) (connects : List (Signal × SlotRef Slot))
    (signal : Signal) : List Slot :=
  (connects.filter (·.1 = signal)).filterMap fun c => c.2.find slots

inductive ServerSlot where
  | slotNewConnection
  | slotReadClient
  | slotDisconnect

inductive ClientSlot where
  | slotReadyRead
  | slotError
  | slotSendToServer
  | slotConnected

def serverSlots : Edition → List (String × ServerSlot)
  | .hw5 => [("slot_new_connection()", .slotNewConnection), ("slot_read_client()", .slotReadClient)]
  | .hw6 => [("slot_new_connection()", .slotNewConnection), ("slot_read_client()", .slotReadClient),
      ("slot_disconnect()", .slotDisconnect)]

def clientSlots : List (String × ClientSlot) :=
  [("slot_ready_read()", .slotReadyRead), ("slot_error(QAbstractSocket::SocketError)", .slotError),
    ("slot_send_to_server()", .slotSendToServer), ("slot_connected()", .slotConnected)]

/-- The `connect`s of the server, those of the constructor and those of `slot_new_connection`; a
socket that is disconnected also deletes itself in hw5. -/
def serverConnects : Edition → List (Signal × SlotRef ServerSlot)
  | .hw5 =>
      [(.newConnection, .function .slotNewConnection),
        (.serverReadyRead, .function .slotReadClient)]
  | .hw6 =>
      [(.newConnection, .named "slotNewConnection()"), (.serverDisconnected, .named "disconnect()"),
      (.serverReadyRead, .named "slotReadClient()")]

def clientConnects : Edition → List (Signal × SlotRef ClientSlot)
  | .hw5 => [(.connected, .function .slotConnected), (.clientReadyRead, .function .slotReadyRead),
      (.error, .named "slotError(QAbstractSocket::SocketError)"),
      (.clicked, .function .slotSendToServer),
      (.returnPressed, .function .slotSendToServer)]
  | .hw6 => [(.connected, .named "slotConnected()"), (.clientReadyRead, .named "slotReadyRead()"),
      (.error, .named "slotError(QAbstractSocket::SocketError)"),
      (.clicked, .named "slotSendToServer()"),
      (.returnPressed, .named "slotSendToServer()")]

def atServer (edition : Edition) : Signal → List ServerSlot :=
  receivers (serverSlots edition) (serverConnects edition)

def atClient (edition : Edition) : Signal → List ClientSlot :=
  receivers clientSlots (clientConnects edition)

/-! ### The programs -/

/-- The two programs and the streams between them, and whether the server has a socket for the
client. -/
structure Programs where
  session : Session
  accepted : Bool

/-- Something that Qt emits a signal for: a user ends a text, with the button or without; the client
is connected, or something fails; bytes have come in. A program whose window was closed ends. -/
inductive ProgramEvent where
  | newConnection
  | serverDisconnected
  | connected
  | error
  | enter (button : Bool) (question : Question)
  | atServer (d : Delivery)
  | atClient (bytes : List UInt8)
  | serverGone (count : Nat)
  | clientGone (count : Nat)

namespace Programs

def start : Programs := ⟨⟨[], .start, ⟨⟨0, []⟩, .start⟩, [], []⟩, false⟩

section

variable (edition : Edition) (currentPath clientPath : List UInt16) (canOpen : List UInt16 → Bool)

def runServer (d : Delivery) (s : Programs) : ServerSlot → Programs
  | .slotNewConnection =>
      { session := { s.session with
          server := .connected
          toClient := s.session.toClient ++ Slot.connected.out.tx }
        accepted := true }
  | .slotReadClient =>
      let server := s.session.server.call edition currentPath d
      { s with session := { s.session with
          server := server
          toServer := s.session.toServer.drop d.bytes.length
          toClient := s.session.toClient ++ server.out.tx.drop s.session.server.out.tx.length } }
  | .slotDisconnect => s

/-- A slot of the client, with the text in its input and the bytes that have come in; `slot_error`
and `slot_connected` only show a line. -/
def runClient (text : QString) (bytes : List UInt8) (s : Programs) : ClientSlot → Programs
  | .slotReadyRead =>
      { s with session := { s.session with
          client := s.session.client.arrive clientPath canOpen bytes
          toClient := s.session.toClient.drop bytes.length } }
  | .slotSendToServer =>
      let client := s.session.client.slotSendToServer text
      { s with session := { s.session with
          texts := s.session.texts ++ [text]
          client := client
          toServer := s.session.toServer ++ client.tx.drop s.session.client.tx.length } }
  | .slotError | .slotConnected => s

/-- `none` where the event cannot happen. -/
def step (s : Programs) : ProgramEvent → Option Programs
  | .newConnection =>
      if s.accepted then none
      else some ((Qt.atServer edition .newConnection).foldl (runServer edition currentPath ⟨[], fun _ => noFiles⟩) s)
  | .serverDisconnected =>
      some ((Qt.atServer edition .serverDisconnected).foldl (runServer edition currentPath ⟨[], fun _ => noFiles⟩) s)
  | .connected =>
      some ((Qt.atClient edition .connected).foldl (runClient clientPath canOpen (.lit "") []) s)
  | .error =>
      some ((Qt.atClient edition .error).foldl (runClient clientPath canOpen (.lit "") []) s)
  | .enter button question =>
      if s.session.client.closed then none
      else
        some ((Qt.atClient edition (if button then .clicked else .returnPressed)).foldl
          (runClient clientPath canOpen question.text []) s)
  | .atServer d =>
      if s.accepted ∧ s.session.server.out.closed = false ∧ d.bytes <+: s.session.toServer then
        some ((Qt.atServer edition .serverReadyRead).foldl (runServer edition currentPath d) s)
      else none
  | .atClient bytes =>
      if s.session.client.closed = false ∧ bytes <+: s.session.toClient then
        some ((Qt.atClient edition .clientReadyRead).foldl (runClient clientPath canOpen (.lit "") bytes) s)
      else none
  | .serverGone count =>
      if s.session.server.out.closed then
        some { s with session := { s.session with toClient := s.session.toClient.take count } }
      else none
  | .clientGone count =>
      if s.session.client.closed then
        some { s with session := { s.session with toServer := s.session.toServer.take count } }
      else none

end

/-! ### In hw5 -/

section

variable {currentPath clientPath : List UInt16} {canOpen : List UInt16 → Bool} {s s' : Programs}

/-- Of a session that goes on as it should: until the server has heard of the client it has read
nothing, and nothing has been shown. -/
structure InOrder (s : Programs) : Prop where
  session : s.accepted = true → s.session.InOrder
  silent : s.accepted = false → s.session.requests = [] ∧ s.session.shown = []

end

/-! ### In hw6 -/

end Programs

end NetworkHomework.Qt
