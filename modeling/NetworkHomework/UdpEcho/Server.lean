import NetworkHomework.Text.Trim

/-!
# The receive loop of the UDP server

A turn of the loop makes a string of what `recvfrom` has put into the buffer, trims it and sends it
back. The result of `recvfrom` becomes the string's length before it is looked at, so a failure,
`-1`, asks for a string that no string can be as long as, and the program ends with an exception.
-/

namespace NetworkHomework.UdpEcho

open Text

variable {Address : Type}

def maxMessageLength : Nat := 1000

/-- What `recvfrom` puts into the buffer when it is asked for one byte less than fits, and from
whom. -/
structure Datagram (Address : Type) where
  sender : Address
  bytes : List UInt8
  fits : bytes.length ≤ maxMessageLength - 1

/-- The outcome of `recvfrom`; a failure returns `-1`. -/
inductive Outcome (Address : Type) where
  | received (datagram : Datagram Address)
  | failed

/-- The locals of `main` that the loop works on, and the datagrams it has sent. -/
structure Server (Address : Type) where
  buffer : List UInt8
  clientAddress : Address
  recvLen : Int
  run : Bool
  sent : List (Address × List UInt8)

/-- A `ssize_t` as a `size_t`. -/
def toSize (n : Int) : Nat := (n % 2 ^ 64).toNat

/-- `std::string(buffer, length)`, which throws if no string is as long. -/
def toString (buffer : List UInt8) (length : Nat) : Option (List UInt8) :=
  if length < 2 ^ 63 then some (buffer.take length) else none

namespace Server

def recvfrom (s : Server Address) : Outcome Address → Server Address
  | .received datagram =>
      { s with
        buffer := datagram.bytes ++ s.buffer.drop datagram.bytes.length
        clientAddress := datagram.sender
        recvLen := datagram.bytes.length }
  | .failed => { s with recvLen := -1 }

def sendto (s : Server Address) (text : List UInt8) : Server Address :=
  { s with sent := s.sent ++ [(s.clientAddress, text)] }

end Server

def exitCommand : List UInt8 := [0x65, 0x78, 0x69, 0x74]

/-- The body of the loop; `none` where it throws. -/
def turn (s : Server Address) (outcome : Outcome Address) : Option (Server Address) := do
  let s := s.recvfrom outcome
  let commandString ← toString s.buffer (toSize s.recvLen)
  let commandString ← trim commandString
  if s.recvLen > 0 then
    let s := if commandString = exitCommand then { s with run := false } else s
    some (s.sendto commandString)
  else some s

/-- How a run of the loop ends: `run` is false, `recvfrom` is waited for, or an exception was
thrown. -/
inductive Ending where
  | exited
  | waiting
  | threw
deriving DecidableEq

/-- A run of the loop: the state it ends in, the outcomes it has not taken, and how it ends. -/
structure Run (Address : Type) where
  server : Server Address
  left : List (Outcome Address)
  ending : Ending

/-- `while (run)`. -/
def loop (s : Server Address) : List (Outcome Address) → Run Address
  | [] => ⟨s, [], if s.run then .waiting else .exited⟩
  | outcome :: outcomes =>
      if s.run then
        match turn s outcome with
        | none => ⟨s, outcomes, .threw⟩
        | some s => loop s outcomes
      else ⟨s, outcome :: outcomes, .exited⟩

/-! ### A turn -/

def answer : Outcome Address → List (Address × List UInt8)
  | .received datagram =>
      if datagram.bytes = [] then [] else [(datagram.sender, stripped datagram.bytes)]
  | .failed => []

def IsExit : Outcome Address → Prop
  | .received datagram => stripped datagram.bytes = exitCommand
  | .failed => False

instance : (outcome : Outcome Address) → Decidable (IsExit outcome)
  | .received datagram => inferInstanceAs (Decidable (stripped datagram.bytes = exitCommand))
  | .failed => isFalse id

/-- The string would have `2^64 - 1` characters. -/
theorem turn_failed (s : Server Address) : turn s .failed = none := by
  have hlong : ¬ toSize (-1) < 2 ^ 63 := by decide
  have hthrows : toString (s.recvfrom .failed).buffer (toSize (s.recvfrom .failed).recvLen) =
      none := if_neg hlong
  rw [turn]
  dsimp only
  rw [hthrows]
  rfl

theorem toString_received (s : Server Address) (datagram : Datagram Address) :
    toString (s.recvfrom (.received datagram)).buffer
      (toSize (s.recvfrom (.received datagram)).recvLen) =
      some datagram.bytes := by
  have hfits := datagram.fits
  have hmax : maxMessageLength = 1000 := rfl
  have hsize : toSize (datagram.bytes.length : Int) = datagram.bytes.length := by
    rw [toSize]
    omega
  have hlt : datagram.bytes.length < 2 ^ 63 := by omega
  change toString (datagram.bytes ++ s.buffer.drop datagram.bytes.length)
    (toSize datagram.bytes.length) = _
  rw [hsize, toString, if_pos hlt, List.take_left' rfl]

theorem turn_received (s : Server Address) (datagram : Datagram Address) :
    ∃ s', turn s (.received datagram) = some s' ∧ s'.sent = s.sent ++ answer (.received datagram) ∧
      s'.run = if IsExit (.received datagram) then false else s.run := by
  have hturn : turn s (.received datagram) =
      if (datagram.bytes.length : Int) > 0 then
        some ((if stripped datagram.bytes = exitCommand then
          { s.recvfrom (.received datagram) with run := false }
          else s.recvfrom (.received datagram)).sendto (stripped datagram.bytes))
      else some (s.recvfrom (.received datagram)) := by
    rw [turn]
    dsimp only
    rw [toString_received, Option.bind_eq_bind, Option.bind_some, trim_eq]
    rfl
  rw [hturn, answer]
  by_cases hempty : datagram.bytes = []
  · have hnot : ¬ IsExit (.received datagram) := by
      rw [IsExit, hempty]
      decide
    rw [if_neg (by simp [hempty]), if_pos hempty, if_neg hnot, List.append_nil]
    exact ⟨_, rfl, rfl, rfl⟩
  · have hpos := List.length_pos_iff.mpr hempty
    rw [if_pos (by omega), if_neg hempty]
    by_cases hexit : stripped datagram.bytes = exitCommand
    · rw [if_pos hexit, if_pos (show IsExit (.received datagram) from hexit)]
      exact ⟨_, rfl, rfl, rfl⟩
    · rw [if_neg hexit, if_neg (show ¬ IsExit (.received datagram) from hexit)]
      exact ⟨_, rfl, rfl, rfl⟩

/-! ### A run -/

def handled : List (Outcome Address) → List (Outcome Address)
  | [] => []
  | outcome :: outcomes => outcome :: if IsExit outcome then [] else handled outcomes

/-- What the server is there for: no turn throws, every datagram with something in it is answered to
its sender with its text, nothing else is sent, and the loop ends at the first `exit` and nowhere
else. -/
structure AsItShould (s : Server Address) (outcomes : List (Outcome Address))
    (r : Run Address) : Prop where
  nothrow : r.ending ≠ .threw
  sent : r.server.sent = s.sent ++ (handled outcomes).flatMap answer
  exited : r.ending = .exited ↔ ∃ outcome ∈ outcomes, IsExit outcome
  left : outcomes = handled outcomes ++ r.left

theorem loop_threw {s : Server Address} (hrun : s.run = true) {outcomes : List (Outcome Address)}
    (hfailed : Outcome.failed ∈ handled outcomes) : (loop s outcomes).ending = .threw := by
  induction outcomes generalizing s with
  | nil => exact absurd hfailed List.not_mem_nil
  | cons outcome outcomes ih =>
      rw [loop, if_pos hrun]
      cases outcome with
      | failed => rw [turn_failed]
      | received datagram =>
          obtain ⟨s', hturn, _, hrun'⟩ := turn_received s datagram
          rw [handled] at hfailed
          rw [hturn]
          split_ifs at hfailed hrun' with hexit
          · simp at hfailed
          · exact ih (hrun'.trans hrun) (by simpa using hfailed)

theorem loop_asItShould {s : Server Address} (hrun : s.run = true)
    {outcomes : List (Outcome Address)} (hreceived : Outcome.failed ∉ handled outcomes) :
    AsItShould s outcomes (loop s outcomes) := by
  induction outcomes generalizing s with
  | nil =>
      rw [loop, if_pos hrun]
      have hnothrow : Ending.waiting ≠ .threw := by decide
      have hwaiting : Ending.waiting ≠ .exited := by decide
      exact ⟨hnothrow, (List.append_nil _).symm, iff_of_false hwaiting (by simp), rfl⟩
  | cons outcome outcomes ih =>
      rw [loop, if_pos hrun]
      cases outcome with
      | failed => exact absurd List.mem_cons_self hreceived
      | received datagram =>
          obtain ⟨s', hturn, hsent, hrun'⟩ := turn_received s datagram
          rw [handled] at hreceived
          rw [hturn]
          split_ifs at hreceived hrun' with hexit
          · have hstop : loop s' outcomes = ⟨s', outcomes, .exited⟩ := by
              cases outcomes with
              | nil => rw [loop, if_neg (by rw [hrun']; decide)]
              | cons outcome outcomes => rw [loop, if_neg (by rw [hrun']; decide)]
            have hnothrow : Ending.exited ≠ .threw := by decide
            dsimp only
            rw [hstop]
            refine ⟨hnothrow, ?_, iff_of_true rfl ⟨_, List.mem_cons_self, hexit⟩, ?_⟩
            · rw [handled, if_pos hexit, hsent]
              simp
            · rw [handled, if_pos hexit]
              rfl
          · obtain ⟨hnothrow, hall, hexited, hleft⟩ :=
              ih (hrun'.trans hrun) (by simpa using hreceived)
            refine ⟨hnothrow, ?_, ?_, ?_⟩
            · rw [handled, if_neg hexit, List.flatMap_cons, ← List.append_assoc, ← hsent]
              exact hall
            · refine hexited.trans ?_
              simp [hexit]
            · rw [handled, if_neg hexit, List.cons_append, ← hleft]

/-- **The receive loop.** Over a whole run the server does as it should exactly if no call of
`recvfrom` fails before an `exit` has come. -/
theorem loop_asItShould_iff (s : Server Address) (hrun : s.run = true)
    (outcomes : List (Outcome Address)) :
    AsItShould s outcomes (loop s outcomes) ↔ Outcome.failed ∉ handled outcomes := by
  refine ⟨fun h hfailed => ?_, loop_asItShould hrun⟩
  exact h.nothrow (loop_threw hrun hfailed)

def Server.start (buffer : List UInt8) (clientAddress : Address) : Server Address :=
  ⟨buffer, clientAddress, 0, true, []⟩

theorem loop_asItShould_hi :
    (loop (Server.start [] 0) [Outcome.received ⟨7, [0x20, 0x68, 0x69, 0x0a], by decide⟩]).server.sent =
      [(7, [0x68, 0x69])] :=
  ((loop_asItShould_iff (Server.start [] 0) rfl _).mpr (by simp [handled])).sent.trans (by decide)

/-- One failed `recvfrom`: the program ends with an exception. -/
theorem loop_throws :
    (loop (Server.start [] 0) [.failed]).ending = .threw ∧
      ¬ AsItShould (Server.start [] 0) [.failed] (loop (Server.start [] 0) [.failed]) := by
  have hthrew : (loop (Server.start [] 0) [Outcome.failed]).ending = .threw :=
    loop_threw rfl List.mem_cons_self
  exact ⟨hthrew, fun h => h.nothrow hthrew⟩

end NetworkHomework.UdpEcho
