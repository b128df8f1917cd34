import NetworkHomework.Base.Runs

/-!
# Sending a message in parts

A loop that offers the rest of a message to a call which takes some of it and says how much.
`Outbound` is how far such a loop has come: the position it counts, what has been taken, and what it
has returned, if it has. `Sound` is the invariant every such loop keeps as long as a call takes no
more than it is offered.
-/

namespace NetworkHomework

inductive Errno where
  | eintr
  | eagain
  | other
deriving DecidableEq

/-- What a call of `send` returns: a number of bytes, of which it takes no more than it is offered,
or `-1` with an `errno`. -/
inductive SendResult where
  | accepted (count : Nat)
  | failed (errno : Errno)
deriving DecidableEq

structure Outbound (α : Type*) where
  pos : Nat
  sent : List α
  returned : Option Bool
deriving DecidableEq

namespace Outbound

variable {α : Type*}

def start : Outbound α := ⟨0, [], none⟩

/-- `count` more elements, out of what is left of the message, have been taken. -/
def advance (message : List α) (s : Outbound α) (count : Nat) : Outbound α :=
  { s with pos := s.pos + count, sent := s.sent ++ (message.drop s.pos).take count }

def returning (s : Outbound α) (verdict : Bool) : Outbound α := { s with returned := some verdict }

/-- What has been taken is the part of the message that has been counted, and that is a part of
it. -/
structure Sound (message : List α) (s : Outbound α) : Prop where
  inside : s.pos ≤ message.length
  sent_eq : s.sent = message.take s.pos

theorem not_returned {s : Outbound α} (hrunning : s.returned = none) (verdict : Bool) :
    s.returned ≠ some verdict := fun h => absurd (h.symm.trans hrunning) (Option.some_ne_none _)

theorem start_sound (message : List α) : Sound message start := ⟨Nat.zero_le _, rfl⟩

namespace Sound

variable {message : List α} {s : Outbound α}

theorem advance (h : Sound message s) {count : Nat} (hcount : count ≤ message.length - s.pos) :
    Sound message (s.advance message count) where
  inside := by
    have hinside := h.inside
    change s.pos + count ≤ message.length
    omega
  sent_eq := by
    change s.sent ++ (message.drop s.pos).take count = message.take (s.pos + count)
    rw [h.sent_eq, List.take_add]

theorem returning (h : Sound message s) (verdict : Bool) : Sound message (s.returning verdict) :=
  ⟨h.inside, h.sent_eq⟩

theorem whole (h : Sound message s) (hend : message.length ≤ s.pos) : s.sent = message := by
  rw [h.sent_eq, List.take_of_length_le hend]

theorem proper (h : Sound message s) (hmore : s.pos < message.length) :
    s.sent <+: message ∧ s.sent ≠ message := by
  refine ⟨h.sent_eq ▸ List.take_prefix _ _, fun hall => ?_⟩
  have hlength := congrArg List.length (h.sent_eq.symm.trans hall)
  rw [List.length_take] at hlength
  omega

end Sound

end Outbound

end NetworkHomework
