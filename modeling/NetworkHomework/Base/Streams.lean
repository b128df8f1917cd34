import Mathlib

/-!
# Correct use of stdio streams

A program that keeps one `FILE *` makes a list of calls of `fopen`, `fprintf` and `fclose`. `Usage`
follows such a list: which streams are open, which of them the program still holds, and which
numbers have been given to streams, each of which names one stream for good. A list of calls that
prints to or closes a stream that is not open, or lets go of an open stream for a new one, is not
followed further.
-/

namespace NetworkHomework

/-- A call on streams; the result of `fopen` is what the program holds from then on. -/
inductive StreamCall where
  | fopen (stream : Option Nat)
  | fprintf (stream : Nat) (c : UInt8)
  | fclose (stream : Nat)
deriving DecidableEq

structure Usage where
  opened : List Nat
  held : Option Nat
  next : Nat
deriving DecidableEq

namespace Usage

def start : Usage := ⟨[], none, 0⟩

def call (u : Usage) : StreamCall → Option Usage
  | .fopen none => some { u with held := none }
  | .fopen (some stream) =>
      if (∃ held ∈ u.held, held ∈ u.opened) ∨ stream < u.next then none
      else some ⟨stream :: u.opened, some stream, stream + 1⟩
  | .fprintf stream _ => if stream ∈ u.opened then some u else none
  | .fclose stream =>
      if stream ∈ u.opened then some { u with opened := u.opened.filter (· ≠ stream) } else none

def follow (calls : List StreamCall) : Option Usage := calls.foldlM call start

theorem follow_append {calls : List StreamCall} {u : Usage} (h : follow calls = some u)
    (more : List StreamCall) : follow (calls ++ more) = more.foldlM call u := by
  rw [follow, List.foldlM_append, ← follow, h]
  rfl

theorem foldlM_fprintf {u : Usage} {stream : Nat} (hopen : stream ∈ u.opened) (chars : List UInt8) :
    (chars.map (StreamCall.fprintf stream)).foldlM call u = some u := by
  induction chars with
  | nil => rfl
  | cons c chars ih =>
      have hcall : u.call (.fprintf stream c) = some u := if_pos hopen
      rw [List.map_cons, List.foldlM_cons, hcall]
      exact ih

end Usage

end NetworkHomework
