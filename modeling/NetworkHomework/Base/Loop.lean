import Mathlib

/-!
# Loops left from the inside

A `for (;;)` loop whose body either leaves or goes round again. A `Loop` carries a measure that
every further turn lowers, so running it is a total function; `exec_eq` unrolls one turn, and
`exec_induction` is the only induction the users of a loop need. `Ends` says of a body without a
measure that its loop is left; what every turn goes round with shows that it is not.
-/

namespace NetworkHomework

inductive Turn (σ : Type*) where
  | leave (s : σ)
  | again (s : σ)

/-- A `for (;;)` loop, with the measure that shows it is left. -/
structure Loop (σ : Type*) where
  body : σ → Turn σ
  measure : σ → Nat
  lowers : ∀ {s s' : σ}, body s = .again s' → measure s' < measure s

/-- At most `fuel` turns of a body, and `none` when the body still goes round after that. -/
def turns {σ : Type*} (body : σ → Turn σ) : Nat → σ → Option σ
  | 0, _ => none
  | fuel + 1, s =>
      match body s with
      | .leave s' => some s'
      | .again s' => turns body fuel s'

namespace Loop

variable {σ : Type*} (L : Loop σ)

theorem turns_isSome (fuel : Nat) (s : σ) (hfuel : L.measure s < fuel) :
    (turns L.body fuel s).isSome := by
  induction fuel generalizing s with
  | zero => omega
  | succ fuel ih =>
      rw [turns]
      cases hbody : L.body s with
      | leave s' => rfl
      | again s' =>
          have hlower := L.lowers hbody
          exact ih s' (by omega)

theorem turns_eq (fuel fuel' : Nat) (s : σ) (hfuel : L.measure s < fuel)
    (hfuel' : L.measure s < fuel') :
    turns L.body fuel s = turns L.body fuel' s := by
  induction fuel generalizing fuel' s with
  | zero => omega
  | succ fuel ih =>
      obtain ⟨fuel', rfl⟩ : ∃ n, fuel' = n + 1 := ⟨fuel' - 1, by omega⟩
      rw [turns, turns]
      cases hbody : L.body s with
      | leave s' => rfl
      | again s' =>
          have hlower := L.lowers hbody
          exact ih fuel' s' (by omega) (by omega)

def exec (s : σ) : σ :=
  (turns L.body (L.measure s + 1) s).get (L.turns_isSome _ s (Nat.lt_succ_self _))

theorem turns_eq_exec (fuel : Nat) (s : σ) (hfuel : L.measure s < fuel) :
    turns L.body fuel s = some (L.exec s) := by
  rw [L.turns_eq fuel (L.measure s + 1) s hfuel (Nat.lt_succ_self _), exec, Option.some_get]

theorem exec_eq (s : σ) :
    L.exec s = match L.body s with
      | .leave s' => s'
      | .again s' => L.exec s' := by
  have hexec := L.turns_eq_exec (L.measure s + 1) s (Nat.lt_succ_self _)
  rw [turns] at hexec
  cases hbody : L.body s with
  | leave s' =>
      rw [hbody] at hexec
      exact (Option.some.inj hexec).symm
  | again s' =>
      rw [hbody] at hexec
      have hlower := L.lowers hbody
      exact Option.some.inj (hexec.symm.trans (L.turns_eq_exec _ s' hlower))

theorem exec_of_leave {s s' : σ} (hbody : L.body s = .leave s') : L.exec s = s' := by
  rw [exec_eq, hbody]

theorem exec_of_again {s s' : σ} (hbody : L.body s = .again s') : L.exec s = L.exec s' := by
  rw [exec_eq, hbody]

/-- Induction along the turns of a loop: a relation between the state a turn starts in and the state
the loop is left in holds if the leaving turn establishes it and a further turn carries it back. -/
theorem exec_induction {R : σ → σ → Prop}
    (hleave : ∀ s s', L.body s = .leave s' → R s s')
    (hagain : ∀ s s', L.body s = .again s' → R s' (L.exec s') → R s (L.exec s')) (s : σ) :
    R s (L.exec s) := by
  induction hm : L.measure s using Nat.strong_induction_on generalizing s with
  | _ m ih =>
      cases hbody : L.body s with
      | leave s' =>
          rw [L.exec_of_leave hbody]
          exact hleave s s' hbody
      | again s' =>
          rw [L.exec_of_again hbody]
          have hlower := L.lowers hbody
          exact hagain s s' hbody (ih (L.measure s') (by omega) s' rfl)

theorem exec_keeps {I : σ → Prop} (hleave : ∀ s s', I s → L.body s = .leave s' → I s')
    (hagain : ∀ s s', I s → L.body s = .again s' → I s') {s : σ} (h : I s) : I (L.exec s) := by
  apply L.exec_induction (R := fun s s' => I s → I s')
  · exact fun s s' hbody hs => hleave s s' hs hbody
  · exact fun s s' hbody ih hs => ih (hagain s s' hs hbody)
  · exact h

theorem exec_congr (M : Loop σ) (hbody : M.body = L.body) (s : σ) : M.exec s = L.exec s := by
  apply L.exec_induction (R := fun s s' => M.exec s = s')
  · exact fun s s' hleave => M.exec_of_leave (by rw [hbody, hleave])
  · exact fun s s' hagain ih => (M.exec_of_again (by rw [hbody, hagain])).trans ih

end Loop

/-! ### Loops that need not be left -/

section Ends

variable {σ : Type*} {body : σ → Turn σ}

/-- Some number of turns leaves the loop. -/
def Ends (body : σ → Turn σ) (s : σ) : Prop := ∃ fuel, (turns body fuel s).isSome

theorem ends_of_leave {s s' : σ} (hbody : body s = .leave s') : Ends body s := by
  refine ⟨1, ?_⟩
  rw [turns, hbody]
  rfl

theorem ends_iff_of_again {s s' : σ} (hbody : body s = .again s') : Ends body s ↔ Ends body s' := by
  have hturn : ∀ fuel, turns body (fuel + 1) s = turns body fuel s' := by
    intro fuel
    rw [turns, hbody]
  constructor
  · intro ⟨fuel, hfuel⟩
    cases fuel with
    | zero => cases hfuel
    | succ fuel => exact ⟨fuel, by rwa [← hturn]⟩
  · intro ⟨fuel, hfuel⟩
    exact ⟨fuel + 1, by rwa [hturn]⟩

theorem not_ends_of_invariant {I : σ → Prop} (hagain : ∀ s, I s → ∃ s', body s = .again s' ∧ I s')
    {s : σ} (hs : I s) : ¬ Ends body s := by
  intro ⟨fuel, hfuel⟩
  induction fuel generalizing s with
  | zero => cases hfuel
  | succ fuel ih =>
      obtain ⟨s', hbody, hs'⟩ := hagain s hs
      rw [turns, hbody] at hfuel
      exact ih hs' hfuel

end Ends

end NetworkHomework
