import NetworkHomework.Torrent.MainLoop

/-!
# `SIGINT` and the torrent client

The handler sets `shut_down`, and the loop looks at it once in every iteration. It clears the flag
before it knows whether there is exactly one torrent to save, so an interrupt that comes too early
is forgotten: `interrupts_honoured_iff` says in which runs none is.
-/

namespace NetworkHomework.Torrent

namespace Main

/-- The state with whether `SIGINT` has come so far. -/
def watch (s : Main × Bool) (it : Iteration) : Option (Main × Bool) :=
  (s.1.iterate it).map fun m => (m, s.2 || it.interrupted)

/-- The end on `SIGINT`: the resume data of the torrent is asked for, and the loop is left. -/
def interrupt (m : Main) (it : Iteration) : Main :=
  { { m.act (.popped it.alerts) with shutDown := false }.act .requested with done := true, ended := true }

/-- Any iteration that starts with exactly one torrent, now or after `SIGINT` has come, is ended by
it. -/
def Honours (s : Main × Bool) : Prop :=
  s.1.ended = false → ∀ it : Iteration, (s.2 || it.interrupted) = true → it.torrents = 1 →
    s.1.iterate it = some (s.1.interrupt it)

/-- `SIGINT` finds exactly one torrent, or the loop ends with this iteration anyway. -/
def Acts (_ : Main × Bool) (it : Iteration) : Prop :=
  it.interrupted = true → it.torrents = 1 ∨ it.alerts.any Alert.ends = true

/-- The flag is clear between two iterations, and a loop that goes on is not done and has seen no
`SIGINT`. -/
structure Unsignalled (s : Main × Bool) : Prop where
  shutDown : s.1.shutDown = false
  done : s.1.ended = false → s.1.done = false
  signalled : s.1.ended = false → s.2 = false

theorem unsignalled_start (now : Int) : Unsignalled (start now, false) :=
  ⟨rfl, fun _ => rfl, fun _ => rfl⟩

theorem iterate_interrupted {m : Main} (hended : m.ended = false) {it : Iteration}
    (hinterrupted : it.interrupted = true) (hone : it.torrents = 1) :
      m.iterate it = some (m.interrupt it) := by
  have hflag : (m.shutDown || it.interrupted) = true := by rw [hinterrupted, Bool.or_true]
  rw [iterate_eq hended, if_pos ⟨hflag, hone⟩]
  rfl

theorem Unsignalled.honours {s : Main × Bool} (h : Unsignalled s) : Honours s := by
  intro hended it hsignal hone
  rw [h.signalled hended, Bool.false_or] at hsignal
  exact iterate_interrupted hended hsignal hone

/-! ### Nothing but the look at the flag changes it -/

theorem processAlert_shutDown {m m' : Main} {a : Alert} {stop : Bool}
    (h : m.processAlert a = some (m', stop)) :
    m'.shutDown = m.shutDown := by
  cases a with
  | torrentFinished | torrentError =>
      obtain ⟨rfl, -⟩ := processAlert_ends rfl h
      rfl
  | _ =>
      cases h
      rfl

theorem processAlerts_shutDown {m m' : Main} {alerts : List Alert}
    (h : m.processAlerts alerts = some m') :
    m'.shutDown = m.shutDown := by
  induction alerts generalizing m with
  | nil =>
      cases h
      rfl
  | cons a alerts ih =>
      obtain ⟨⟨t, stop⟩, hfirst, hrest⟩ := Option.bind_eq_some_iff.mp h
      have hsame := processAlert_shutDown hfirst
      cases stop with
      | true =>
          cases hrest
          exact hsame
      | false => exact (ih hrest).trans hsame

theorem saveOnTimer_shutDown {m m' : Main} {it : Iteration} (h : m.saveOnTimer it = some m') :
    m'.shutDown = m.shutDown := by
  cases saveOnTimer_cases h with
  | inl hsaved =>
      rw [hsaved]
      rfl
  | inr hsame => rw [hsame]

theorem handleAlerts_shutDown {m m' : Main} {it : Iteration} (h : m.handleAlerts it = some m') :
    m'.shutDown = m.shutDown := by
  obtain ⟨t, halerts, h⟩ := Option.bind_eq_some_iff.mp h
  obtain ⟨t', htimer, h⟩ := Option.bind_eq_some_iff.mp h
  cases h
  exact (saveOnTimer_shutDown htimer).trans (processAlerts_shutDown halerts)

/-! ### Runs -/

theorem running_of_iterate {m m' : Main} {it : Iteration} (h : m.iterate it = some m') :
    m.ended = false := by
  by_contra hended
  rw [Bool.not_eq_false] at hended
  rw [iterate, if_pos hended] at h
  cases h

theorem Unsignalled.iterate {s : Main × Bool} (h : Unsignalled s) {it : Iteration} {m' : Main}
    (hstep : s.1.iterate it = some m') :
    (it.interrupted = true ∧ it.torrents = 1 ∧ m' = s.1.interrupt it) ∨
      (¬ (it.interrupted = true ∧ it.torrents = 1) ∧ m'.shutDown = false ∧ m'.ended = it.alerts.any Alert.ends ∧
        m'.done = it.alerts.any Alert.ends) := by
  have hended := running_of_iterate hstep
  have hdone := h.done hended
  rw [iterate_eq hended, h.shutDown, Bool.false_or] at hstep
  split_ifs at hstep with hinterrupted
  · exact Or.inl ⟨hinterrupted.1, hinterrupted.2, (Option.some.inj hstep).symm⟩
  · obtain ⟨hprocessed, hend⟩ := handleAlerts_processed hstep
    have hdone' : m'.done = (s.1.done || it.alerts.any Alert.ends) := hprocessed.done
    rw [hdone, Bool.false_or] at hdone'
    exact Or.inr ⟨hinterrupted, handleAlerts_shutDown hstep, hend.trans hdone', hdone'⟩

theorem not_honours {m : Main} (hended : m.ended = false) (hdone : m.done = false) (hshut : m.shutDown = false) :
    ¬ Honours (m, true) := by
  intro h
  have hbreak := h hended ⟨[], false, 1, m.lastSaveResume, 0⟩ rfl rfl
  have hunsignalled : Unsignalled (m, false) := ⟨hshut, fun _ => hdone, fun _ => rfl⟩
  rcases hunsignalled.iterate hbreak with ⟨hinterrupted, _⟩ | ⟨_, _, hgoes, _⟩
  · cases hinterrupted
  · cases hgoes

theorem Unsignalled.watch {s s' : Main × Bool} {it : Iteration} (h : Unsignalled s)
    (hstep : Main.watch s it = some s') :
    (Acts s it ∧ Unsignalled s') ∨ (¬ Acts s it ∧ ¬ Honours s') := by
  obtain ⟨m', hiterate, rfl⟩ := Option.map_eq_some_iff.mp hstep
  have hended := running_of_iterate hiterate
  rcases h.iterate hiterate with ⟨_, hone, rfl⟩ | ⟨hnot, hshut, hends, hdone⟩
  · exact Or.inl ⟨fun _ => Or.inl hone, rfl, fun hrunning => (by cases hrunning), fun hrunning => (by cases hrunning)⟩
  · have hkept : m'.ended = false → m'.done = false :=
      fun hrunning => hdone.trans (hends.symm.trans hrunning)
    rw [h.signalled hended, Bool.false_or]
    cases hinterrupted : it.interrupted with
    | false =>
        exact Or.inl ⟨fun hsignal => absurd (hinterrupted.symm.trans hsignal) Bool.false_ne_true,
          hshut, hkept, fun _ => rfl⟩
    | true =>
        cases hany : it.alerts.any Alert.ends with
        | true =>
            rw [hany] at hends
            refine Or.inl ⟨fun _ => Or.inr hany, hshut, hkept, fun hrunning => ?_⟩
            exact absurd (hends.symm.trans hrunning) (by decide)
        | false =>
            rw [hany] at hends hdone
            refine Or.inr ⟨fun hacts => ?_, not_honours hends hdone hshut⟩
            rcases hacts hinterrupted with hone | hsome
            · exact hnot ⟨hinterrupted, hone⟩
            · exact Bool.false_ne_true (hany.symm.trans hsome)

/-- **Interrupts.** Throughout a run, `SIGINT` ends the next iteration that starts with exactly one
torrent exactly if it always finds one torrent when the flag is looked at, or a loop that ends
anyway. -/
theorem interrupts_honoured_iff (now : Int) (its : List Iteration) :
    Runs.Always watch Honours (start now, false) its ↔
    Runs.Along watch Acts (start now, false) its :=
  Runs.always_iff_along (fun _ h => h.honours) (fun _ _ _ h hstep => h.watch hstep)
    (unsignalled_start now)

/-- `SIGINT` comes before the torrent is added, and the loop goes on with the torrent. -/
theorem interrupt_forgotten :
    ¬ ∀ (now : Int) (its : List Iteration), Runs.Always watch Honours (start now, false) its := by
  intro h
  have hhonours := (h 0 [⟨[], true, 0, 0, 0⟩]).final
  exact not_honours rfl rfl rfl hhonours

end Main

end NetworkHomework.Torrent
