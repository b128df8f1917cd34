import NetworkHomework.Torrent.MainLoop

/-!
# The handle of the torrent

`h.save_resume_data` throws as long as no `add_torrent_alert` has stored a valid handle in `h`, and
nothing in the loop catches that. The session sends the alerts that end the loop only for a torrent
that has been added, so the calls for these are safe. But the timer does not wait for the torrent:
`handle_valid_iff` says that the program is safe exactly if the torrent is there when the first 30
seconds are over.
-/

namespace NetworkHomework.Torrent

namespace Main

/-- The program takes an iteration; it is `none` once an exception has ended it. -/
def run : Option Main → Iteration → Option (Option Main)
  | none, _ => none
  | some m, it => if m.ended then none else some (m.iterate it)

/-! ### What the session sends -/

def poppedAlerts (m : Main) : List Alert :=
  m.trace.flatMap fun
    | .popped alerts => alerts
    | _ => []

def Added (alerts : List Alert) : Prop := ∃ handle, Alert.addTorrent (some handle) ∈ alerts

/-- The torrent is added once, well or with an error, and what ends the loop comes for a torrent
that has been added well. -/
def InOrder (alerts : List Alert) : Prop :=
  ∀ before a after, alerts = before ++ a :: after →
    (a.ends = true → Added before) ∧
      ∀ handle, a = .addTorrent handle → ∀ handle', Alert.addTorrent handle' ∉ before

def Permitted (m : Main) (it : Iteration) : Prop := InOrder (m.poppedAlerts ++ it.alerts)

/-- `SIGINT` ends the loop here, or it is not yet time for a save, or the torrent has been added. -/
def SavesInTime (m : Main) (it : Iteration) : Prop :=
  ((m.shutDown || it.interrupted) = true ∧ it.torrents = 1) ∨
  it.now - m.lastSaveResume ≤ 30 * 10 ^ 9 ∨
    Added (m.poppedAlerts ++ it.alerts)

theorem poppedAlerts_popped (m : Main) (alerts : List Alert) :
    (m.act (.popped alerts)).poppedAlerts = m.poppedAlerts ++ alerts := by
  rw [poppedAlerts, act, List.flatMap_append, List.flatMap_singleton]
  rfl

theorem poppedAlerts_act {m : Main} {a : Action} (ha : ∀ alerts, a ≠ .popped alerts) :
    (m.act a).poppedAlerts = m.poppedAlerts := by
  rw [poppedAlerts, act, List.flatMap_append, List.flatMap_singleton]
  cases a with
  | popped alerts => exact absurd rfl (ha alerts)
  | requested => exact List.append_nil _
  | resumeFile data => exact List.append_nil _
  | failed => exact List.append_nil _

/-- What the variables say of the alerts dealt with: the handle is valid exactly if the torrent has
been added, and so is it if the loop is to end. -/
structure Tracks (m : Main) (seen : List Alert) : Prop where
  handle : m.handle.isSome = true ↔ Added seen
  done : m.done = true → Added seen

theorem Added.append {seen : List Alert} (h : Added seen) (more : List Alert) :
    Added (seen ++ more) := by
  obtain ⟨handle, hmem⟩ := h
  exact ⟨handle, List.mem_append_left more hmem⟩

theorem added_concat {seen : List Alert} {a : Alert} (ha : ∀ handle, a ≠ .addTorrent handle) :
    Added (seen ++ [a]) ↔ Added seen := by
  refine ⟨fun ⟨handle, hmem⟩ => ⟨handle, ?_⟩, fun h => h.append [a]⟩
  rcases List.mem_append.mp hmem with hseen | hlast
  · exact hseen
  · exact absurd (List.mem_singleton.mp hlast).symm (ha _)

theorem Tracks.keep {m m' : Main} {seen : List Alert} {a : Alert} (h : Tracks m seen)
    (ha : ∀ handle, a ≠ .addTorrent handle) (hhandle : m'.handle = m.handle)
    (hdone : m'.done = true → m.done = true ∨ Added seen) : Tracks m' (seen ++ [a]) := by
  constructor
  · rw [hhandle, h.handle, added_concat ha]
  · intro hended
    exact (added_concat ha).mpr ((hdone hended).elim h.done id)

theorem saveResumeData_of_added {m : Main} {seen : List Alert} (h : Tracks m seen)
    (hadded : Added seen) :
    m.saveResumeData = some (m.act .requested) := by
  obtain ⟨handle, hhandle⟩ := Option.isSome_iff_exists.mp (h.handle.mpr hadded)
  rw [saveResumeData, hhandle]

/-- `m'` comes from `m` without a save of the timer's, and without a batch taken. -/
def SameBatch (m m' : Main) : Prop :=
  m'.lastSaveResume = m.lastSaveResume ∧ m'.poppedAlerts = m.poppedAlerts

theorem processAlert_tracks {m : Main} {seen rest : List Alert} {a : Alert} (h : Tracks m seen)
    (horder : InOrder (seen ++ a :: rest)) :
    ∃ m' stop, m.processAlert a = some (m', stop) ∧ Tracks m' (seen ++ [a]) ∧
    (stop = true → m'.done = true) ∧
      SameBatch m m' := by
  obtain ⟨hends, honce⟩ := horder seen a rest rfl
  cases a with
  | addTorrent handle =>
      have hfirst : ¬ Added seen := fun ⟨handle', hmem⟩ => honce handle rfl (some handle') hmem
      refine ⟨{ m with handle := handle }, false, rfl,
        ⟨?_, fun hdone => absurd (h.done hdone) hfirst⟩, by simp, rfl, rfl⟩
      cases handle with
      | none =>
          refine iff_of_false (by simp) fun ⟨handle', hmem⟩ => ?_
          rcases List.mem_append.mp hmem with hseen | hlast
          · exact hfirst ⟨handle', hseen⟩
          · cases List.mem_singleton.mp hlast
      | some handle => exact iff_of_true rfl ⟨handle, by simp⟩
  | torrentFinished =>
      have hadded := hends rfl
      refine ⟨{ m.act .requested with done := true }, false, ?_, h.keep (by simp) rfl fun _ =>
        Or.inr hadded,
        by simp, rfl, poppedAlerts_act (by simp)⟩
      rw [processAlert, saveResumeData_of_added h hadded]
      rfl
  | torrentError =>
      have hadded := hends rfl
      have hdone : Tracks { m with done := true } seen := ⟨h.handle, fun _ => hadded⟩
      refine ⟨{ m with done := true }.act .requested, false, ?_, h.keep (by simp) rfl fun _ =>
        Or.inr hadded,
        by simp, rfl, poppedAlerts_act (by simp)⟩
      rw [processAlert, saveResumeData_of_added hdone hadded]
      rfl
  | saveResumeData data =>
      exact ⟨m.act (.resumeFile data), m.done, rfl, h.keep (by simp) rfl Or.inl, id, rfl,
        poppedAlerts_act (by simp)⟩
  | saveResumeDataFailed =>
      exact ⟨m.act .failed, m.done, rfl, h.keep (by simp) rfl Or.inl, id, rfl,
        poppedAlerts_act (by simp)⟩
  | stateUpdate => exact ⟨m, false, rfl, h.keep (by simp) rfl Or.inl, by simp, rfl, rfl⟩
  | other => exact ⟨m, false, rfl, h.keep (by simp) rfl Or.inl, by simp, rfl, rfl⟩

theorem processAlerts_tracks {m : Main} {seen alerts : List Alert} (h : Tracks m seen)
    (horder : InOrder (seen ++ alerts)) :
    ∃ m', m.processAlerts alerts = some m' ∧ Tracks m' (seen ++ alerts) ∧ SameBatch m m' := by
  induction alerts generalizing m seen with
  | nil => exact ⟨m, rfl, by rwa [List.append_nil], rfl, rfl⟩
  | cons a alerts ih =>
      obtain ⟨t, stop, hfirst, htracks, hstop, hlast, hpopped⟩ := processAlert_tracks h horder
      have hsplit : seen ++ a :: alerts = seen ++ [a] ++ alerts := by simp
      rw [hsplit] at horder ⊢
      cases stop with
      | true =>
          -- whatever is left out, the loop is to end, so that the torrent is there
          have hadded := htracks.done (hstop rfl)
          refine ⟨t, ?_, ⟨?_, fun _ => hadded.append alerts⟩, hlast, hpopped⟩
          · rw [processAlerts, hfirst]
            rfl
          · exact iff_of_true (htracks.handle.mpr hadded) (hadded.append alerts)
      | false =>
          obtain ⟨m', hrest, htracks', hlast', hpopped'⟩ := ih htracks horder
          refine ⟨m', ?_, htracks', hlast'.trans hlast, hpopped'.trans hpopped⟩
          rw [processAlerts, hfirst]
          exact hrest

theorem saveOnTimer_tracks {m : Main} {seen : List Alert} (h : Tracks m seen) (it : Iteration) :
    ((it.now - m.lastSaveResume ≤ 30 * 10 ^ 9 ∨ Added seen) ∧
        ∃ m', m.saveOnTimer it = some m' ∧ Tracks m' seen ∧ m'.poppedAlerts = m.poppedAlerts) ∨
      (¬ (it.now - m.lastSaveResume ≤ 30 * 10 ^ 9 ∨ Added seen) ∧ m.saveOnTimer it = none) := by
  rw [saveOnTimer]
  by_cases htime : it.now - m.lastSaveResume > 30 * 10 ^ 9
  · rw [if_pos htime]
    by_cases hadded : Added seen
    · rw [saveResumeData_of_added h hadded]
      exact Or.inl ⟨Or.inr hadded, _, rfl, ⟨h.handle, h.done⟩, poppedAlerts_act (by simp)⟩
    · have hhandle : m.handle = none := by
        rw [← Option.not_isSome_iff_eq_none, h.handle]
        exact hadded
      refine Or.inr ⟨?_, ?_⟩
      · rintro (hearly | hlate)
        · omega
        · exact hadded hlate
      · rw [saveResumeData, hhandle]
        rfl
  · rw [if_neg htime]
    exact Or.inl ⟨Or.inl (by omega), m, rfl, h, rfl⟩

/-! ### The loop -/

/-- The program has not been ended by an exception, and its handle is valid if the torrent has been
added. -/
def Safe (p : Option Main) : Prop :=
  ∃ m, p = some m ∧ (m.ended = false → m.done = false ∧ Tracks m m.poppedAlerts)

theorem safe_start (now : Int) : Safe (some (start now)) := by
  refine ⟨_, rfl, fun _ => ⟨rfl, iff_of_false (by simp [start]) ?_, fun hdone => by cases hdone⟩⟩
  rintro ⟨handle, hmem⟩
  cases hmem

theorem handleAlerts_tracks {m : Main} {it : Iteration} {seen : List Alert} (h : Tracks m seen)
    (horder : InOrder (seen ++ it.alerts)) (hpopped : m.poppedAlerts = seen ++ it.alerts) :
    ((it.now - m.lastSaveResume ≤ 30 * 10 ^ 9 ∨ Added (seen ++ it.alerts)) ∧
      Safe (m.handleAlerts it)) ∨
      (¬ (it.now - m.lastSaveResume ≤ 30 * 10 ^ 9 ∨ Added (seen ++ it.alerts)) ∧
        m.handleAlerts it = none) := by
  obtain ⟨t, halerts, htracks, hlast, hsame⟩ := processAlerts_tracks h horder
  rw [handleAlerts, halerts, ← hlast, Option.bind_eq_bind, Option.bind_some]
  rcases saveOnTimer_tracks htracks it with ⟨hintime, m', htimer, htracks', hsame'⟩ |
    ⟨hlate, htimer⟩
  · rw [htimer]
    refine Or.inl ⟨hintime, { m' with ended := m'.done }, rfl, fun hended => ⟨hended, ?_⟩⟩
    have hkept : m'.poppedAlerts = seen ++ it.alerts := hsame'.trans (hsame.trans hpopped)
    change Tracks _ m'.poppedAlerts
    rw [hkept]
    exact ⟨htracks'.handle, htracks'.done⟩
  · rw [htimer]
    exact Or.inr ⟨hlate, rfl⟩

theorem poppedAlerts_taken (m : Main) (it : Iteration) :
    (m.taken it).poppedAlerts = m.poppedAlerts ++ it.alerts :=
  poppedAlerts_popped m it.alerts

/-- An iteration of a program that is safe keeps it so, or ends it by an exception. -/
theorem Safe.run {p q : Option Main} {it : Iteration} (h : Safe p)
    (hpermitted : ∀ m ∈ p, Permitted m it) (hstep : Main.run p it = some q) :
    ((∀ m ∈ p, SavesInTime m it) ∧ Safe q) ∨ (¬ (∀ m ∈ p, SavesInTime m it) ∧ ¬ q ≠ none) := by
  obtain ⟨m, rfl, hsafe⟩ := h
  have horder : Permitted m it := hpermitted m rfl
  have hone : (∀ n ∈ some m, SavesInTime n it) ↔ SavesInTime m it := by simp
  rw [hone, SavesInTime]
  rw [Main.run] at hstep
  split_ifs at hstep with hended
  rw [Bool.not_eq_true] at hended
  obtain ⟨_, htracks⟩ := hsafe hended
  obtain rfl := Option.some.inj hstep
  rw [iterate_eq hended]
  split_ifs with hinterrupt
  · exact Or.inl ⟨Or.inl hinterrupt, _, rfl, fun hrunning => by cases hrunning⟩
  · rw [or_iff_right hinterrupt]
    have htaken : Tracks (m.taken it) m.poppedAlerts := ⟨htracks.handle, htracks.done⟩
    rcases handleAlerts_tracks htaken horder (poppedAlerts_taken m it) with hintime | ⟨hlate, hnone⟩
    · exact Or.inl hintime
    · exact Or.inr ⟨hlate, not_not_intro hnone⟩

/-- **The handle.** Whenever the session sends what it may, no call is made on an invalid handle
throughout a run exactly if the torrent has been added whenever the timer asks for a save. -/
theorem handle_valid_iff (now : Int) (its : List Iteration)
    (hpermitted : Runs.Along Main.run (fun p it => ∀ m ∈ p, Permitted m it) (some (start now)) its) :
    Runs.Always Main.run (fun p => p ≠ none) (some (start now)) its ↔
      Runs.Along Main.run (fun p it => ∀ m ∈ p, SavesInTime m it) (some (start now)) its := by
  refine Runs.always_iff_along_of ?_ (fun p it q h hallowed hstep => h.run hallowed hstep)
    (safe_start now) hpermitted
  rintro _ ⟨m, rfl, _⟩
  exact Option.some_ne_none m

/-- The torrent is added in the batch that is taken before the timer asks for the first save. -/
theorem handle_valid_added :
    Runs.Always Main.run (fun p => p ≠ none) (some (start 0))
      [⟨[.addTorrent (some 1)], false, 1, 31 * 10 ^ 9, 31 * 10 ^ 9⟩] := by
  have horder : InOrder [.addTorrent (some 1)] := by
    intro before a after hsplit
    cases before with
    | nil =>
        cases hsplit
        exact ⟨fun hends => absurd hends Bool.false_ne_true, fun _ _ _ => List.not_mem_nil⟩
    | cons b before => simp at hsplit
  refine (handle_valid_iff 0 _ ?_).mpr ?_
  · intro q _
    refine ⟨fun m hm => ?_, trivial⟩
    cases hm
    exact horder
  · intro q _
    refine ⟨fun m hm => Or.inr (Or.inr ?_), trivial⟩
    cases hm
    exact ⟨1, List.mem_singleton.mpr rfl⟩

/-- A torrent that has not been added after 31 seconds: the timer ends the program. -/
theorem handle_used_early :
    ¬ ∀ (now : Int) (its : List Iteration),
      Runs.Along Main.run (fun p it => ∀ m ∈ p, Permitted m it) (some (start now)) its →
        Runs.Always Main.run (fun p => p ≠ none) (some (start now)) its := by
  intro h
  have hsafe := h 0 [⟨[], false, 0, 31 * 10 ^ 9, 31 * 10 ^ 9⟩] fun q _ => ⟨fun m hm => ?_, trivial⟩
  · exact hsafe.2 none rfl rfl
  · cases hm
    intro before a after hsplit
    simp [poppedAlerts, start] at hsplit

end Main

end NetworkHomework.Torrent
