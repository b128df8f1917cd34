import NetworkHomework.Base.Runs

/-!
# The torrent client's main loop

Each iteration takes the alerts that have gathered, looks whether `SIGINT` has come, deals with the
alerts in turn, and saves the resume data if the last save is 30 seconds old. A save is a request,
which the session answers with an alert in some later batch. The loop asks for a save when it is
about to end and does not wait for the answer: `settled_iff_running` says that it never ends in good
order.
-/

namespace NetworkHomework.Torrent

abbrev Handle := Option Nat

/-- The alerts the loop tells apart, with what it reads of them. -/
inductive Alert where
  | addTorrent (handle : Handle)
  | torrentFinished
  | torrentError
  | saveResumeData (data : List UInt8)
  | saveResumeDataFailed
  | stateUpdate
  | other
deriving DecidableEq

def Alert.answers : Alert → Bool
  | saveResumeData _ | saveResumeDataFailed => true
  | _ => false

def Alert.ends : Alert → Bool
  | torrentFinished | torrentError => true
  | _ => false

/-- What the loop has done: a batch of alerts taken, a save requested, an answer dealt with. -/
inductive Action where
  | popped (alerts : List Alert)
  | requested
  | resumeFile (data : List UInt8)
  | failed
deriving DecidableEq

def Action.isRequest : Action → Bool
  | requested => true
  | _ => false

def Action.isAnswer : Action → Bool
  | resumeFile _ | failed => true
  | _ => false

def Action.poppedAnswers : Action → Nat
  | popped alerts => alerts.countP Alert.answers
  | _ => 0

/-- The variables of `main`, with whether the loop has ended and what it has done. -/
structure Main where
  shutDown : Bool
  done : Bool
  handle : Handle
  lastSaveResume : Int
  ended : Bool
  trace : List Action
deriving DecidableEq

/-- What one iteration meets: the alerts, whether `SIGINT` has come since `shut_down` was looked at
last, the number of torrents in the session, and two readings of the clock in nanoseconds. -/
structure Iteration where
  alerts : List Alert
  interrupted : Bool
  torrents : Nat
  now : Int
  later : Int

namespace Main

def start (now : Int) : Main := ⟨false, false, none, now, false, []⟩

def act (m : Main) (a : Action) : Main := { m with trace := m.trace ++ [a] }

/-- `h.save_resume_data`, which throws if `h` is not valid. -/
def saveResumeData (m : Main) : Option Main :=
  match m.handle with
  | none => none
  | some _ => some (m.act .requested)

/-- The body of the loop over the alerts, and whether it breaks; `none` if it throws. -/
def processAlert (m : Main) : Alert → Option (Main × Bool)
  | .addTorrent handle => some ({ m with handle := handle }, false)
  | .torrentFinished => do
      let m ← m.saveResumeData
      some ({ m with done := true }, false)
  | .torrentError => do
      let m ← { m with done := true }.saveResumeData
      some (m, false)
  | .saveResumeData data => some (m.act (.resumeFile data), m.done)
  | .saveResumeDataFailed => some (m.act .failed, m.done)
  | .stateUpdate | .other => some (m, false)

def processAlerts : Main → List Alert → Option Main
  | m, [] => some m
  | m, a :: alerts => do
      let (m, stop) ← m.processAlert a
      if stop then some m else processAlerts m alerts

def saveOnTimer (m : Main) (it : Iteration) : Option Main :=
  if it.now - m.lastSaveResume > 30 * 10 ^ 9 then
    m.saveResumeData.map fun m => { m with lastSaveResume := it.later }
  else some m

/-- What an iteration does that `SIGINT` does not cut short, up to the test of `done` in front of
the next one. -/
def handleAlerts (m : Main) (it : Iteration) : Option Main := do
  let m ← m.processAlerts it.alerts
  let m ← m.saveOnTimer it
  some { m with ended := m.done }

def iterate (m : Main) (it : Iteration) : Option Main :=
  if m.ended then none
  else
    let m := m.act (.popped it.alerts)
    if m.shutDown || it.interrupted then
      let m := { m with shutDown := false }
      if it.torrents = 1 then some { m.act .requested with done := true, ended := true }
      else m.handleAlerts it
    else m.handleAlerts it

def taken (m : Main) (it : Iteration) : Main := { m.act (.popped it.alerts) with shutDown := false }

theorem iterate_eq {m : Main} (hended : m.ended = false) (it : Iteration) :
    m.iterate it =
      if (m.shutDown || it.interrupted) = true ∧ it.torrents = 1 then
        some { (m.taken it).act .requested with done := true, ended := true }
      else (m.taken it).handleAlerts it := by
  rw [iterate, hended, if_neg Bool.false_ne_true]
  change (if (m.shutDown || it.interrupted) = true then
    _ else (m.act (.popped it.alerts)).handleAlerts it) = _
  by_cases hflag : (m.shutDown || it.interrupted) = true
  · simp only [hflag, if_true, true_and]
    rfl
  · have hclear : m.shutDown = false := (Bool.or_eq_false_iff.mp (Bool.not_eq_true _ ▸ hflag)).1
    have hsame : m.act (.popped it.alerts) = m.taken it := by rw [taken, act, ← hclear]
    rw [if_neg hflag, if_neg fun hboth => hflag hboth.1, hsame]

/-! ### Requests and answers -/

def requested (m : Main) : Nat := m.trace.countP Action.isRequest

def answered (m : Main) : Nat := m.trace.countP Action.isAnswer

def poppedAnswers (m : Main) : Nat := (m.trace.map Action.poppedAnswers).sum

@[simp] theorem requested_act (m : Main) (a : Action) :
    (m.act a).requested = m.requested + if a.isRequest then 1 else 0 := by
  simp [requested, act, List.countP_singleton]

@[simp] theorem answered_act (m : Main) (a : Action) :
    (m.act a).answered = m.answered + if a.isAnswer then 1 else 0 := by
  simp [answered, act, List.countP_singleton]

@[simp] theorem poppedAnswers_act (m : Main) (a : Action) :
    (m.act a).poppedAnswers = m.poppedAnswers + a.poppedAnswers := by
  simp [poppedAnswers, act]

/-- Every request has been answered, and there is an answer behind the last one. -/
def Settled (m : Main) : Prop :=
  m.requested ≤ m.answered ∧
    ∀ before after, m.trace = before ++ .requested :: after → ∃ a ∈ after, a.isAnswer = true

/-- A request is answered once, in a later batch: the batches up to this one hold no more answers
than requests were made before it. -/
def AnswersRequests (m : Main) (it : Iteration) : Prop :=
  m.poppedAnswers + it.alerts.countP Alert.answers ≤ m.requested

/-- Nothing makes this iteration the last: `SIGINT` does not find exactly one torrent, and no
torrent is finished or in error. -/
def GoesOn (m : Main) (it : Iteration) : Prop :=
  ¬ ((m.shutDown || it.interrupted) = true ∧ it.torrents = 1) ∧ it.alerts.any Alert.ends = false

instance (m : Main) (it : Iteration) : Decidable (m.AnswersRequests it) :=
  inferInstanceAs (Decidable (_ ≤ _))

instance (m : Main) (it : Iteration) : Decidable (m.GoesOn it) :=
  inferInstanceAs (Decidable (_ ∧ _))

/-! ### What an iteration does -/

/-- `m'` comes from `m` by dealing with some of the alerts: an alert is answered for at most once,
and whatever ends the loop has made a request. -/
structure Processed (m : Main) (alerts : List Alert) (m' : Main) : Prop where
  popped : m'.poppedAnswers = m.poppedAnswers
  answered : m'.answered ≤ m.answered + alerts.countP Alert.answers
  requested : m.requested ≤ m'.requested
  done : m'.done = (m.done || alerts.any Alert.ends)
  asked : m'.done = true → m.done = true ∨ m.requested < m'.requested

theorem Processed.trans {m m' m'' : Main} {alerts alerts' : List Alert} (h : Processed m alerts m')
    (h' : Processed m' alerts' m'') : Processed m (alerts ++ alerts') m'' := by
  refine ⟨h'.popped.trans h.popped, ?_, h.requested.trans h'.requested, ?_, fun hdone => ?_⟩
  · have hanswered := h.answered
    have hanswered' := h'.answered
    rw [List.countP_append]
    omega
  · rw [h'.done, h.done, List.any_append, Bool.or_assoc]
  · have hrequested := h.requested
    have hrequested' := h'.requested
    rcases h'.asked hdone with hbefore | hlt
    · rcases h.asked hbefore with hstart | hlt
      · exact Or.inl hstart
      · exact Or.inr (by omega)
    · exact Or.inr (by omega)

theorem Processed.skip {m : Main} (hdone : m.done = true) (alerts : List Alert) :
    Processed m alerts m :=
  ⟨rfl, Nat.le_add_right _ _, Nat.le_refl _, by rw [hdone, Bool.true_or], Or.inl⟩

theorem Processed.quiet {m m' : Main} {alerts : List Alert} (htrace : m'.trace = m.trace)
    (hdone : m'.done = m.done) (hends : alerts.any Alert.ends = false) : Processed m alerts m' := by
  have hrequested : m'.requested = m.requested := congrArg (List.countP Action.isRequest) htrace
  have hanswered : m'.answered = m.answered := congrArg (List.countP Action.isAnswer) htrace
  refine ⟨congrArg (fun trace => (trace.map Action.poppedAnswers).sum) htrace, ?_,
    Nat.le_of_eq hrequested.symm,
    ?_, fun hdone' => Or.inl (hdone.symm.trans hdone')⟩
  · rw [hanswered]
    exact Nat.le_add_right _ _
  · rw [hdone, hends, Bool.or_false]

theorem Processed.asks {m m' : Main} {alerts : List Alert}
    (htrace : m'.trace = (m.act .requested).trace)
    (hdone : m'.done = (m.done || alerts.any Alert.ends)) : Processed m alerts m' := by
  have hrequested : m'.requested = m.requested + 1 :=
    (congrArg (List.countP Action.isRequest) htrace).trans (requested_act m _)
  have hanswered : m'.answered = m.answered :=
    (congrArg (List.countP Action.isAnswer) htrace).trans (answered_act m _)
  have hpopped : m'.poppedAnswers = m.poppedAnswers :=
    (congrArg (fun trace => (trace.map Action.poppedAnswers).sum) htrace).trans
      (poppedAnswers_act m _)
  exact ⟨hpopped, by omega, by omega, hdone, fun _ => Or.inr (by omega)⟩

theorem Processed.answers {m : Main} {alert : Alert} {a : Action} (halert : alert.answers = true)
    (hends : alert.ends = false) (hpopped : a.poppedAnswers = 0) :
    Processed m [alert] (m.act a) := by
  have hcount : [alert].countP Alert.answers = 1 := List.countP_singleton.trans (if_pos halert)
  refine ⟨by rw [poppedAnswers_act, hpopped, Nat.add_zero], ?_, ?_, ?_, Or.inl⟩
  · rw [answered_act, hcount]
    split_ifs <;> omega
  · rw [requested_act]
    exact Nat.le_add_right _ _
  · rw [List.any_cons, hends]
    exact (Bool.or_false _).symm

theorem saveResumeData_eq {m m' : Main} (h : m.saveResumeData = some m') :
    m' = m.act .requested := by
  rw [saveResumeData] at h
  split at h
  · cases h
  · exact (Option.some.inj h).symm

theorem processAlert_ends {m m' : Main} {a : Alert} {stop : Bool} (hends : a.ends = true)
    (h : m.processAlert a = some (m', stop)) :
    m' = { m.act .requested with done := true } ∧ stop = false := by
  cases a with
  | torrentFinished | torrentError =>
      obtain ⟨t, hsave, h⟩ := Option.bind_eq_some_iff.mp h
      cases saveResumeData_eq hsave
      cases h
      exact ⟨rfl, rfl⟩
  | _ => cases hends

theorem saveOnTimer_cases {m m' : Main} {it : Iteration} (h : m.saveOnTimer it = some m') :
    m' = { m.act .requested with lastSaveResume := it.later } ∨ m' = m := by
  rw [saveOnTimer] at h
  split_ifs at h
  · obtain ⟨t, hsave, rfl⟩ := Option.map_eq_some_iff.mp h
    rw [saveResumeData_eq hsave]
    exact Or.inl rfl
  · exact Or.inr (Option.some.inj h).symm

theorem processAlert_processed {m m' : Main} {a : Alert} {stop : Bool}
    (h : m.processAlert a = some (m', stop)) :
    Processed m [a] m' ∧ (stop = true → m'.done = true) := by
  cases a with
  | torrentFinished | torrentError =>
      obtain ⟨rfl, rfl⟩ := processAlert_ends rfl h
      exact ⟨.asks rfl (Bool.or_true _).symm, fun hstop => by cases hstop⟩
  | saveResumeData _ | saveResumeDataFailed =>
      cases h
      exact ⟨.answers rfl rfl rfl, id⟩
  | addTorrent _ | stateUpdate | other =>
      cases h
      exact ⟨.quiet rfl rfl rfl, fun hstop => by cases hstop⟩

theorem processAlerts_processed {m m' : Main} {alerts : List Alert}
    (h : m.processAlerts alerts = some m') : Processed m alerts m' := by
  induction alerts generalizing m with
  | nil =>
      cases h
      exact .quiet rfl rfl rfl
  | cons a alerts ih =>
      obtain ⟨⟨t, stop⟩, hfirst, hrest⟩ := Option.bind_eq_some_iff.mp h
      obtain ⟨hprocessed, hstop⟩ := processAlert_processed hfirst
      cases stop with
      | true =>
          cases hrest
          exact hprocessed.trans (.skip (hstop rfl) alerts)
      | false => exact hprocessed.trans (ih hrest)

theorem saveOnTimer_processed {m m' : Main} {it : Iteration} (h : m.saveOnTimer it = some m') :
    Processed m [] m' := by
  cases saveOnTimer_cases h with
  | inl hsaved =>
      rw [hsaved]
      exact .asks rfl (Bool.or_false _).symm
  | inr hsame =>
      rw [hsame]
      exact .quiet rfl rfl rfl

theorem handleAlerts_processed {m m' : Main} {it : Iteration} (h : m.handleAlerts it = some m') :
    Processed m it.alerts m' ∧ m'.ended = m'.done := by
  obtain ⟨t, halerts, h⟩ := Option.bind_eq_some_iff.mp h
  obtain ⟨t', htimer, h⟩ := Option.bind_eq_some_iff.mp h
  have hprocessed := (processAlerts_processed halerts).trans (saveOnTimer_processed htimer)
  rw [List.append_nil] at hprocessed
  cases h
  exact ⟨⟨hprocessed.popped, hprocessed.answered, hprocessed.requested, hprocessed.done, hprocessed.asked⟩, rfl⟩

/-! ### The end of the loop -/

/-- No more answers have been dealt with than taken, and a loop that goes on is not done. -/
structure Running (m : Main) : Prop where
  counted : m.answered ≤ m.poppedAnswers
  done : m.done = false
  ended : m.ended = false

theorem running_start (now : Int) : Running (start now) := ⟨Nat.le_refl 0, rfl, rfl⟩

/-- Dealing with a batch leaves the loop running, or it ends it with a request that nothing has
answered, if the answers in the batch are not more than the requests made before. -/
theorem handleAlerts_cases {m m' : Main} {it : Iteration} (hdone : m.done = false)
    (hcounted : m.answered + it.alerts.countP Alert.answers ≤ m.poppedAnswers)
    (hanswers : m.answered + it.alerts.countP Alert.answers ≤ m.requested)
    (h : m.handleAlerts it = some m') :
    (it.alerts.any Alert.ends = false ∧ Running m') ∨
      (it.alerts.any Alert.ends = true ∧ m'.ended = true ∧ m'.answered < m'.requested) := by
  obtain ⟨hprocessed, hended⟩ := handleAlerts_processed h
  have hanswered := hprocessed.answered
  have hdone' := hprocessed.done
  rw [hdone, Bool.false_or] at hdone'
  cases hends : it.alerts.any Alert.ends with
  | false =>
      rw [hends] at hdone'
      refine Or.inl ⟨rfl, ?_, hdone', hended.trans hdone'⟩
      rw [hprocessed.popped]
      omega
  | true =>
      rw [hends] at hdone'
      rcases hprocessed.asked hdone' with hbefore | hlt
      · exact absurd (hdone.symm.trans hbefore) Bool.false_ne_true
      · exact Or.inr ⟨rfl, hended.trans hdone', by omega⟩

@[simp] theorem requested_taken (m : Main) (it : Iteration) :
    (m.taken it).requested = m.requested :=
  requested_act m (.popped it.alerts)

@[simp] theorem answered_taken (m : Main) (it : Iteration) : (m.taken it).answered = m.answered :=
  answered_act m (.popped it.alerts)

@[simp] theorem poppedAnswers_taken (m : Main) (it : Iteration) :
    (m.taken it).poppedAnswers = m.poppedAnswers + it.alerts.countP Alert.answers :=
  poppedAnswers_act m (.popped it.alerts)

theorem Running.iterate {m m' : Main} {it : Iteration} (h : Running m)
    (hanswers : m.AnswersRequests it) (hstep : m.iterate it = some m') :
    (m.GoesOn it ∧ Running m') ∨
    (¬ m.GoesOn it ∧ m'.ended = true ∧ m'.answered < m'.requested) := by
  have hcounted := h.counted
  rw [AnswersRequests] at hanswers
  rw [iterate_eq h.ended] at hstep
  split_ifs at hstep with hinterrupt
  · -- the break on `SIGINT`, with the request just made
    cases hstep
    refine Or.inr ⟨fun hgoes => hgoes.1 hinterrupt, rfl, ?_⟩
    change ((m.taken it).act .requested).answered < ((m.taken it).act .requested).requested
    simp only [requested_act, answered_act, requested_taken, answered_taken, Action.isRequest,
      Action.isAnswer,
      if_true, Bool.false_eq_true, if_false]
    omega
  · have hdone : (m.taken it).done = false := h.done
    rcases handleAlerts_cases hdone (by simp; omega) (by simp; omega) hstep with
      ⟨hends, hrunning⟩ | ⟨hends, hended⟩
    · exact Or.inl ⟨⟨hinterrupt, hends⟩, hrunning⟩
    · exact Or.inr ⟨fun hgoes => Bool.false_ne_true (hgoes.2.symm.trans hends), hended⟩

/-- **Resume data on exit.** When the session answers each request once and later, the loop has all
its requests answered whenever it has ended exactly if nothing ever ends it. -/
theorem settled_iff_running (now : Int) (its : List Iteration)
    (hanswers : Runs.Along Main.iterate AnswersRequests (start now) its) :
    Runs.Always Main.iterate (fun m => m.ended = true → m.Settled) (start now) its ↔
      Runs.Along Main.iterate GoesOn (start now) its := by
  refine Runs.always_iff_along_of (fun m h hended => ?_) (fun m it m' h hanswers hstep => ?_)
    (running_start now) hanswers
  · exact absurd (h.ended.symm.trans hended) Bool.false_ne_true
  · rcases h.iterate hanswers hstep with hrunning | ⟨hends, hended, hlt⟩
    · exact Or.inl hrunning
    · exact Or.inr ⟨hends, fun hsettled => absurd (hsettled hended).1 (Nat.not_le_of_lt hlt)⟩

theorem settled_iff_running_saved :
    Runs.Always Main.iterate (fun m => m.ended = true → m.Settled) (start 0)
      [⟨[.addTorrent (some 1)], false, 1, 0, 0⟩,
        ⟨[.stateUpdate], false, 1, 31 * 10 ^ 9, 31 * 10 ^ 9⟩,
        ⟨[.saveResumeData [0x64, 0x65]], false, 1, 32 * 10 ^ 9, 32 * 10 ^ 9⟩] :=
  (settled_iff_running 0 _ (by decide +kernel)).mpr (by decide +kernel)

/-- A torrent is finished: the loop ends in the iteration that asks for its resume data. -/
theorem finished_unsettled :
    let its : List Iteration :=
      [⟨[.addTorrent (some 1)], false, 1, 0, 0⟩, ⟨[.torrentFinished], false, 1, 1, 1⟩]
    Runs.Along Main.iterate AnswersRequests (start 0) its ∧
      ¬ Runs.Always Main.iterate (fun m => m.ended = true → m.Settled) (start 0) its := by
  refine ⟨by decide +kernel, fun h => ?_⟩
  obtain ⟨hle, _⟩ := h.final rfl
  exact absurd hle (by decide +kernel)

end Main

end NetworkHomework.Torrent
