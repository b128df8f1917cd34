import NetworkHomework.Base.Runs

/-!
# The pool of threads

`ThreadPool` keeps the jobs in a list under a mutex; its workers wait on a condition variable. What
a thread does while it holds the mutex is one step here, and the threads take their steps in any
order. No job is lost or done twice, whoever wakes up when (`jobs_kept`); a worker that sleeps has
no work (`no_lost_wakeup`); and `shutdown` comes back, when every job is done (`shutdown_ends`).
-/

namespace NetworkHomework.Http

/-- Where a worker is: before the test of its `wait`, asleep in it, in a job, or out of its loop. -/
inductive Worker (Job : Type) where
  | awake
  | asleep
  | busy (job : Job)
  | gone

/-- Where the thread is that the pool belongs to: anywhere else, before the `notify_one` of
`enqueue`, before the `notify_all` of `shutdown`, before the `join` of a thread, or back from
`shutdown`. -/
inductive Owner where
  | outside
  | notifies
  | notifiesAll
  | joins (thread : Nat)
  | back
deriving DecidableEq

namespace Owner

/-- Whether the `notify_one` of an `enqueue` is still to come. -/
def announced : Owner → Nat
  | .notifies => 1
  | _ => 0

def down : Owner → Bool
  | .notifiesAll | .joins _ | .back => true
  | _ => false

def rung : Owner → Bool
  | .joins _ | .back => true
  | _ => false

def joined (n : Nat) : Owner → Nat
  | .joins k => k
  | .back => n
  | _ => 0

theorem down_of_rung {o : Owner} (h : o.rung = true) : o.down = true := by
  cases o <;> first | rfl | cases h

theorem announced_eq_zero {o : Owner} (h : o ≠ .notifies) : o.announced = 0 := by
  cases o <;> first | rfl | exact absurd rfl h

def load (n : Nat) : Owner → Nat
  | .outside => 2 * n + 3
  | .notifies => 2 * n + 5
  | .notifiesAll => 2 * n + 2
  | .joins k => n - k + 1
  | .back => 0

end Owner

/-- `n` workers, `jobs_` and `shutdown_`, and the jobs that have been enqueued, begun and done. -/
structure ThreadPool (n : Nat) (Job : Type) where
  threads : Fin n → Worker Job
  jobs : List Job
  shutdown : Bool
  owner : Owner
  enqueued : List Job
  begun : List Job
  done : List Job

namespace ThreadPool

variable {n : Nat} {Job : Type}

def start : ThreadPool n Job := ⟨fun _ => .awake, [], false, .outside, [], [], []⟩

def move (s : ThreadPool n Job) (i : Fin n) (w : Worker Job) : ThreadPool n Job :=
  { s with threads := Function.update s.threads i w }

@[simp] theorem move_self (s : ThreadPool n Job) (i : Fin n) (w : Worker Job) :
    (s.move i w).threads i = w := by
  show Function.update s.threads i w i = w
  rw [Function.update_self]

theorem move_of_ne {i j : Fin n} (h : j ≠ i) (s : ThreadPool n Job) (w : Worker Job) :
    (s.move i w).threads j = s.threads j := by
  show Function.update s.threads i w j = s.threads j
  rw [Function.update_of_ne h]

/-- What the owner does, and what the worker `i`: it wakes up for no reason, tests whether there is
something to do, or comes to the end of its job. `notify_one` wakes one of the workers that are
asleep, if there is one. -/
inductive Event (n : Nat) (Job : Type) where
  | enqueue (job : Job)
  | notifyOne (woken : Option (Fin n))
  | shutDown
  | notifyAll
  | join
  | wake (i : Fin n)
  | test (i : Fin n)
  | finish (i : Fin n)

def isAsleep : Worker Job → Bool
  | .asleep => true
  | _ => false

def wakened : Worker Job → Worker Job
  | .asleep => .awake
  | w => w

/-- `none` where the event cannot happen. -/
def step (s : ThreadPool n Job) : Event n Job → Option (ThreadPool n Job)
  | .enqueue job =>
      if s.owner = .outside then
        some { s with jobs := s.jobs ++ [job], enqueued := s.enqueued ++ [job], owner := .notifies }
      else none
  | .notifyOne woken =>
      if s.owner = .notifies then
        match woken with
        | none =>
            if ∀ i, isAsleep (s.threads i) = false then some { s with owner := .outside } else none
        | some i =>
            if isAsleep (s.threads i) then some { s.move i .awake with owner := .outside } else none
      else none
  | .shutDown =>
      if s.owner = .outside then some { s with shutdown := true, owner := .notifiesAll } else none
  | .notifyAll =>
      if s.owner = .notifiesAll then some { s with threads := fun i => wakened (s.threads i), owner := .joins 0 }
      else none
  | .join =>
      match s.owner with
      | .joins k =>
          if hk : k < n then
            match s.threads ⟨k, hk⟩ with
            | .gone => some { s with owner := .joins (k + 1) }
            | _ => none
          else some { s with owner := .back }
      | _ => none
  | .wake i => if isAsleep (s.threads i) then some (s.move i .awake) else none
  | .test i =>
      match s.threads i with
      | .awake =>
          match s.jobs with
          | [] => some (s.move i (if s.shutdown then .gone else .asleep))
          | job :: jobs =>
              some { s.move i (.busy job) with jobs := jobs, begun := s.begun ++ [job] }
      | _ => none
  | .finish i =>
      match s.threads i with
      | .busy job => some { s.move i .awake with done := s.done ++ [job] }
      | _ => none

/-! ### What an event does -/

/-- Everything that an event can do, where it happens. -/
inductive Moved (s : ThreadPool n Job) : Event n Job → ThreadPool n Job → Prop where
  | enqueued {job : Job} (howner : s.owner = .outside) :
      Moved s (.enqueue job) { s with jobs := s.jobs ++ [job], enqueued := s.enqueued ++ [job], owner := .notifies }
  | unheard (howner : s.owner = .notifies) (hnone : ∀ i, s.threads i ≠ .asleep) :
      Moved s (.notifyOne none) { s with owner := .outside }
  | notified {i : Fin n} (howner : s.owner = .notifies) (hi : s.threads i = .asleep) :
      Moved s (.notifyOne (some i)) { s.move i .awake with owner := .outside }
  | shutDown (howner : s.owner = .outside) :
      Moved s .shutDown { s with shutdown := true, owner := .notifiesAll }
  | notifiedAll (howner : s.owner = .notifiesAll) :
      Moved s .notifyAll { s with threads := fun i => wakened (s.threads i), owner := .joins 0 }
  | joined {k : Nat} (howner : s.owner = .joins k) (hk : k < n)
      (hgone : s.threads ⟨k, hk⟩ = .gone) :
      Moved s .join { s with owner := .joins (k + 1) }
  | joinedAll {k : Nat} (howner : s.owner = .joins k) (hk : n ≤ k) :
      Moved s .join { s with owner := .back }
  | woke {i : Fin n} (hi : s.threads i = .asleep) : Moved s (.wake i) (s.move i .awake)
  | slept {i : Fin n} (hi : s.threads i = .awake) (hjobs : s.jobs = [])
      (hrun : s.shutdown = false) :
      Moved s (.test i) (s.move i .asleep)
  | left {i : Fin n} (hi : s.threads i = .awake) (hjobs : s.jobs = []) (hdown : s.shutdown = true) :
      Moved s (.test i) (s.move i .gone)
  | took {i : Fin n} {job : Job} {jobs : List Job} (hi : s.threads i = .awake)
      (hjobs : s.jobs = job :: jobs) :
      Moved s (.test i) { s.move i (.busy job) with jobs := jobs, begun := s.begun ++ [job] }
  | finished {i : Fin n} {job : Job} (hi : s.threads i = .busy job) :
      Moved s (.finish i) { s.move i .awake with done := s.done ++ [job] }

theorem isAsleep_iff {w : Worker Job} : isAsleep w = true ↔ w = .asleep := by
  cases w <;> simp [isAsleep]

theorem step_moved {s s' : ThreadPool n Job} {e : Event n Job} (h : s.step e = some s') : Moved s e s' := by
  cases e with
  | enqueue job =>
      rw [step] at h
      split_ifs at h with howner
      cases h
      exact .enqueued howner
  | notifyOne woken =>
      cases woken with
      | none =>
          rw [step] at h
          split_ifs at h with howner hnone
          cases h
          exact .unheard howner fun i hi => Bool.false_ne_true ((hnone i).symm.trans (isAsleep_iff.mpr hi))
      | some i =>
          rw [step] at h
          split_ifs at h with howner hi
          cases h
          exact .notified howner (isAsleep_iff.mp hi)
  | shutDown =>
      rw [step] at h
      split_ifs at h with howner
      cases h
      exact .shutDown howner
  | notifyAll =>
      rw [step] at h
      split_ifs at h with howner
      cases h
      exact .notifiedAll howner
  | join =>
      rw [step] at h
      split at h
      · rename_i k howner
        split_ifs at h with hk
        · split at h
          · rename_i hgone
            cases h
            exact .joined howner hk hgone
          · cases h
        · cases h
          exact .joinedAll howner (Nat.le_of_not_lt hk)
      · cases h
  | wake i =>
      rw [step] at h
      split_ifs at h with hi
      cases h
      exact .woke (isAsleep_iff.mp hi)
  | test i =>
      rw [step.eq_def] at h
      dsimp only at h
      split at h
      · rename_i hi
        split at h
        · rename_i hjobs
          cases h
          split_ifs with hdown
          · exact .left hi hjobs hdown
          · exact .slept hi hjobs (Bool.eq_false_of_not_eq_true hdown)
        · rename_i hjobs
          cases h
          exact .took hi hjobs
      · cases h
  | finish i =>
      rw [step] at h
      split at h
      · rename_i hi
        cases h
        exact .finished hi
      · cases h

theorem test_ne_none {s : ThreadPool n Job} {i : Fin n} (hi : s.threads i = .awake) : s.step (.test i) ≠ none := by
  rw [step.eq_def]
  simp only [hi]
  split <;> nofun

theorem finish_ne_none {s : ThreadPool n Job} {i : Fin n} {job : Job} (hi : s.threads i = .busy job) :
    s.step (.finish i) ≠ none := by
  rw [step.eq_def]
  simp only [hi]
  nofun

theorem notify_ne_none (s : ThreadPool n Job) (howner : s.owner = .notifies) :
    ∃ woken, s.step (.notifyOne woken) ≠ none := by
  by_cases hnone : ∀ i, isAsleep (s.threads i) = false
  · refine ⟨none, ?_⟩
    rw [step, if_pos howner, if_pos hnone]
    nofun
  · obtain ⟨i, hi⟩ := not_forall.mp hnone
    refine ⟨some i, ?_⟩
    rw [step, if_pos howner, if_pos (Bool.eq_true_of_not_eq_false hi)]
    nofun

theorem forall_move {s : ThreadPool n Job} {i : Fin n} {w : Worker Job} {P : Worker Job → Prop} (hw : P w)
    (h : ∀ j, P (s.threads j)) : ∀ j, P ((s.move i w).threads j) :=
  (Function.forall_update_iff s.threads fun _ w => P w).mpr ⟨hw, fun j _ => h j⟩

/-! ### What an event leaves alone -/

def onJob : Worker Job → Option Job
  | .busy job => some job
  | _ => none

def Event.jobs : Event n Job → List Job
  | .enqueue job => [job]
  | _ => []

def Event.worker : Event n Job → Option (Fin n)
  | .test i | .finish i => some i
  | _ => none

theorem step_enqueued {s s' : ThreadPool n Job} {e : Event n Job} (hstep : s.step e = some s') :
    s'.enqueued = s.enqueued ++ e.jobs := by
  cases step_moved hstep with
  | enqueued => rfl
  | _ => exact (List.append_nil _).symm

theorem step_shutdown {s s' : ThreadPool n Job} {e : Event n Job} (hstep : s.step e = some s') :
    s'.shutdown = true ↔ s.shutdown = true ∨ e = .shutDown := by
  cases step_moved hstep with
  | shutDown => exact iff_of_true rfl (Or.inr rfl)
  | _ => exact (or_iff_left nofun).symm

theorem onJob_wakened (w : Worker Job) : onJob (wakened w) = onJob w := by cases w <;> rfl

theorem onJob_move {s : ThreadPool n Job} {i : Fin n} {w : Worker Job}
    (h : onJob w = onJob (s.threads i)) (j : Fin n) :
    onJob ((s.move i w).threads j) = onJob (s.threads j) := by
  by_cases hij : j = i
  · subst hij
    rw [move_self, h]
  · rw [move_of_ne hij]

theorem onJob_step {s s' : ThreadPool n Job} {e : Event n Job} (hstep : s.step e = some s') {j : Fin n}
    (hj : e.worker ≠ some j) : onJob (s'.threads j) = onJob (s.threads j) := by
  cases step_moved hstep with
  | enqueued => rfl
  | unheard => rfl
  | notified _ hi => exact onJob_move (by rw [hi]; rfl) j
  | shutDown => rfl
  | notifiedAll => exact onJob_wakened _
  | joined => rfl
  | joinedAll => rfl
  | woke hi => exact onJob_move (by rw [hi]; rfl) j
  | slept => rw [move_of_ne fun h => hj (congrArg some h.symm)]
  | left => rw [move_of_ne fun h => hj (congrArg some h.symm)]
  | took => exact congrArg onJob (move_of_ne (fun h => hj (congrArg some h.symm)) s _)
  | finished => exact congrArg onJob (move_of_ne (fun h => hj (congrArg some h.symm)) s _)

theorem begun_step {s s' : ThreadPool n Job} {e : Event n Job} (hstep : s.step e = some s') (hj : ∀ i, e ≠ .test i) :
    s'.begun = s.begun := by
  cases step_moved hstep with
  | took => exact absurd rfl (hj _)
  | _ => rfl

theorem test_step {s s' : ThreadPool n Job} {i : Fin n} (hstep : s.step (.test i) = some s') :
    onJob (s.threads i) = none ∧ s'.begun = s.begun ++ (onJob (s'.threads i)).toList := by
  cases step_moved hstep with
  | slept hi => exact ⟨by rw [hi]; rfl, by rw [move_self]; exact (List.append_nil _).symm⟩
  | left hi => exact ⟨by rw [hi]; rfl, by rw [move_self]; exact (List.append_nil _).symm⟩
  | @took i job jobs hi =>
      refine ⟨by rw [hi]; rfl, ?_⟩
      show s.begun ++ [job] = s.begun ++ (onJob ((s.move i (.busy job)).threads i)).toList
      rw [move_self]
      rfl

theorem finish_step {s s' : ThreadPool n Job} {i : Fin n} (hstep : s.step (.finish i) = some s') :
    (onJob (s.threads i)).isSome = true ∧ onJob (s'.threads i) = none := by
  cases step_moved hstep with
  | finished hi =>
      refine ⟨by rw [hi]; rfl, ?_⟩
      exact congrArg onJob (move_self s i _)

/-! ### Sums over the threads

What is added up over all threads changes by what the one that moves has left and what it has come
to. -/

section

variable {ι M : Type*} [Fintype ι] [DecidableEq ι] [AddCommMonoid M]

theorem sum_change (f f' : ι → M) (i : ι) (hstill : ∀ j, j ≠ i → f' j = f j) :
    ∑ j, f' j + f i = ∑ j, f j + f' i := by
  rw [← Finset.add_sum_erase _ f' (Finset.mem_univ i),
    ← Finset.add_sum_erase _ f (Finset.mem_univ i)]
  have hrest : ∑ j ∈ Finset.univ.erase i, f' j = ∑ j ∈ Finset.univ.erase i, f j :=
    Finset.sum_congr rfl fun j hj => hstill j (Finset.ne_of_mem_erase hj)
  rw [hrest, add_right_comm, add_comm (f' i), add_right_comm]

theorem sum_update {β : Type*} (g : β → M) (f : ι → β) (i : ι) (b : β) :
    ∑ j, g (Function.update f i b j) + g (f i) = ∑ j, g (f j) + g b := by
  have hstill : ∀ j, j ≠ i → g (Function.update f i b j) = g (f j) := fun j hj => by
    rw [Function.update_of_ne hj]
  have hchange := sum_change _ _ i hstill
  rwa [Function.update_self] at hchange

end

/-! ### No job is lost -/

def hand : Worker Job → Multiset Job
  | .busy job => {job}
  | _ => 0

def inHand (s : ThreadPool n Job) : Multiset Job := ∑ i, hand (s.threads i)

theorem inHand_move (s : ThreadPool n Job) (i : Fin n) (w : Worker Job) :
    (s.move i w).inHand + hand (s.threads i) = s.inHand + hand w := sum_update hand s.threads i w

theorem inHand_move_idle {s : ThreadPool n Job} {i : Fin n} {w : Worker Job}
    (hi : hand (s.threads i) = 0) (hw : hand w = 0) : (s.move i w).inHand = s.inHand := by
  have hmove := s.inHand_move i w
  rwa [hi, hw, add_zero, add_zero] at hmove

structure Kept (s : ThreadPool n Job) : Prop where
  queue : s.enqueued = s.begun ++ s.jobs
  hands : (s.begun : Multiset Job) = s.done + s.inHand

theorem kept_start : Kept (start : ThreadPool n Job) := by
  refine ⟨rfl, ?_⟩
  show (0 : Multiset Job) = 0 + ∑ _i : Fin n, 0
  rw [Finset.sum_const_zero, add_zero]

theorem Kept.step {s s' : ThreadPool n Job} {e : Event n Job} (h : Kept s) (hstep : s.step e = some s') : Kept s' := by
  have hidle : ∀ {i : Fin n} {w : Worker Job}, hand (s.threads i) = 0 → hand w = 0 →
      (s.begun : Multiset Job) = s.done + (s.move i w).inHand := fun hi hw => by
    rw [inHand_move_idle hi hw]
    exact h.hands
  cases step_moved hstep with
  | enqueued => exact ⟨by rw [h.queue, List.append_assoc], h.hands⟩
  | unheard => exact ⟨h.queue, h.hands⟩
  | notified _ hi => exact ⟨h.queue, hidle (by rw [hi]; rfl) rfl⟩
  | shutDown => exact ⟨h.queue, h.hands⟩
  | notifiedAll =>
      refine ⟨h.queue, h.hands.trans ?_⟩
      show _ + ∑ i, hand (s.threads i) = _ + ∑ i, hand (wakened (s.threads i))
      congr 1
      refine Finset.sum_congr rfl fun i _ => ?_
      cases s.threads i <;> rfl
  | joined => exact ⟨h.queue, h.hands⟩
  | joinedAll => exact ⟨h.queue, h.hands⟩
  | woke hi => exact ⟨h.queue, hidle (by rw [hi]; rfl) rfl⟩
  | slept hi => exact ⟨h.queue, hidle (by rw [hi]; rfl) rfl⟩
  | left hi => exact ⟨h.queue, hidle (by rw [hi]; rfl) rfl⟩
  | @took i job jobs hi hjobs =>
      refine ⟨?_, ?_⟩
      · show s.enqueued = s.begun ++ [job] ++ jobs
        rw [h.queue, hjobs, List.append_assoc]
        rfl
      · have hmove := s.inHand_move i (.busy job)
        rw [hi] at hmove
        show ((s.begun ++ [job] : List Job) : Multiset Job) = s.done + (s.move i (.busy job)).inHand
        rw [← Multiset.coe_add, h.hands, add_assoc]
        congr 1
        exact hmove.symm.trans (add_zero _)
  | @finished i job hi =>
      refine ⟨h.queue, ?_⟩
      have hmove := s.inHand_move i .awake
      rw [hi] at hmove
      show (s.begun : Multiset Job) = ((s.done ++ [job] : List Job) : Multiset Job) +
        (s.move i .awake).inHand
      rw [h.hands, ← Multiset.coe_add, add_assoc]
      congr 1
      exact ((add_comm _ _).trans (hmove.trans (add_zero _))).symm

theorem kept_run (events : List (Event n Job)) :
    Runs.Always step (Kept : ThreadPool n Job → Prop) start events :=
  Runs.always_of_step (fun _ _ _ h hstep => h.step hstep) kept_start events

/-- **Nothing is lost.** In whatever order the threads go on, the jobs are begun in the order in
which they have been enqueued, each of them once; what has been begun is done or in the hand of a
worker. -/
theorem jobs_kept (events : List (Event n Job)) :
    Runs.Always step (fun s : ThreadPool n Job => s.enqueued = s.begun ++ s.jobs ∧
      (s.begun : Multiset Job) = s.done + s.inHand) start events :=
  (kept_run events).mono fun _ h => ⟨h.queue, h.hands⟩

/-! ### Nobody sleeps over a job -/

def awakeness : Worker Job → Nat
  | .awake => 1
  | _ => 0

def awakeCount (s : ThreadPool n Job) : Nat := ∑ i, awakeness (s.threads i)

theorem awakeCount_move (s : ThreadPool n Job) (i : Fin n) (w : Worker Job) :
    (s.move i w).awakeCount + awakeness (s.threads i) = s.awakeCount + awakeness w :=
  sum_update awakeness s.threads i w

/-- While workers sleep, as many of them are awake, or about to be woken, as there are jobs; and who
is gone has left no job. -/
structure Watched (s : ThreadPool n Job) : Prop where
  watch : (∀ i, s.threads i ≠ .asleep) ∨ s.jobs.length ≤ s.awakeCount + s.owner.announced
  down : s.shutdown = true ↔ s.owner.down = true
  rung : s.owner.rung = true → ∀ i, s.threads i ≠ .asleep
  gone : ∀ i, s.threads i = .gone → s.shutdown = true ∧ s.jobs = []
  joined : ∀ i : Fin n, i.val < s.owner.joined n → s.threads i = .gone

theorem watched_start : Watched (start : ThreadPool n Job) where
  watch := Or.inl fun _ h => by cases h
  down := Iff.rfl
  rung := fun h => by cases h
  gone := fun _ h => by cases h
  joined := fun _ h => absurd h (Nat.not_lt_zero _)

theorem gone_move {s : ThreadPool n Job} {i : Fin n} {w : Worker Job} (hw : w ≠ .gone) {j : Fin n}
    (hj : (s.move i w).threads j = .gone) : s.threads j = .gone := by
  by_cases hij : j = i
  · subst hij
    rw [move_self] at hj
    exact absurd hj hw
  · rwa [move_of_ne hij] at hj

theorem move_gone {s : ThreadPool n Job} {i j : Fin n} (hi : s.threads i ≠ .gone) (w : Worker Job)
    (hj : s.threads j = .gone) : (s.move i w).threads j = .gone := by
  have hij : j ≠ i := fun h => hi (h ▸ hj)
  rwa [move_of_ne hij]

theorem Watched.move {s : ThreadPool n Job} (h : Watched s) {i : Fin n} {w : Worker Job}
    (hi : s.threads i ≠ .gone)
    (hw : w ≠ .asleep) {jobs begun done : List Job} {owner : Owner}
      (hdown : owner.down = s.owner.down)
    (hrung : owner.rung = s.owner.rung) (hjoined : owner.joined n = s.owner.joined n)
    (hgone : w = .gone → s.shutdown = true ∧ jobs = []) (hjobs : s.jobs = [] → jobs = [])
    (hfewer : jobs = [] ∨ jobs.length + awakeness (s.threads i) + s.owner.announced ≤
      s.jobs.length + awakeness w + owner.announced) :
    Watched { s.move i w with jobs := jobs, owner := owner, begun := begun, done := done } where
  watch := by
    refine Or.imp (forall_move (P := fun w => w ≠ .asleep) hw) (fun hle => ?_) h.watch
    rcases hfewer with rfl | hfewer
    · exact Nat.zero_le _
    · have hmove := s.awakeCount_move i w
      show jobs.length ≤ (s.move i w).awakeCount + owner.announced
      omega
  down := by rw [hdown]; exact h.down
  rung := fun h' => forall_move (P := fun w => w ≠ .asleep) hw (h.rung (hrung ▸ h'))
  gone := fun j hj => by
    by_cases hw' : w = .gone
    · exact hgone hw'
    · exact ⟨(h.gone j (gone_move hw' hj)).1, hjobs (h.gone j (gone_move hw' hj)).2⟩
  joined := fun j hj => move_gone hi w (h.joined j (hjoined ▸ hj))

theorem Watched.own {s : ThreadPool n Job} (h : Watched s) {owner : Owner} {shutdown : Bool}
    (hwatch : owner.announced < s.owner.announced → ∀ i, s.threads i ≠ .asleep)
    (hdown : shutdown = true ↔ owner.down = true) (hkeep : s.shutdown = true → shutdown = true)
    (hrung : owner.rung = true → ∀ i, s.threads i ≠ .asleep)
    (hjoined : ∀ i : Fin n, i.val < owner.joined n → s.threads i = .gone) :
    Watched { s with owner := owner, shutdown := shutdown } where
  watch := by
    by_cases hless : owner.announced < s.owner.announced
    · exact Or.inl (hwatch hless)
    · exact h.watch.imp_right fun hle =>
        Nat.le_trans hle (Nat.add_le_add_left (Nat.le_of_not_lt hless) _)
  down := hdown
  rung := hrung
  gone := fun i hi => ⟨hkeep (h.gone i hi).1, (h.gone i hi).2⟩
  joined := hjoined

theorem Watched.step {s s' : ThreadPool n Job} {e : Event n Job} (h : Watched s) (hstep : s.step e = some s') :
    Watched s' := by
  have hdown := h.down
  have hrung := h.rung
  have hjoined := h.joined
  cases step_moved hstep with
  | @enqueued job howner =>
      rw [howner] at hdown
      have hrun : s.shutdown ≠ true := fun hshut => Bool.false_ne_true (hdown.mp hshut)
      refine ⟨h.watch.imp_right fun hle => ?_, hdown, fun hrung => (by cases hrung),
        fun i hi => absurd (h.gone i hi).1 hrun, fun i hi => absurd hi (Nat.not_lt_zero _)⟩
      rw [howner] at hle
      show (s.jobs ++ [job]).length ≤ s.awakeCount + 1
      rw [List.length_append]
      exact Nat.succ_le_succ hle
  | unheard howner hnone =>
      rw [howner] at hdown
      exact h.own (fun _ => hnone) hdown id (fun hrung => (by cases hrung)) fun i hi => absurd hi (Nat.not_lt_zero _)
  | notified howner hi =>
      exact h.move (w := .awake) (by rw [hi]; nofun) nofun (by rw [howner]; rfl) (by rw [howner]; rfl)
        (by rw [howner]; rfl) nofun id (Or.inr (by rw [hi, howner]; exact Nat.le_refl _))
  | shutDown howner =>
      exact h.own (fun hless => by rw [howner] at hless; exact absurd hless (Nat.not_lt_zero _))
        (iff_of_true rfl rfl) (fun _ => rfl) nofun fun i hi => absurd hi (Nat.not_lt_zero _)
  | notifiedAll howner =>
      rw [howner] at hdown
      have hnobody : ∀ i, wakened (s.threads i) ≠ .asleep := fun i => by cases s.threads i <;> nofun
      refine ⟨Or.inl hnobody, hdown, fun _ => hnobody, fun i hi => ?_, fun i hi => absurd hi (Nat.not_lt_zero _)⟩
      refine h.gone i ?_
      change wakened (s.threads i) = .gone at hi
      cases hw : s.threads i with
      | gone => rfl
      | awake => rw [hw] at hi; cases hi
      | asleep => rw [hw] at hi; cases hi
      | busy job => rw [hw] at hi; cases hi
  | @joined k howner hk hgone =>
      rw [howner] at hdown hrung hjoined
      refine h.own (fun hless => by rw [howner] at hless; exact absurd hless (Nat.not_lt_zero _)) hdown id hrung ?_
      intro i hi
      rcases Nat.lt_succ_iff_lt_or_eq.mp hi with hlt | heq
      · exact hjoined i hlt
      · obtain rfl : i = ⟨k, hk⟩ := Fin.ext heq
        exact hgone
  | @joinedAll k howner hk =>
      rw [howner] at hdown hrung hjoined
      exact h.own (fun hless => by rw [howner] at hless; exact absurd hless (Nat.not_lt_zero _)) hdown id hrung
        fun i _ => hjoined i (Nat.lt_of_lt_of_le i.isLt hk)
  | woke hi =>
      exact h.move (w := .awake) (by rw [hi]; nofun) nofun rfl rfl rfl nofun id
        (Or.inr (by rw [hi]; exact Nat.add_le_add_right (Nat.le_succ _) _))
  | @slept i hi hjobs hrun =>
      have hnotDown : ¬ s.owner.down = true := fun hshut => by
        rw [hdown.mpr hshut] at hrun
        cases hrun
      refine ⟨Or.inr ?_, hdown, fun h' => absurd (Owner.down_of_rung h') hnotDown, fun j hj => ?_, fun j hj => ?_⟩
      · show s.jobs.length ≤ _
        rw [hjobs]
        exact Nat.zero_le _
      · exact h.gone j (gone_move (w := .asleep) nofun hj)
      · exact move_gone (by rw [hi]; nofun) _ (hjoined j hj)
  | left hi hjobs hshut =>
      exact h.move (w := .gone) (by rw [hi]; nofun) nofun rfl rfl rfl (fun _ => ⟨hshut, hjobs⟩) id (Or.inl hjobs)
  | @took i job jobs hi hjobs =>
      exact h.move (w := .busy job) (by rw [hi]; nofun) nofun rfl rfl rfl nofun
        (fun hnil => by rw [hjobs] at hnil; cases hnil) (Or.inr (by rw [hi, hjobs]; exact Nat.le_refl _))
  | finished hi =>
      exact h.move (w := .awake) (by rw [hi]; nofun) nofun rfl rfl rfl nofun id
        (Or.inr (by rw [hi]; exact Nat.add_le_add_right (Nat.le_succ _) _))

theorem watched_run (events : List (Event n Job)) :
    Runs.Always step (Watched : ThreadPool n Job → Prop) start events :=
  Runs.always_of_step (fun _ _ _ h hstep => h.step hstep) watched_start events

/-- **No wake-up is lost.** Whenever the owner has done with `notify_one`, there are as many workers
awake as there are jobs in the list, or nobody sleeps; and nobody does once `shutdown` has woken
everybody. -/
theorem no_lost_wakeup (events : List (Event n Job)) :
    Runs.Always step
      (fun s : ThreadPool n Job =>
        (s.owner ≠ .notifies → (∀ i, s.threads i ≠ .asleep) ∨ s.jobs.length ≤ s.awakeCount) ∧
        (s.owner.rung = true → ∀ i, s.threads i ≠ .asleep))
      start events := by
  refine (watched_run events).mono fun s h =>
    ⟨fun howner => h.watch.imp_right fun hle => ?_, h.rung⟩
  rwa [Owner.announced_eq_zero howner] at hle

/-! ### The end -/

def load : Worker Job → Nat
  | .awake => 2
  | .asleep => 1
  | .busy _ => 3
  | .gone => 0

def work (threads : Fin n → Worker Job) : Nat := ∑ i, load (threads i)

def rest (s : ThreadPool n Job) : Nat := work s.threads + 2 * s.jobs.length + s.owner.load n

def Event.cost : Event n Job → Nat
  | .enqueue _ => 5
  | .wake _ => 2
  | _ => 0

theorem work_update {threads : Fin n → Worker Job} {i : Fin n} {w : Worker Job} (hi : threads i = w)
    (w' : Worker Job) : work (Function.update threads i w') + load w = work threads + load w' :=
  hi ▸ sum_update load threads i w'

theorem work_wakened (threads : Fin n → Worker Job) :
    work (fun i => wakened (threads i)) ≤ work threads + n := by
  have hone : ∀ w : Worker Job, load (wakened w) ≤ load w + 1 := fun w => by
    cases w <;> simp [load, wakened]
  calc work (fun i => wakened (threads i)) ≤ ∑ i, (load (threads i) + 1) :=
        Finset.sum_le_sum fun i _ => hone (threads i)
    _ = work threads + n := by
        rw [Finset.sum_add_distrib, Finset.sum_const, Finset.card_univ, Fintype.card_fin, smul_eq_mul, mul_one]
        rfl

theorem rest_step {s s' : ThreadPool n Job} {e : Event n Job} (hstep : s.step e = some s') :
    s'.rest + 1 ≤ s.rest + e.cost := by
  cases step_moved hstep with
  | enqueued howner =>
      simp only [rest, howner, Owner.load, Event.cost, List.length_append, List.length_singleton]
      omega
  | unheard howner =>
      simp only [rest, howner, Owner.load, Event.cost]
      omega
  | notified howner hi =>
      have hmove := work_update hi .awake
      simp only [rest, move, howner, Owner.load, load, Event.cost] at hmove ⊢
      omega
  | shutDown howner =>
      simp only [rest, howner, Owner.load, Event.cost]
      omega
  | notifiedAll howner =>
      have hwake := work_wakened s.threads
      simp only [rest, howner, Owner.load, Event.cost]
      omega
  | joined howner hk =>
      simp only [rest, howner, Owner.load, Event.cost]
      omega
  | joinedAll howner hk =>
      simp only [rest, howner, Owner.load, Event.cost]
      omega
  | woke hi =>
      have hmove := work_update hi .awake
      simp only [rest, move, load, Event.cost] at hmove ⊢
      omega
  | slept hi hjobs =>
      have hmove := work_update hi .asleep
      simp only [rest, move, load, Event.cost] at hmove ⊢
      omega
  | left hi hjobs =>
      have hmove := work_update hi .gone
      simp only [rest, move, load, Event.cost] at hmove ⊢
      omega
  | @took i job jobs hi hjobs =>
      have hmove := work_update hi (.busy job)
      simp only [rest, move, load, Event.cost, hjobs, List.length_cons] at hmove ⊢
      omega
  | finished hi =>
      have hmove := work_update hi .awake
      simp only [rest, move, load, Event.cost] at hmove ⊢
      omega

theorem Watched.stuck {s : ThreadPool n Job} (h : Watched s) (hshut : s.shutdown = true)
    (hnotify : s.step .notifyAll = none) (hjoin : s.step .join = none) (htest : ∀ i,
      s.step (.test i) = none)
    (hbusy : ∀ i job, s.threads i ≠ .busy job) : s.owner = .back := by
  have hdown := h.down.mp hshut
  cases howner : s.owner with
  | outside => rw [howner] at hdown; cases hdown
  | notifies => rw [howner] at hdown; cases hdown
  | back => rfl
  | notifiesAll =>
      rw [ThreadPool.step, if_pos howner] at hnotify
      cases hnotify
  | joins k =>
      rw [ThreadPool.step.eq_def, howner] at hjoin
      dsimp only at hjoin
      split_ifs at hjoin with hk
      cases hw : s.threads ⟨k, hk⟩ with
      | gone => rw [hw] at hjoin; cases hjoin
      | asleep => exact absurd hw (h.rung (by rw [howner]; rfl) _)
      | busy job => exact absurd hw (hbusy _ job)
      | awake => exact absurd (htest ⟨k, hk⟩) (test_ne_none hw)

theorem Watched.back {s : ThreadPool n Job} (h : Watched s) (hkept : Kept s) (hn : 0 < n)
    (hback : s.owner = .back) :
    s.jobs = [] ∧ (s.done : Multiset Job) = s.enqueued := by
  have hgone : ∀ i, s.threads i = .gone := fun i => h.joined i (by rw [hback]; exact i.isLt)
  have hjobs := (h.gone ⟨0, hn⟩ (hgone _)).2
  have hhand : s.inHand = 0 := Finset.sum_eq_zero fun i _ => by rw [hgone i]; rfl
  refine ⟨hjobs, ?_⟩
  rw [hkept.queue, hjobs, List.append_nil, hkept.hands, hhand, add_zero]

/-- **The end of the pool.** Once `shutdown` has been called, the threads take only so many steps
more, but for wake-ups for no reason, and where none of them can take another, `shutdown` has come
back and every job that has been enqueued has been done. -/
theorem shutdown_ends (hn : 0 < n) (events : List (Event n Job))
    (hshut : (Runs.final step start events).shutdown = true) :
    ∃ bound, ∀ more, Runs.taken step (Runs.final step start events) more ≤
      bound + (more.map Event.cost).sum ∧
      ((∀ e, step (Runs.final step (Runs.final step start events) more) e = none) →
        let last := Runs.final step (Runs.final step start events) more
        last.owner = .back ∧ last.jobs = [] ∧ (last.done : Multiset Job) = last.enqueued) := by
  have hwatched := (watched_run events).final
  have hkept := (kept_run events).final
  generalize Runs.final step start events = s at hshut hwatched hkept
  refine ⟨s.rest, fun more => ⟨?_, fun hstuck => ?_⟩⟩
  · exact Runs.taken_le (I := fun _ => True) (fun _ _ _ _ hstep =>
      ⟨trivial, rest_step hstep⟩) trivial more
  · have hstays : Runs.Always step (fun s => Watched s ∧ Kept s ∧ s.shutdown = true) s more :=
      Runs.always_of_step (fun _ _ _ h hstep =>
        ⟨h.1.step hstep, h.2.1.step hstep, (step_shutdown hstep).mpr (Or.inl h.2.2)⟩)
        ⟨hwatched, hkept, hshut⟩ more
    obtain ⟨hwatched', hkept', hshut'⟩ := hstays.final
    have hback := hwatched'.stuck hshut' (hstuck _) (hstuck _) (fun _ => hstuck _) fun i job hi =>
      finish_ne_none hi (hstuck (.finish i))
    exact ⟨hback, hwatched'.back hkept' hn hback⟩

/-- Two workers, and a job that nobody has begun when `shutdown` is called. -/
theorem shutdown_ends_two :
    ∃ bound, ∀ more, Runs.taken step
      (Runs.final step (start : ThreadPool 2 Nat) [.test 0, .enqueue 7, .notifyOne (some 0), .shutDown]) more ≤
        bound + (more.map Event.cost).sum := by
  obtain ⟨bound, hbound⟩ := shutdown_ends (by decide : 0 < 2)
    [.test 0, .enqueue 7, .notifyOne (some 0), .shutDown] rfl
  exact ⟨bound, fun more => (hbound more).1⟩

end ThreadPool

end NetworkHomework.Http
