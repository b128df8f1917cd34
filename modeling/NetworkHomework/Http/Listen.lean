import NetworkHomework.Http.ThreadPool

/-!
# The server with its threads

`listen_internal` accepts connections and enqueues a job for each of them; a worker answers a few
requests on its connection and closes it; the handler of `/exit` calls `stop`. Every connection that
is accepted is closed, once, and none is left when `listen` comes back (`listen_closes_all`); after
a `stop` no more requests are taken up than there are workers, and `listen` does come back, unless a
second `stop` runs into the assertion of the first (`stop_ends`).
-/

namespace NetworkHomework.Http

/-- Where the loop of `listen_internal` is: before its test, in `accept`, with a connection to
enqueue, or left. -/
inductive Listener (Conn : Type) where
  | tests
  | accepts
  | has (conn : Conn)
  | left

/-- Where `process_server_socket_core` is, with its `count`: before the test of its loop, in
`keep_alive`, in the callback before or behind a `stop`, or behind the loop. -/
inductive Phase where
  | tests (count : Nat)
  | waits (count : Nat)
  | answers (count : Nat)
  | stops (count : Nat)
  | closes

/-- What a worker does on its connection. `ready` and `expires` are the results of `keep_alive`; the
loop goes on behind an `answer` if the callback returns true and has not closed the connection. -/
inductive Work where
  | enter
  | ready
  | expires
  | stop
  | answer (goesOn : Bool)
deriving DecidableEq

def keepAliveMaxCount : Nat := 5

def Phase.next (stopped : Bool) : Phase → Work → Option Phase
  | .tests count, .enter => some (if stopped = false ∧ count > 0 then .waits count else .closes)
  | .waits count, .ready => some (.answers count)
  | .waits _, .expires => some .closes
  | .answers count, .stop => some (.stops count)
  | .answers count, .answer goesOn => some (if goesOn then .tests (count - 1) else .closes)
  | .stops count, .answer goesOn => some (if goesOn then .tests (count - 1) else .closes)
  | _, _ => none

/-- How many requests may still be taken up on the connection. -/
def Phase.credit : Phase → Nat
  | .tests count => count
  | .waits count => count
  | .answers count => count - 1
  | .stops count => count - 1
  | .closes => 0

/-- What is still to be done on the connection of a server that has been stopped. -/
def Phase.effort : Phase → Nat
  | .tests _ => 1
  | .waits _ => 4
  | .answers _ => 3
  | .stops _ => 2
  | .closes => 0

/-- What is still to be done in the loop of a server that has been stopped, with the connection it
may still accept. -/
def Listener.load {Conn : Type} : Listener Conn → Nat
  | .tests => 1
  | .accepts => 8
  | .has _ => 7
  | .left => 0

theorem Phase.next_waits {p : Phase} {stopped : Bool} {w : Work} {count : Nat}
    (h : p.next stopped w = some (.waits count)) :
    0 < count := by
  cases p <;> cases w <;> simp only [Phase.next, Option.some.injEq, reduceCtorEq] at h
  · split_ifs at h with hgo
    cases h
    exact hgo.2
  all_goals split_ifs at h

theorem Phase.credit_next {p p' : Phase} {stopped : Bool} {w : Work}
    (hpos : ∀ count, p = .waits count → 0 < count) (h : p.next stopped w = some p') :
    p'.credit + (if w = .ready then 1 else 0) ≤ p.credit := by
  cases p <;> cases w <;> simp only [Phase.next, Option.some.injEq,
    reduceCtorEq] at h <;> subst h <;>
    simp only [reduceCtorEq, if_true, if_false, Nat.add_zero]
  · split_ifs <;> simp [credit]
  · have hcount := hpos _ rfl
    simp only [credit]
    omega
  · simp [credit]
  · simp [credit]
  all_goals split_ifs <;> simp [credit]

/-- Whether a request may come that is taken up, once the server has been stopped. -/
def Phase.waiting : Phase → Nat
  | .waits _ => 1
  | _ => 0

theorem Phase.waiting_next {p p' : Phase} {w : Work} (h : p.next true w = some p') :
    p'.waiting + (if w = .ready then 1 else 0) ≤ p.waiting := by
  cases p <;> cases w <;> simp only [Phase.next, Option.some.injEq, reduceCtorEq, false_and,
    if_false] at h <;>
    subst h
  all_goals simp only [reduceCtorEq, if_true, if_false, Nat.add_zero]
  all_goals first | (split_ifs <;> simp [waiting]) | simp [waiting]

theorem Phase.effort_next {p p' : Phase} {w : Work} (h : p.next true w = some p') :
    p'.effort + 1 ≤ p.effort := by
  cases p <;> cases w <;> simp only [Phase.next, Option.some.injEq, reduceCtorEq, false_and,
    if_false] at h <;>
    subst h
  · simp [effort]
  · simp [effort]
  · simp [effort]
  · simp [effort]
  all_goals split_ifs <;> simp [effort]

/-- The pool, what each of its workers is at, the loop of `listen_internal` with its result, whether
`svr_sock_` is `INVALID_SOCKET`, whether an assertion has failed, and the connections accepted, with
one entry for each request that has been taken up, and the calls of `stop`. -/
structure Server (n : Nat) (Conn : Type) where
  pool : ThreadPool n Conn
  phases : Fin n → Phase
  listener : Listener Conn
  ret : Bool
  stopped : Bool
  aborted : Bool
  accepted : List Conn
  requests : List Conn
  stops : Nat

namespace Server

variable {n : Nat} {Conn : Type}

/-- The events of the loop of `listen_internal`, of the pool, and of a connection. `accept` fails
for now, or for good. -/
inductive Event (n : Nat) (Conn : Type) where
  | test
  | accept (conn : Conn)
  | acceptAgain
  | acceptFails
  | enqueue
  | shutDown
  | pool (e : ThreadPool.Event n Conn)
  | take (i : Fin n)
  | work (i : Fin n) (w : Work)
  | close (i : Fin n)

def start : Server n Conn :=
  ⟨.start, fun _ => .closes, .tests, true, false, false, [], [], 0⟩

def listening (s : Server n Conn) : Bool := s.pool.owner = .outside

def isRunning (s : Server n Conn) : Bool := s.pool.owner ≠ .back

/-- `Server::stop`, with its assertion. -/
def stop (s : Server n Conn) : Server n Conn :=
  if s.isRunning then
    if s.stopped then { s with aborted := true, stops := s.stops + 1 }
    else { s with stopped := true, stops := s.stops + 1 }
  else { s with stops := s.stops + 1 }

/-- The events of the pool in which neither the listener nor a connection has a part. -/
def isInner : ThreadPool.Event n Conn → Bool
  | .notifyOne _ | .notifyAll | .join | .wake _ => true
  | _ => false

/-- What a step of a worker does beyond its own phase. -/
def noted (s : Server n Conn) (conn : Conn) : Work → Server n Conn
  | .ready => { s with requests := s.requests ++ [conn] }
  | .stop => s.stop
  | _ => s

/-- `none` where the event cannot happen; nothing happens in a process that is aborted. -/
def step (s : Server n Conn) (e : Event n Conn) : Option (Server n Conn) :=
  if s.aborted then none
  else
    match e, s.listener with
    | .test, .tests =>
        if s.listening then some { s with listener := if s.stopped then
          .left else .accepts } else none
    | .accept conn, .accepts =>
        some { s with listener := .has conn, accepted := s.accepted ++ [conn] }
    | .acceptAgain, .accepts => some { s with listener := .tests }
    | .acceptFails, .accepts =>
        some { s with listener := .left, ret := if s.stopped then s.ret else false }
    | .enqueue, .has conn =>
        (s.pool.step (.enqueue conn)).map fun pool => { s with pool := pool, listener := .tests }
    | .shutDown, .left => (s.pool.step .shutDown).map fun pool => { s with pool := pool }
    | .pool e, _ =>
        if isInner e then (s.pool.step e).map fun pool => { s with pool := pool } else none
    | .take i, _ =>
        (s.pool.step (.test i)).map fun pool =>
          { s with pool := pool, phases := Function.update s.phases i (.tests keepAliveMaxCount) }
    | .work i w, _ =>
        match s.pool.threads i with
        | .busy conn =>
            ((s.phases i).next s.stopped w).map fun phase =>
              { s.noted conn w with phases := Function.update s.phases i phase }
        | _ => none
    | .close i, _ =>
        match s.phases i with
        | .closes => (s.pool.step (.finish i)).map fun pool => { s with pool := pool }
        | _ => none
    | _, _ => none

section

variable (s : Server n Conn) (conn : Conn) (w : Work)

theorem stop_eq : s.stop = { s with
    stopped := s.isRunning || s.stopped
    aborted := (s.isRunning && s.stopped) || s.aborted
    stops := s.stops + 1 } := by
  rw [stop]
  split_ifs with hrun hstopped
  · rw [hrun, hstopped]
    rfl
  · rw [hrun, Bool.eq_false_of_not_eq_true hstopped]
    rfl
  · rw [Bool.eq_false_of_not_eq_true hrun]
    rfl

@[simp] theorem noted_pool : (s.noted conn w).pool = s.pool := by
  cases w <;> first | rfl | rw [noted, stop_eq]

@[simp] theorem noted_listener : (s.noted conn w).listener = s.listener := by
  cases w <;> first | rfl | rw [noted, stop_eq]

@[simp] theorem noted_accepted : (s.noted conn w).accepted = s.accepted := by
  cases w <;> first | rfl | rw [noted, stop_eq]

@[simp] theorem noted_requests :
    (s.noted conn w).requests = s.requests ++ if w = .ready then [conn] else [] := by
  cases w with
  | ready => rfl
  | stop => rw [noted, stop_eq]; exact (List.append_nil _).symm
  | _ => exact (List.append_nil _).symm

end

/-! ### What an event does -/

/-- Everything that an event can do, where it happens. -/
inductive Moved (s : Server n Conn) : Event n Conn → Server n Conn → Prop where
  | tested (howner : s.pool.owner = .outside) (hlistener : s.listener = .tests) :
      Moved s .test { s with listener := if s.stopped then .left else .accepts }
  | accepted {conn : Conn} (hlistener : s.listener = .accepts) :
      Moved s (.accept conn) { s with listener := .has conn, accepted := s.accepted ++ [conn] }
  | again (hlistener : s.listener = .accepts) : Moved s .acceptAgain { s with listener := .tests }
  | failed (hlistener : s.listener = .accepts) :
      Moved s .acceptFails { s with listener := .left, ret := if s.stopped then s.ret else false }
  | enqueued {conn : Conn} {pool : ThreadPool n Conn} (hlistener : s.listener = .has conn)
      (hpool : s.pool.step (.enqueue conn) = some pool) :
      Moved s .enqueue { s with pool := pool, listener := .tests }
  | shutDown {pool : ThreadPool n Conn} (hlistener : s.listener = .left)
      (hpool : s.pool.step .shutDown = some pool) : Moved s .shutDown { s with pool := pool }
  | inner {e : ThreadPool.Event n Conn} {pool : ThreadPool n Conn} (he : isInner e = true)
      (hpool : s.pool.step e = some pool) : Moved s (.pool e) { s with pool := pool }
  | took {i : Fin n} {pool : ThreadPool n Conn} (hpool : s.pool.step (.test i) = some pool) :
      Moved s (.take i) { s with pool := pool, phases := Function.update s.phases i (.tests keepAliveMaxCount) }
  | worked {i : Fin n} {w : Work} {conn : Conn} {phase : Phase} (hi : s.pool.threads i = .busy conn)
      (hnext : (s.phases i).next s.stopped w = some phase) :
      Moved s (.work i w) { s.noted conn w with phases := Function.update s.phases i phase }
  | closed {i : Fin n} {pool : ThreadPool n Conn} (hphase : s.phases i = .closes)
      (hpool : s.pool.step (.finish i) = some pool) : Moved s (.close i) { s with pool := pool }

theorem step_moved {s s' : Server n Conn} {e : Event n Conn} (h : s.step e = some s') :
    s.aborted = false ∧ Moved s e s' := by
  by_cases habort : s.aborted = true
  · rw [step.eq_def, if_pos habort] at h
    cases h
  refine ⟨Bool.eq_false_of_not_eq_true habort, ?_⟩
  rw [step.eq_def, if_neg habort] at h
  split at h
  · rename_i hlistener
    by_cases howner : s.listening = true
    · rw [if_pos howner] at h
      cases h
      exact .tested (of_decide_eq_true howner) hlistener
    · rw [if_neg howner] at h
      cases h
  · rename_i hlistener
    cases h
    exact .accepted hlistener
  · rename_i hlistener
    cases h
    exact .again hlistener
  · rename_i hlistener
    cases h
    exact .failed hlistener
  · rename_i hlistener
    obtain ⟨pool, hpool, rfl⟩ := Option.map_eq_some_iff.mp h
    exact .enqueued hlistener hpool
  · rename_i hlistener
    obtain ⟨pool, hpool, rfl⟩ := Option.map_eq_some_iff.mp h
    exact .shutDown hlistener hpool
  · split_ifs at h with he
    obtain ⟨pool, hpool, rfl⟩ := Option.map_eq_some_iff.mp h
    exact .inner he hpool
  · obtain ⟨pool, hpool, rfl⟩ := Option.map_eq_some_iff.mp h
    exact .took hpool
  · split at h
    · rename_i hi
      obtain ⟨phase, hnext, rfl⟩ := Option.map_eq_some_iff.mp h
      exact .worked hi hnext
    · cases h
  · split at h
    · rename_i hphase
      obtain ⟨pool, hpool, rfl⟩ := Option.map_eq_some_iff.mp h
      exact .closed hphase hpool
    · cases h
  · cases h

/-! ### Where the connections are -/

theorem step_pool {s s' : Server n Conn} {e : Event n Conn} (h : s.step e = some s') :
    s'.pool = s.pool ∨ ∃ e', s.pool.step e' = some s'.pool := by
  cases (step_moved h).2 with
  | tested => exact Or.inl rfl
  | accepted => exact Or.inl rfl
  | again => exact Or.inl rfl
  | failed => exact Or.inl rfl
  | enqueued _ hpool => exact Or.inr ⟨_, hpool⟩
  | shutDown _ hpool => exact Or.inr ⟨_, hpool⟩
  | inner _ hpool => exact Or.inr ⟨_, hpool⟩
  | took hpool => exact Or.inr ⟨_, hpool⟩
  | worked => exact Or.inl (noted_pool s _ _)
  | closed _ hpool => exact Or.inr ⟨_, hpool⟩

/-- What the pool keeps in its steps it keeps in those of the server. -/
theorem pool_keeps {I : ThreadPool n Conn → Prop} (hI : ∀ p p' e, I p → p.step e = some p' → I p')
    {s s' : Server n Conn} {e : Event n Conn} (h : s.step e = some s') (hs : I s.pool) :
    I s'.pool := by
  rcases step_pool h with heq | ⟨e', hpool⟩
  · rw [heq]
    exact hs
  · exact hI _ _ e' hs hpool

/-- What a worker is at, and how far. -/
def place (s : Server n Conn) (i : Fin n) : Option Conn × Phase :=
  (ThreadPool.onJob (s.pool.threads i), s.phases i)

def weigh (g : Conn → Phase → Nat) : Option Conn × Phase → Nat
  | (some conn, phase) => g conn phase
  | (none, _) => 0

theorem inner_jobs {e : ThreadPool.Event n Conn} (he : isInner e = true) : e.jobs = [] := by
  cases e <;> first | rfl | cases he

def tally (g : Conn → Phase → Nat) (s : Server n Conn) : Nat := ∑ i, weigh g (s.place i)

theorem place_eq {s : Server n Conn} {i : Fin n} {o : Option Conn} {p : Phase}
    (hthread : ThreadPool.onJob (s.pool.threads i) = o) (hphase : s.phases i = p) :
    s.place i = (o, p) :=
  Prod.ext hthread hphase

theorem tally_change (g : Conn → Phase → Nat) (s s' : Server n Conn) {i : Fin n}
    {p p' : Option Conn × Phase} (hp : s.place i = p) (hp' : s'.place i = p')
    (hstill : ∀ j, j ≠ i → s'.place j = s.place j) :
    tally g s' + weigh g p = tally g s + weigh g p' := by
  subst hp hp'
  have hsame : ∀ j, j ≠ i → weigh g (s'.place j) = weigh g (s.place j) := fun j hj => by
    rw [hstill j hj]
  exact ThreadPool.sum_change (fun j => weigh g (s.place j)) (fun j => weigh g (s'.place j)) i hsame

theorem tally_still {s s' : Server n Conn} (g : Conn → Phase → Nat)
    (hstill : ∀ j, s'.place j = s.place j) :
    tally g s' = tally g s :=
  Finset.sum_congr rfl fun j _ => by rw [hstill j]

/-- What an event does to the workers that have a connection. -/
inductive Placed (g : Conn → Phase → Nat) (s s' : Server n Conn) : Event n Conn → Prop where
  | still {e : Event n Conn} (he : ∀ i w, e ≠ .work i w) (htally : tally g s' = tally g s)
      (hbegun : s'.pool.begun = s.pool.begun) (hrequests : s'.requests = s.requests) :
        Placed g s s' e
  | began {i : Fin n} {conn : Conn} (htally : tally g s' = tally g s + g conn (.tests keepAliveMaxCount))
      (hbegun : s'.pool.begun = s.pool.begun ++ [conn]) (hrequests : s'.requests = s.requests) :
      Placed g s s' (.take i)
  | moved {i : Fin n} {w : Work} {conn : Conn} {phase : Phase} (hi : s.pool.threads i = .busy conn)
      (hnext : (s.phases i).next s.stopped w = some phase)
      (htally : tally g s' + g conn (s.phases i) = tally g s + g conn phase)
      (hbegun : s'.pool.begun = s.pool.begun)
      (hrequests : s'.requests = s.requests ++ if w = .ready then [conn] else []) :
        Placed g s s' (.work i w)
  | ended {i : Fin n} {conn : Conn} (htally : tally g s' + g conn .closes = tally g s)
      (hbegun : s'.pool.begun = s.pool.begun) (hrequests : s'.requests = s.requests) :
        Placed g s s' (.close i)

theorem step_placed (g : Conn → Phase → Nat) {s s' : Server n Conn} {e : Event n Conn}
    (h : s.step e = some s') :
    Placed g s s' e := by
  cases (step_moved h).2 with
  | tested => exact .still nofun rfl rfl rfl
  | accepted => exact .still nofun rfl rfl rfl
  | again => exact .still nofun rfl rfl rfl
  | failed => exact .still nofun rfl rfl rfl
  | enqueued _ hpool =>
      refine .still nofun (tally_still g fun j => ?_) (ThreadPool.begun_step hpool nofun) rfl
      exact congrArg (·, s.phases j) (ThreadPool.onJob_step hpool nofun)
  | shutDown _ hpool =>
      refine .still nofun (tally_still g fun j => ?_) (ThreadPool.begun_step hpool nofun) rfl
      exact congrArg (·, s.phases j) (ThreadPool.onJob_step hpool nofun)
  | inner he hpool =>
      have hworker : ∀ {e : ThreadPool.Event n Conn}, isInner e = true → e.worker = none ∧
          ∀ i, e ≠ .test i := by
        intro e he
        cases e <;> first | exact ⟨rfl, nofun⟩ | cases he
      refine .still nofun (tally_still g fun j =>
        ?_) (ThreadPool.begun_step hpool (hworker he).2) rfl
      exact congrArg (·, s.phases j) (ThreadPool.onJob_step hpool (by rw [(hworker he).1]; nofun))
  | @took i pool hpool =>
      obtain ⟨hfree, hbegun⟩ := ThreadPool.test_step hpool
      have hchange := tally_change g s
        { s with pool := pool, phases := Function.update s.phases i (.tests keepAliveMaxCount) }
        (place_eq hfree rfl) (place_eq rfl (Function.update_self i _ _)) fun j hj =>
          place_eq (ThreadPool.onJob_step hpool fun h => hj (Option.some.inj h).symm) (Function.update_of_ne hj _ _)
      cases honJob : ThreadPool.onJob (pool.threads i) with
      | none =>
          rw [honJob] at hchange hbegun
          exact .still nofun hchange (hbegun.trans (List.append_nil _)) rfl
      | some conn =>
          rw [honJob] at hchange hbegun
          exact .began hchange hbegun rfl
  | @worked i w conn phase hi hnext =>
      have hpool := noted_pool s conn w
      have hthread : ThreadPool.onJob (s.pool.threads i) = some conn := congrArg ThreadPool.onJob hi
      have hchange := tally_change g s { s.noted conn w with phases := Function.update s.phases i phase }
        (place_eq hthread rfl) (place_eq (hpool ▸ hthread) (Function.update_self i _ _)) fun j hj =>
          place_eq (by rw [hpool]) (Function.update_of_ne hj _ _)
      exact .moved hi hnext hchange (by rw [hpool]) (noted_requests s conn w)
  | @closed i pool hphase hpool =>
      obtain ⟨hbusy, hfree⟩ := ThreadPool.finish_step hpool
      obtain ⟨conn, hconn⟩ := Option.isSome_iff_exists.mp hbusy
      have hchange := tally_change g s { s with pool := pool } (place_eq hconn hphase) (place_eq hfree rfl) fun j hj =>
        place_eq (ThreadPool.onJob_step hpool fun h => hj (Option.some.inj h).symm) rfl
      exact .ended hchange (ThreadPool.begun_step hpool nofun) rfl

/-! ### A server that has been stopped -/

section Stopped

variable {s s' : Server n Conn} {e : Event n Conn} (hstopped : s.stopped = true) (hstep : s.step e = some s')

include hstopped hstep

theorem stopped_step : s'.stopped = true := by
  cases (step_moved hstep).2 with
  | @worked i w conn =>
      cases w with
      | stop =>
          show s.stop.stopped = true
          rw [stop_eq, hstopped]
          exact Bool.or_true _
      | _ => exact hstopped
  | _ => exact hstopped

/-- The requests taken up, and those that may still be: one for each worker in `keep_alive`. -/
theorem requests_stopped :
    s'.requests.length + tally (fun _ p => p.waiting) s' ≤ s.requests.length + tally (fun _ p =>
      p.waiting) s := by
  cases step_placed (fun _ p => p.waiting) hstep with
  | still _ htally _ hrequests => rw [htally, hrequests]
  | began htally _ hrequests => rw [htally, hrequests]; exact Nat.le_refl _
  | moved _ hnext htally _ hrequests =>
      have hwaiting := Phase.waiting_next (hstopped ▸ hnext)
      rw [hrequests, List.length_append]
      split_ifs at hwaiting ⊢ <;> simp only [List.length_singleton, List.length_nil] <;> omega
  | ended htally _ hrequests =>
      rw [hrequests]
      omega

end Stopped

theorem tally_waiting_le (s : Server n Conn) : tally (fun _ p => p.waiting) s ≤ n := by
  have hone : ∀ i, weigh (fun (_ : Conn) p => p.waiting) (s.place i) ≤ 1 := fun i => by
    rcases s.place i with ⟨_ | conn, p⟩
    · exact Nat.zero_le _
    · cases p <;> simp [weigh, Phase.waiting]
  calc tally (fun _ p => p.waiting) s ≤ ∑ _i : Fin n, 1 := Finset.sum_le_sum fun i _ => hone i
    _ = n := by rw [Finset.sum_const, Finset.card_univ, Fintype.card_fin, smul_eq_mul, mul_one]

/-! ### A server in which nothing moves -/

section Stuck

variable {s : Server n Conn} (habort : ¬ s.aborted = true) (hstuck : ∀ e, s.step e = none)

include habort hstuck

theorem stuck_inner {e : ThreadPool.Event n Conn} (he : isInner e = true) :
    s.pool.step e = none := by
  have hnone := hstuck (.pool e)
  rw [step.eq_def, if_neg habort] at hnone
  simp only [he, if_true] at hnone
  exact Option.map_eq_none_iff.mp hnone

theorem stuck_take (i : Fin n) : s.pool.step (.test i) = none := by
  have hnone := hstuck (.take i)
  rw [step.eq_def, if_neg habort] at hnone
  exact Option.map_eq_none_iff.mp hnone

theorem stuck_busy (i : Fin n) (conn : Conn) : s.pool.threads i ≠ .busy conn := by
  intro hi
  have hwork : ∀ w, (s.phases i).next s.stopped w = none := fun w => by
    have hnone := hstuck (.work i w)
    rw [step.eq_def, if_neg habort] at hnone
    simp only [hi] at hnone
    exact Option.map_eq_none_iff.mp hnone
  cases hphase : s.phases i with
  | tests count => exact absurd (hwork .enter) (by rw [hphase]; nofun)
  | waits count => exact absurd (hwork .expires) (by rw [hphase]; nofun)
  | answers count => exact absurd (hwork (.answer true)) (by rw [hphase]; nofun)
  | stops count => exact absurd (hwork (.answer true)) (by rw [hphase]; nofun)
  | closes =>
      have hnone := hstuck (.close i)
      rw [step.eq_def, if_neg habort] at hnone
      simp only [hphase] at hnone
      exact ThreadPool.finish_ne_none hi (Option.map_eq_none_iff.mp hnone)

theorem stuck_outside : s.pool.owner ≠ .outside := by
  intro howner
  cases hlistener : s.listener with
  | tests =>
      have hnone := hstuck .test
      rw [step.eq_def, if_neg habort] at hnone
      simp only [hlistener, listening, howner, decide_true, if_true] at hnone
      cases hnone
  | accepts =>
      have hnone := hstuck .acceptFails
      rw [step.eq_def, if_neg habort] at hnone
      simp only [hlistener] at hnone
      cases hnone
  | has conn =>
      have hnone := hstuck .enqueue
      rw [step.eq_def, if_neg habort] at hnone
      simp only [hlistener, ThreadPool.step, howner, if_true] at hnone
      cases hnone
  | left =>
      have hnone := hstuck .shutDown
      rw [step.eq_def, if_neg habort] at hnone
      simp only [hlistener, ThreadPool.step, howner, if_true] at hnone
      cases hnone

end Stuck

/-! ### Every connection is closed -/

/-- What `listen_internal` has accepted and not enqueued. -/
def pending (s : Server n Conn) : List Conn :=
  match s.listener with
  | .has conn => [conn]
  | _ => []

theorem pending_of {s : Server n Conn} {l : Listener Conn} (h : s.listener = l)
    (hl : ∀ conn, l ≠ .has conn) :
    s.pending = [] := by
  rw [pending, h]
  cases l with
  | has conn => exact absurd rfl (hl conn)
  | _ => rfl

theorem phases_step {s s' : Server n Conn} {e : Event n Conn} (hstep : s.step e = some s') (j : Fin n) :
    s'.phases j = s.phases j ∨ s'.phases j = .tests keepAliveMaxCount ∨
      ∃ w, (s.phases j).next s.stopped w = some (s'.phases j) := by
  have hupdate : ∀ {i : Fin n} {p : Phase}, Function.update s.phases i p j = s.phases j ∨
      i = j ∧ Function.update s.phases i p j = p := fun {i p} => by
    by_cases hij : j = i
    · subst hij
      exact Or.inr ⟨rfl, Function.update_self j p s.phases⟩
    · exact Or.inl (Function.update_of_ne hij p s.phases)
  cases (step_moved hstep).2 with
  | took => exact hupdate.imp_right fun h => Or.inl h.2
  | worked _ hnext =>
      refine hupdate.imp_right fun h => Or.inr ?_
      obtain ⟨rfl, heq⟩ := h
      exact ⟨_, heq ▸ hnext⟩
  | _ => exact Or.inl rfl

structure Sound [DecidableEq Conn] (s : Server n Conn) : Prop where
  kept : s.pool.Kept
  watched : s.pool.Watched
  accepted : s.accepted = s.pool.enqueued ++ s.pending
  left : s.pool.shutdown = true → s.listener = .left
  positive : ∀ i count, s.phases i = .waits count → 0 < count
  requests : ∀ c, s.requests.count c + tally (fun conn p => if conn = c then p.credit else 0) s ≤
    keepAliveMaxCount * s.pool.begun.count c
  stops : (s.stopped = true ↔ 1 ≤ s.stops) ∧ (s.aborted = true ↔ 2 ≤ s.stops)

section Step

variable [DecidableEq Conn] {s s' : Server n Conn} {e : Event n Conn}

theorem sound_start : Sound (start : Server n Conn) where
  kept := ThreadPool.kept_start
  watched := ThreadPool.watched_start
  accepted := rfl
  left := nofun
  positive := fun _ _ h => by cases h
  requests := fun c => by
    have hnobody : tally (fun conn p => if conn = c then p.credit else 0) (start : Server n Conn) =
        0 :=
      Finset.sum_eq_zero fun i _ => rfl
    rw [hnobody]
    exact Nat.zero_le _
  stops :=
    ⟨iff_of_false Bool.false_ne_true (by decide : ¬ 1 ≤ 0),
      iff_of_false Bool.false_ne_true (by decide : ¬ 2 ≤ 0)⟩

theorem Sound.accepted_step (h : Sound s) (hstep : s.step e = some s') :
    s'.accepted = s'.pool.enqueued ++ s'.pending := by
  have hsame : ∀ {e : ThreadPool.Event n Conn} {pool : ThreadPool n Conn}, s.pool.step e = some pool →
      e.jobs = [] → s.accepted = pool.enqueued ++ s.pending := fun hpool hjobs => by
    rw [ThreadPool.step_enqueued hpool, hjobs, List.append_nil, h.accepted]
  cases (step_moved hstep).2 with
  | tested _ hlistener =>
      have haccepted := h.accepted
      rw [pending_of hlistener nofun] at haccepted
      rw [pending_of rfl (by split_ifs <;> nofun)]
      exact haccepted
  | accepted hlistener =>
      have haccepted := h.accepted
      rw [pending_of hlistener nofun, List.append_nil] at haccepted
      exact congrArg (· ++ _) haccepted
  | again hlistener =>
      have haccepted := h.accepted
      rw [pending_of hlistener nofun] at haccepted
      exact haccepted
  | failed hlistener =>
      have haccepted := h.accepted
      rw [pending_of hlistener nofun] at haccepted
      exact haccepted
  | @enqueued conn pool hlistener hpool =>
      have haccepted := h.accepted
      rw [pending, hlistener] at haccepted
      show s.accepted = pool.enqueued ++ []
      rw [haccepted, ThreadPool.step_enqueued hpool, List.append_nil]
      rfl
  | shutDown _ hpool => exact hsame hpool rfl
  | inner he hpool =>
      exact hsame hpool (inner_jobs he)
  | took hpool => exact hsame hpool rfl
  | worked =>
      rw [pending, noted_accepted, noted_pool, noted_listener]
      exact h.accepted
  | closed _ hpool => exact hsame hpool rfl

theorem Sound.left_step (h : Sound s) (hstep : s.step e = some s')
    (hshut : s'.pool.shutdown = true) :
    s'.listener = .left := by
  have hsame : ∀ {e : ThreadPool.Event n Conn} {pool : ThreadPool n Conn},
      s.pool.step e = some pool →
      e ≠ .shutDown → pool.shutdown = true → s.listener = .left := fun hpool hne hshut =>
    h.left (((ThreadPool.step_shutdown hpool).mp hshut).resolve_right hne)
  have hnot : ∀ {l : Listener Conn}, s.listener = l → l ≠ .left → s.pool.shutdown ≠ true :=
    fun hlistener hl hshut => hl (hlistener.symm.trans (h.left hshut))
  cases (step_moved hstep).2 with
  | tested _ hlistener => exact absurd hshut (hnot hlistener nofun)
  | accepted hlistener => exact absurd hshut (hnot hlistener nofun)
  | again hlistener => exact absurd hshut (hnot hlistener nofun)
  | failed => rfl
  | enqueued hlistener hpool =>
      exact absurd (((ThreadPool.step_shutdown hpool).mp hshut).resolve_right nofun) (hnot hlistener nofun)
  | shutDown hlistener => exact hlistener
  | inner he hpool => exact hsame hpool (fun heq => by rw [heq] at he; cases he) hshut
  | took hpool => exact hsame hpool nofun hshut
  | worked =>
      rw [noted_pool] at hshut
      exact (noted_listener s _ _).trans (h.left hshut)
  | closed _ hpool => exact hsame hpool nofun hshut

theorem Sound.positive_step (h : Sound s) (hstep : s.step e = some s') (i : Fin n) (count : Nat)
    (hi : s'.phases i = .waits count) : 0 < count := by
  rcases phases_step hstep i with heq | heq | ⟨w, hnext⟩
  · exact h.positive i count (heq ▸ hi)
  · rw [hi] at heq
    cases heq
  · rw [hi] at hnext
    exact Phase.next_waits hnext

theorem Sound.requests_step (h : Sound s) (hstep : s.step e = some s') (c : Conn) :
    s'.requests.count c + tally (fun conn p => if conn = c then p.credit else 0) s' ≤
      keepAliveMaxCount * s'.pool.begun.count c := by
  have hle := h.requests c
  cases step_placed (fun conn p => if conn = c then p.credit else 0) hstep with
  | still _ htally hbegun hrequests =>
      rw [htally, hbegun, hrequests]
      exact hle
  | @began i conn htally hbegun hrequests =>
      rw [htally, hbegun, hrequests, List.count_append, List.count_singleton, Nat.mul_add,
        ← Nat.add_assoc]
      refine Nat.add_le_add hle ?_
      by_cases hc : conn = c
      · rw [if_pos hc, hc, beq_self_eq_true, if_pos rfl]
        exact Nat.le_refl _
      · rw [if_neg hc]
        exact Nat.zero_le _
  | @moved i w conn phase hi hnext htally hbegun hrequests =>
      have hcredit := Phase.credit_next (h.positive i) hnext
      rw [hbegun, hrequests, List.count_append]
      by_cases hc : conn = c
      · rw [if_pos hc, if_pos hc] at htally
        split_ifs at hcredit ⊢
        · rw [hc, List.count_singleton_self]
          omega
        · rw [List.count_nil]
          omega
      · rw [if_neg hc, if_neg hc] at htally
        have hnone : (if w = .ready then [conn] else []).count c = 0 := by
          split_ifs
          · exact List.count_eq_zero.mpr fun hmem => hc (List.mem_singleton.mp hmem).symm
          · rfl
        omega
  | @ended i conn htally hbegun hrequests =>
      rw [hbegun, hrequests]
      omega

theorem Sound.isRunning (h : Sound s) {i : Fin n} {conn : Conn} (hi : s.pool.threads i = .busy conn) :
    s.isRunning = true := by
  rw [Server.isRunning, decide_eq_true_eq]
  intro hback
  have hgone := h.watched.joined i (by rw [hback]; exact i.isLt)
  cases hi.symm.trans hgone

theorem Sound.stops_step (h : Sound s) (hstep : s.step e = some s') :
    (s'.stopped = true ↔ 1 ≤ s'.stops) ∧ (s'.aborted = true ↔ 2 ≤ s'.stops) := by
  obtain ⟨habort, hmoved⟩ := step_moved hstep
  obtain ⟨hstopped, haborted⟩ := h.stops
  cases hmoved with
  | @worked i w conn phase hi hnext =>
      cases w with
      | stop =>
          have hless : ¬ 2 ≤ s.stops := fun hle => by
            rw [haborted.mpr hle] at habort
            cases habort
          rw [noted, stop_eq, h.isRunning hi, habort]
          dsimp only
          rw [Bool.true_or, Bool.true_and, Bool.or_false]
          exact ⟨iff_of_true rfl (by omega), hstopped.trans (by omega)⟩
      | _ => exact h.stops
  | _ => exact h.stops

theorem Sound.step (h : Sound s) (hstep : s.step e = some s') : Sound s' where
  kept := pool_keeps (fun _ _ _ hp hstep => hp.step hstep) hstep h.kept
  watched := pool_keeps (fun _ _ _ hp hstep => hp.step hstep) hstep h.watched
  accepted := h.accepted_step hstep
  left := h.left_step hstep
  positive := h.positive_step hstep
  requests := h.requests_step hstep
  stops := h.stops_step hstep

theorem Sound.closed (h : Sound s) (hn : 0 < n) (hback : s.pool.owner = .back) :
    (s.pool.done : Multiset Conn) = s.accepted := by
  have hshut : s.pool.shutdown = true := h.watched.down.mpr (by rw [hback]; rfl)
  rw [h.accepted, pending_of (h.left hshut) nofun, List.append_nil]
  exact (h.watched.back h.kept hn hback).2

/-- **Connections.** In whatever order the threads go on and whatever the connections bring, every
connection that has been accepted is in one place, waits for its turn or has been taken up by one
worker; when `listen` is back they have all been closed, each of them once. No more requests than
`keep_alive_max_count` are taken up on any. -/
theorem listen_closes_all (hn : 0 < n) (events : List (Event n Conn)) :
    Runs.Always Server.step
      (fun s : Server n Conn =>
        s.accepted = s.pool.begun ++ s.pool.jobs ++ s.pending ∧
        (s.pool.begun : Multiset Conn) = s.pool.done + s.pool.inHand ∧
        (s.pool.owner = .back → (s.pool.done : Multiset Conn) = s.accepted) ∧
        ∀ c, s.requests.count c ≤ keepAliveMaxCount * s.pool.begun.count c)
      start events := by
  refine (Runs.always_of_step (fun _ _ _ h hstep => Sound.step h hstep) sound_start events).mono
    fun s h => ?_
  refine ⟨by rw [h.accepted, h.kept.queue], h.kept.hands, h.closed hn, fun c => ?_⟩
  · exact Nat.le_trans (Nat.le_add_right _ _) (h.requests c)

def oneVisit : List (Event 1 Nat) :=
  [.test, .accept 7, .enqueue, .pool (.notifyOne none), .take 0, .work 0 .enter, .work 0 .ready,
    .work 0 .stop,
    .work 0 (.answer true), .work 0 .enter, .close 0, .test, .shutDown, .pool .notifyAll,
    .take 0, .pool .join,
    .pool .join]

theorem listen_closes_all_one :
    (Runs.final Server.step start oneVisit).pool.owner = .back ∧
      ((Runs.final Server.step start oneVisit).pool.done : Multiset Nat) = [7] := by
  have hback : (Runs.final Server.step start oneVisit).pool.owner = .back := by decide +kernel
  have haccepted : (Runs.final Server.step start oneVisit).accepted = [7] := by decide +kernel
  have hclosed := (listen_closes_all (by decide : 0 < 1) oneVisit).final.2.2.1 hback
  rw [haccepted] at hclosed
  exact ⟨hback, hclosed⟩

/-! ### The end -/

def rest (s : Server n Conn) : Nat :=
  s.pool.rest + s.pool.jobs.length + tally (fun _ p => p.effort) s + s.listener.load

def Event.cost : Event n Conn → Nat
  | .pool e => e.cost
  | _ => 0

theorem Sound.rest_pool (h : Sound s) {e : ThreadPool.Event n Conn} {pool : ThreadPool n Conn}
    (hpool : s.pool.step e = some pool) :
    pool.rest + 1 ≤ s.pool.rest + e.cost ∧
      pool.begun.length + pool.jobs.length = s.pool.begun.length + s.pool.jobs.length +
        e.jobs.length := by
  refine ⟨ThreadPool.rest_step hpool, ?_⟩
  rw [← List.length_append, ← (h.kept.step hpool).queue, ThreadPool.step_enqueued hpool,
    List.length_append,
    h.kept.queue, List.length_append]

theorem Sound.rest_step (h : Sound s) (hstopped : s.stopped = true) (hstep : s.step e = some s') :
    s'.rest + 1 ≤ s.rest + e.cost := by
  have hplaced := step_placed (fun _ p => p.effort) hstep
  cases (step_moved hstep).2 with
  | tested _ hlistener =>
      cases hplaced with
      | still _ htally =>
          simp only [rest, hstopped, if_true, hlistener, Listener.load, Event.cost] at htally ⊢
          omega
  | accepted hlistener =>
      cases hplaced with
      | still _ htally =>
          simp only [rest, htally, hlistener, Listener.load, Event.cost]
          omega
  | again hlistener =>
      cases hplaced with
      | still _ htally =>
          simp only [rest, htally, hlistener, Listener.load, Event.cost]
          omega
  | failed hlistener =>
      cases hplaced with
      | still _ htally =>
          simp only [rest, htally, hlistener, Listener.load, Event.cost]
          omega
  | enqueued hlistener hpool =>
      obtain ⟨hrest, hjobs⟩ := h.rest_pool hpool
      cases hplaced with
      | still _ htally hbegun =>
          have hbegun' := congrArg List.length hbegun
          simp only [rest, htally, hlistener, Listener.load, Event.cost, ThreadPool.Event.cost,
            ThreadPool.Event.jobs,
            List.length_singleton] at hrest hjobs hbegun' ⊢
          omega
  | shutDown hlistener hpool =>
      obtain ⟨hrest, hjobs⟩ := h.rest_pool hpool
      cases hplaced with
      | still _ htally hbegun =>
          have hbegun' := congrArg List.length hbegun
          simp only [rest, htally, Event.cost, ThreadPool.Event.cost, ThreadPool.Event.jobs,
            List.length_nil]
            at hrest hjobs hbegun' ⊢
          omega
  | inner he hpool =>
      obtain ⟨hrest, hjobs⟩ := h.rest_pool hpool
      rw [inner_jobs he, List.length_nil] at hjobs
      cases hplaced with
      | still _ htally hbegun =>
          have hbegun' := congrArg List.length hbegun
          simp only [rest, htally, Event.cost] at hbegun' ⊢
          omega
  | took hpool =>
      obtain ⟨hrest, hjobs⟩ := h.rest_pool hpool
      simp only [ThreadPool.Event.cost, ThreadPool.Event.jobs, List.length_nil] at hrest hjobs
      cases hplaced with
      | still _ htally hbegun =>
          have hbegun' := congrArg List.length hbegun
          simp only [rest, htally, Event.cost] at hbegun' ⊢
          omega
      | began htally hbegun =>
          have hbegun' := congrArg List.length hbegun
          have heffort : Phase.effort (.tests keepAliveMaxCount) = 1 := rfl
          simp only [rest, htally, heffort, Event.cost, List.length_append, List.length_singleton] at hbegun' ⊢
          omega
  | worked hi hnext =>
      cases hplaced with
      | still he => exact absurd rfl (he _ _)
      | moved hi' hnext' htally =>
          have heffort := Phase.effort_next (hstopped ▸ hnext')
          simp only [rest, noted_pool, noted_listener, Event.cost] at htally ⊢
          omega
  | closed hphase hpool =>
      obtain ⟨hrest, hjobs⟩ := h.rest_pool hpool
      simp only [ThreadPool.Event.cost, ThreadPool.Event.jobs, List.length_nil] at hrest hjobs
      cases hplaced with
      | still _ htally hbegun =>
          have hbegun' := congrArg List.length hbegun
          simp only [rest, htally, Event.cost] at hbegun' ⊢
          omega
      | ended htally hbegun =>
          have hbegun' := congrArg List.length hbegun
          simp only [rest, Event.cost] at htally hbegun' ⊢
          omega

/-- A server in which nothing moves, and which is not aborted, is back from `listen`. -/
theorem Sound.stuck (h : Sound s) (habort : ¬ s.aborted = true) (hstuck : ∀ e, s.step e = none) :
    s.pool.owner = .back := by
  have hnotify := ThreadPool.notify_ne_none s.pool
  have hdown : s.pool.owner.down = true := by
    cases howner : s.pool.owner with
    | outside => exact absurd howner (stuck_outside habort hstuck)
    | notifies =>
        obtain ⟨woken, hsome⟩ := hnotify howner
        exact absurd (stuck_inner habort hstuck rfl) hsome
    | _ => rfl
  exact h.watched.stuck (h.watched.down.mpr hdown) (stuck_inner habort hstuck rfl)
    (stuck_inner habort hstuck rfl)
    (stuck_take habort hstuck) (stuck_busy habort hstuck)

/-- **The end of the server.** Once it has been stopped, its threads take only so many steps more,
but for wake-ups for no reason, and take up no more requests than there are workers. Where none of
them can take another step, all connections have been closed and `listen` is back; or `stop` has
been called a second time, and its assertion has failed. -/
theorem stop_ends (hn : 0 < n) (events : List (Event n Conn))
    (hstopped : (Runs.final Server.step start events).stopped = true) :
    ∃ bound, ∀ more,
      Runs.taken Server.step (Runs.final Server.step start events) more ≤
        bound + (more.map Event.cost).sum ∧
      let last := Runs.final Server.step (Runs.final Server.step start events) more
      last.requests.length ≤ (Runs.final Server.step start events).requests.length + n ∧
        ((∀ e, last.step e = none) →
          (last.aborted = true ∧ 2 ≤ last.stops) ∨
            (last.pool.owner = .back ∧ (last.pool.done : Multiset Conn) = last.accepted)) := by
  have hsound : Sound (Runs.final Server.step start events) :=
    (Runs.always_of_step (fun _ _ _ h hstep => Sound.step h hstep) sound_start events).final
  generalize Runs.final Server.step start events = s at hstopped hsound
  have hstays : ∀ (t : Server n Conn) (e : Event n Conn) (t' : Server n Conn),
      (Sound t ∧ t.stopped = true) →
      t.step e = some t' → Sound t' ∧ t'.stopped = true :=
    fun _ _ _ h hstep => ⟨h.1.step hstep, stopped_step h.2 hstep⟩
  refine ⟨s.rest, fun more => ⟨?_, ?_, fun hstuck => ?_⟩⟩
  · exact Runs.taken_le (fun t e t' h hstep => ⟨hstays t e t' h hstep, h.1.rest_step h.2 hstep⟩)
      ⟨hsound, hstopped⟩
      more
  · have hrun : Runs.Always Server.step (fun t => t.stopped = true ∧
        t.requests.length + tally (fun _ p => p.waiting) t ≤ s.requests.length + n) s more :=
      Runs.always_of_step (fun _ _ _ h hstep => ⟨stopped_step h.1 hstep,
        Nat.le_trans (requests_stopped h.1 hstep) h.2⟩)
        ⟨hstopped, Nat.add_le_add_left (tally_waiting_le s) _⟩ more
    exact Nat.le_trans (Nat.le_add_right _ _) hrun.final.2
  · obtain ⟨hlast, _⟩ := (Runs.always_of_step hstays ⟨hsound, hstopped⟩ more).final
    by_cases habort : (Runs.final Server.step s more).aborted = true
    · exact Or.inl ⟨habort, hlast.stops.2.mp habort⟩
    · have hback := hlast.stuck habort hstuck
      exact Or.inr ⟨hback, hlast.closed hn hback⟩

/-- The handler of `/exit` has called `stop`, and goes on. -/
theorem stop_ends_one :
    ∃ bound, ∀ more, Runs.taken Server.step (Runs.final Server.step start (oneVisit.take 8)) more ≤
      bound + (more.map Event.cost).sum := by
  obtain ⟨bound, hbound⟩ := stop_ends (by decide : 0 < 1) (oneVisit.take 8) (by decide +kernel)
  exact ⟨bound, fun more => (hbound more).1⟩

end Step

end Server

end NetworkHomework.Http
