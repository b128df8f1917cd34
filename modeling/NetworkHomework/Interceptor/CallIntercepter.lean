import NetworkHomework.Base.Runs
import NetworkHomework.Base.Streams

/-!
# The call interceptor and its log

The library stands in front of six calls of the C library. `socket_fd` is the one socket it follows,
and `log_file` the stream it logs to; `-1` means that no socket is followed, and is also what a
failed `socket` returns and what a program may pass to `close`. `close` leaves the pointer of the
stream it has closed in `log_file`. `log_file_sound_iff` says for which sequences of calls that does
no harm.
-/

namespace NetworkHomework.Interceptor

/-! ### The calls -/

/-- A segment of a message: the bytes that can be read from its base on, null if there is no base,
and its length. -/
structure Iovec where
  base : Option (List UInt8)
  len : Nat

/-- A message: the segments that can be read from `msg_iov` on, and their number. -/
structure Msghdr where
  iov : List Iovec
  iovlen : Nat

/-- An intercepted call. A buffer is null or the bytes that can be read from it on; `socket` comes
with what the real call returns and with whether `fopen` will succeed. -/
inductive Call where
  | close (fd : Int)
  | write (fd : Int) (buf : Option (List UInt8)) (count : Nat)
  | socket (result : Int) (opens : Bool)
  | send (fd : Int) (buf : Option (List UInt8)) (len : Nat)
  | sendto (fd : Int) (buf : Option (List UInt8)) (len : Nat)
  | sendmsg (fd : Int) (msg : Msghdr)

/-- The two globals, the number of streams opened so far, which names the next one, and the calls on
streams made so far. -/
structure State where
  socketFd : Int
  logFile : Option Nat
  nextStream : Nat
  trace : List StreamCall

namespace State

def init : State := ⟨-1, none, 0, []⟩

def close (s : State) (fd : Int) : State :=
  if fd = s.socketFd then
    let s := { s with socketFd := -1 }
    match s.logFile with
    | none => s
    | some stream => { s with trace := s.trace ++ [.fclose stream] }
  else s

def socket (s : State) (result : Int) (opens : Bool) : State :=
  if s.socketFd = -1 then
    let s := { s with socketFd := result }
    if opens then
      { s with
        logFile := some s.nextStream
        nextStream := s.nextStream + 1
        trace := s.trace ++ [.fopen (some s.nextStream)] }
    else { s with logFile := none, trace := s.trace ++ [.fopen none] }
  else s

/-- `fprintf(log_file, "%c", c)` for each of some characters, if there is a log. -/
def log (s : State) (chars : List UInt8) : State :=
  match s.logFile with
  | none => s
  | some stream => { s with trace := s.trace ++ chars.map (.fprintf stream) }

/-- What `write`, `send` and `sendto` share: of a buffer longer than `least`, all bytes but the last
are logged. A read past what can be read has no defined outcome, which is `none`. -/
def logBuffer (least : Nat) (s : State) (buf : Option (List UInt8)) (count : Nat) : Option State :=
  match buf, s.logFile with
  | some chars, some _ =>
      if count > least then
        if count - 1 ≤ chars.length then some (s.log (chars.take (count - 1))) else none
      else some s
  | _, _ => some s

def write : State → Option (List UInt8) → Nat → Option State := logBuffer 1

def send : State → Option (List UInt8) → Nat → Option State := logBuffer 0

def sendto : State → Option (List UInt8) → Nat → Option State := logBuffer 1

/-- The inner loop of `sendmsg`: its counter hides the outer one, so the bound is taken from the
segment with the number of the character. The length `0` of a segment wraps. -/
def segmentChars (chars : List UInt8) : Nat → List Iovec → Option (List UInt8)
  | _, [] => none
  | i, segment :: segments =>
      if i < (segment.len + 2 ^ 64 - 1) % 2 ^ 64 then do
        let c ← chars[i]?
        let more ← segmentChars chars (i + 1) segments
        some (c :: more)
      else some []

def logSegment (msg : Msghdr) (s : State) (i : Nat) : Option State := do
  let segment ← msg.iov[i]?
  match segment.base, s.logFile with
  | some chars, some _ =>
      if segment.len > 1 then
        let chars ← segmentChars chars 0 msg.iov
        some (s.log chars)
      else some s
  | _, _ => some s

def sendmsg (s : State) (msg : Msghdr) : Option State :=
  (List.range msg.iovlen).foldlM (logSegment msg) s

/-- An intercepted call, `none` where it reads what it must not. -/
def step (s : State) : Call → Option State
  | .close fd => some (s.close fd)
  | .write _ buf count => s.write buf count
  | .socket result opens => some (s.socket result opens)
  | .send _ buf len => s.send buf len
  | .sendto _ buf len => s.sendto buf len
  | .sendmsg _ msg => s.sendmsg msg

/-! ### The branches of `close`, `socket` and `log` -/

theorem close_of_ne {s : State} {fd : Int} (hfd : fd ≠ s.socketFd) : s.close fd = s := if_neg hfd

theorem close_of_none {s : State} (hlog : s.logFile = none) :
    s.close s.socketFd = { s with socketFd := -1 } := by
  rw [close, if_pos rfl]
  simp only [hlog]

theorem close_of_some {s : State} {stream : Nat} (hlog : s.logFile = some stream) :
    s.close s.socketFd = { s with socketFd := -1, trace := s.trace ++ [.fclose stream] } := by
  rw [close, if_pos rfl]
  simp only [hlog]

theorem socket_of_ne {s : State} (hfd : s.socketFd ≠ -1) (result : Int) (opens : Bool) :
    s.socket result opens = s := if_neg hfd

theorem socket_of_not_opens {s : State} (hfd : s.socketFd = -1) (result : Int) :
    s.socket result false =
      { s with socketFd := result, logFile := none, trace := s.trace ++ [.fopen none] } :=
    if_pos hfd

theorem socket_of_opens {s : State} (hfd : s.socketFd = -1) (result : Int) :
    s.socket result true =
      { socketFd := result
        logFile := some s.nextStream
        nextStream := s.nextStream + 1
        trace := s.trace ++ [.fopen (some s.nextStream)] } := if_pos hfd

theorem log_of_none {s : State} (hlog : s.logFile = none) (chars : List UInt8) :
    s.log chars = s := by
  simp only [log, hlog]

theorem log_of_some {s : State} {stream : Nat} (hlog : s.logFile = some stream)
    (chars : List UInt8) :
    s.log chars = { s with trace := s.trace ++ chars.map (.fprintf stream) } := by
  simp only [log, hlog]

theorem log_nil (s : State) : s.log [] = s := by
  cases hlog : s.logFile with
  | none => exact log_of_none hlog []
  | some stream => rw [log_of_some hlog, List.map_nil, List.append_nil]

theorem log_log (s : State) (chars more : List UInt8) :
    (s.log chars).log more = s.log (chars ++ more) := by
  cases hlog : s.logFile with
  | none => rw [log_of_none hlog, log_of_none hlog, log_of_none hlog]
  | some stream =>
      rw [log_of_some hlog, log_of_some hlog]
      simp only [log, hlog, List.map_append, List.append_assoc]

/-! ### What a call can do -/

theorem logBuffer_eq_log {least : Nat} {s s' : State} {buf : Option (List UInt8)} {count : Nat}
    (h : s.logBuffer least buf count = some s') : ∃ chars, s' = s.log chars := by
  unfold logBuffer at h
  split at h
  · split_ifs at h
    · cases h
      exact ⟨_, rfl⟩
    · cases h
      exact ⟨[], s.log_nil.symm⟩
  · cases h
    exact ⟨[], s.log_nil.symm⟩

theorem logSegment_eq_log {msg : Msghdr} {s s' : State} {i : Nat}
    (h : logSegment msg s i = some s') :
    ∃ chars, s' = s.log chars := by
  obtain ⟨segment, _, h⟩ := Option.bind_eq_some_iff.mp h
  split at h
  · split_ifs at h
    · obtain ⟨chars, _, h⟩ := Option.bind_eq_some_iff.mp h
      cases h
      exact ⟨chars, rfl⟩
    · cases h
      exact ⟨[], s.log_nil.symm⟩
  · cases h
    exact ⟨[], s.log_nil.symm⟩

theorem sendmsg_eq_log {msg : Msghdr} {s s' : State} (h : s.sendmsg msg = some s') :
    ∃ chars, s' = s.log chars := by
  rw [sendmsg] at h
  generalize List.range msg.iovlen = is at h
  induction is generalizing s with
  | nil =>
      rw [List.foldlM_nil] at h
      cases h
      exact ⟨[], (log_nil _).symm⟩
  | cons i is ih =>
      rw [List.foldlM_cons] at h
      obtain ⟨t, hturn, hrest⟩ := Option.bind_eq_some_iff.mp h
      obtain ⟨chars, rfl⟩ := logSegment_eq_log hturn
      obtain ⟨more, rfl⟩ := ih hrest
      exact ⟨chars ++ more, s.log_log chars more⟩

theorem step_cases {s s' : State} {x : Call} (h : s.step x = some s') :
    (∃ fd, x = .close fd ∧ s' = s.close fd) ∨
      (∃ result opens, x = .socket result opens ∧ s' = s.socket result opens) ∨
        (∀ fd, x ≠ .close fd) ∧ (∀ result opens, x ≠ .socket result opens) ∧
        ∃ chars, s' = s.log chars := by
  cases x with
  | close fd => exact Or.inl ⟨fd, rfl, (Option.some.inj h).symm⟩
  | socket result opens => exact Or.inr (Or.inl ⟨result, opens, rfl, (Option.some.inj h).symm⟩)
  | write fd buf count => exact Or.inr (Or.inr ⟨by simp, by simp, logBuffer_eq_log h⟩)
  | send fd buf len => exact Or.inr (Or.inr ⟨by simp, by simp, logBuffer_eq_log h⟩)
  | sendto fd buf len => exact Or.inr (Or.inr ⟨by simp, by simp, logBuffer_eq_log h⟩)
  | sendmsg fd msg => exact Or.inr (Or.inr ⟨by simp, by simp, sendmsg_eq_log h⟩)

/-! ### The log stream -/

/-- So far no call has printed to or closed a stream that was not open, none has put a new stream in
the place of an open one, and `log_file` is null or open. -/
def Sound (s : State) : Prop :=
  ∃ u, Usage.follow s.trace = some u ∧ ∀ stream, s.logFile = some stream → stream ∈ u.opened

/-- The call is neither a `close` that closes the log, nor a `socket` that opens one while there is
one because the followed descriptor is `-1`. -/
def Harmless (s : State) : Call → Prop
  | .close fd => fd = s.socketFd → s.logFile = none
  | .socket _ opens => s.socketFd = -1 → opens = true → s.logFile = none
  | _ => True

/-- `u` is what the calls so far come to: its stream in hand is `log_file`, which is null or
open. -/
structure Tracked (s : State) (u : Usage) : Prop where
  follow : Usage.follow s.trace = some u
  held : u.held = s.logFile
  next : u.next ≤ s.nextStream
  opened : ∀ stream, s.logFile = some stream → stream ∈ u.opened

theorem tracked_init : Tracked init .start :=
  ⟨rfl, rfl, Nat.le_refl 0, fun _ hlog => by cases hlog⟩

theorem Tracked.sound {s : State} {u : Usage} (h : Tracked s u) : s.Sound := ⟨u, h.follow, h.opened⟩

theorem Tracked.close {s : State} {u : Usage} (h : Tracked s u) (fd : Int) :
    (s.Harmless (.close fd) ∧ Tracked (s.close fd) u) ∨
      (¬ s.Harmless (.close fd) ∧ ¬ (s.close fd).Sound) := by
  by_cases hfd : fd = s.socketFd
  · subst hfd
    cases hlog : s.logFile with
    | none =>
        rw [close_of_none hlog]
        exact Or.inl ⟨fun _ => hlog, h.follow, h.held, h.next, h.opened⟩
    | some stream =>
        refine Or.inr ⟨fun himp => Option.some_ne_none _ (hlog.symm.trans (himp rfl)), ?_⟩
        rw [close_of_some hlog]
        rintro ⟨u', hfollow, hopen⟩
        have hcall : u.call (.fclose stream) =
            some { u with opened := u.opened.filter (· ≠ stream) } :=
          if_pos (h.opened stream hlog)
        have hclosed := hopen stream hlog
        rw [Usage.follow_append h.follow, List.foldlM_cons, hcall] at hfollow
        cases hfollow
        simp at hclosed
  · rw [close_of_ne hfd]
    exact Or.inl ⟨fun heq => absurd heq hfd, h⟩

theorem Tracked.socket {s : State} {u : Usage} (h : Tracked s u) (result : Int) (opens : Bool) :
    (s.Harmless (.socket result opens) ∧ ∃ u', Tracked (s.socket result opens) u') ∨
      (¬ s.Harmless (.socket result opens) ∧ ¬ (s.socket result opens).Sound) := by
  by_cases hfd : s.socketFd = -1
  · cases opens with
    | false =>
        rw [socket_of_not_opens hfd]
        refine Or.inl ⟨fun _ hopens => absurd hopens Bool.false_ne_true,
          { u with held := none }, ?_⟩
        exact ⟨Usage.follow_append h.follow _, rfl, h.next, fun _ hlog => by cases hlog⟩
    | true =>
        rw [socket_of_opens hfd]
        cases hlog : s.logFile with
        | none =>
            have hcall : u.call (.fopen (some s.nextStream)) =
                some ⟨s.nextStream :: u.opened, some s.nextStream, s.nextStream + 1⟩ := by
              have hnext := h.next
              refine if_neg ?_
              rw [h.held, hlog]
              simp [hnext]
            refine Or.inl ⟨fun _ _ => hlog, ⟨s.nextStream :: u.opened, some s.nextStream, s.nextStream + 1⟩,
              ?_, rfl, Nat.le_refl _, fun stream hstream => ?_⟩
            · refine (Usage.follow_append h.follow _).trans ?_
              rw [List.foldlM_cons, hcall]
              rfl
            · cases hstream
              exact List.mem_cons_self
        | some stream =>
            refine Or.inr ⟨fun himp => Option.some_ne_none _ (hlog.symm.trans (himp hfd rfl)), ?_⟩
            rintro ⟨u', hfollow, _⟩
            have hcall : u.call (.fopen (some s.nextStream)) = none :=
              if_pos (Or.inl ⟨stream, h.held.trans hlog, h.opened stream hlog⟩)
            rw [Usage.follow_append h.follow, List.foldlM_cons, hcall] at hfollow
            cases hfollow
  · rw [socket_of_ne hfd]
    exact Or.inl ⟨fun heq => absurd heq hfd, u, h⟩

theorem Tracked.log {s : State} {u : Usage} (h : Tracked s u) (chars : List UInt8) :
    Tracked (s.log chars) u := by
  cases hlog : s.logFile with
  | none =>
      rw [log_of_none hlog]
      exact h
  | some stream =>
      rw [log_of_some hlog]
      refine ⟨?_, h.held, h.next, h.opened⟩
      exact (Usage.follow_append h.follow _).trans
        (Usage.foldlM_fprintf (h.opened stream hlog) chars)

theorem Tracked.step {s s' : State} {u : Usage} {x : Call} (h : Tracked s u)
    (hstep : s.step x = some s') :
    (s.Harmless x ∧ ∃ u', Tracked s' u') ∨ (¬ s.Harmless x ∧ ¬ s'.Sound) := by
  rcases step_cases hstep with ⟨fd, rfl, rfl⟩ | ⟨result, opens, rfl, rfl⟩ |
    ⟨hclose, hsocket, chars, rfl⟩
  · rcases h.close fd with ⟨hharmless, htracked⟩ | hbroken
    · exact Or.inl ⟨hharmless, u, htracked⟩
    · exact Or.inr hbroken
  · exact h.socket result opens
  · have hharmless : s.Harmless x := by
      cases x with
      | close fd => exact absurd rfl (hclose fd)
      | socket result opens => exact absurd rfl (hsocket result opens)
      | _ => trivial
    exact Or.inl ⟨hharmless, u, h.log chars⟩

/-- **The log stream.** Throughout a sequence of calls the log is used correctly exactly if all of
them are harmless. -/
theorem log_file_sound_iff (calls : List Call) :
    Runs.Always step Sound init calls ↔ Runs.Along step Harmless init calls := by
  refine Runs.always_iff_along (J := fun s => ∃ u, Tracked s u) ?_ ?_ ⟨.start, tracked_init⟩
  · rintro s ⟨u, h⟩
    exact h.sound
  · rintro s x s' ⟨u, h⟩ hstep
    exact h.step hstep

/-- A socket is opened and closed: `log_file` is the stream that was closed. -/
theorem log_file_dangles : ¬ Runs.Always step Sound init [.socket 3 true, .close 3] := by
  intro h
  obtain ⟨u, hfollow, hopen⟩ := h.final
  cases hfollow
  exact absurd (hopen 0 rfl) (by decide)

end State

end NetworkHomework.Interceptor
