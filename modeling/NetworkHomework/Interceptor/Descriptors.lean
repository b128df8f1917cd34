import NetworkHomework.Interceptor.CallIntercepter

/-!
# Whose bytes are logged

The four calls that log look at `log_file` and not at their descriptor, so a `write` to the terminal
is logged like one to the socket. `Call.chars` says what a call logs, which depends on the state
only through whether there is a log. With it two runs are compared: one, and the same without the
calls on other descriptors than the one followed. Their logs agree exactly if none of these calls
has anything to log: `log_own_iff`.
-/

namespace NetworkHomework.Interceptor

/-! ### The characters of a call -/

/-- What `write`, `send` and `sendto` log of a buffer; `none` if they read past what can be read. -/
def bufferChars (opened : Bool) (least : Nat) (buf : Option (List UInt8)) (count : Nat) :
    Option (List UInt8) :=
  match buf with
  | none => some []
  | some chars =>
      if opened = true ∧ count > least then
        if count - 1 ≤ chars.length then some (chars.take (count - 1)) else none
      else some []

/-- What `sendmsg` logs in its turn for a segment. -/
def segmentLogged (opened : Bool) (msg : Msghdr) (i : Nat) : Option (List UInt8) := do
  let segment ← msg.iov[i]?
  match segment.base with
  | none => some []
  | some chars =>
      if opened = true ∧ segment.len > 1 then State.segmentChars chars 0 msg.iov else some []

def messageChars (opened : Bool) (msg : Msghdr) : Option (List UInt8) :=
  ((List.range msg.iovlen).mapM (segmentLogged opened msg)).map List.flatten

def Call.loggedFd : Call → Option Int
  | .write fd _ _ | .send fd _ _ | .sendto fd _ _ | .sendmsg fd _ => some fd
  | .close _ | .socket _ _ => none

/-- What a call logs if there is a log, or if there is none. -/
def Call.chars (opened : Bool) : Call → Option (List UInt8)
  | .write _ buf count | .sendto _ buf count => bufferChars opened 1 buf count
  | .send _ buf len => bufferChars opened 0 buf len
  | .sendmsg _ msg => messageChars opened msg
  | .close _ | .socket _ _ => some []

namespace State

theorem logBuffer_eq (s : State) (least : Nat) (buf : Option (List UInt8)) (count : Nat) :
    s.logBuffer least buf count = (bufferChars s.logFile.isSome least buf count).map s.log := by
  cases buf with
  | none => exact congrArg some s.log_nil.symm
  | some chars =>
      cases hlog : s.logFile with
      | none =>
          simp only [logBuffer, bufferChars, hlog]
          exact congrArg some s.log_nil.symm
      | some stream =>
          simp only [logBuffer, bufferChars, hlog, Option.isSome_some, true_and]
          split_ifs
          · rfl
          · rfl
          · exact congrArg some s.log_nil.symm

theorem logSegment_eq (s : State) (msg : Msghdr) (i : Nat) :
    logSegment msg s i = (segmentLogged s.logFile.isSome msg i).map s.log := by
  rw [logSegment, segmentLogged]
  cases hsegment : msg.iov[i]? with
  | none => rfl
  | some segment =>
      cases hbase : segment.base with
      | none => simp [hbase, s.log_nil]
      | some chars =>
          cases hlog : s.logFile with
          | none => simp [hbase, s.log_nil]
          | some stream =>
              by_cases hlen : segment.len > 1
              · cases hchars : segmentChars chars 0 msg.iov <;> simp [hbase, hlen, hchars]
              · simp [hbase, hlen, s.log_nil]

theorem log_logFile (s : State) (chars : List UInt8) : (s.log chars).logFile = s.logFile := by
  cases hlog : s.logFile with
  | none => rw [log_of_none hlog, hlog]
  | some stream => rw [log_of_some hlog, hlog]

/-- Turns that each log what does not depend on what has been logged before log all of it. -/
theorem foldlM_eq_log {α : Type} {turn : State → α → Option State}
    {chars : Bool → α → Option (List UInt8)}
    (hturn : ∀ s a, turn s a = (chars s.logFile.isSome a).map s.log) (s : State) (as : List α) :
    as.foldlM turn s = ((as.mapM (chars s.logFile.isSome)).map List.flatten).map s.log := by
  induction as generalizing s with
  | nil => exact congrArg some s.log_nil.symm
  | cons a as ih =>
      rw [List.foldlM_cons, List.mapM_cons, hturn]
      cases hfirst : chars s.logFile.isSome a with
      | none => rfl
      | some first =>
          change (as.foldlM turn (s.log first)) = _
          rw [ih, log_logFile]
          cases hrest : as.mapM (chars s.logFile.isSome) with
          | none => rfl
          | some more =>
              change some ((s.log first).log more.flatten) = some (s.log (first ++ more.flatten))
              rw [log_log]

theorem sendmsg_eq (s : State) (msg : Msghdr) :
    s.sendmsg msg = (messageChars s.logFile.isSome msg).map s.log :=
  @foldlM_eq_log Nat (logSegment msg) (fun opened i => segmentLogged opened msg i)
    (fun s i => s.logSegment_eq msg i) s (List.range msg.iovlen)

theorem step_of_logs {x : Call} {fd : Int} (hfd : x.loggedFd = some fd) (s : State) :
    s.step x = (x.chars s.logFile.isSome).map s.log := by
  cases x with
  | close fd => cases hfd
  | socket result opens => cases hfd
  | write fd buf count => exact s.logBuffer_eq 1 buf count
  | send fd buf len => exact s.logBuffer_eq 0 buf len
  | sendto fd buf len => exact s.logBuffer_eq 1 buf len
  | sendmsg fd msg => exact s.sendmsg_eq msg

/-! ### Two runs -/

def printed (trace : List StreamCall) : List UInt8 :=
  trace.filterMap fun
    | .fprintf _ c => some c
    | _ => none

def logged (s : State) : List UInt8 := printed s.trace

theorem printed_append (trace trace' : List StreamCall) :
    printed (trace ++ trace') = printed trace ++ printed trace' := List.filterMap_append

theorem printed_fprintf (stream : Nat) (chars : List UInt8) :
    printed (chars.map (.fprintf stream)) = chars := by
  induction chars with
  | nil => rfl
  | cons c chars ih => exact congrArg (c :: ·) ih

theorem log_trace (s : State) (chars : List UInt8) :
    ∃ more, s.log chars = { s with trace := s.trace ++ more } ∧
      (∀ trace, { s with trace := trace }.log chars = { s with trace := trace ++ more }) ∧
      printed more = if s.logFile.isSome then chars else [] := by
  obtain ⟨socketFd, logFile, nextStream, before⟩ := s
  cases logFile with
  | none => exact ⟨[], by simp [log], fun trace => by simp [log], rfl⟩
  | some stream =>
      exact ⟨chars.map (.fprintf stream), rfl, fun trace => rfl, printed_fprintf stream chars⟩

theorem step_trace {s s' : State} {x : Call} (h : s.step x = some s') :
    ∃ more, s'.trace = s.trace ++ more ∧
      ∀ trace, { s with trace := trace }.step x = some { s' with trace := trace ++ more } := by
  have hlogs : ∀ fd, x.loggedFd = some fd → ∃ more, s'.trace = s.trace ++ more ∧
      ∀ trace, { s with trace := trace }.step x = some { s' with trace := trace ++ more } := by
    intro fd hfd
    rw [step_of_logs hfd] at h
    obtain ⟨chars, hchars, rfl⟩ := Option.map_eq_some_iff.mp h
    obtain ⟨more, hs, hother, _⟩ := s.log_trace chars
    refine ⟨more, congrArg State.trace hs, fun trace => ?_⟩
    rw [step_of_logs hfd]
    change (x.chars s.logFile.isSome).map _ = _
    rw [hchars, Option.map_some, hother, hs]
  cases x with
  | close fd =>
      obtain rfl := Option.some.inj h
      obtain ⟨socketFd, logFile, nextStream, before⟩ := s
      by_cases hfd : fd = socketFd
      · cases logFile with
        | none => exact ⟨[], by simp [close, hfd], fun trace => by simp [step, close, hfd]⟩
        | some stream =>
            exact ⟨[.fclose stream], by simp [close, hfd], fun trace => by simp [step, close, hfd]⟩
      · exact ⟨[], by simp [close, hfd], fun trace => by simp [step, close, hfd]⟩
  | socket result opens =>
      obtain rfl := Option.some.inj h
      obtain ⟨socketFd, logFile, nextStream, before⟩ := s
      by_cases hfd : socketFd = -1
      · cases opens with
        | false =>
            exact ⟨[.fopen none], by simp [socket, hfd], fun trace => by simp [step, socket, hfd]⟩
        | true =>
            exact ⟨[.fopen (some nextStream)], by simp [socket, hfd],
              fun trace => by simp [step, socket, hfd]⟩
      · exact ⟨[], by simp [socket, hfd], fun trace => by simp [step, socket, hfd]⟩
  | write fd buf count => exact hlogs fd rfl
  | send fd buf len => exact hlogs fd rfl
  | sendto fd buf len => exact hlogs fd rfl
  | sendmsg fd msg => exact hlogs fd rfl

/-- A call that logs, on another descriptor than the one that is followed. -/
def Foreign (s : State) (x : Call) : Prop := ∃ fd, x.loggedFd = some fd ∧ fd ≠ s.socketFd

instance (s : State) (x : Call) : Decidable (s.Foreign x) :=
  match hfd : x.loggedFd with
  | none => isFalse fun ⟨_, h, _⟩ => by rw [hfd] at h; cases h
  | some fd => decidable_of_iff (fd ≠ s.socketFd)
      ⟨fun h => ⟨fd, hfd, h⟩, fun ⟨_, h, hne⟩ => by rw [hfd] at h; cases h; exact hne⟩

/-- The calls of a run that are not foreign when they are made. -/
def own : State → List Call → List Call
  | _, [] => []
  | s, x :: xs =>
      match s.step x with
      | none => []
      | some s' => if s.Foreign x then own s' xs else x :: own s' xs

/-- There is nothing to log: no log, no buffer, or no more than the one character that is left off.
In `sendmsg` the length of the first segment, counted modulo `2^64`, bounds what is logged of
each. -/
def LogsNothing (s : State) : Call → Prop
  | .write _ buf count | .send _ buf count | .sendto _ buf count =>
      s.logFile = none ∨ buf = none ∨ count ≤ 1
  | .sendmsg _ msg =>
      s.logFile = none ∨ (∀ segment ∈ msg.iov.take msg.iovlen, segment.base = none ∨
        segment.len ≤ 1) ∨
        ∀ segment ∈ msg.iov.head?, segment.len % 2 ^ 64 = 1
  | .close _ | .socket _ _ => True

instance (s : State) : (x : Call) → Decidable (s.LogsNothing x)
  | .write _ buf count | .send _ buf count | .sendto _ buf count =>
      inferInstanceAs (Decidable (s.logFile = none ∨ buf = none ∨ count ≤ 1))
  | .sendmsg _ msg => inferInstanceAs (Decidable (s.logFile = none ∨
      (∀ segment ∈ msg.iov.take msg.iovlen, segment.base = none ∨ segment.len ≤ 1) ∨
        ∀ segment ∈ msg.iov.head?, segment.len % 2 ^ 64 = 1))
  | .close _ | .socket _ _ => isTrue trivial

theorem bufferChars_eq_nil_iff {opened : Bool} {least : Nat} (hleast : least ≤ 1)
    {buf : Option (List UInt8)} {count : Nat} {chars : List UInt8}
    (h : bufferChars opened least buf count = some chars) :
    chars = [] ↔ opened = false ∨ buf = none ∨ count ≤ 1 := by
  cases buf with
  | none =>
      obtain rfl := Option.some.inj h
      exact iff_of_true rfl (Or.inr (Or.inl rfl))
  | some bytes =>
      rw [bufferChars] at h
      split_ifs at h with hlogs hreads
      · obtain rfl := Option.some.inj h
        rw [List.take_eq_nil_iff, List.eq_nil_iff_length_eq_zero]
        simp only [hlogs.1, Bool.true_eq_false, false_or, reduceCtorEq]
        omega
      · obtain rfl := Option.some.inj h
        refine iff_of_true rfl ?_
        rw [not_and_or, Bool.not_eq_true] at hlogs
        rcases hlogs with hclosed | hcount
        · exact Or.inl hclosed
        · exact Or.inr (Or.inr (by omega))

theorem segmentChars_eq_nil_iff {bytes chars : List UInt8} {segments : List Iovec}
    (h : segmentChars bytes 0 segments = some chars) :
    chars = [] ↔ ∀ segment ∈ segments.head?, segment.len % 2 ^ 64 = 1 := by
  cases segments with
  | nil => cases h
  | cons segment segments =>
      rw [List.head?_cons]
      simp only [Option.mem_def, Option.some.injEq, forall_eq']
      rw [segmentChars] at h
      split_ifs at h with hlogs
      · obtain ⟨c, _, h⟩ := Option.bind_eq_some_iff.mp h
        obtain ⟨more, _, h⟩ := Option.bind_eq_some_iff.mp h
        obtain rfl := Option.some.inj h
        exact iff_of_false (List.cons_ne_nil c more) (by omega)
      · obtain rfl := Option.some.inj h
        exact iff_of_true rfl (by omega)

theorem segmentLogged_eq_nil_iff {opened : Bool} {msg : Msghdr} {i : Nat} {chars : List UInt8}
    (h : segmentLogged opened msg i = some chars) :
    chars = [] ↔ opened = false ∨ (∀ segment ∈ msg.iov[i]?, segment.base = none ∨ segment.len ≤ 1) ∨
      ∀ segment ∈ msg.iov.head?, segment.len % 2 ^ 64 = 1 := by
  obtain ⟨segment, hsegment, h⟩ := Option.bind_eq_some_iff.mp h
  rw [hsegment]
  simp only [Option.mem_def, Option.some.injEq, forall_eq']
  cases hbase : segment.base with
  | none =>
      rw [hbase] at h
      obtain rfl := Option.some.inj h
      exact iff_of_true rfl (Or.inr (Or.inl (Or.inl rfl)))
  | some bytes =>
      rw [hbase] at h
      dsimp only at h
      split_ifs at h with hlogs
      · have hlen : ¬ segment.len ≤ 1 := Nat.not_le.mpr hlogs.2
        rw [segmentChars_eq_nil_iff h]
        simp [hlogs.1, hlen]
      · obtain rfl := Option.some.inj h
        refine iff_of_true rfl ?_
        rw [not_and_or, Bool.not_eq_true] at hlogs
        rcases hlogs with hclosed | hlen
        · exact Or.inl hclosed
        · exact Or.inr (Or.inl (Or.inr (Nat.not_lt.mp hlen)))

theorem mapM_eq_some_iff {α β : Type} {f : α → Option β} {as : List α} {bs : List β} :
    as.mapM f = some bs ↔ as.map f = bs.map some := by
  induction as generalizing bs with
  | nil => cases bs <;> simp
  | cons a as ih =>
      cases bs with
      | nil => simp [Option.bind_eq_some_iff]
      | cons b bs => simp [Option.bind_eq_some_iff, ih]

theorem mapM_isSome {f : Nat → Option (List UInt8)} {is : List Nat} {logs : List (List UInt8)}
    (h : is.mapM f = some logs) {i : Nat} (hi : i ∈ is) : ∃ chars, f i = some chars := by
  have hmem : f i ∈ logs.map some := mapM_eq_some_iff.mp h ▸ List.mem_map_of_mem hi
  obtain ⟨chars, _, hchars⟩ := List.mem_map.mp hmem
  exact ⟨chars, hchars.symm⟩

theorem mapM_flatten_eq_nil_iff {f : Nat → Option (List UInt8)} {is : List Nat}
    {logs : List (List UInt8)} (h : is.mapM f = some logs) :
    logs.flatten = [] ↔ ∀ i ∈ is, ∃ chars, f i = some chars ∧ chars = [] := by
  have hall : (∀ chars ∈ logs, chars = []) ↔ ∀ x ∈ is.map f, x = some [] := by
    rw [mapM_eq_some_iff.mp h]
    simp
  rw [List.flatten_eq_nil_iff, hall, List.forall_mem_map]
  simp

theorem messageChars_eq_nil_iff {opened : Bool} {msg : Msghdr} {chars : List UInt8}
    (h : messageChars opened msg = some chars) :
    chars = [] ↔ opened = false ∨
      (∀ segment ∈ msg.iov.take msg.iovlen, segment.base = none ∨ segment.len ≤ 1) ∨
        ∀ segment ∈ msg.iov.head?, segment.len % 2 ^ 64 = 1 := by
  obtain ⟨logs, hlogs, rfl⟩ := Option.map_eq_some_iff.mp h
  have hturn : ∀ i ∈ List.range msg.iovlen,
      (∃ chars, segmentLogged opened msg i = some chars ∧ chars = []) ↔ opened = false ∨
        (∀ segment ∈ msg.iov[i]?, segment.base = none ∨ segment.len ≤ 1) ∨
          ∀ segment ∈ msg.iov.head?, segment.len % 2 ^ 64 = 1 := by
    intro i hi
    obtain ⟨chars, hchars⟩ := mapM_isSome hlogs hi
    rw [← segmentLogged_eq_nil_iff hchars, hchars]
    simp
  have htake : (∀ segment ∈ msg.iov.take msg.iovlen, segment.base = none ∨ segment.len ≤ 1) ↔
      ∀ i ∈ List.range msg.iovlen, ∀ segment ∈ msg.iov[i]?, segment.base = none ∨
      segment.len ≤ 1 := by
    constructor
    · intro h i hi segment hsegment
      refine h segment (List.mem_iff_getElem?.mpr ⟨i, ?_⟩)
      rw [List.getElem?_take, if_pos (List.mem_range.mp hi)]
      exact hsegment
    · intro h segment hsegment
      obtain ⟨i, hi⟩ := List.mem_iff_getElem?.mp hsegment
      rw [List.getElem?_take] at hi
      split_ifs at hi with hlt
      exact h i (List.mem_range.mpr hlt) segment hi
  rw [mapM_flatten_eq_nil_iff hlogs, forall₂_congr hturn, htake]
  by_cases hclosed : opened = false
  · exact iff_of_true (fun i _ => Or.inl hclosed) (Or.inl hclosed)
  · by_cases hfirst : ∀ segment ∈ msg.iov.head?, segment.len % 2 ^ 64 = 1
    · exact iff_of_true (fun i _ => Or.inr (Or.inr hfirst)) (Or.inr (Or.inr hfirst))
    · simp only [hclosed, hfirst, or_false, Bool.true_eq_false, false_or]

theorem chars_eq_nil_iff {s : State} {x : Call} {fd : Int} (hfd : x.loggedFd = some fd)
    {chars : List UInt8} (h : x.chars s.logFile.isSome = some chars) :
    chars = [] ↔ s.LogsNothing x := by
  have hclosed : s.logFile.isSome = false ↔ s.logFile = none :=
    Option.isSome_eq_false_iff.trans (by simp)
  cases x with
  | close fd => cases hfd
  | socket result opens => cases hfd
  | write fd buf count => rw [LogsNothing, ← hclosed, bufferChars_eq_nil_iff (Nat.le_refl 1) h]
  | send fd buf len => rw [LogsNothing, ← hclosed, bufferChars_eq_nil_iff (Nat.zero_le 1) h]
  | sendto fd buf len => rw [LogsNothing, ← hclosed, bufferChars_eq_nil_iff (Nat.le_refl 1) h]
  | sendmsg fd msg => rw [LogsNothing, ← hclosed, messageChars_eq_nil_iff h]

theorem foreign_step {s s' : State} {x : Call} (hforeign : s.Foreign x) (h : s.step x = some s') :
    ∃ more, s' = { s with trace := s.trace ++ more } ∧ (printed more = [] ↔ s.LogsNothing x) := by
  obtain ⟨fd, hfd, _⟩ := hforeign
  rw [step_of_logs hfd] at h
  obtain ⟨chars, hchars, rfl⟩ := Option.map_eq_some_iff.mp h
  obtain ⟨more, hs, _, hprinted⟩ := s.log_trace chars
  refine ⟨more, hs, ?_⟩
  rw [← chars_eq_nil_iff hfd hchars, hprinted]
  split
  · rfl
  · next hclosed =>
      have hnone : s.logFile = none := by simpa using hclosed
      refine iff_of_true rfl ((chars_eq_nil_iff hfd hchars).mpr ?_)
      cases x <;> simp [LogsNothing, hnone]

private theorem append_eq_iff_of_length_le {α : Type*} {more all kept : List α}
    (hle : kept.length ≤ all.length) : more ++ all = kept ↔ more = [] ∧ all = kept := by
  constructor
  · intro heq
    have hlength := congrArg List.length heq
    rw [List.length_append] at hlength
    have hnil : more = [] := List.eq_nil_of_length_eq_zero (by omega)
    rw [hnil] at heq
    exact ⟨hnil, heq⟩
  · intro h
    rw [h.1, h.2]
    rfl

/-- Both runs log the same of the calls they share, and the foreign ones only add to it. -/
private theorem final_own (s : State) (trace : List StreamCall) (calls : List Call) :
    ∃ all kept, (Runs.final step s calls).logged = s.logged ++ all ∧
      (Runs.final step { s with trace := trace } (own s calls)).logged = printed trace ++ kept ∧
      kept.length ≤ all.length ∧
      (all = kept ↔ Runs.Along step (fun s x => s.Foreign x → s.LogsNothing x) s calls) := by
  induction calls generalizing s trace with
  | nil =>
      exact ⟨[], [], (List.append_nil _).symm, (List.append_nil _).symm, Nat.le_refl _,
        iff_of_true rfl trivial⟩
  | cons x calls ih =>
      cases hstep : s.step x with
      | none =>
          rw [own, Runs.final, hstep]
          refine ⟨[], [], (List.append_nil _).symm, (List.append_nil _).symm, Nat.le_refl _, ?_⟩
          refine iff_of_true rfl fun s' hs' => ?_
          rw [hstep] at hs'
          cases hs'
      | some s' =>
          simp only [own, Runs.final, hstep]
          rw [Runs.along_cons_iff hstep]
          by_cases hforeign : s.Foreign x
          · obtain ⟨more, rfl, hmore⟩ := foreign_step hforeign hstep
            obtain ⟨all, kept, hall, hkept, hle, hiff⟩ :=
              ih { s with trace := s.trace ++ more } trace
            rw [if_pos hforeign, hall, hkept, imp_iff_right hforeign, ← hmore, ← hiff]
            refine ⟨printed more ++ all, kept, ?_, rfl, ?_, append_eq_iff_of_length_le hle⟩
            · rw [logged, printed_append, List.append_assoc]
              rfl
            · rw [List.length_append]
              omega
          · obtain ⟨more, htrace, hother⟩ := step_trace hstep
            obtain ⟨all, kept, hall, hkept, hle, hiff⟩ := ih s' (trace ++ more)
            rw [if_neg hforeign, Runs.final, hother]
            dsimp only
            rw [hall, hkept, ← hiff]
            refine ⟨printed more ++ all, printed more ++ kept, ?_, ?_, ?_, ?_⟩
            · rw [logged, htrace, printed_append, List.append_assoc]
              rfl
            · rw [printed_append, List.append_assoc]
            · rw [List.length_append, List.length_append]
              omega
            · rw [List.append_cancel_left_eq]
              exact (and_iff_right fun h => absurd h hforeign).symm

/-- **Whose bytes are logged.** The log of a run is that of the same run without the calls on other
descriptors exactly if each of these has nothing to log. Two runs that agree but for such calls have
the same log then. -/
theorem log_own_iff (s : State) :
    (∀ calls, (Runs.final step s calls).logged = (Runs.final step s (own s calls)).logged ↔
        Runs.Along step (fun s x => s.Foreign x → s.LogsNothing x) s calls) ∧
      ∀ calls calls', own s calls = own s calls' →
        Runs.Along step (fun s x => s.Foreign x → s.LogsNothing x) s calls →
        Runs.Along step (fun s x => s.Foreign x → s.LogsNothing x) s calls' →
        (Runs.final step s calls).logged = (Runs.final step s calls').logged := by
  have hiff : ∀ calls, (Runs.final step s calls).logged = (Runs.final step s (own s calls)).logged ↔
      Runs.Along step (fun s x => s.Foreign x → s.LogsNothing x) s calls := by
    intro calls
    obtain ⟨all, kept, hall, hkept, _, hiff⟩ := final_own s s.trace calls
    rw [hall, hkept, ← hiff, logged, List.append_cancel_left_eq]
  refine ⟨hiff, fun calls calls' hown hcalls hcalls' => ?_⟩
  rw [(hiff calls).mpr hcalls, hown, (hiff calls').mpr hcalls']

theorem log_own_iff_no_buffer :
    (Runs.final step (init.socket 3 true) [.write 3 (some [0x68, 0x69, 0x0a]) 3, .write 1 none 5]).logged =
      (Runs.final step (init.socket 3 true) [.write 3 (some [0x68, 0x69, 0x0a]) 3]).logged :=
  (log_own_iff _).2 _ _ rfl (by decide) (by decide)

/-- A socket is opened, and a line is written to the terminal. -/
theorem log_of_terminal :
    let s := init.socket 3 true
    own s [.write 1 (some [0x68, 0x69, 0x0a]) 3] = [] ∧
      (Runs.final step s [.write 1 (some [0x68, 0x69, 0x0a]) 3]).logged = [0x68, 0x69] ∧
      (Runs.final step s (own s [.write 1 (some [0x68, 0x69, 0x0a]) 3])).logged = [] := by
  decide

end State

end NetworkHomework.Interceptor
