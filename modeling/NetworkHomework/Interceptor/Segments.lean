import NetworkHomework.Interceptor.Descriptors

/-!
# The segments of a message

`sendmsg` means to log each segment of a message as `sendto` logs a buffer. Its inner loop has a
counter of the same name as the outer one, so where it stops is the same for every segment: at the
first number `k` that is not below the length of segment `k`, less one. `stop` is that number.
-/

namespace NetworkHomework.Interceptor

/-- A message a program may send: as many segments as it says, of lengths a `size_t` holds, and of
each that has a base the bytes of its length. -/
structure Msghdr.Valid (msg : Msghdr) : Prop where
  number : msg.iov.length = msg.iovlen
  fits : ∀ segment ∈ msg.iov, segment.len < 2 ^ 64
  bytes : ∀ segment ∈ msg.iov, ∀ chars, segment.base = some chars → chars.length = segment.len

/-- A message without its bytes: which segments have a base, and the lengths. -/
def Msghdr.shape (msg : Msghdr) : List (Bool × Nat) :=
  msg.iov.map fun segment => (segment.base.isSome, segment.len)

/-- The first `n` segments, of numbers `k`, are empty or longer than `k + 1`, and the next is
neither. -/
def StopsAt (segments : List Iovec) (n : Nat) : Prop :=
  (∀ k < n, ∃ segment, segments[k]? = some segment ∧ (segment.len = 0 ∨ k + 1 < segment.len)) ∧
    ∃ segment, segments[n]? = some segment ∧ segment.len ≠ 0 ∧ segment.len ≤ n + 1

namespace State

/-- The calls of `sendto` for the segments of a message, each alone. -/
def sendtoEach (s : State) (msg : Msghdr) : Option State :=
  msg.iov.foldlM (fun s segment => s.sendto segment.base segment.len) s

/-! ### Where the inner loop stops -/

def bound (segment : Iovec) : Nat := (segment.len + 2 ^ 64 - 1) % 2 ^ 64

/-- How many turns the inner loop takes from number `i` on, `none` if it leaves the segments. -/
def stop : Nat → List Iovec → Option Nat
  | _, [] => none
  | i, segment :: segments =>
      if i < bound segment then (stop (i + 1) segments).map (· + 1) else some 0

theorem segmentChars_cons (chars : List UInt8) (i : Nat) (segment : Iovec) (segments : List Iovec) :
    segmentChars chars i (segment :: segments) =
      if i < bound segment then chars[i]?.bind fun c =>
        (segmentChars chars (i + 1) segments).map (c :: ·)
      else some [] := by
  rw [segmentChars, bound]
  split_ifs with hruns
  · cases hc : chars[i]? with
    | none => rfl
    | some c => cases hmore : segmentChars chars (i + 1) segments <;> rfl
  · rfl

theorem segmentChars_eq (chars : List UInt8) (i : Nat) (segments : List Iovec) :
    segmentChars chars i segments = (stop i segments).bind fun n =>
      if n ≤ chars.length - i then some ((chars.drop i).take n) else none := by
  induction segments generalizing i with
  | nil => rfl
  | cons segment segments ih =>
      rw [segmentChars_cons, stop]
      split_ifs with hruns
      · rw [ih]
        cases hstop : stop (i + 1) segments with
        | none => cases hc : chars[i]? <;> simp
        | some n =>
            by_cases hi : i < chars.length
            · have hdrop : chars.drop i = chars[i] :: chars.drop (i + 1) :=
                List.drop_eq_getElem_cons hi
              have hfits : n ≤ chars.length - (i + 1) ↔ n + 1 ≤ chars.length - i := by omega
              simp only [List.getElem?_eq_getElem hi, Option.bind_some, Option.map_some, hdrop,
                List.take_succ_cons, hfits]
              split_ifs <;> simp
            · have hout : chars[i]? = none := List.getElem?_eq_none (by omega)
              have hshort : ¬ n + 1 ≤ chars.length - i := by omega
              simp [hout, hshort]
      · simp

theorem stop_eq_some_iff {i n : Nat} {segments : List Iovec} :
    stop i segments = some n ↔
      (∀ k < n, ∃ segment, segments[k]? = some segment ∧ i + k < bound segment) ∧
        ∃ segment, segments[n]? = some segment ∧ bound segment ≤ i + n := by
  induction segments generalizing i n with
  | nil => simp [stop]
  | cons segment segments ih =>
      rw [stop]
      split_ifs with hruns
      · cases n with
        | zero => simp [hruns]
        | succ n =>
            have hmap : (stop (i + 1) segments).map (· + 1) = some (n + 1) ↔
                stop (i + 1) segments = some n := by
              simp
            have hnext : ∀ k, i + 1 + k = i + (k + 1) := by omega
            simp only [hmap, ih, List.getElem?_cons_succ, hnext]
            refine and_congr_left fun _ => ⟨fun h k hk => ?_, fun h k hk => h (k + 1) (by omega)⟩
            cases k with
            | zero => exact ⟨segment, rfl, hruns⟩
            | succ k => exact h k (by omega)
      · cases n with
        | zero => simp [Nat.not_lt.mp hruns]
        | succ n =>
            refine iff_of_false (by simp) ?_
            rintro ⟨h, _⟩
            obtain ⟨first, hfirst, hlt⟩ := h 0 (by omega)
            cases hfirst
            exact hruns hlt

theorem lt_bound_iff {segment : Iovec} (hfits : segment.len < 2 ^ 64) {k : Nat}
    (hk : k < 2 ^ 64 - 1) :
    k < bound segment ↔ segment.len = 0 ∨ k + 1 < segment.len := by
  unfold bound
  omega

theorem stop_eq_some_iff_stopsAt {segments : List Iovec}
    (hfits : ∀ segment ∈ segments, segment.len < 2 ^ 64) {n : Nat} (hn : n < 2 ^ 64 - 1) :
    stop 0 segments = some n ↔ StopsAt segments n := by
  rw [stop_eq_some_iff, StopsAt]
  simp only [Nat.zero_add]
  refine and_congr (forall₂_congr fun k hk => ?_) ?_
  · refine exists_congr fun segment => and_congr_right fun hsegment => ?_
    exact lt_bound_iff (hfits segment (List.mem_of_getElem? hsegment)) (by omega)
  · refine exists_congr fun segment => and_congr_right fun hsegment => ?_
    rw [← Nat.not_lt, lt_bound_iff (hfits segment (List.mem_of_getElem? hsegment)) hn]
    omega

/-! ### One turn of the outer loop -/

def turnChars (segments : List Iovec) (segment : Iovec) : Option (List UInt8) :=
  match segment.base with
  | none => some []
  | some chars => if segment.len > 1 then segmentChars chars 0 segments else some []

def aloneChars (segment : Iovec) : List UInt8 :=
  match segment.base with
  | none => []
  | some chars => chars.take (segment.len - 1)

theorem turnChars_eq_iff {msg : Msghdr} (hmsg : msg.Valid) {segment : Iovec}
    (hsegment : segment ∈ msg.iov) :
    turnChars msg.iov segment = some (aloneChars segment) ↔
      (segment.base ≠ none → 1 < segment.len → StopsAt msg.iov (segment.len - 1)) := by
  have hfits := hmsg.fits segment hsegment
  cases hbase : segment.base with
  | none => simp [turnChars, aloneChars, hbase]
  | some chars =>
      have hbytes := hmsg.bytes segment hsegment chars hbase
      simp only [turnChars, aloneChars, hbase]
      by_cases hlen : 1 < segment.len
      · rw [if_pos hlen, segmentChars_eq, ← stop_eq_some_iff_stopsAt hmsg.fits (by omega)]
        simp only [ne_eq, reduceCtorEq, not_false_eq_true, forall_const, hlen, List.drop_zero,
          Nat.sub_zero]
        constructor
        · intro h
          obtain ⟨n, hstop, hchars⟩ := Option.bind_eq_some_iff.mp h
          split_ifs at hchars with hn
          have htaken := congrArg List.length (Option.some.inj hchars)
          rw [List.length_take, List.length_take] at htaken
          rw [hstop]
          exact congrArg some (by omega)
        · intro h
          rw [h, Option.bind_some, if_pos (by omega)]
      · have hnone : segment.len - 1 = 0 := by omega
        simp [hlen, hnone]

theorem bufferChars_eq_alone {msg : Msghdr} (hmsg : msg.Valid) {segment : Iovec}
    (hsegment : segment ∈ msg.iov) :
    bufferChars true 1 segment.base segment.len = some (aloneChars segment) := by
  cases hbase : segment.base with
  | none => simp [bufferChars, aloneChars, hbase]
  | some chars =>
      have hbytes := hmsg.bytes segment hsegment chars hbase
      simp only [bufferChars, aloneChars, hbase, true_and]
      split_ifs with hlen hreads
      · rfl
      · omega
      · rw [show segment.len - 1 = 0 by omega, List.take_zero]

theorem log_injective {s : State} {stream : Nat} (hlog : s.logFile = some stream)
    {chars chars' : List UInt8} (h : s.log chars = s.log chars') : chars = chars' := by
  rw [log_of_some hlog, log_of_some hlog] at h
  have hprinted := congrArg (fun t => printed t.trace) h
  simpa only [printed_append, printed_fprintf, List.append_cancel_left_eq] using hprinted

theorem map_log_injective {s : State} {stream : Nat} (hlog : s.logFile = some stream)
    {chars chars' : Option (List UInt8)} : chars.map s.log = chars'.map s.log ↔ chars = chars' :=
  (Option.map_injective fun _ _ => log_injective hlog).eq_iff

theorem logSegment_of_getElem? (s : State) {msg : Msghdr} {i : Nat} {segment : Iovec}
    (hsegment : msg.iov[i]? = some segment) {stream : Nat} (hlog : s.logFile = some stream) :
    logSegment msg s i = (turnChars msg.iov segment).map s.log := by
  rw [logSegment_eq, segmentLogged, hsegment, hlog]
  cases hbase : segment.base <;> simp [turnChars, hbase]

/-- **One turn.** While there is a log, a turn of the outer loop logs what `sendto` logs for the
segment exactly if the inner loop stops where that segment needs it to. -/
theorem logSegment_eq_sendto_iff {msg : Msghdr} (hmsg : msg.Valid) {s : State} {stream : Nat}
    (hlog : s.logFile = some stream) {i : Nat} {segment : Iovec}
    (hsegment : msg.iov[i]? = some segment) :
    logSegment msg s i = s.sendto segment.base segment.len ↔
      (segment.base ≠ none → 1 < segment.len → StopsAt msg.iov (segment.len - 1)) := by
  have hmem := List.mem_of_getElem? hsegment
  rw [logSegment_of_getElem? s hsegment hlog, sendto, logBuffer_eq, hlog, Option.isSome_some,
    bufferChars_eq_alone hmsg hmem, map_log_injective hlog, turnChars_eq_iff hmsg hmem]

/-! ### The whole message -/

theorem map_range_getElem? (segments : List Iovec) :
    (List.range segments.length).map (fun i => segments[i]?) = segments.map some := by
  apply List.ext_getElem
  · simp
  · intro i hi hi'
    simp

theorem messageChars_eq {msg : Msghdr} (hmsg : msg.Valid) :
    messageChars true msg = (msg.iov.mapM (turnChars msg.iov)).map List.flatten := by
  have hturn : segmentLogged true msg = (fun segment => segment.bind (turnChars msg.iov)) ∘ fun i =>
      msg.iov[i]? := by
    funext i
    rw [segmentLogged, Function.comp_apply]
    cases hsegment : msg.iov[i]? with
    | none => rfl
    | some segment => cases hbase : segment.base <;> simp [turnChars, hbase]
  rw [messageChars, hturn, ← List.mapM_map, ← hmsg.number, map_range_getElem?, List.mapM_map]
  rfl

theorem sendtoEach_eq {msg : Msghdr} (hmsg : msg.Valid) {s : State} {stream : Nat}
    (hlog : s.logFile = some stream) :
    s.sendtoEach msg = some (s.log (msg.iov.map aloneChars).flatten) := by
  have hall : msg.iov.mapM (fun segment => bufferChars true 1 segment.base segment.len) =
      some (msg.iov.map aloneChars) := by
    rw [mapM_eq_some_iff, List.map_map]
    exact List.map_congr_left fun segment hsegment => bufferChars_eq_alone hmsg hsegment
  rw [sendtoEach, @foldlM_eq_log Iovec (fun s segment => s.sendto segment.base segment.len)
    (fun opened segment => bufferChars opened 1 segment.base segment.len)
    (fun s segment => s.logBuffer_eq 1 segment.base segment.len), hlog, Option.isSome_some, hall]
  rfl

theorem sendmsg_eq_sendtoEach_iff {msg : Msghdr} (hmsg : msg.Valid) {s : State} {stream : Nat}
    (hlog : s.logFile = some stream) :
    s.sendmsg msg = s.sendtoEach msg ↔
      ∃ logs : List (List UInt8), msg.iov.map (turnChars msg.iov) = logs.map some ∧
        logs.flatten = (msg.iov.map aloneChars).flatten := by
  rw [sendmsg_eq, sendtoEach_eq hmsg hlog, ← Option.map_some, map_log_injective hlog, hlog,
    Option.isSome_some,
    messageChars_eq hmsg, Option.map_eq_some_iff]
  simp only [mapM_eq_some_iff]

theorem foldlM_of_still {α : Type} {turn : State → α → Option State} {s : State} {as : List α}
    (hstill : ∀ a ∈ as, turn s a = some s) : as.foldlM turn s = some s := by
  induction as with
  | nil => rfl
  | cons a as ih =>
      rw [List.foldlM_cons, hstill a List.mem_cons_self]
      exact ih fun b hb => hstill b (List.mem_cons_of_mem a hb)

theorem logSegment_of_none {s : State} (hlog : s.logFile = none) {msg : Msghdr} {i : Nat}
    {segment : Iovec} (hsegment : msg.iov[i]? = some segment) : logSegment msg s i = some s := by
  rw [logSegment, hsegment, hlog]
  cases hbase : segment.base <;> simp

theorem sendto_of_none {s : State} (hlog : s.logFile = none) (buf : Option (List UInt8))
    (len : Nat) :
    s.sendto buf len = some s := by
  rw [sendto, logBuffer_eq, hlog]
  cases buf <;> simp [bufferChars, log_of_none hlog]

theorem sendmsg_of_none {s : State} (hlog : s.logFile = none) {msg : Msghdr} (hmsg : msg.Valid) :
    s.sendmsg msg = s.sendtoEach msg := by
  have heach : s.sendtoEach msg = some s := foldlM_of_still fun segment _ => sendto_of_none hlog _ _
  rw [heach]
  refine foldlM_of_still fun i hi => ?_
  rw [List.mem_range, ← hmsg.number] at hi
  exact logSegment_of_none hlog (List.getElem?_eq_getElem hi)

/-! ### Segments filled with one character -/

def fill (c : UInt8) (segment : Iovec) : Iovec :=
  ⟨segment.base.map fun _ => List.replicate segment.len c, segment.len⟩

theorem fill_len (c : UInt8) (segment : Iovec) : (fill c segment).len = segment.len := rfl

theorem fill_isSome (c : UInt8) (segment : Iovec) :
    (fill c segment).base.isSome = segment.base.isSome :=
  Option.isSome_map

theorem fill_base {c : UInt8} {segment : Iovec} {chars : List UInt8}
    (h : (fill c segment).base = some chars) :
    chars = List.replicate segment.len c := by
  cases hbase : segment.base with
  | none => simp [fill, hbase] at h
  | some bytes => simpa [fill, hbase] using h.symm

theorem turnChars_fill {segments : List Iovec} {c : UInt8} {segment : Iovec} {chars : List UInt8}
    (h : turnChars segments (fill c segment) = some chars) : ∀ b ∈ chars, b = c := by
  intro b hb
  rw [turnChars] at h
  split at h
  · cases h
    exact absurd hb List.not_mem_nil
  · rename_i bytes hbase
    split_ifs at h
    · rw [segmentChars_eq] at h
      obtain ⟨n, _, htaken⟩ := Option.bind_eq_some_iff.mp h
      split_ifs at htaken
      cases htaken
      rw [fill_base hbase] at hb
      exact List.eq_of_mem_replicate (List.mem_of_mem_drop (List.mem_of_mem_take hb))
    · cases h
      exact absurd hb List.not_mem_nil

theorem aloneChars_fill (c : UInt8) (segment : Iovec) :
    ∀ b ∈ aloneChars (fill c segment), b = c := by
  intro b hb
  rw [aloneChars] at hb
  split at hb
  · exact absurd hb List.not_mem_nil
  · rename_i bytes hbase
    rw [fill_base hbase] at hb
    exact List.eq_of_mem_replicate (List.mem_of_mem_take hb)

/-- The message with ones in one segment and zeros in the others. -/
def marked (before : List Iovec) (segment : Iovec) (after : List Iovec) : Msghdr :=
  ⟨before.map (fill 0) ++ fill 1 segment :: after.map (fill 0), before.length + 1 + after.length⟩

theorem marked_iov (before : List Iovec) (segment : Iovec) (after : List Iovec) :
    ∀ filled ∈ (marked before segment after).iov,
      ∃ c, ∃ old ∈ before ++ segment :: after, filled = fill c old := by
  intro filled hfilled
  rcases List.mem_append.mp hfilled with hmem | hmem
  · obtain ⟨old, hold, rfl⟩ := List.mem_map.mp hmem
    exact ⟨0, old, List.mem_append_left _ hold, rfl⟩
  · rcases List.mem_cons.mp hmem with rfl | hmem
    · exact ⟨1, segment, by simp, rfl⟩
    · obtain ⟨old, hold, rfl⟩ := List.mem_map.mp hmem
      exact ⟨0, old, by simp [hold], rfl⟩

theorem marked_valid {msg : Msghdr} (hmsg : msg.Valid) {before after : List Iovec} {segment : Iovec}
    (hiov : msg.iov = before ++ segment :: after) : (marked before segment after).Valid := by
  constructor
  · simp [marked]
    omega
  · intro filled hfilled
    obtain ⟨c, old, hold, rfl⟩ := marked_iov before segment after filled hfilled
    exact hmsg.fits old (hiov ▸ hold)
  · intro filled hfilled chars hchars
    obtain ⟨c, old, _, rfl⟩ := marked_iov before segment after filled hfilled
    rw [fill_base hchars, List.length_replicate, fill_len]

theorem marked_shape {msg : Msghdr} {before after : List Iovec} {segment : Iovec}
    (hiov : msg.iov = before ++ segment :: after) :
    (marked before segment after).shape = msg.shape := by
  simp [Msghdr.shape, marked, hiov, fill_isSome, fill_len, Function.comp_def]

/-- Ones come from the one segment only, so that their number tells how many characters it
logged. -/
theorem count_marked {f : Iovec → List UInt8} (hf : ∀ c segment, ∀ b ∈ f (fill c segment), b = c)
    (before : List Iovec) (segment : Iovec) (after : List Iovec) :
    ((marked before segment after).iov.map f).flatten.count 1 = (f (fill 1 segment)).length := by
  have hzero : ∀ segments : List Iovec, ((segments.map (fill 0)).map f).flatten.count 1 = 0 := by
    intro segments
    rw [List.count_eq_zero]
    intro hone
    obtain ⟨chars, hchars, hmem⟩ := List.mem_flatten.mp hone
    obtain ⟨filled, hfilled, rfl⟩ := List.mem_map.mp hchars
    obtain ⟨old, _, rfl⟩ := List.mem_map.mp hfilled
    exact absurd (hf 0 old 1 hmem) (by decide)
  have hall : (f (fill 1 segment)).count 1 = (f (fill 1 segment)).length :=
    List.count_eq_length.mpr fun b hb => (hf 1 segment b hb).symm
  rw [marked, List.map_append, List.map_cons, List.flatten_append, List.flatten_cons,
    List.count_append,
    List.count_append, hzero, hzero, hall]
  omega

theorem stopsAt_iff_map {segments : List Iovec} {n : Nat} :
    StopsAt segments n ↔
      (∀ k < n, ∃ len, (segments.map Iovec.len)[k]? = some len ∧ (len = 0 ∨ k + 1 < len)) ∧
        ∃ len, (segments.map Iovec.len)[n]? = some len ∧ len ≠ 0 ∧ len ≤ n + 1 := by
  simp [StopsAt, List.getElem?_map, Option.map_eq_some_iff]

theorem stopsAt_congr {msg msg' : Msghdr} (hshape : msg'.shape = msg.shape) {n : Nat} :
    StopsAt msg'.iov n ↔ StopsAt msg.iov n := by
  have hlens : msg'.iov.map Iovec.len = msg.iov.map Iovec.len := by
    have hsecond := congrArg (List.map Prod.snd) hshape
    simpa [Msghdr.shape, Function.comp_def] using hsecond
  rw [stopsAt_iff_map, stopsAt_iff_map, hlens]

theorem stopsAt_of_marked {msg : Msghdr} (hmsg : msg.Valid) {before after : List Iovec}
    {segment : Iovec}
    (hiov : msg.iov = before ++ segment :: after) {s : State} {stream : Nat}
      (hlog : s.logFile = some stream)
    (hsame : s.sendmsg (marked before segment after) = s.sendtoEach (marked before segment after))
    (hbase : segment.base ≠ none) (hlen : 1 < segment.len) : StopsAt msg.iov (segment.len - 1) := by
  have hvalid := marked_valid hmsg hiov
  have hmem : fill 1 segment ∈ (marked before segment after).iov := by simp [marked]
  obtain ⟨logs, hturns, hflat⟩ := (sendmsg_eq_sendtoEach_iff hvalid hlog).mp hsame
  generalize hsegments : (marked before segment after).iov = segments at hturns hmem
  let turn := fun filled => (turnChars segments filled).getD []
  have hfill : ∀ c old, ∀ b ∈ turn (fill c old), b = c := by
    intro c old b hb
    cases hchars : turnChars segments (fill c old) with
    | none => simp [turn, hchars] at hb
    | some chars => exact turnChars_fill hchars b (by simpa [turn, hchars] using hb)
  have hlogs : logs = segments.map turn := by
    have hget := congrArg (List.map (Option.getD · [])) hturns
    simpa [Function.comp_def, turn] using hget.symm
  have hlength : (turn (fill 1 segment)).length = (aloneChars (fill 1 segment)).length := by
    rw [← count_marked hfill before segment after,
      ← count_marked aloneChars_fill before segment after, ← hflat,
      hlogs, hsegments]
  have hsome : turnChars segments (fill 1 segment) = some (turn (fill 1 segment)) := by
    have hturn : turnChars segments (fill 1 segment) ∈ logs.map some :=
      hturns ▸ List.mem_map_of_mem hmem
    obtain ⟨chars, _, hchars⟩ := List.mem_map.mp hturn
    simp [turn, ← hchars]
  have hequal : turn (fill 1 segment) = aloneChars (fill 1 segment) := by
    rw [List.eq_replicate_of_mem (hfill 1 segment),
      List.eq_replicate_of_mem (aloneChars_fill 1 segment), hlength]
  subst hsegments
  have hstops := (turnChars_eq_iff hvalid hmem).mp (hsome.trans (congrArg some hequal))
  refine (stopsAt_congr (marked_shape hiov)).mp (hstops ?_ hlen)
  rwa [← Option.isSome_iff_ne_none, fill_isSome, Option.isSome_iff_ne_none]

/-- **The segments.** `sendmsg` logs, turn by turn, what `sendto` logs for each segment alone
exactly if there is no log or its inner loop stops for every logged segment where that one ends; and
for messages of this shape, whatever they hold, it logs in all what the calls of `sendto` log
exactly then, too. -/
theorem sendmsg_logs_segments_iff {msg : Msghdr} (hmsg : msg.Valid) (s : State) :
    ((∀ i segment, msg.iov[i]? = some segment → logSegment msg s i = s.sendto segment.base segment.len) ↔
      s.logFile = none ∨
        ∀ segment ∈ msg.iov, segment.base ≠ none → 1 < segment.len →
        StopsAt msg.iov (segment.len - 1)) ∧
    ((∀ msg' : Msghdr, msg'.Valid → msg'.shape = msg.shape → s.sendmsg msg' = s.sendtoEach msg') ↔
      s.logFile = none ∨
        ∀ segment ∈ msg.iov, segment.base ≠ none → 1 < segment.len →
        StopsAt msg.iov (segment.len - 1)) := by
  cases hlog : s.logFile with
  | none =>
      refine ⟨iff_of_true (fun i segment hsegment => ?_) (Or.inl rfl),
        iff_of_true (fun msg' hmsg' _ => sendmsg_of_none hlog hmsg') (Or.inl rfl)⟩
      rw [logSegment_of_none hlog hsegment, sendto_of_none hlog]
  | some stream =>
      simp only [reduceCtorEq, false_or]
      refine ⟨⟨fun h segment hsegment => ?_, fun h i segment hsegment => ?_⟩,
        ⟨fun h segment hsegment hbase hlen => ?_, fun h msg' hmsg' hshape => ?_⟩⟩
      · obtain ⟨i, hi⟩ := List.mem_iff_getElem?.mp hsegment
        exact (logSegment_eq_sendto_iff hmsg hlog hi).mp (h i segment hi)
      · exact (logSegment_eq_sendto_iff hmsg hlog hsegment).mpr
          (h segment (List.mem_of_getElem? hsegment))
      · obtain ⟨before, after, hiov⟩ := List.append_of_mem hsegment
        have hsame := h (marked before segment after) (marked_valid hmsg hiov) (marked_shape hiov)
        exact stopsAt_of_marked hmsg hiov hlog hsame hbase hlen
      · refine (sendmsg_eq_sendtoEach_iff hmsg' hlog).mpr ⟨msg'.iov.map aloneChars, ?_, rfl⟩
        rw [List.map_map]
        refine List.map_congr_left fun segment hsegment => (turnChars_eq_iff hmsg' hsegment).mpr ?_
        intro hbase hlen
        have hmem : (segment.base.isSome, segment.len) ∈ msg.shape :=
          hshape ▸ List.mem_map_of_mem hsegment
        obtain ⟨old, hold, hsame⟩ := List.mem_map.mp hmem
        obtain ⟨hsome, hlens⟩ := Prod.mk.inj hsame
        rw [stopsAt_congr hshape, ← hlens]
        exact h old hold (by rwa [← Option.isSome_iff_ne_none, hsome, Option.isSome_iff_ne_none])
          (hlens ▸ hlen)

/-- Two segments of two bytes each stop the inner loop where they should. -/
theorem sendmsg_logs_segments_two :
    (⟨[⟨some [1, 2], 2⟩, ⟨some [3, 4], 2⟩], 2⟩ : Msghdr).Valid ∧
      (⟨3, some 0, 1, []⟩ : State).sendmsg ⟨[⟨some [1, 2], 2⟩, ⟨some [3, 4], 2⟩], 2⟩ =
        (⟨3, some 0, 1, []⟩ : State).sendtoEach ⟨[⟨some [1, 2], 2⟩, ⟨some [3, 4], 2⟩], 2⟩ := by
  have hvalid : (⟨[⟨some [1, 2], 2⟩, ⟨some [3, 4], 2⟩], 2⟩ : Msghdr).Valid := by
    constructor
    · rfl
    · decide
    · simp
  refine ⟨hvalid, ((sendmsg_logs_segments_iff hvalid ⟨3, some 0, 1, []⟩).2.mpr (Or.inr ?_)) _ hvalid rfl⟩
  have hstops : StopsAt [⟨some [1, 2], 2⟩, ⟨some [3, 4], 2⟩] 1 := by
    refine ⟨fun k hk => ?_, ⟨some [3, 4], 2⟩, rfl, by decide⟩
    obtain rfl : k = 0 := by omega
    exact ⟨⟨some [1, 2], 2⟩, rfl, by decide⟩
  simp [hstops]

/-- A message of one segment of three bytes makes the inner loop look for a second segment. -/
theorem sendmsg_leaves_segments :
    ¬ ∀ (s : State) (msg : Msghdr), msg.Valid → s.sendmsg msg = s.sendtoEach msg := by
  intro h
  have hvalid : (⟨[⟨some [1, 2, 3], 3⟩], 1⟩ : Msghdr).Valid := by
    constructor
    · rfl
    · decide
    · simp
  exact absurd (congrArg Option.isSome (h ⟨3, some 0, 1, []⟩ _ hvalid)) (by decide)

end State

end NetworkHomework.Interceptor
