import NetworkHomework.Http.Exchange
import NetworkHomework.Http.Listen

/-!
# The requests of a connection

`process_server_socket_core` calls `process_request` again and again, and each call gets a stream of
its own: what the stream before has received too much is gone with it. A client that waits for each
response before it sends the next request gets them all, up to the limit of the connection, whatever
came behind a request in the segment in which it ends (`connection_answers`). That is why requests
that are sent ahead in one segment are lost but for the first (`connection_pipelined`).
-/

namespace NetworkHomework.Http

open Conversions

section

variable (lookup : Lookup)
  (elsewhere : Request → Headers → SocketStream → Served) (socket : Nat)

/-- `process_server_socket_core` with `count` requests to go: what is written for each of them. The
first list has what the writes meet in each turn in which the server has not been stopped and
`keep_alive` does not give up; it does where nothing comes and the peer does not close. -/
def processServerSocketCore : List (List Conditions) → Nat → List Segment → Bool → List (List UInt8)
  | cs :: turns, count + 1, segments, closed =>
      if segments = [] ∧ closed = false then []
      else
        match processRequest lookup elsewhere socket (count = 0) cs ⟨[], segments, closed⟩ with
        | none => []
        | some served =>
            served.written ::
              if served.ret && !served.connectionClosed then
                processServerSocketCore turns count served.behind.segments served.behind.closed
              else []
  | _, _, _, _ => []

/-- The loop goes through the phases in which the server with its threads knows it; a response takes
one `ready` of `keep_alive`. -/
theorem core_phases (turns : List (List Conditions)) (count : Nat) (segments : List Segment)
    (closed : Bool) :
    ∃ works : List Work, works.foldlM (Phase.next false) (.tests count) = some .closes ∧
      (processServerSocketCore lookup elsewhere socket turns count segments closed).length ≤
        works.count .ready := by
  induction turns generalizing count segments closed with
  | nil =>
      cases count with
      | zero => exact ⟨[.enter], rfl, Nat.zero_le _⟩
      | succ count => exact ⟨[.enter, .expires], rfl, Nat.zero_le _⟩
  | cons cs turns ih =>
      cases count with
      | zero => exact ⟨[.enter], rfl, Nat.zero_le _⟩
      | succ count =>
          rw [processServerSocketCore]
          split_ifs with hnothing
          · exact ⟨[.enter, .expires], rfl, Nat.zero_le _⟩
          · cases processRequest lookup elsewhere socket (count = 0) cs ⟨[], segments, closed⟩ with
            | none => exact ⟨[.enter, .ready, .answer false], rfl, Nat.zero_le _⟩
            | some served =>
                dsimp only
                split_ifs with hgoesOn
                · obtain ⟨works, hworks, hlength⟩ :=
                    ih count served.behind.segments served.behind.closed
                  refine ⟨.enter :: .ready :: .answer true :: works, hworks, ?_⟩
                  rw [List.length_cons, List.count_cons_of_ne (by decide), List.count_cons_self,
                    List.count_cons_of_ne (by decide)]
                  exact Nat.succ_le_succ hlength
                · exact ⟨[.enter, .ready, .answer false], rfl, Nat.le_refl 1⟩

end

/-! ### One request -/

namespace Get

/-- Segments in which a request comes, and in the last of them something behind it, perhaps. -/
def Cut (get : Get) (cut : List Segment) : Prop :=
  ∃ front last junk, cut = front ++ [last] ∧ cut.flatMap (·.1) = get.written ++ junk ∧
    junk.length < last.1.length ∧ (junk ≠ [] → last.1.length ≤ SocketStream.readBuffSize)

theorem Cut.behind {get : Get} {cut : List Segment} (h : get.Cut cut) {closed : Bool}
    {s' s'' : SocketStream} {line : List UInt8} {headers : Headers}
    (hgetline : SocketStream.getline ⟨[], cut, closed⟩ = some (line, s'))
    (hheaders : readHeaders s' Multimap.empty = (headers, true, s''))
    (hpending : ∀ rest, cut.flatMap (·.1) = get.written ++ rest → s''.pending = rest) :
    s''.segments = [] := by
  obtain ⟨front, last, junk, hcut, hwritten, hless, hshort⟩ := h
  have hjunk := hpending junk hwritten
  by_cases hnone : junk = []
  · subst hnone
    exact (SocketStream.pending_eq_nil hjunk).2
  · have hkeep : ∀ (s s' : SocketStream) bytes, s.EndsIn last → s.read 1 = (some bytes, s') →
        s'.EndsIn last :=
      fun s s' bytes hs hread => hs.read (hshort hnone) hread
    have hends : (⟨[], cut, closed⟩ : SocketStream).EndsIn last := Or.inr ⟨front, hcut⟩
    rcases readHeaders_keeps hkeep (SocketStream.getline_keeps hkeep hends hgetline) hheaders with
      hempty | ⟨front', hfront⟩
    · exact hempty
    · -- the last segment does not fit in what came behind the request
      rw [SocketStream.pending, hfront] at hjunk
      have hlength := congrArg List.length hjunk
      simp only [List.flatMap_append, List.flatMap_singleton, List.length_append] at hlength
      omega

theorem Cut.processRequest {get : Get} {cut : List Segment} (h : get.Cut cut) (more : List Segment)
    (lookup : Lookup)
    (elsewhere : Request → Headers → SocketStream → Served) {socket : Nat}
    (hsocket : socket < fdSetsize) (last : Bool) (cs : List Conditions) (closed : Bool) :
    ∃ behind, Http.processRequest lookup elsewhere socket last cs ⟨[], cut ++ more, closed⟩ =
        some ⟨get.response lookup last cs, writtenWhole (get.answer lookup) cs,
          get.closes, behind⟩ ∧
      behind.segments = more ∧ behind.closed = closed := by
  have hread : ∀ rest, cut.flatMap (·.1) = get.written ++ rest →
      (⟨[], cut, closed⟩ : SocketStream).pending = get.written ++ rest := fun _ h => h
  obtain ⟨front, final, junk, hcut, hwritten, hless, hshort⟩ := id h
  obtain ⟨s', s'', hgetline, hheaders, hline, hpending, hclosed⟩ :=
    get.read_written (hread junk hwritten)
  have hbehind : s''.segments = [] := by
    refine h.behind hgetline hheaders fun rest hrest => ?_
    rw [hwritten] at hrest
    rw [hpending, List.append_cancel_left hrest]
  have hgetline' := SocketStream.getline_append hline more
  rw [hgetline, Option.map_some] at hgetline'
  refine ⟨s''.append more, get.processRequest_of_read lookup elsewhere hsocket last cs hgetline'
    (readHeaders_append hheaders more), ?_, hclosed⟩
  rw [SocketStream.append, hbehind, List.nil_append]

end Get

/-! ### All of them -/

/-- The requests up to the first that asks for no more. -/
def untilClose : List Get → List Get
  | [] => []
  | get :: gets => get :: if get.closes then [] else untilClose gets

section

variable (lookup : Lookup)
  (elsewhere : Request → Headers → SocketStream → Served) (socket : Nat)

theorem core_nothing (turns : List (List Conditions)) (count : Nat) (closed : Bool) :
    processServerSocketCore lookup elsewhere socket turns count [] closed = [] := by
  have hnone : SocketStream.getline ⟨[], [], closed⟩ = none := by
    rcases @SocketStream.getline_unended ⟨[], [], closed⟩ List.not_mem_nil with h | ⟨_, _, hne, _⟩
    · exact h
    · exact absurd rfl hne
  cases turns with
  | nil => rfl
  | cons cs turns =>
      cases count with
      | zero => rfl
      | succ count =>
          rw [processServerSocketCore, processRequest, hnone]
          exact ite_self _

theorem core_turn {get : Get} {cut : List Segment} (h : get.Cut cut) (hsocket : socket < fdSetsize)
    (more : List Segment) (cs : List Conditions) (turns : List (List Conditions)) (count : Nat)
    (closed : Bool) :
    processServerSocketCore lookup elsewhere socket (cs :: turns) (count + 1) (cut ++ more) closed =
      get.response lookup (count = 0) cs ::
        if writtenWhole (get.answer lookup) cs && !get.closes then
          processServerSocketCore lookup elsewhere socket turns count more closed
        else [] := by
  obtain ⟨behind, hprocess, hmore, hclosed⟩ :=
    h.processRequest more lookup elsewhere hsocket (count = 0) cs closed
  have hsome : cut ++ more ≠ [] := by
    obtain ⟨front, last, _, rfl, _⟩ := h
    simp
  rw [processServerSocketCore, if_neg fun hnone => hsome hnone.1, hprocess]
  dsimp only
  rw [hmore, hclosed]

/-- **A connection.** Requests each of which begins in a segment of its own are answered one after
the other, up to the first that asks for no more, and as far as the count of the connection, the
time and the server's own life reach. -/
theorem connection_answers (gets : List Get) (turns : List (List Conditions))
    (hturns : ∀ cs ∈ turns, ∀ get ∈ gets, get.Undisturbed lookup socket cs)
    (cuts : List (List Segment)) (hcuts : List.Forall₂ Get.Cut gets cuts) (count : Nat)
    (closed : Bool) :
    List.Forall₂ (fun get response => Get.Answered get lookup response)
      ((untilClose gets).take (min count turns.length))
      (processServerSocketCore lookup elsewhere socket turns count cuts.flatten closed) := by
  induction hcuts generalizing turns count with
  | nil =>
      rw [List.flatten_nil, core_nothing, untilClose, List.take_nil]
      exact List.Forall₂.nil
  | @cons get cut gets cuts hcut _ ih =>
      match turns, count with
      | [], count =>
          rw [List.length_nil, Nat.min_zero, List.take_zero, processServerSocketCore]
          · exact List.Forall₂.nil
          · intro _ _ _ h
            cases h
      | cs :: turns, 0 =>
          rw [Nat.zero_min, List.take_zero, processServerSocketCore]
          · exact List.Forall₂.nil
          · intro _ _ _ _ h
            cases h
      | cs :: turns, count + 1 =>
          obtain ⟨hgets, hturns'⟩ := List.forall_mem_cons.mp hturns
          have hget := hgets get List.mem_cons_self
          obtain ⟨hanswered, hwhole⟩ := hget.answered (count = 0)
          rw [List.flatten_cons, core_turn lookup elsewhere socket hcut hget.selectable,
            List.length_cons,
            Nat.add_min_add_right, untilClose, List.take_succ_cons, hwhole, Bool.true_and]
          refine List.Forall₂.cons hanswered ?_
          cases hcloses : get.closes with
          | true =>
              rw [if_pos rfl, if_neg (by decide), List.take_nil]
              exact List.Forall₂.nil
          | false =>
              rw [if_neg Bool.false_ne_true, if_pos (by decide)]
              exact ih turns (fun cs hcs get hget =>
                hturns' cs hcs get (List.mem_cons_of_mem _ hget)) count

end

def getMore : Get :=
  { getHello with
    headers := Multimap.empty.emplace (ascii "Connection", ascii "keep-alive")
    plainHeaders := by decide +kernel
    noRange := by decide +kernel
    noExpect := by decide +kernel }

theorem getMore_undisturbed :
    getMore.Undisturbed (fun _ => .ok (some hello)) 5 (List.replicate 5 smooth) :=
  ⟨getHello_undisturbed.nonempty, getHello_undisturbed.plain, getHello_undisturbed.selectable,
    getHello_undisturbed.going, getHello_undisturbed.enough⟩

/-- Two requests with a byte between them that belongs to neither. -/
theorem connection_answers_two :
    ∃ first second, processServerSocketCore (fun _ => .ok (some hello)) unserved 5
        [List.replicate 5 smooth, List.replicate 5 smooth] keepAliveMaxCount
        [⟨getMore.written ++ [0], by decide +kernel⟩, ⟨getHello.written, by decide +kernel⟩] true =
          [first, second] ∧
      getMore.Answered (fun _ => .ok (some hello)) first ∧
      getHello.Answered (fun _ => .ok (some hello)) second := by
  have hturns : ∀ cs ∈ [List.replicate 5 smooth, List.replicate 5 smooth],
      ∀ get ∈ [getMore, getHello],
      get.Undisturbed (fun _ => .ok (some hello)) 5 cs := by
    intro cs hcs
    obtain rfl := List.eq_of_mem_replicate (n := 2) hcs
    exact List.forall_mem_cons.mpr ⟨getMore_undisturbed,
      List.forall_mem_singleton.mpr getHello_undisturbed⟩
  have hcuts : List.Forall₂ Get.Cut [getMore, getHello]
      [[⟨getMore.written ++ [0], by decide +kernel⟩], [⟨getHello.written, by decide +kernel⟩]] := by
    refine .cons ⟨[], _, [0], rfl, List.flatMap_singleton _ _, by decide +kernel,
      fun _ => by decide +kernel⟩
      (.cons ⟨[], _, [], rfl, ?_, by decide +kernel, fun h => absurd rfl h⟩ .nil)
    rw [List.flatMap_singleton, List.append_nil]
  have hmore : getMore.closes = false := by decide +kernel
  have hall : (untilClose [getMore, getHello]).take (min keepAliveMaxCount 2) =
      [getMore, getHello] := by
    rw [untilClose, untilClose, hmore, untilClose, ite_self]
    rfl
  have hanswers :=
    connection_answers (fun _ => .ok (some hello)) unserved 5 [getMore, getHello] _ hturns _ hcuts
    keepAliveMaxCount true
  rw [show [List.replicate 5 smooth, List.replicate 5 smooth].length = 2 from rfl, hall] at hanswers
  obtain ⟨first, rest, hfirst, hrest, hwritten⟩ := List.forall₂_cons_left_iff.mp hanswers
  obtain ⟨second, none, hsecond, hnone, rfl⟩ := List.forall₂_cons_left_iff.mp hrest
  obtain rfl := List.forall₂_nil_left_iff.mp hnone
  exact ⟨first, second, hwritten, hfirst, hsecond⟩

section

variable (lookup : Lookup)
  (elsewhere : Request → Headers → SocketStream → Served) (socket : Nat)

/-- **Sent ahead.** What a client sends in one short segment with a request, more requests perhaps,
gets no answer. -/
theorem connection_pipelined (get : Get) (cs : List Conditions)
    (hanswer : get.Undisturbed lookup socket cs) (ahead : List UInt8) (segment : Segment)
    (hsegment : segment.1 = get.written ++ ahead)
    (hshort : segment.1.length ≤ SocketStream.readBuffSize) (turns : List (List Conditions))
    (count : Nat) (closed : Bool) :
    ∃ response,
      processServerSocketCore lookup elsewhere socket (cs :: turns) (count + 1) [segment]
        closed = [response] ∧
        get.Answered lookup response := by
  have hwritten : 0 < get.written.length := by
    rw [Get.written, writeRequest, writeHeaders, List.length_append, List.length_append]
    have hcrlf : crlf.length = 2 := rfl
    omega
  have hcut : get.Cut [segment] := by
    refine ⟨[], segment, ahead, rfl, ?_, ?_, fun _ => hshort⟩
    · rw [List.flatMap_singleton, hsegment]
    · rw [hsegment, List.length_append]
      omega
  refine ⟨_, ?_, (hanswer.answered (count = 0)).1⟩
  have hturn := core_turn lookup elsewhere socket hcut hanswer.selectable [] cs turns count closed
  rw [List.append_nil, core_nothing, ite_self] at hturn
  exact hturn

end

/-- Of two requests in one segment. -/
theorem connection_pipelined_two :
    ∃ response, processServerSocketCore (fun _ => .ok (some hello)) unserved 5
        [List.replicate 5 smooth, List.replicate 5 smooth] keepAliveMaxCount
        [⟨getMore.written ++ getHello.written, by decide +kernel⟩] true = [response] ∧
      getMore.Answered (fun _ => .ok (some hello)) response :=
  connection_pipelined (fun _ => .ok (some hello)) unserved 5 getMore (List.replicate 5 smooth)
    getMore_undisturbed
    getHello.written ⟨getMore.written ++ getHello.written, by decide +kernel⟩ rfl
      (by decide +kernel)
    [List.replicate 5 smooth] 4 true

end NetworkHomework.Http
