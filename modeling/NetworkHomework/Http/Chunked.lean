import NetworkHomework.Http.Chunks

/-!
# Chunked contents

`write_content_chunked` sends a content whose length nobody knows beforehand, `read_content_chunked`
receives it. Whatever becomes of the writing, the receiver gets a beginning of what the provider has
handed out, and the reader returns true only if that is all of it (`chunked_content`); it does where
the writer has come to its end (`chunked_round_trip`).
-/

namespace NetworkHomework.Http

open Conversions

/-! ### What a provider hands out -/

/-- What a provider does with its sink: it writes, with the result of `is_writable`, or it is done,
perhaps with a trailer. -/
inductive SinkCall where
  | write (d : List UInt8) (writable : Bool)
  | done (trailer : Option Headers)

namespace SinkCall

def trailerPairs (trailer : Option Headers) : List (List UInt8 × List UInt8) :=
  (trailer.map (·.pairs)).getD []

/-- What `done_with_trailer` writes, one `write_data` after the other. -/
def endingParts (trailer : Option Headers) : List (List UInt8) :=
  doneMarker :: ((trailerPairs trailer).map fieldLine ++ [crlf])

def bytes : SinkCall → List UInt8
  | .write d _ => if d = [] then [] else chunk d
  | .done trailer => (endingParts trailer).flatten

/-- What has been written before the provider was done for the first time. -/
def content : List SinkCall → List UInt8
  | [] => []
  | .write d _ :: calls => d ++ content calls
  | .done _ :: _ => []

/-- The trailer with which the provider was done for the first time, and its calls behind that. -/
def ending : List SinkCall → Option (List (List UInt8 × List UInt8) × List SinkCall)
  | [] => none
  | .write _ _ :: calls => ending calls
  | .done trailer :: calls => some (trailerPairs trailer, calls)

/-- A size that the reader takes for one, and a trailer whose headers come through. -/
def Fine : SinkCall → Prop
  | .write d _ => d.length < ulongMax
  | .done trailer => ∀ p ∈ trailerPairs trailer, PlainHeader p

theorem done_bytes (trailer : Option Headers) :
    (SinkCall.done trailer).bytes = doneMarker ++
      ((trailerPairs trailer).flatMap fieldLine ++ crlf) := by
  rw [bytes, endingParts, List.flatten_cons, List.flatten_append, List.flatten_singleton]
  rfl

theorem ending_fine {calls behind : List SinkCall} {trailer : List (List UInt8 × List UInt8)}
    (hfine : ∀ c ∈ calls, c.Fine) (hending : ending calls = some (trailer, behind)) :
    ∀ p ∈ trailer, PlainHeader p := by
  induction calls with
  | nil => cases hending
  | cons c calls ih =>
      obtain ⟨hc, hcalls⟩ := List.forall_mem_cons.mp hfine
      cases c with
      | write d writable => exact ih hcalls hending
      | done trailer =>
          cases hending
          exact hc

end SinkCall

open SinkCall

/-- What comes of calls of which the end may not have arrived. -/
theorem chunkLoop_cut {calls : List SinkCall} (hfine : ∀ c ∈ calls, c.Fine) {s : SocketStream}
    (hcut : s.pending <+: calls.flatMap SinkCall.bytes) :
    (chunkLoop s).1.flatten <+: content calls ∧ ∀ s', (chunkLoop s).2 = some s' →
      (chunkLoop s).1.flatten = content calls ∧ ∃ trailer behind,
      ending calls = some (trailer, behind) ∧
        s'.pending <+: trailer.flatMap fieldLine ++ crlf ++ behind.flatMap SinkCall.bytes := by
  have hnothing : ∀ {s : SocketStream}, s.pending = [] → chunkLoop s = ([], none) := fun {s} hpending => by
    rcases @SocketStream.getline_unended s (by rw [hpending]; exact List.not_mem_nil) with
      h | ⟨_, _, hsome, _⟩
    · exact chunkLoop_failed (by rw [readChunk, h])
    · exact absurd hpending hsome
  induction calls generalizing s with
  | nil =>
      rw [hnothing (List.prefix_nil.mp hcut)]
      exact ⟨List.nil_prefix, fun _ h => by cases h⟩
  | cons c calls ih =>
      obtain ⟨hc, hcalls⟩ := List.forall_mem_cons.mp hfine
      rw [List.flatMap_cons] at hcut
      cases c with
      | write d writable =>
          rw [content, ending]
          by_cases hd : d = []
          · rw [bytes, if_pos hd, List.nil_append] at hcut
            rw [hd]
            exact ih hcalls hcut
          · rw [bytes, if_neg hd] at hcut
            rcases cut_cases hcut with ⟨hinside, hless⟩ | ⟨more, hmore, hpending⟩
            · obtain ⟨pieces, hread, hfront⟩ := readChunk_cut hd hc hinside hless
              rw [chunkLoop_failed hread]
              exact ⟨hfront.trans (List.prefix_append d _), fun _ h => by cases h⟩
            · obtain ⟨pieces, s', hread, hflatten, hrest⟩ := readChunk_chunk hd hc hpending
              obtain ⟨hfront, hend⟩ := ih hcalls (by rw [hrest]; exact hmore)
              rw [chunkLoop_more hread, List.flatten_append, hflatten]
              refine ⟨(List.prefix_append_right_inj d).mpr hfront, fun s'' hs'' => ?_⟩
              obtain ⟨hall, hbehind⟩ := hend s'' hs''
              exact ⟨by rw [hall], hbehind⟩
      | done trailer =>
          rw [content, ending]
          rw [done_bytes, List.append_assoc] at hcut
          rcases cut_cases hcut with ⟨hinside, hless⟩ | ⟨more, hmore, hpending⟩
          · rcases readChunk_done_cut hinside hless with hread | ⟨s', hread, hrest⟩
            · rw [chunkLoop_failed hread]
              exact ⟨List.nil_prefix, fun _ h => by cases h⟩
            · rw [chunkLoop_ended hread]
              refine ⟨List.nil_prefix, fun s'' hs'' => ⟨rfl, _, _, rfl, ?_⟩⟩
              cases hs''
              rw [hrest]
              exact List.nil_prefix
          · obtain ⟨s', hread, hrest⟩ := readChunk_done hpending
            rw [chunkLoop_ended hread]
            refine ⟨List.nil_prefix, fun s'' hs'' => ⟨rfl, _, _, rfl, ?_⟩⟩
            cases hs''
            rw [hrest]
            exact hmore

theorem chunkLoop_whole {calls behind : List SinkCall} {trailer : List (List UInt8 × List UInt8)}
    (hfine : ∀ c ∈ calls, c.Fine) (hending : ending calls = some (trailer, behind))
    {s : SocketStream} {rest : List UInt8}
    (hpending : s.pending = calls.flatMap SinkCall.bytes ++ rest) :
    ∃ pieces s', chunkLoop s = (pieces, some s') ∧ pieces.flatten = content calls ∧
      s'.pending = trailer.flatMap fieldLine ++ crlf ++
        (behind.flatMap SinkCall.bytes ++ rest) := by
  induction calls generalizing s with
  | nil => cases hending
  | cons c calls ih =>
      obtain ⟨hc, hcalls⟩ := List.forall_mem_cons.mp hfine
      rw [List.flatMap_cons, List.append_assoc] at hpending
      cases c with
      | write d writable =>
          rw [content]
          by_cases hd : d = []
          · rw [bytes, if_pos hd, List.nil_append] at hpending
            rw [hd]
            exact ih hcalls hending hpending
          · rw [bytes, if_neg hd] at hpending
            obtain ⟨pieces, s', hread, hflatten, hrest⟩ := readChunk_chunk hd hc hpending
            obtain ⟨pieces', s'', hmore, hall, hbehind⟩ := ih hcalls hending hrest
            refine ⟨pieces ++ pieces', s'', ?_, ?_, hbehind⟩
            · rw [chunkLoop_more hread, hmore]
            · rw [List.flatten_append, hflatten, hall]
      | done trailer =>
          cases hending
          rw [done_bytes, List.append_assoc] at hpending
          obtain ⟨s', hread, hrest⟩ := readChunk_done hpending
          exact ⟨[], s', chunkLoop_ended hread, rfl, hrest⟩

theorem readContentChunked_cut {calls : List SinkCall} (hfine : ∀ c ∈ calls, c.Fine)
    {s : SocketStream} (hcut : s.pending <+: calls.flatMap SinkCall.bytes) (headers : Headers) :
    (readContentChunked s headers).1.flatten <+: content calls ∧
      ∀ s', (readContentChunked s headers).2.2 = some s' →
        (readContentChunked s headers).1.flatten = content calls ∧ ∃ trailer behind,
          ending calls = some (trailer, behind) ∧
          (readContentChunked s headers).2.1 = headers.emplaceAll trailer := by
  obtain ⟨hfront, hend⟩ := chunkLoop_cut hfine hcut
  rw [readContentChunked]
  generalize chunkLoop s = r at hfront hend
  obtain ⟨pieces, _ | s₁⟩ := r
  · exact ⟨hfront, nofun⟩
  · obtain ⟨hall, trailer, behind, hending, hcut'⟩ := hend s₁ rfl
    refine ⟨hfront, fun s' hs' => ⟨hall, trailer, behind, hending, ?_⟩⟩
    have hplain := ending_fine hfine hending
    rcases cut_cases hcut' with ⟨hinside, hless⟩ | ⟨more, _, hpending⟩
    · cases hs'.symm.trans (readTrailer_cut hplain hinside hless headers)
    · obtain ⟨s'', hread, _⟩ := readTrailer_whole hplain hpending headers
      exact congrArg Prod.fst hread

theorem readContentChunked_whole {calls behind : List SinkCall}
    {trailer : List (List UInt8 × List UInt8)} (hfine : ∀ c ∈ calls, c.Fine)
    (hending : ending calls = some (trailer, behind)) {s : SocketStream} {rest : List UInt8}
    (hpending : s.pending = calls.flatMap SinkCall.bytes ++ rest) (headers : Headers) :
    ∃ pieces s', readContentChunked s headers = (pieces, headers.emplaceAll trailer, some s') ∧
      pieces.flatten = content calls ∧ s'.pending = behind.flatMap SinkCall.bytes ++ rest := by
  obtain ⟨pieces, s₁, hloop, hall, hrest⟩ := chunkLoop_whole hfine hending hpending
  obtain ⟨s', hread, hrest'⟩ := readTrailer_whole (ending_fine hfine hending) hrest headers
  refine ⟨pieces, s', ?_, hall, hrest'⟩
  rw [readContentChunked, hloop]
  dsimp only
  rw [hread]

/-! ### The writer -/

/-- What has gone over the wire, what the coming `write`s of the stream return, `ok` and
`data_available`, and the calls that the provider has made. -/
structure Sink where
  wire : List UInt8
  results : List Int
  ok : Bool
  dataAvailable : Bool
  calls : List SinkCall

namespace Sink

def start (results : List Int) : Sink := ⟨[], results, true, true, []⟩

/-- `write_data`: what it puts on the wire, whether it returns true, and the results that are left.
Behind the last one every `write` fails. -/
def writeData (d : List UInt8) : List Int → List UInt8 × Bool × List Int
  | [] => ([], d = [], [])
  | length :: results =>
      if d = [] then ([], true, length :: results)
      else if length < 0 then ([], false, results)
      else
        let more := writeData (d.drop length.toNat) results
        (d.take length.toNat ++ more.1, more.2)

def send (s : Sink) (d : List UInt8) : Sink :=
  let written := writeData d s.results
  { s with wire := s.wire ++ written.1, results := written.2.2, ok := s.ok && written.2.1 }

/-- `done_with_trailer` goes on to its next `write_data` when one has failed. -/
def sendAll (s : Sink) (parts : List (List UInt8)) : Sink := parts.foldl send s

/-- `data_sink.write`, with a compressor that leaves everything as it is, and `data_sink.done`. -/
def call (s : Sink) (c : SinkCall) : Sink :=
  let s := { s with calls := s.calls ++ [c] }
  if s.ok then
    match c with
    | .write d writable =>
        let s := { s with dataAvailable := d ≠ [] }
        if d = [] then s else if writable then s.send (chunk d) else { s with ok := false }
    | .done trailer => sendAll { s with dataAvailable := false } (endingParts trailer)
  else s

end Sink

/-- What one turn of `write_content_chunked` meets, and what the provider does in it and returns. -/
structure Turn where
  shuttingDown : Bool
  writable : Bool
  calls : List SinkCall
  result : Bool

inductive Error where
  | success
  | write
  | canceled
deriving DecidableEq

/-- `write_content_chunked`, with its error if it has come to its end. -/
def writeContentChunked (s : Sink) : List Turn → Sink × Option Error
  | [] => (s, if s.dataAvailable then none else some .success)
  | t :: turns =>
      if s.dataAvailable && !t.shuttingDown then
        if !t.writable then (s, some .write)
        else
          let s := t.calls.foldl Sink.call s
          if !t.result then (s, some .canceled)
          else if !s.ok then (s, some .write)
          else writeContentChunked s turns
      else (s, some .success)

/-- A stream on which nothing can be written any more once a `write` has failed. -/
def Broken (results : List Int) : Prop :=
  results.Pairwise fun length later => length < 0 → later < 0

instance (results : List Int) : Decidable (Broken results) :=
  inferInstanceAs (Decidable (List.Pairwise _ _))

namespace Sink

theorem writeData_front (d : List UInt8) (results : List Int) :
    (writeData d results).1 <+: d ∧
    ((writeData d results).2.1 = true → (writeData d results).1 = d) := by
  induction results generalizing d with
  | nil => exact ⟨List.nil_prefix, fun h => (of_decide_eq_true h).symm⟩
  | cons length results ih =>
      rw [writeData]
      split_ifs with hd hfailed
      · exact ⟨List.nil_prefix, fun _ => hd.symm⟩
      · exact ⟨List.nil_prefix, nofun⟩
      · obtain ⟨hfront, hall⟩ := ih (d.drop length.toNat)
        dsimp only
        conv => enter [1, 2]; rw [← List.take_append_drop length.toNat d]
        refine ⟨(List.prefix_append_right_inj _).mpr hfront, fun h => ?_⟩
        rw [hall h, List.take_append_drop]

theorem writeData_failing {d : List UInt8} {results : List Int}
    (hfailing : ∀ length ∈ results, length < 0) :
    (writeData d results).1 = [] ∧ ∀ length ∈ (writeData d results).2.2, length < 0 := by
  cases results with
  | nil => exact ⟨rfl, hfailing⟩
  | cons length results =>
      obtain ⟨hlength, hresults⟩ := List.forall_mem_cons.mp hfailing
      rw [writeData]
      split_ifs with hd
      · exact ⟨rfl, hfailing⟩
      · exact ⟨rfl, hresults⟩

theorem writeData_broken {d : List UInt8} {results : List Int} (hbroken : Broken results) :
    Broken (writeData d results).2.2 ∧
      ((writeData d results).2.1 = false → ∀ length ∈ (writeData d results).2.2, length < 0) := by
  induction results generalizing d with
  | nil => exact ⟨hbroken, fun _ _ h => absurd h List.not_mem_nil⟩
  | cons length results ih =>
      obtain ⟨hlater, hresults⟩ := List.pairwise_cons.mp hbroken
      rw [writeData]
      split_ifs with hd hfailed
      · exact ⟨hbroken, nofun⟩
      · exact ⟨hresults, fun _ later hmem => hlater later hmem hfailed⟩
      · exact ih hresults

theorem sendAll_keeps (s : Sink) (parts : List (List UInt8)) :
    (s.sendAll parts).calls = s.calls ∧ (s.sendAll parts).dataAvailable = s.dataAvailable := by
  induction parts generalizing s with
  | nil => exact ⟨rfl, rfl⟩
  | cons d parts ih => exact ih (s.send d)

theorem sendAll_ok {s : Sink} {parts : List (List UInt8)} (h : (s.sendAll parts).ok = true) :
    s.ok = true ∧ (s.sendAll parts).wire = s.wire ++ parts.flatten := by
  induction parts generalizing s with
  | nil => exact ⟨h, (List.append_nil _).symm⟩
  | cons d parts ih =>
      obtain ⟨hok, hwire⟩ := @ih (s.send d) h
      rw [send, Bool.and_eq_true] at hok
      refine ⟨hok.1, hwire.trans ?_⟩
      rw [send, (writeData_front d s.results).2 hok.2, List.flatten_cons, List.append_assoc]

theorem sendAll_failing {s : Sink} (hfailing : ∀ length ∈ s.results, length < 0)
    (parts : List (List UInt8)) :
    (s.sendAll parts).wire = s.wire ∧ ∀ length ∈ (s.sendAll parts).results, length < 0 := by
  induction parts generalizing s with
  | nil => exact ⟨rfl, hfailing⟩
  | cons d parts ih =>
      obtain ⟨hnothing, hfailing'⟩ := @writeData_failing d s.results hfailing
      obtain ⟨hwire, hresults⟩ := @ih (s.send d) hfailing'
      refine ⟨hwire.trans ?_, hresults⟩
      rw [send, hnothing, List.append_nil]

theorem broken_of_failing {results : List Int} (h : ∀ length ∈ results, length < 0) :
    Broken results :=
  List.pairwise_of_forall_mem_list fun _ _ later hlater _ => h later hlater

/-- On a stream that stays broken, what comes through is a beginning. -/
theorem sendAll_broken {s : Sink} (hbroken : Broken s.results) (parts : List (List UInt8)) :
    Broken (s.sendAll parts).results ∧
      ∃ bytes, bytes <+: parts.flatten ∧ (s.sendAll parts).wire = s.wire ++ bytes := by
  induction parts generalizing s with
  | nil => exact ⟨hbroken, [], List.nil_prefix, (List.append_nil _).symm⟩
  | cons d parts ih =>
      obtain ⟨hbroken', hfailing⟩ := @writeData_broken d s.results hbroken
      obtain ⟨hfront, hall⟩ := writeData_front d s.results
      cases hresult : (writeData d s.results).2.1 with
      | true =>
          obtain ⟨hbroken'', bytes, hbytes, hwire⟩ := @ih (s.send d) hbroken'
          refine ⟨hbroken'', d ++ bytes, (List.prefix_append_right_inj d).mpr hbytes,
            hwire.trans ?_⟩
          rw [send, hall hresult, List.append_assoc]
      | false =>
          obtain ⟨hwire, hresults⟩ := @sendAll_failing (s.send d) (hfailing hresult) parts
          exact ⟨broken_of_failing hresults, (writeData d s.results).1,
            hfront.trans (List.prefix_append d _), hwire⟩

/-- A call that ends the content, as the loop sees it. -/
def Ends : SinkCall → Prop
  | .write d _ => d = []
  | .done _ => True

theorem call_moved (s : Sink) (c : SinkCall) :
    ∃ available, (available = false → s.dataAvailable = false ∨ Ends c) ∧
      (s.call c = { s with calls := s.calls ++ [c], dataAvailable := available, ok := false } ∨
        s.ok = true ∧ ∃ parts : List (List UInt8), parts.flatten = c.bytes ∧
          s.call c = sendAll { s with calls := s.calls ++ [c], dataAvailable := available } parts) := by
  rw [call.eq_def]
  cases hok : s.ok with
  | false =>
      refine ⟨s.dataAvailable, Or.inl, Or.inl ?_⟩
      dsimp only
      rw [if_neg Bool.false_ne_true]
  | true =>
      dsimp only
      rw [if_pos rfl]
      cases c with
      | write d writable =>
          refine ⟨decide (d ≠ []), fun h =>
            Or.inr (show d = [] from not_not.mp (of_decide_eq_false h)), ?_⟩
          dsimp only
          by_cases hd : d = []
          · refine Or.inr ⟨rfl, [], by rw [bytes, if_pos hd]; rfl, ?_⟩
            rw [if_pos hd]
            rfl
          · rw [if_neg hd]
            cases writable with
            | false => exact Or.inl rfl
            | true =>
                refine Or.inr ⟨rfl, [chunk d], ?_, rfl⟩
                rw [bytes, if_neg hd, List.flatten_singleton]
      | done trailer =>
          exact ⟨false, fun _ => Or.inr trivial, Or.inr ⟨rfl, endingParts trailer, rfl, rfl⟩⟩

structure Whole (s : Sink) : Prop where
  wire : s.ok = true → s.wire = s.calls.flatMap SinkCall.bytes
  available : s.dataAvailable = false → ∃ c ∈ s.calls, Ends c

theorem whole_start (results : List Int) : Whole (start results) := ⟨fun _ => rfl, nofun⟩

theorem Whole.call {s : Sink} (h : Whole s) (c : SinkCall) : Whole (s.call c) := by
  obtain ⟨available, hends, hcall⟩ := call_moved s c
  have havailable : available = false → ∃ c' ∈ s.calls ++ [c], Ends c' := fun hnone => by
    rcases hends hnone with hbefore | hc
    · obtain ⟨c', hc', hends'⟩ := h.available hbefore
      exact ⟨c', List.mem_append_left _ hc', hends'⟩
    · exact ⟨c, List.mem_append_right _ List.mem_cons_self, hc⟩
  rcases hcall with hcall | ⟨hok, parts, hparts, hcall⟩
  · rw [hcall]
    exact ⟨nofun, havailable⟩
  · rw [hcall]
    obtain ⟨hcalls, hdata⟩ :=
      sendAll_keeps { s with calls := s.calls ++ [c], dataAvailable := available } parts
    refine ⟨fun hok' => ?_, fun hnone => ?_⟩
    · rw [(sendAll_ok hok').2, hcalls, h.wire hok, hparts, List.flatMap_append,
        List.flatMap_singleton]
    · rw [hcalls]
      exact havailable (hdata.symm.trans hnone)

/-- What goes over a stream that stays broken is a beginning of what should. -/
structure Front (s : Sink) : Prop where
  broken : Broken s.results
  wire : s.wire <+: s.calls.flatMap SinkCall.bytes
  whole : Whole s

theorem Front.call {s : Sink} (h : Front s) (c : SinkCall) : Front (s.call c) := by
  have hwhole := h.whole.call c
  obtain ⟨available, _, hcall⟩ := call_moved s c
  rcases hcall with hcall | ⟨hok, parts, hparts, hcall⟩
  · rw [hcall] at hwhole ⊢
    refine ⟨h.broken, h.wire.trans ?_, hwhole⟩
    rw [List.flatMap_append]
    exact List.prefix_append _ _
  · rw [hcall] at hwhole ⊢
    obtain ⟨hcalls, _⟩ :=
      sendAll_keeps { s with calls := s.calls ++ [c], dataAvailable := available } parts
    obtain ⟨hbroken, bytes, hbytes, hwire⟩ :=
      @sendAll_broken { s with calls := s.calls ++ [c], dataAvailable := available } h.broken parts
    refine ⟨hbroken, ?_, hwhole⟩
    rw [hwire, hcalls, List.flatMap_append, List.flatMap_singleton, h.whole.wire hok, ← hparts]
    exact (List.prefix_append_right_inj _).mpr hbytes

theorem call_calls (s : Sink) (c : SinkCall) : (s.call c).calls = s.calls ++ [c] := by
  obtain ⟨available, _, hcall | ⟨_, parts, _, hcall⟩⟩ := call_moved s c
  · rw [hcall]
  · rw [hcall]
    exact (sendAll_keeps { s with calls := s.calls ++ [c], dataAvailable := available } parts).1

end Sink

theorem writeContentChunked_keeps {I : Sink → Prop} {turns : List Turn}
    (hcall : ∀ t ∈ turns, ∀ c ∈ t.calls, ∀ s, I s → I (s.call c)) {s : Sink} (hs : I s) :
    I (writeContentChunked s turns).1 := by
  induction turns generalizing s with
  | nil => exact hs
  | cons t turns ih =>
      obtain ⟨ht, hcall⟩ := List.forall_mem_cons.mp hcall
      have hturn : I (t.calls.foldl Sink.call s) :=
        List.foldlRecOn t.calls Sink.call hs fun s hs c hc => ht c hc s hs
      rw [writeContentChunked]
      dsimp only
      split_ifs
      · exact hs
      · exact hturn
      · exact hturn
      · exact ih hcall hturn
      · exact hs

theorem writeContentChunked_success {turns : List Turn}
    (hrunning : ∀ t ∈ turns, t.shuttingDown = false) {s : Sink} (hok : s.ok = true)
    (hsuccess : (writeContentChunked s turns).2 = some .success) :
    (writeContentChunked s turns).1.ok = true ∧
    (writeContentChunked s turns).1.dataAvailable = false := by
  induction turns generalizing s with
  | nil =>
      refine ⟨hok, Bool.eq_false_of_not_eq_true fun (havailable : s.dataAvailable = true) => ?_⟩
      rw [writeContentChunked, if_pos havailable] at hsuccess
      cases hsuccess
  | cons t turns ih =>
      obtain ⟨ht, hrunning⟩ := List.forall_mem_cons.mp hrunning
      rw [writeContentChunked, ht, Bool.not_false, Bool.and_true] at hsuccess ⊢
      by_cases havailable : s.dataAvailable = true
      · rw [if_pos havailable] at hsuccess ⊢
        dsimp only at hsuccess ⊢
        split_ifs at hsuccess ⊢ with hwritable hresult hok'
        · cases hsuccess
        · cases hsuccess
        · cases hsuccess
        · rw [Bool.not_eq_true, Bool.not_eq_false'] at hok'
          exact ih hrunning hok' hsuccess
      · rw [if_neg havailable]
        exact ⟨hok, Bool.eq_false_of_not_eq_true havailable⟩

theorem writeContentChunked_calls {P : SinkCall → Prop} {turns : List Turn}
    (hcalls : ∀ t ∈ turns, ∀ c ∈ t.calls, P c) (results : List Int) :
    ∀ c ∈ (writeContentChunked (.start results) turns).1.calls, P c := by
  refine writeContentChunked_keeps (I := fun s => ∀ c ∈ s.calls, P c) (fun t ht c hc s hs => ?_)
    fun c hc => absurd hc List.not_mem_nil
  rw [Sink.call_calls]
  exact fun c' hc' => (List.mem_append.mp hc').elim (hs c') fun h =>
    List.mem_singleton.mp h ▸ hcalls t ht c hc

theorem ending_of_done {calls : List SinkCall} {trailer : Option Headers}
    (hdone : SinkCall.done trailer ∈ calls) :
    ∃ trailer behind, ending calls = some (trailer, behind) := by
  induction calls with
  | nil => exact absurd hdone List.not_mem_nil
  | cons c calls ih =>
      cases c with
      | write d writable => exact ih ((List.mem_cons.mp hdone).resolve_left nofun)
      | done trailer' => exact ⟨_, _, rfl⟩

/-- **Chunked contents.** Wherever the writing stops, the receiver gets a beginning of what the
provider has written before it was done, and nothing else, however it is cut; and the reader returns
true only if the receiver has all of it, with the headers of the trailer. A stream that came back
after a failure could have lost the middle of the end of the content, and the trailer be read as a
size. -/
theorem chunked_content {results : List Int} (hbroken : Broken results) {turns : List Turn}
    (hfine : ∀ t ∈ turns, ∀ c ∈ t.calls, c.Fine) {s : SocketStream}
    (hpending : s.pending = (writeContentChunked (.start results) turns).1.wire)
    (headers : Headers) :
    let calls := (writeContentChunked (.start results) turns).1.calls
    (readContentChunked s headers).1.flatten <+: content calls ∧
      ∀ s', (readContentChunked s headers).2.2 = some s' →
        (readContentChunked s headers).1.flatten = content calls ∧ ∃ trailer behind,
          ending calls = some (trailer, behind) ∧
          (readContentChunked s headers).2.1 = headers.emplaceAll trailer := by
  have hfront : Sink.Front (writeContentChunked (.start results) turns).1 :=
    writeContentChunked_keeps (fun _ _ c _ _ h => h.call c) ⟨hbroken, List.nil_prefix,
      Sink.whole_start results⟩
  exact readContentChunked_cut (writeContentChunked_calls hfine results)
    (by rw [hpending]; exact hfront.wire) headers

def hiThere : List Turn :=
  [⟨false, true, [.write (ascii "hi ") true], true⟩,
    ⟨false, true, [.write (ascii "there") true, .done none], true⟩]

theorem hiThere_calls :
    ∀ t ∈ hiThere, ∀ c ∈ t.calls, c.Fine ∧ ∀ writable, c ≠ .write [] writable := by
  have hwrite : ∀ {d : List UInt8}, d.length < ulongMax → d ≠ [] → (SinkCall.write d true).Fine ∧
      ∀ writable, SinkCall.write d true ≠ .write [] writable := fun hd hne =>
    ⟨hd, fun _ h => hne (SinkCall.write.inj h).1⟩
  have hdone : (SinkCall.done none).Fine := fun p hp => absurd hp List.not_mem_nil
  simp only [hiThere, List.forall_mem_cons, List.not_mem_nil, false_imp_iff, implies_true, and_true]
  exact ⟨hwrite (by decide) (by decide), hwrite (by decide) (by decide), hdone, nofun⟩

theorem chunked_content_cut :
    (readContentChunked (.trickle (writeContentChunked (.start [8, 4, -1]) hiThere).1.wire)
        Multimap.empty).1.flatten <+:
      content (writeContentChunked (.start [8, 4, -1]) hiThere).1.calls :=
  (chunked_content (by decide) (fun t ht c hc => (hiThere_calls t ht c hc).1) (SocketStream.trickle_pending _)
    Multimap.empty).1

/-- **The round trip of chunked contents.** Where the writer has returned true, and the provider has
written no empty piece, for which the content would stop without its end, the reader returns true as
well: the receiver has what was written before the provider was done, and what was written behind
that is still to be read. -/
theorem chunked_round_trip {results : List Int} {turns : List Turn}
    (hsuccess : (writeContentChunked (.start results) turns).2 = some .success)
    (hrunning : ∀ t ∈ turns, t.shuttingDown = false)
    (hcalls : ∀ t ∈ turns, ∀ c ∈ t.calls, c.Fine ∧ ∀ writable, c ≠ .write [] writable)
    {s : SocketStream} {rest : List UInt8}
    (hpending : s.pending = (writeContentChunked (.start results) turns).1.wire ++ rest)
    (headers : Headers) :
    ∃ pieces trailer behind s',
      ending (writeContentChunked (.start results) turns).1.calls = some (trailer, behind) ∧
      readContentChunked s headers = (pieces, headers.emplaceAll trailer, some s') ∧
      pieces.flatten = content (writeContentChunked (.start results) turns).1.calls ∧
      s'.pending = behind.flatMap SinkCall.bytes ++ rest := by
  obtain ⟨hok, havailable⟩ := writeContentChunked_success hrunning rfl hsuccess
  have hwhole : Sink.Whole (writeContentChunked (.start results) turns).1 :=
    writeContentChunked_keeps (fun _ _ c _ _ h => h.call c) (Sink.whole_start results)
  have hmade := writeContentChunked_calls hcalls results
  obtain ⟨c, hc, hends⟩ := hwhole.available havailable
  obtain ⟨trailer, behind, hending⟩ :
      ∃ trailer behind, ending (writeContentChunked (.start results) turns).1.calls =
        some (trailer, behind) := by
    cases c with
    | write d writable => exact absurd (by rw [show d = [] from hends]) ((hmade _ hc).2 writable)
    | done trailer => exact ending_of_done hc
  rw [hwhole.wire hok] at hpending
  obtain ⟨pieces, s', hread, hall, hrest⟩ :=
    readContentChunked_whole (fun c hc => (hmade c hc).1) hending hpending headers
  exact ⟨pieces, trailer, behind, s', hending, hread, hall, hrest⟩

theorem chunked_round_trip_hi :
    ∃ pieces s', readContentChunked (.trickle (writeContentChunked (.start [100, 100, 100, 100]) hiThere).1.wire)
        Multimap.empty = (pieces, Multimap.empty, some s') ∧ pieces.flatten = ascii "hi there" := by
  obtain ⟨pieces, trailer, behind, s', hending, hread, hall, _⟩ :=
    @chunked_round_trip [100, 100, 100, 100] hiThere (by decide +kernel) (by decide)
      hiThere_calls _ []
      ((SocketStream.trickle_pending _).trans (List.append_nil _).symm) Multimap.empty
  have hcontent : content (writeContentChunked (.start [100, 100, 100, 100]) hiThere).1.calls =
      ascii "hi there" := by
    decide +kernel
  have htrailer :
      (ending (writeContentChunked (.start [100, 100, 100, 100]) hiThere).1.calls).map Prod.fst =
        some [] := by decide +kernel
  rw [hending] at htrailer
  obtain rfl : trailer = [] := Option.some.inj htrailer
  exact ⟨pieces, s', hread, hall.trans hcontent⟩

end NetworkHomework.Http
