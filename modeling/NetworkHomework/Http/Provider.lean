import NetworkHomework.Http.Range

/-!
# The content provider of `/get`

The handler of `/get` loads a slice of a file into an array and leaves it to the library to ask for
it. The library asks for what the `Range` header says, four bytes of which the provider hands out at
a time, whether or not the array has them. `provider_in_bounds_iff` says for which requests it has.
-/

namespace NetworkHomework.Http

open Conversions

/-! ### The handler -/

def dataChunkSize : Nat := 4

/-- A regular file; its length is an `off_t`. -/
structure RegularFile where
  content : List UInt8
  bounded : content.length < 2 ^ 63

structure Params where
  filename : List UInt8
  fict : Nat
  sizeFict : Nat

/-- A turn of that loop; `none` if `std::stoi` throws. -/
def Params.read (p : Params) (param : List UInt8 × List UInt8) : Option Params := do
  let p := if param.1 = ascii "filename" then { p with filename := param.2 } else p
  let p ←
    if param.1 = ascii "beans" then (stoi param.2).map fun n =>
      { p with fict := 1, sizeFict := toSize n }
    else some p
  if param.1 = ascii "size" then (stoi param.2).map fun n =>
    { p with fict := 2, sizeFict := toSize n }
  else some p

/-! A parameter sets what its name says, and no other. -/

section

variable (p : Params) (value : List UInt8)

theorem Params.read_filename :
    p.read (ascii "filename", value) = some { p with filename := value } := by
  have hbeans : ascii "filename" ≠ ascii "beans" := by decide
  have hsize : ascii "filename" ≠ ascii "size" := by decide
  simp [Params.read, hbeans, hsize]

theorem Params.read_beans :
    p.read (ascii "beans", value) = (stoi value).map fun n =>
      { p with fict := 1, sizeFict := toSize n } := by
  have hname : ascii "beans" ≠ ascii "filename" := by decide
  have hsize : ascii "beans" ≠ ascii "size" := by decide
  cases hvalue : stoi value <;> simp [Params.read, hname, hsize, hvalue]

theorem Params.read_size :
    p.read (ascii "size", value) = (stoi value).map fun n =>
      { p with fict := 2, sizeFict := toSize n } := by
  have hname : ascii "size" ≠ ascii "filename" := by decide
  have hbeans : ascii "size" ≠ ascii "beans" := by decide
  simp [Params.read, hname, hbeans]

theorem Params.read_other {name : List UInt8} (hname : name ≠ ascii "filename")
    (hbeans : name ≠ ascii "beans") (hsize : name ≠ ascii "size") :
    p.read (name, value) = some p := by
  simp [Params.read, hname, hbeans, hsize]

end

/-- What the handler leaves to the library: an array of `size` bytes that begins with the bytes
`stored`, and `lenght_f`. -/
structure Provider where
  size : Nat
  stored : List UInt8
  lenghtF : Nat

/-- The handler from the opened file on; `none` for an empty file. -/
def slice (file : RegularFile) (p : Params) : Option Provider :=
  let lenghtF := file.content.length
  if lenghtF = 0 then none
  else
    let size := lenghtF
    let sizeFict := if p.sizeFict > lenghtF then lenghtF else p.sizeFict
    let pos := if p.fict = 1 then sizeFict else 0
    let lenghtF := if p.fict = 1 then lenghtF - sizeFict else if p.fict = 2 then
      sizeFict else lenghtF
    some ⟨size, (file.content.drop pos).take lenghtF, lenghtF⟩

/-- The handler of `/get`, with the regular file that a file name leads to, if any; `none` where it
answers 404 or throws. The parameters come in the order of their `multimap`. -/
def getHandler (fileAt : List UInt8 → Option RegularFile)
    (params : List (List UInt8 × List UInt8)) :
    Option Provider := do
  let p ← params.foldlM Params.read ⟨[0], 0, 0⟩
  let file ← fileAt p.filename
  slice file p

theorem slice_bounds {file : RegularFile} {p : Params} {provider : Provider}
    (h : slice file p = some provider) : provider.lenghtF < 2 ^ 63 := by
  have hbounded := file.bounded
  rw [slice] at h
  split_ifs at h <;> cases h <;> dsimp only <;> omega

theorem getHandler_bounds {fileAt : List UInt8 → Option RegularFile}
    {params : List (List UInt8 × List UInt8)} {provider : Provider}
    (h : getHandler fileAt params = some provider) : provider.lenghtF < 2 ^ 63 := by
  obtain ⟨p, _, h⟩ := Option.bind_eq_some_iff.mp h
  obtain ⟨file, _, h⟩ := Option.bind_eq_some_iff.mp h
  exact slice_bounds h

/-! ### The library's write loops -/

structure ProviderCall where
  offset : Nat
  length : Nat
deriving DecidableEq

def ProviderCall.Reads (call : ProviderCall) (i : Nat) : Prop :=
  call.offset ≤ i ∧ i < call.offset + min call.length dataChunkSize

/-- What one turn of a write loop meets: whether the server is shutting down, whether the stream can
be written to before the call of the provider and inside it, and what its writes return. -/
structure Conditions where
  shuttingDown : Bool
  writable : Bool
  sinkWritable : Bool
  results : List Int

/-- `write_data` with `offset` of `l` bytes gone; `none` if it waits in `write` for good. A write
takes no more than it is offered. -/
def writeData (offset l : Nat) : List Int → Option Bool
  | [] => if offset < l then none else some true
  | length :: results =>
      if offset < l then
        if length < 0 then some false else writeData
          (offset + min length.toNat (l - offset)) l results
      else some true

/-- What a write loop comes to: the calls of the provider, what it returns unless it waits for good,
and the turns it has not taken. -/
structure Written where
  calls : List ProviderCall
  result : Option Bool
  rest : List Conditions

/-- `data_sink.write` of `l` bytes, as the loops see it. -/
def Conditions.sink (c : Conditions) (l : Nat) : Option Bool :=
  if c.sinkWritable then writeData 0 l c.results else some false

def writeContent (offset endOffset : Nat) : List Conditions → Written
  | [] => ⟨[], if offset < endOffset then none else some true, []⟩
  | c :: cs =>
      if offset < endOffset then
        if c.shuttingDown then ⟨[], some true, cs⟩
        else if !c.writable then ⟨[], some false, cs⟩
        else
          let call : ProviderCall := ⟨offset, endOffset - offset⟩
          match c.sink (min (endOffset - offset) dataChunkSize) with
          | some true =>
              let more :=
                writeContent (offset + min (endOffset - offset) dataChunkSize) endOffset cs
              { more with calls := call :: more.calls }
          | failed => ⟨[call], failed, cs⟩
      else ⟨[], some true, c :: cs⟩

/-- `write_content_without_length`; the provider is asked for no bytes and hands out none. -/
def writeContentWithoutLength (offset : Nat) : List Conditions → Written
  | [] => ⟨[], none, []⟩
  | c :: cs =>
      if c.shuttingDown then ⟨[], some true, cs⟩
      else if !c.writable then ⟨[], some false, cs⟩
      else
        let call : ProviderCall := ⟨offset, 0⟩
        match c.sink (min 0 dataChunkSize) with
        | some true =>
            let more := writeContentWithoutLength (offset + min 0 dataChunkSize) cs
            { more with calls := call :: more.calls }
        | failed => ⟨[call], failed, cs⟩

/-- `write_multipart_ranges_data`. It takes the length of the content to be `res.body.size()`, which
is 0 when there is a provider. -/
def writeMultipart : List Range → List Conditions → Written
  | [], cs => ⟨[], some true, cs⟩
  | r :: ranges, cs =>
      let part := writeContent (r.offsetAndLength 0).1 (r.endOffset 0) cs
      match part.result with
      | some true =>
          let more := writeMultipart ranges part.rest
          { more with calls := part.calls ++ more.calls }
      | _ => part

def writeRanges (contentLength : Nat) (cs : List Conditions) : List Range → Written
  | [] => writeContent 0 (contentLength % 2 ^ 64) cs
  | [r] => writeContent (r.offsetAndLength contentLength).1 (r.endOffset contentLength) cs
  | r :: r' :: ranges => writeMultipart (r :: r' :: ranges) cs

/-- `write_content_with_provider`. An empty content fails the assertion of `set_content_provider`,
where assertions are compiled in; elsewhere it counts as one without a length. -/
def writeContentWithProvider (contentLength : Nat) (ranges : List Range) (cs : List Conditions) :
    Written :=
  if contentLength > 0 then writeRanges contentLength cs ranges else writeContentWithoutLength 0 cs

/-- The body of the response, which a `HEAD` request does not get. -/
def writeBody (head : Bool) (contentLength : Nat) (ranges : List Range) (cs : List Conditions) :
    Written :=
  if head then ⟨[], some true, cs⟩ else writeContentWithProvider contentLength ranges cs

/-- The ranges of a request with the given `Range` header, if any; `none` if the header is
refused. -/
def requestRanges (header : Option (List UInt8)) : Option (List Range) :=
  match header with
  | none => some []
  | some s => parseRangeHeader s

theorem requestRanges_valid {header : Option (List UInt8)} {ranges : List Range}
    (h : requestRanges header = some ranges) : ∀ r ∈ ranges, r.Valid := by
  cases header with
  | none =>
      cases h
      exact fun r hr => absurd hr List.not_mem_nil
  | some s => exact parseRangeHeader_valid h

/-! ### What is read -/

theorem writeContent_calls {offset endOffset : Nat} {cs : List Conditions} {call : ProviderCall}
    (h : call ∈ (writeContent offset endOffset cs).calls) :
    offset ≤ call.offset ∧ call.offset + call.length = endOffset ∧ 0 < call.length := by
  induction cs generalizing offset with
  | nil => cases h
  | cons c cs ih =>
      rw [writeContent] at h
      split_ifs at h with hmore
      · cases h
      · cases h
      · split at h
        · rcases List.mem_cons.mp h with rfl | hrest
          · dsimp only
            omega
          · have := ih hrest
            omega
        · cases List.mem_singleton.mp h
          dsimp only
          omega
      · cases h

theorem writeContent_reads {offset endOffset : Nat} {cs : List Conditions} {call : ProviderCall}
    (h : call ∈ (writeContent offset endOffset cs).calls) {i : Nat} (hread : call.Reads i) :
    offset < endOffset ∧ i < endOffset := by
  obtain ⟨hoffset, hend, hpos⟩ := writeContent_calls h
  obtain ⟨_, hlt⟩ := hread
  omega

theorem writeContentWithoutLength_reads {offset : Nat} {cs : List Conditions} {call : ProviderCall}
    (h : call ∈ (writeContentWithoutLength offset cs).calls) (i : Nat) : ¬ call.Reads i := by
  have hlength : call.length = 0 := by
    induction cs generalizing offset with
    | nil => cases h
    | cons c cs ih =>
        rw [writeContentWithoutLength] at h
        split_ifs at h
        · cases h
        · cases h
        · split at h
          · rcases List.mem_cons.mp h with rfl | hrest
            · rfl
            · exact ih hrest
          · cases List.mem_singleton.mp h
            rfl
  rintro ⟨hle, hlt⟩
  rw [hlength, Nat.zero_min] at hlt
  omega

theorem writeMultipart_calls {ranges : List Range} {cs : List Conditions} {call : ProviderCall}
    (h : call ∈ (writeMultipart ranges cs).calls) :
    ∃ r ∈ ranges, ∃ cs', call ∈
      (writeContent (r.offsetAndLength 0).1 (r.endOffset 0) cs').calls := by
  induction ranges generalizing cs with
  | nil => cases h
  | cons r ranges ih =>
      rw [writeMultipart] at h
      split at h
      · rcases List.mem_append.mp h with hpart | hmore
        · exact ⟨r, List.mem_cons_self, cs, hpart⟩
        · obtain ⟨r', hr', hcall⟩ := ih hmore
          exact ⟨r', List.mem_cons_of_mem r hr', hcall⟩
      · exact ⟨r, List.mem_cons_self, cs, h⟩

def smooth : Conditions := ⟨false, true, true, [4]⟩

theorem smooth_sink {l : Nat} (hl : l ≤ 4) : smooth.sink l = some true := by
  change (if 0 < l then if (4 : Int) < 0 then some false
    else writeData (0 + min (4 : Int).toNat (l - 0)) l [] else some true) = some true
  split_ifs with hpos
  · omega
  · rw [writeData, if_neg]
    omega
  · rfl

/-- Nothing stops the loop in this turn: no shutdown, and whatever is written goes out. -/
def Conditions.Going (c : Conditions) : Prop :=
  c.shuttingDown = false ∧ c.writable = true ∧ ∀ l ≤ dataChunkSize, c.sink l = some true

theorem smooth_going : smooth.Going := ⟨rfl, rfl, fun _ hl => smooth_sink hl⟩

theorem writeContent_going {offset endOffset : Nat} (hmore : offset < endOffset) {c : Conditions}
    (hgoing : c.Going) (cs : List Conditions) :
    writeContent offset endOffset (c :: cs) =
      let more := writeContent (offset + min (endOffset - offset) dataChunkSize) endOffset cs
      { more with calls := ⟨offset, endOffset - offset⟩ :: more.calls } := by
  obtain ⟨hrunning, hwritable, hsink⟩ := hgoing
  have hchunk := hsink _ (Nat.min_le_right (endOffset - offset) dataChunkSize)
  rw [writeContent, if_pos hmore, hrunning, hwritable]
  simp only [hchunk]
  rfl

theorem writeContent_smooth {offset endOffset turns : Nat} (hturns : endOffset - offset ≤ turns) :
    (∃ turns', turns ≤ turns' + (endOffset - offset) ∧
      (writeContent offset endOffset (List.replicate turns smooth)).rest =
        List.replicate turns' smooth) ∧
      (writeContent offset endOffset (List.replicate turns smooth)).result = some true ∧
      ∀ i, offset ≤ i → i < endOffset →
        ∃ call ∈ (writeContent offset endOffset (List.replicate turns smooth)).calls,
        call.Reads i := by
  induction turns generalizing offset with
  | zero =>
      refine ⟨⟨0, by omega, rfl⟩, ?_, fun i hle hlt => by omega⟩
      change (if offset < endOffset then none else some true) = some true
      rw [if_neg (by omega)]
  | succ turns ih =>
      rw [List.replicate_succ]
      by_cases hmore : offset < endOffset
      · have hchunk : min (endOffset - offset) dataChunkSize = min (endOffset - offset) 4 := rfl
        obtain ⟨⟨turns', hrest, hreplicate⟩, hresult, hreads⟩ :=
          @ih (offset + min (endOffset - offset) dataChunkSize) (by omega)
        rw [writeContent_going hmore smooth_going]
        refine ⟨⟨turns', by omega, hreplicate⟩, hresult, fun i hle hlt => ?_⟩
        by_cases hfirst : i < offset + min (endOffset - offset) dataChunkSize
        · exact ⟨⟨offset, endOffset - offset⟩, List.mem_cons_self, hle, hfirst⟩
        · obtain ⟨call, hcall, hread⟩ := hreads i (by omega) hlt
          exact ⟨call, List.mem_cons_of_mem _ hcall, hread⟩
      · rw [writeContent, if_neg hmore]
        exact ⟨⟨turns + 1, Nat.le_add_right _ _, rfl⟩, rfl, fun i hle hlt => absurd hlt (by omega)⟩

theorem writeMultipart_smooth {ranges : List Range} {r : Range} (hr : r ∈ ranges) {i : Nat}
    (hle : (r.offsetAndLength 0).1 ≤ i) (hlt : i < r.endOffset 0) :
    ∃ need, ∀ turns, need ≤ turns →
      ∃ call ∈ (writeMultipart ranges (List.replicate turns smooth)).calls, call.Reads i := by
  induction ranges with
  | nil => exact absurd hr List.not_mem_nil
  | cons r' ranges ih =>
      rcases List.mem_cons.mp hr with rfl | hr
      · refine ⟨r.endOffset 0 - (r.offsetAndLength 0).1, fun turns hturns => ?_⟩
        obtain ⟨_, hresult, hreads⟩ := writeContent_smooth hturns
        obtain ⟨call, hcall, hread⟩ := hreads i hle hlt
        rw [writeMultipart]
        simp only [hresult]
        exact ⟨call, List.mem_append_left _ hcall, hread⟩
      · obtain ⟨need, hneed⟩ := ih hr
        refine ⟨need + (r'.endOffset 0 - (r'.offsetAndLength 0).1), fun turns hturns => ?_⟩
        obtain ⟨⟨turns', hrest, hreplicate⟩, hresult, _⟩ :=
          @writeContent_smooth (r'.offsetAndLength 0).1 (r'.endOffset 0) turns (by omega)
        obtain ⟨call, hcall, hread⟩ := hneed turns' (by omega)
        rw [writeMultipart]
        simp only [hresult, hreplicate]
        exact ⟨call, List.mem_append_right _ hcall, hread⟩

/-! ### Which requests stay in bounds -/

/-- No call made for the body reads at or behind `lenght_f`, whatever the stream does. -/
def InBounds (head : Bool) (lenghtF : Nat) (ranges : List Range) : Prop :=
  ∀ cs, ∀ call ∈ (writeBody head lenghtF ranges cs).calls, ∀ i, call.Reads i → i < lenghtF

private theorem range_reads {r : Range} (hvalid : r.Valid) {contentLength lenghtF : Nat}
    (hlength : contentLength ≤ lenghtF) (hbounded : lenghtF < 2 ^ 63) (hclosed : r.Closed →
      r.last < lenghtF)
    {cs : List Conditions} {call : ProviderCall}
    (h : call ∈ (writeContent (r.offsetAndLength contentLength).1 (r.endOffset contentLength) cs).calls)
    {i : Nat} (hread : call.Reads i) : i < lenghtF := by
  obtain ⟨hnonempty, hlt⟩ := writeContent_reads h hread
  by_cases hends : r.Closed
  · obtain ⟨_, hend⟩ := r.closed_bounds hvalid hends contentLength
    have := hclosed hends
    omega
  · rcases r.open_bounds hvalid hends (by omega : contentLength < 2 ^ 63) with hempty | hend
    · omega
    · omega

theorem inBounds_of_closed {lenghtF : Nat} (hbounded : lenghtF < 2 ^ 63) {ranges : List Range}
    (hvalid : ∀ r ∈ ranges, r.Valid) (hclosed : ∀ r ∈ ranges, r.Closed → r.last < lenghtF) :
    InBounds false lenghtF ranges := by
  intro cs call hcall i hread
  rw [writeBody, if_neg Bool.false_ne_true, writeContentWithProvider] at hcall
  split_ifs at hcall with hpos
  · match ranges with
    | [] =>
        have hend := (writeContent_reads hcall hread).2
        rwa [Nat.mod_eq_of_lt (by omega)] at hend
    | [r] =>
        exact range_reads (hvalid r List.mem_cons_self) (Nat.le_refl _) hbounded
          (hclosed r List.mem_cons_self) hcall hread
    | r :: r' :: ranges =>
        obtain ⟨r₀, hr₀, cs', hcall⟩ := writeMultipart_calls hcall
        exact range_reads (hvalid r₀ hr₀) (Nat.zero_le _) hbounded (hclosed r₀ hr₀) hcall hread
  · exact absurd hread (writeContentWithoutLength_reads hcall i)

/-- A range that ends behind the content is read to its end if nothing goes wrong. -/
theorem not_inBounds_of_closed {lenghtF : Nat} (hpos : 0 < lenghtF) {ranges : List Range}
    (hvalid : ∀ r ∈ ranges, r.Valid) {r : Range} (hr : r ∈ ranges) (hclosed : r.Closed)
    (hlast : (lenghtF : Int) ≤ r.last) : ¬ InBounds false lenghtF ranges := by
  intro h
  obtain ⟨n, hn⟩ : ∃ n : Nat, r.last = n := Int.eq_ofNat_of_zero_le (by omega)
  have hordered := (hvalid r hr).ordered hclosed.1 hclosed.2
  have hbounds := r.closed_bounds (hvalid r hr) hclosed
  have hreads : ∃ cs, ∃ call ∈ (writeRanges lenghtF cs ranges).calls, call.Reads n := by
    match ranges with
    | [] => exact absurd hr List.not_mem_nil
    | [r'] =>
        cases List.mem_singleton.mp hr
        obtain ⟨hoffset, hend⟩ := hbounds lenghtF
        obtain ⟨_, _, hreads⟩ :=
          @writeContent_smooth (r.offsetAndLength lenghtF).1 (r.endOffset lenghtF) _
          (Nat.le_refl _)
        exact ⟨_, hreads n (by omega) (by omega)⟩
    | r₁ :: r₂ :: ranges =>
        obtain ⟨hoffset, hend⟩ := hbounds 0
        obtain ⟨need, hneed⟩ := writeMultipart_smooth hr (i := n) (by omega) (by omega)
        exact ⟨_, hneed need (Nat.le_refl _)⟩
  obtain ⟨cs, call, hcall, hread⟩ := hreads
  have hlt :=
    h cs call (by rwa [writeBody, if_neg Bool.false_ne_true, writeContentWithProvider, if_pos hpos])
    n hread
  omega

/-- **No disclosure.** Whatever the file, the parameters and the `Range` header, the provider reads
below `lenght_f` only, exactly if no range that has both ends ends behind the slice; an empty slice
and a `HEAD` request are not read at all. -/
theorem provider_in_bounds_iff (fileAt : List UInt8 → Option RegularFile)
    (params : List (List UInt8 × List UInt8)) (header : Option (List UInt8)) (head : Bool)
    (provider : Provider) (ranges : List Range) (hget : getHandler fileAt params = some provider)
    (hranges : requestRanges header = some ranges) :
    InBounds head provider.lenghtF ranges ↔
      head = true ∨ provider.lenghtF = 0 ∨ ∀ r ∈ ranges, r.Closed → r.last < provider.lenghtF := by
  have hbounded := getHandler_bounds hget
  have hvalid := requestRanges_valid hranges
  cases head with
  | true => exact iff_of_true (fun cs call hcall => by cases hcall) (Or.inl rfl)
  | false =>
      rcases Nat.eq_zero_or_pos provider.lenghtF with hzero | hpos
      · refine iff_of_true (fun cs call hcall i hread => ?_) (Or.inr (Or.inl hzero))
        rw [hzero, writeBody, if_neg Bool.false_ne_true, writeContentWithProvider,
          if_neg (Nat.lt_irrefl 0)] at hcall
        exact absurd hread (writeContentWithoutLength_reads hcall i)
      · constructor
        · intro h
          refine Or.inr (Or.inr fun r hr hclosed => ?_)
          by_contra hlast
          exact not_inBounds_of_closed hpos hvalid hr hclosed (by omega) h
        · rintro (hhead | hzero | hclosed)
          · cases hhead
          · omega
          · exact inBounds_of_closed hbounded hvalid hclosed

def hello : RegularFile := ⟨ascii "hello", by decide⟩

theorem provider_in_bounds_hello :
    InBounds false 5 [⟨1, 3⟩] :=
  (provider_in_bounds_iff (fun _ => some hello) [(ascii "filename", ascii "hello")]
    (some (ascii "bytes=1-3")) false ⟨5, ascii "hello", 5⟩ [⟨1, 3⟩] (by rfl) (by rfl)).mpr
      (Or.inr (Or.inr (by decide)))

/-- Ten bytes are asked for of a file of five, and ten are read. -/
theorem provider_reads_behind :
    (getHandler (fun _ => some hello) [(ascii "filename", ascii "hello")]).map (·.lenghtF) =
      some 5 ∧
      requestRanges (some (ascii "bytes=0-9")) = some [⟨0, 9⟩] ∧ ¬ InBounds false 5 [⟨0, 9⟩] := by
  refine ⟨by rfl, by rfl, fun h => ?_⟩
  have hread := h [smooth, smooth] ⟨4, 6⟩ (by decide) 5 ⟨by decide, by decide⟩
  omega

end NetworkHomework.Http
