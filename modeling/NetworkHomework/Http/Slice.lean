import NetworkHomework.Base.Arrays
import NetworkHomework.Http.Provider

/-!
# The slice `/get` serves

The handler of `/get` clips the file, reads the slice into an array of the size of the whole file,
and puts a terminator behind it; the library then has the provider hand the slice out four bytes at
a time. What it hands out is right for every range inside the slice (`provider_sinks_range`). But
the terminator needs a byte that only a clipped file leaves (`stores_inside_iff`), and the test for
an empty content stands before the clipping (`provider_nonempty_iff`).
-/

namespace NetworkHomework.Http

open Conversions

theorem slice_eq (file : RegularFile) (p : Params) :
    slice file p =
      if file.content.length = 0 then none
      else some ⟨file.content.length, portion file.content p.fict p.sizeFict,
        portionLength file.content.length p.fict p.sizeFict⟩ := by
  have hclip : (if p.sizeFict > file.content.length then file.content.length else p.sizeFict) =
      min p.sizeFict file.content.length := by
    split <;> omega
  rw [slice, hclip, portion_eq]
  rfl

theorem slice_some {file : RegularFile} {p : Params} {provider : Provider}
    (h : slice file p = some provider) :
    0 < file.content.length ∧ provider.size = file.content.length ∧
      provider.stored = portion file.content p.fict p.sizeFict ∧
      provider.lenghtF = portionLength file.content.length p.fict p.sizeFict := by
  rw [slice_eq] at h
  split_ifs at h with hempty
  cases h
  exact ⟨by omega, rfl, rfl, rfl⟩

/-! ### What the provider hands out -/

def Provider.sinks (provider : Provider) (call : ProviderCall) : List UInt8 :=
  (provider.stored.drop call.offset).take (min call.length dataChunkSize)

theorem writeContent_sinks (provider : Provider) {offset endOffset : Nat} (hle : offset ≤ endOffset)
    {cs : List Conditions} (hcs : ∀ c ∈ cs, c.Going) (henough : endOffset - offset ≤ cs.length) :
    (writeContent offset endOffset cs).result = some true ∧
      (writeContent offset endOffset cs).calls.flatMap provider.sinks =
        (provider.stored.drop offset).take (endOffset - offset) := by
  induction cs generalizing offset with
  | nil =>
      rw [List.length_nil] at henough
      rw [writeContent, if_neg (by omega), (by omega : endOffset - offset = 0)]
      exact ⟨rfl, List.take_zero.symm⟩
  | cons c cs ih =>
      obtain ⟨hgoing, hcs⟩ := List.forall_mem_cons.mp hcs
      rw [List.length_cons] at henough
      by_cases hmore : offset < endOffset
      · have hpos : 0 < dataChunkSize := by decide
        obtain ⟨hresult, hcalls⟩ :=
          @ih (offset + min (endOffset - offset) dataChunkSize) (by omega) hcs (by omega)
        rw [writeContent_going hmore hgoing]
        refine ⟨hresult, ?_⟩
        have hrest : endOffset - offset = min (endOffset - offset) dataChunkSize +
            (endOffset - (offset + min (endOffset - offset) dataChunkSize)) := by omega
        calc provider.sinks ⟨offset, endOffset - offset⟩ ++ _
            = (provider.stored.drop offset).take (min (endOffset - offset) dataChunkSize) ++
                (provider.stored.drop (offset + min (endOffset - offset) dataChunkSize)).take
                  (endOffset - (offset + min (endOffset - offset) dataChunkSize)) :=
              congrArg (_ ++ ·) hcalls
          _ = (provider.stored.drop offset).take (endOffset - offset) := by
              rw [← List.drop_drop, ← List.take_add, ← hrest]
      · rw [writeContent, if_neg hmore, (by omega : endOffset - offset = 0)]
        exact ⟨rfl, List.take_zero.symm⟩

/-- **The body of `/get`.** For every file, mode and number, and every range inside the portion
asked for, calling the provider at the current offset until the range is done ends, and the bytes
handed out are the range of the portion. -/
theorem provider_sinks_range (file : RegularFile) (p : Params) (provider : Provider)
    (hslice : slice file p = some provider) (offset length : Nat)
    (hrange : offset + length ≤ (portion file.content p.fict p.sizeFict).length)
    (cs : List Conditions) (hcs : ∀ c ∈ cs, c.Going) (henough : length ≤ cs.length) :
    provider.lenghtF = (portion file.content p.fict p.sizeFict).length ∧
      (writeContent offset (offset + length) cs).result = some true ∧
      (∀ call ∈ (writeContent offset (offset + length) cs).calls, ∀ i, call.Reads i →
        i < provider.lenghtF) ∧
      (writeContent offset (offset + length) cs).calls.flatMap provider.sinks =
        ((portion file.content p.fict p.sizeFict).drop offset).take length := by
  obtain ⟨_, _, hstored, hlength⟩ := slice_some hslice
  rw [← portion_length] at hlength
  obtain ⟨hresult, hsinks⟩ := writeContent_sinks provider (Nat.le_add_right offset length) hcs
    (by omega : offset + length - offset ≤ cs.length)
  rw [Nat.add_sub_cancel_left, hstored] at hsinks
  refine ⟨hlength, hresult, fun call hcall i hread => ?_, hsinks⟩
  have hinside := (writeContent_reads hcall hread).2
  omega

/-- `hello` without its first byte, and of this the three bytes behind the first. -/
theorem provider_sinks_range_hello :
    (writeContent 1 4 (List.replicate 3 smooth)).calls.flatMap
      (Provider.sinks ⟨5, ascii "ello", 4⟩) = ascii "llo" :=
  (provider_sinks_range hello ⟨ascii "hello", 1, 1⟩ ⟨5, ascii "ello", 4⟩ (by rfl) 1 3 (by decide) _
    (fun _ hc => List.eq_of_mem_replicate hc ▸ smooth_going) (by decide)).2.2.2

/-! ### The request -/

/-- The mode and the number a parameter sets, if it is `beans` or `size`. -/
def clipOf (param : List UInt8 × List UInt8) : Option (Nat × Nat) :=
  if param.1 = ascii "beans" then (stoi param.2).map fun n => (1, toSize n)
  else if param.1 = ascii "size" then (stoi param.2).map fun n => (2, toSize n)
  else none

def nameOf (param : List UInt8 × List UInt8) : Option (List UInt8) :=
  if param.1 = ascii "filename" then some param.2 else none

/-- The mode and the number a request asks for: those of its last `beans` or `size`. -/
def requestedClip (params : List (List UInt8 × List UInt8)) : Nat × Nat :=
  (params.filterMap clipOf).getLast?.getD (0, 0)

def requestedName (params : List (List UInt8 × List UInt8)) : List UInt8 :=
  (params.filterMap nameOf).getLast?.getD [0]

theorem getLast_filterMap_cons {α β : Type*} (f : α → Option β) (x : α) (xs : List α) (y : β) :
    ((x :: xs).filterMap f).getLast?.getD y = (xs.filterMap f).getLast?.getD ((f x).getD y) := by
  cases hx : f x with
  | none => rw [List.filterMap_cons_none hx, Option.getD_none]
  | some z =>
      rw [List.filterMap_cons_some hx, List.getLast?_cons, Option.getD_some, Option.getD_some]

theorem Params.read_some {p q : Params} {param : List UInt8 × List UInt8}
    (h : p.read param = some q) :
    q.filename = (nameOf param).getD p.filename ∧
      (q.fict, q.sizeFict) = (clipOf param).getD (p.fict, p.sizeFict) := by
  have hname : ascii "filename" ≠ ascii "beans" ∧ ascii "filename" ≠ ascii "size" := by decide
  have hbeans : ascii "beans" ≠ ascii "filename" := by decide
  have hsize : ascii "size" ≠ ascii "filename" ∧ ascii "size" ≠ ascii "beans" := by decide
  obtain ⟨name, value⟩ := param
  by_cases hfilename' : name = ascii "filename"
  · subst hfilename'
    rw [Params.read_filename] at h
    cases h
    simp [nameOf, clipOf, hname]
  · by_cases hbeans' : name = ascii "beans"
    · subst hbeans'
      rw [Params.read_beans] at h
      obtain ⟨n, hn, rfl⟩ := Option.map_eq_some_iff.mp h
      simp [nameOf, clipOf, hbeans, hn]
    · by_cases hsize' : name = ascii "size"
      · subst hsize'
        rw [Params.read_size] at h
        obtain ⟨n, hn, rfl⟩ := Option.map_eq_some_iff.mp h
        simp [nameOf, clipOf, hsize, hn]
      · rw [Params.read_other p value hfilename' hbeans' hsize'] at h
        cases h
        simp [nameOf, clipOf, hfilename', hbeans', hsize']

theorem read_params {p q : Params} {params : List (List UInt8 × List UInt8)}
    (h : params.foldlM Params.read p = some q) :
    q.filename = (params.filterMap nameOf).getLast?.getD p.filename ∧
      (q.fict, q.sizeFict) = (params.filterMap clipOf).getLast?.getD (p.fict, p.sizeFict) := by
  induction params generalizing p with
  | nil =>
      cases h
      exact ⟨rfl, rfl⟩
  | cons param params ih =>
      rw [List.foldlM_cons] at h
      obtain ⟨p', hparam, hrest⟩ := Option.bind_eq_some_iff.mp h
      obtain ⟨hfilename, hclip⟩ := Params.read_some hparam
      rw [getLast_filterMap_cons, getLast_filterMap_cons, ← hfilename, ← hclip]
      exact ih hrest

theorem getHandler_some {fileAt : List UInt8 → Option RegularFile}
    {params : List (List UInt8 × List UInt8)} {provider : Provider} {file : RegularFile}
    (hget : getHandler fileAt params = some provider)
    (hfile : fileAt (requestedName params) = some file) :
    0 < file.content.length ∧ provider.size = file.content.length ∧
      provider.stored = portion file.content (requestedClip params).1 (requestedClip params).2 ∧
      provider.lenghtF =
        portionLength file.content.length (requestedClip params).1 (requestedClip params).2 := by
  obtain ⟨p, hparams, hget⟩ := Option.bind_eq_some_iff.mp hget
  obtain ⟨file', hfile', hslice⟩ := Option.bind_eq_some_iff.mp hget
  obtain ⟨hfilename, hclip⟩ := read_params hparams
  change p.filename = requestedName params at hfilename
  change (p.fict, p.sizeFict) = requestedClip params at hclip
  rw [hfilename, hfile] at hfile'
  obtain rfl := Option.some.inj hfile'
  rw [← hclip]
  exact slice_some hslice

/-! ### Where the handler stores -/

/-- What the handler stores in its array: the slice that is read, and the terminator. -/
def Provider.fill (provider : Provider) (data : Cells UInt8 provider.size) :
    Option (Cells UInt8 provider.size) :=
  (data.storeFrom 0 provider.stored).bind fun data => data.store provider.lenghtF 0

theorem Provider.fill_isSome_iff (provider : Provider)
    (hstored : provider.stored.length = provider.lenghtF) (data : Cells UInt8 provider.size) :
    (provider.fill data).isSome ↔ provider.lenghtF < provider.size := by
  have hslice := data.storeFrom_isSome_iff (Nat.zero_le _) provider.stored
  rw [hstored, Nat.zero_add] at hslice
  rw [fill]
  cases hread : data.storeFrom 0 provider.stored with
  | none =>
      rw [hread] at hslice
      refine iff_of_false (fun h => by cases h) fun hlt => ?_
      exact absurd (hslice.mpr (Nat.le_of_lt hlt)) Bool.false_ne_true
  | some data' => exact data'.store_isSome_iff _ _

/-- **Stores.** For every regular file and every request for it, the stores of the handler stay
inside the array of as many bytes as the file has exactly if the request leaves out at least one of
them. -/
theorem stores_inside_iff (fileAt : List UInt8 → Option RegularFile)
    (params : List (List UInt8 × List UInt8)) (file : RegularFile) (provider : Provider)
    (hfile : fileAt (requestedName params) = some file)
    (hget : getHandler fileAt params = some provider) (data : Cells UInt8 provider.size) :
    provider.size = file.content.length ∧
      ((provider.fill data).isSome ↔
        ((requestedClip params).1 = 1 ∧ 0 < (requestedClip params).2) ∨
          ((requestedClip params).1 = 2 ∧ (requestedClip params).2 < file.content.length)) := by
  obtain ⟨hpos, hsize, hstored, hlength⟩ := getHandler_some hget hfile
  refine ⟨hsize, ?_⟩
  rw [provider.fill_isSome_iff (by rw [hstored, hlength, portion_length]) data, hsize, hlength,
    portionLength]
  split_ifs <;> omega

def fresh : Cells UInt8 5 := ⟨[0, 0, 0, 0, 0], rfl⟩

theorem stores_inside_without_two :
    ((⟨5, ascii "llo", 3⟩ : Provider).fill fresh).isSome :=
  (stores_inside_iff (fun _ => some hello) [(ascii "beans", ascii "2"), (ascii "filename", ascii "hello")]
    hello ⟨5, ascii "llo", 3⟩ rfl (by rfl) fresh).2.mpr (Or.inl (by decide))

/-- For the whole of `hello` the terminator goes to index 5 of five bytes. -/
theorem terminator_outside :
    getHandler (fun _ => some hello) [(ascii "filename", ascii "hello")] =
      some ⟨5, ascii "hello", 5⟩ ∧
      (⟨5, ascii "hello", 5⟩ : Provider).fill fresh = none := by
  refine ⟨by rfl, ?_⟩
  have hfill := (⟨5, ascii "hello", 5⟩ : Provider).fill_isSome_iff rfl fresh
  rw [← Option.not_isSome_iff_eq_none, hfill]
  exact Nat.lt_irrefl 5

/-! ### Which contents are empty -/

/-- A content without a length is asked for as long as nothing stops the loop: the provider hands
out no bytes and never says that it is done. -/
theorem writeContentWithoutLength_endless (offset : Nat) {cs : List Conditions}
    (hcs : ∀ c ∈ cs, c.Going) :
    (writeContentWithoutLength offset cs).result = none := by
  induction cs generalizing offset with
  | nil => rfl
  | cons c cs ih =>
      obtain ⟨⟨hrunning, hwritable, hsink⟩, hcs⟩ := List.forall_mem_cons.mp hcs
      have hchunk := hsink _ (Nat.min_le_right 0 dataChunkSize)
      rw [writeContentWithoutLength, hrunning, hwritable]
      simp only [hchunk]
      exact ih _ hcs

/-- So an empty content that gets past the assertion is never written to its end, whatever the
ranges. -/
theorem writeContentWithProvider_endless (ranges : List Range) {cs : List Conditions}
    (hcs : ∀ c ∈ cs, c.Going) : (writeContentWithProvider 0 ranges cs).result = none := by
  rw [writeContentWithProvider, if_neg (Nat.lt_irrefl 0)]
  exact writeContentWithoutLength_endless 0 hcs

/-- **Empty contents.** For every regular file and every request for it, the length the handler
passes to `set_content_provider` is positive exactly if the request neither leaves out the whole
file nor asks for no bytes of it. -/
theorem provider_nonempty_iff (fileAt : List UInt8 → Option RegularFile)
    (params : List (List UInt8 × List UInt8)) (file : RegularFile) (provider : Provider)
    (hfile : fileAt (requestedName params) = some file)
    (hget : getHandler fileAt params = some provider) :
    0 < provider.lenghtF ↔
      ¬ ((requestedClip params).1 = 1 ∧ file.content.length ≤ (requestedClip params).2) ∧
        ¬ ((requestedClip params).1 = 2 ∧ (requestedClip params).2 = 0) := by
  obtain ⟨hpos, _, _, hlength⟩ := getHandler_some hget hfile
  rw [hlength, portionLength]
  split_ifs <;> omega

theorem provider_nonempty_without_two : 0 < (⟨5, ascii "llo", 3⟩ : Provider).lenghtF :=
  (provider_nonempty_iff (fun _ => some hello) [(ascii "beans", ascii "2"), (ascii "filename", ascii "hello")]
    hello ⟨5, ascii "llo", 3⟩ rfl (by rfl)).mpr (by decide)

/-- Both modes get past the test for an empty file and come to an empty content. -/
theorem provider_empty :
    getHandler (fun _ => some hello) [(ascii "beans", ascii "5"),
      (ascii "filename", ascii "hello")] =
        some ⟨5, [], 0⟩ ∧
      getHandler (fun _ => some hello) [(ascii "filename", ascii "hello"),
        (ascii "size", ascii "0")] =
        some ⟨5, [], 0⟩ :=
  ⟨by rfl, by rfl⟩

end NetworkHomework.Http
