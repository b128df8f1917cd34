import NetworkHomework.Qt.Server

/-!
# The write loop of `send_to_file`

`while (x < block.size())` goes round until as many bytes have been taken as the block has, but
every turn offers the block from its beginning. To see which bytes the socket takes, each of them
carries its place in the block; they are the block once and in order exactly if the first `write`
takes all of it (`sendToFile_exact_iff`).
-/

namespace NetworkHomework.Qt

open BigEndian

section Transmit

variable {α β : Type*}

/-- `writeLoop` for a block of anything: what the socket has taken when the loop is left, and `none`
if it has not been left after these results of `write`. -/
def transmit (block : List α) : List Int → Int → List α → Option (List α)
  | [], x, sent => if x < block.length then none else some sent
  | y :: results, x, sent =>
      if x < block.length then transmit block results (x + y)
        (sent ++ block.take y.toNat) else some sent

theorem writeLoop_eq (block : List UInt8) (results : List Int) (x : Int) (sent : List UInt8) :
    writeLoop block results x sent = transmit block results x sent := by
  induction results generalizing x sent with
  | nil => rfl
  | cons y results ih => rw [writeLoop, transmit, ih]

theorem transmit_map (f : α → β) (block : List α) (results : List Int) (x : Int) (sent : List α) :
    transmit (block.map f) results x (sent.map f) =
      (transmit block results x sent).map (List.map f) := by
  induction results generalizing x sent with
  | nil =>
      rw [transmit, transmit, List.length_map]
      split_ifs <;> rfl
  | cons y results ih =>
      rw [transmit, transmit, List.length_map, ← List.map_take, ← List.map_append, ih]
      split_ifs <;> rfl

theorem transmit_extends {block taken : List α} {results : List Int} {x : Int} {sent : List α}
    (h : transmit block results x sent = some taken) : sent <+: taken := by
  induction results generalizing x sent with
  | nil =>
      rw [transmit] at h
      split_ifs at h
      cases h
      exact List.prefix_rfl
  | cons y results ih =>
      rw [transmit] at h
      split_ifs at h
      · exact (List.prefix_append _ _).trans (ih h)
      · cases h
        exact List.prefix_rfl

theorem transmit_append_of_some {block taken : List α} {results : List Int} {x : Int}
    {sent : List α} (h : transmit block results x sent = some taken) (more : List Int) :
    transmit block (results ++ more) x sent = some taken := by
  induction results generalizing x sent with
  | nil =>
      rw [transmit] at h
      split_ifs at h with hgoing
      cases more with
      | nil => rw [List.append_nil, transmit, if_neg hgoing, h]
      | cons y more => rw [List.nil_append, transmit, if_neg hgoing, h]
  | cons y results ih =>
      rw [List.cons_append, transmit]
      rw [transmit] at h
      split_ifs at h ⊢
      · exact ih h
      · exact h

/-- Failures do not bring the loop to its end: they are added to `x`. -/
theorem transmit_append_of_none {block : List α} {results : List Int} {x : Int} {sent : List α}
    (h : transmit block results x sent = none) {more : List Int} (hmore : ∀ y ∈ more, y ≤ 0) :
    transmit block (results ++ more) x sent = none := by
  induction results generalizing x sent with
  | cons y results ih =>
      rw [List.cons_append, transmit]
      rw [transmit] at h
      split_ifs at h ⊢
      exact ih h
  | nil =>
      rw [transmit] at h
      split_ifs at h with hgoing
      rw [List.nil_append]
      clear h
      induction more generalizing x sent with
      | nil => rw [transmit, if_pos hgoing]
      | cons y more ih =>
          obtain ⟨hy, hmore⟩ := List.forall_mem_cons.mp hmore
          rw [transmit, if_pos hgoing]
          exact ih hmore (by omega)

/-- Every `write` that takes something takes the first piece. -/
theorem mem_take_of_pos (first : α) (rest : List α) {y : Int} (hy : 1 ≤ y) :
    first ∈ (first :: rest).take y.toNat := by
  obtain ⟨k, hk⟩ : ∃ k, y.toNat = k + 1 := ⟨y.toNat - 1, by omega⟩
  rw [hk, List.take_succ_cons]
  exact List.mem_cons_self

theorem transmit_repeats {first : α} {rest taken : List α} {y : Int} {results : List Int}
    (hy : 1 ≤ y) (hpart : y < (first :: rest).length) (hresults : ∀ z ∈ results, 1 ≤ z)
    (h : transmit (first :: rest) results y ((first :: rest).take y.toNat) = some taken) :
    ¬ taken.Nodup := by
  cases results with
  | nil =>
      rw [transmit, if_pos hpart] at h
      cases h
  | cons z results =>
      rw [transmit, if_pos hpart] at h
      have hprefix := transmit_extends h
      have hz := hresults z List.mem_cons_self
      intro hnodup
      have hdisjoint := (List.nodup_append.mp (hnodup.sublist hprefix.sublist)).2.2
      exact hdisjoint first (mem_take_of_pos first rest hy) first
        (mem_take_of_pos first rest hz) rfl

theorem transmit_at_once (block : List α) (results : List Int) :
    transmit block results block.length block = some block := by
  have hend : ¬ (block.length : Int) < block.length := Int.lt_irrefl _
  cases results <;> rw [transmit, if_neg hend]

/-- A block of distinct pieces has been sent once and in order exactly if the first `write` took it
all: the second begins with its first piece again. -/
theorem transmit_exact_iff {block taken : List α} (hdistinct : block.Nodup) (hblock : block ≠ [])
    {results : List Int} (hresults : ∀ y ∈ results, 1 ≤ y ∧ y ≤ block.length)
    (h : transmit block results 0 [] = some taken) :
    taken = block ↔ results.head? = some (block.length : Int) := by
  have hlength := List.length_pos_iff.mpr hblock
  cases results with
  | nil =>
      rw [transmit, if_pos (by omega)] at h
      cases h
  | cons y results =>
      obtain ⟨⟨hy, hle⟩, hresults⟩ := List.forall_mem_cons.mp hresults
      rw [transmit, if_pos (by omega), Int.zero_add, List.nil_append] at h
      rw [List.head?_cons, Option.some.injEq]
      constructor
      · intro htaken
        by_contra hpart
        obtain ⟨first, rest, rfl⟩ := List.exists_cons_of_ne_nil hblock
        refine transmit_repeats hy (by omega) (fun z hz => (hresults z hz).1) h ?_
        rw [htaken]
        exact hdistinct
      · intro hall
        rw [hall, Int.toNat_natCast, List.take_length, transmit_at_once] at h
        exact (Option.some.inj h).symm

end Transmit

/-! ### `send_to_file` -/

section SendToFile

variable (currentPath : List UInt16) (disk : FileSystem) (filename : QString) (fict size : Nat)

/-- `send_to_file`: what it returns and the bytes the socket has taken, each with its place in the
block; `none` if it has not returned after these results of `write`. -/
def sendToFile (results : List Int) : Option (Bool × List (UInt8 × Nat)) :=
  match fileBlock currentPath disk filename fict size with
  | none => some (false, [])
  | some block => (transmit block.zipIdx results 0 []).map (true, ·)

theorem sendToFile_writeLoop {block : List UInt8}
    (hblock : fileBlock currentPath disk filename fict size = some block) (results : List Int) :
    (sendToFile currentPath disk filename fict size results).map (fun r => r.2.map Prod.fst) =
      writeLoop block results 0 [] := by
  have hbytes : block.zipIdx.map Prod.fst = block := List.zipIdx_map_fst 0 block
  have hmap := transmit_map Prod.fst block.zipIdx results 0 []
  rw [hbytes, List.map_nil] at hmap
  rw [sendToFile, hblock, writeLoop_eq, hmap]
  exact Option.map_map _ _ _

variable {currentPath disk filename fict size}

theorem fileBlock_ne_nil {block : List UInt8}
    (hblock : fileBlock currentPath disk filename fict size = some block) : block ≠ [] := by
  rw [fileBlock_eq] at hblock
  dsimp only at hblock
  split_ifs at hblock
  cases hblock
  intro hnil
  have hlength := congrArg List.length hnil
  simp only [blockOf, List.length_append, toBytes_length, List.length_nil] at hlength
  omega

theorem zipIdx_nodup (block : List UInt8) : block.zipIdx.Nodup := by
  apply List.Nodup.of_map Prod.snd
  rw [List.zipIdx_map_snd]
  exact List.nodup_range'

/-- **Block transmission.** Whatever the file, and whatever part of what it is offered each `write`
takes: when `send_to_file` returns true, the socket has taken the bytes of the block once and in
order exactly if the first `write` took all of them. -/
theorem sendToFile_exact_iff {block : List UInt8} {results : List Int} {taken : List (UInt8 × Nat)}
    (hblock : fileBlock currentPath disk filename fict size = some block)
    (hresults : ∀ y ∈ results, 1 ≤ y ∧ y ≤ block.length)
    (hsend : sendToFile currentPath disk filename fict size results = some (true, taken)) :
    taken = block.zipIdx ↔ results.head? = some (block.length : Int) := by
  have hlength : block.zipIdx.length = block.length := List.length_zipIdx
  have hnonempty : block.zipIdx ≠ [] := by
    rw [Ne, List.zipIdx_eq_nil_iff]
    exact fileBlock_ne_nil hblock
  rw [sendToFile, hblock] at hsend
  obtain ⟨taken', htransmit, hpair⟩ := Option.map_eq_some_iff.mp hsend
  obtain rfl := congrArg Prod.snd hpair
  rw [← hlength] at hresults ⊢
  exact transmit_exact_iff (zipIdx_nodup block) hnonempty hresults htransmit

end SendToFile

def tinyDisk : FileSystem := fun _ => ⟨true, true, 1, [0x41]⟩

def tinyBlock : List UInt8 := [0, 0, 0, 9, 0, 0, 0, 4, 0, 0x2f, 0, 0x61, 0x41]

theorem sendToFile_exact_iff_at_once :
    ∃ taken, sendToFile [] tinyDisk (.lit "a") 0 0 [13] = some (true, taken) ∧
      taken = tinyBlock.zipIdx := by
  refine ⟨tinyBlock.zipIdx, by decide, ?_⟩
  exact (sendToFile_exact_iff (by decide : fileBlock [] tinyDisk (.lit "a") 0 0 = some tinyBlock)
    (by decide) (by decide : sendToFile [] tinyDisk (.lit "a") 0 0 [13] = _)).mpr (by decide)

/-- The first `write` takes one byte, and the second begins with this byte again: 14 bytes for
13. -/
theorem sendToFile_repeats :
    fileBlock [] tinyDisk (.lit "a") 0 0 = some tinyBlock ∧
      ∃ taken, sendToFile [] tinyDisk (.lit "a") 0 0 [1, 13] = some (true, taken) ∧
        taken = tinyBlock.zipIdx.take 1 ++ tinyBlock.zipIdx ∧ taken ≠ tinyBlock.zipIdx := by
  refine ⟨by decide, tinyBlock.zipIdx.take 1 ++ tinyBlock.zipIdx, by decide, rfl, by decide⟩

end NetworkHomework.Qt
