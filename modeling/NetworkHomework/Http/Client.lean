import NetworkHomework.Base.Arrays

/-!
# The download of the HTTP client

`main` has an array of 10000 bytes, a pointer into it and a separate count. The library calls the
receiver with the body of the response in chunks; the receiver counts a chunk and copies it through
the pointer, without a look at the size of the array. Behind the download goes a terminator, and
what has been counted is written to the file. `download_iff` says which responses fit, terminator
included.
-/

namespace NetworkHomework.Http

def bodySize : Nat := 10000

/-- `body`, `p - body` and `lenght_f`. -/
structure Download where
  body : Cells UInt8 bodySize
  p : Nat
  lenghtF : Nat

namespace Download

/-- The receiver: the chunk is counted, then copied byte by byte through `p`. -/
def receive (d : Download) (data : List UInt8) : Option Download :=
  (d.body.storeFrom d.p data).map fun body => ⟨body, d.p + data.length, d.lenghtF + data.length⟩

def finish (d : Download) : Option (List UInt8) :=
  (d.body.store d.lenghtF 0).map fun body => body.cells.take d.lenghtF

structure Holds (received : List UInt8) (d : Download) : Prop where
  count : d.lenghtF = received.length
  cursor : d.p = received.length
  inside : received.length ≤ bodySize
  front : d.body.cells.take received.length = received

theorem Holds.receive {received : List UInt8} {d : Download} (h : Holds received d)
    {data : List UInt8} (hfits : (received ++ data).length ≤ bodySize) :
    ∃ d', d.receive data = some d' ∧ Holds (received ++ data) d' := by
  have hlength : (received ++ data).length = received.length + data.length := List.length_append
  obtain ⟨body, hstores, hcells⟩ :=
    d.body.storeFrom_eq (by rw [h.cursor]; omega : d.p + data.length ≤ bodySize)
  refine ⟨⟨body, d.p + data.length, d.lenghtF + data.length⟩, by rw [Download.receive, hstores]; rfl, ?_, ?_,
    hfits, ?_⟩
  · rw [hlength, ← h.count]
  · rw [hlength, ← h.cursor]
  · dsimp only
    rw [hcells, h.cursor, h.front]
    exact List.take_left

theorem Holds.receive_none {received : List UInt8} {d : Download} (h : Holds received d)
    {data : List UInt8} (hlong : bodySize < (received ++ data).length) : d.receive data = none := by
  have hinside : d.p ≤ bodySize := by
    rw [h.cursor]
    exact h.inside
  have hstores := d.body.storeFrom_isSome_iff hinside data
  rw [List.length_append] at hlong
  rw [Download.receive, Option.map_eq_none_iff, ← Option.not_isSome_iff_eq_none, hstores, h.cursor]
  omega

theorem Holds.finish {received : List UInt8} {d : Download} (h : Holds received d) :
    d.finish = if received.length < bodySize then some received else none := by
  rw [Download.finish, h.count]
  split_ifs with hfits
  · obtain ⟨body, hstore, hcells⟩ := d.body.store_eq hfits (0 : UInt8)
    have hlength : (d.body.cells.take received.length).length = received.length := by rw [h.front]
    rw [hstore, Option.map_some, hcells, List.take_left' hlength, h.front]
  · rw [Option.map_eq_none_iff, ← Option.not_isSome_iff_eq_none, d.body.store_isSome_iff]
    exact hfits

end Download

/-- The bytes written to the output file; `none` if a store has been outside the array. -/
def download (body : Cells UInt8 bodySize) (chunks : List (List UInt8)) : Option (List UInt8) := do
  let d ← chunks.foldlM Download.receive ⟨body, 0, 0⟩
  d.finish

theorem Download.start_holds (body : Cells UInt8 bodySize) : Download.Holds [] ⟨body, 0, 0⟩ :=
  ⟨rfl, rfl, Nat.zero_le _, List.take_zero⟩

theorem receive_all {received : List UInt8} {d : Download} (h : Download.Holds received d)
    (chunks : List (List UInt8)) :
    (chunks.foldlM Download.receive d).bind Download.finish =
      if (received ++ chunks.flatten).length < bodySize then
        some (received ++ chunks.flatten) else none := by
  induction chunks generalizing received d with
  | nil =>
      rw [List.flatten_nil, List.append_nil]
      exact h.finish
  | cons data chunks ih =>
      rw [List.flatten_cons, ← List.append_assoc, List.foldlM_cons]
      by_cases hfits : (received ++ data).length ≤ bodySize
      · obtain ⟨d', hreceive, hholds⟩ := h.receive hfits
        rw [hreceive]
        exact ih hholds
      · rw [h.receive_none (Nat.lt_of_not_le hfits), if_neg]
        · rfl
        · rw [List.length_append]
          omega

theorem download_eq (body : Cells UInt8 bodySize) (chunks : List (List UInt8)) :
    download body chunks =
      if chunks.flatten.length < bodySize then some chunks.flatten else none :=
  receive_all (Download.start_holds body) chunks

/-- **Download.** Whatever was in the array and however the response is cut into chunks, all stores
are inside and the file is the response exactly if this has less than 10000 bytes. -/
theorem download_iff (body : Cells UInt8 bodySize) (chunks : List (List UInt8)) :
    download body chunks = some chunks.flatten ↔ chunks.flatten.length < 10000 := by
  rw [download_eq]
  by_cases hfits : chunks.flatten.length < bodySize
  · rw [if_pos hfits]
    exact iff_of_true rfl hfits
  · rw [if_neg hfits]
    exact iff_of_false (fun h => by cases h) hfits

def zeroedBody : Cells UInt8 bodySize := ⟨List.replicate bodySize 0, List.length_replicate⟩

/-- Ten thousand bytes in two chunks fill the array, and the terminator goes behind it. -/
theorem download_overflows :
    download zeroedBody [List.replicate 4000 0x41, List.replicate 6000 0x42] = none := by
  rw [download_eq, if_neg]
  rw [List.flatten_cons, List.flatten_cons, List.flatten_nil, List.append_nil, List.length_append,
    List.length_replicate, List.length_replicate, bodySize]
  omega

end NetworkHomework.Http
