import Mathlib

/-!
# Arrays with checked stores, and portions of a content

An array has a fixed size, and a store outside it has no defined outcome. `storeFrom` writes a row
of cells through a cursor: `storeFrom_eq` says what the array holds afterwards, and
`storeFrom_isSome_iff` when all the stores are inside.

A portion of a content is the whole of it, or what its first elements leave, or these; `portion_eq`
is the one form in which a program gets it, as so many elements from a starting point on.
-/

namespace NetworkHomework

/-- An array of `size` cells. -/
structure Cells (α : Type*) (size : Nat) where
  cells : List α
  length_cells : cells.length = size

namespace Cells

variable {α : Type*} {size : Nat}

/-- `a[i] = x`, with no defined outcome if `i` is not an index. -/
def store (a : Cells α size) (i : Nat) (x : α) : Option (Cells α size) :=
  if i < size then some ⟨a.cells.set i x, by rw [List.length_set, a.length_cells]⟩ else none

/-- A row of stores through a cursor that starts at `i`. -/
def storeFrom (a : Cells α size) (i : Nat) : List α → Option (Cells α size)
  | [] => some a
  | x :: xs => (a.store i x).bind fun a => a.storeFrom (i + 1) xs

theorem store_isSome_iff (a : Cells α size) (i : Nat) (x : α) :
    (a.store i x).isSome ↔ i < size := by
  rw [store]
  split_ifs with hi
  · exact iff_of_true rfl hi
  · exact iff_of_false Bool.false_ne_true hi

theorem store_eq (a : Cells α size) {i : Nat} (hi : i < size) (x : α) :
    ∃ a', a.store i x = some a' ∧ a'.cells = a.cells.take i ++ x :: a.cells.drop (i + 1) := by
  refine ⟨_, if_pos hi, ?_⟩
  change a.cells.set i x = _
  rw [List.set_eq_take_append_cons_drop, if_pos (by rw [a.length_cells]; exact hi)]

theorem storeFrom_eq (a : Cells α size) {i : Nat} {xs : List α} (hfits : i + xs.length ≤ size) :
    ∃ a', a.storeFrom i xs = some a' ∧
      a'.cells = a.cells.take i ++ xs ++ a.cells.drop (i + xs.length) := by
  induction xs generalizing a i with
  | nil =>
      refine ⟨a, rfl, ?_⟩
      rw [List.append_nil, List.length_nil, Nat.add_zero, List.take_append_drop]
  | cons x xs ih =>
      rw [List.length_cons] at hfits
      obtain ⟨a₁, hstore, hcells₁⟩ := a.store_eq (by omega : i < size) x
      obtain ⟨a₂, hrest, hcells₂⟩ := ih a₁ (by omega : i + 1 + xs.length ≤ size)
      have hi : (a.cells.take i).length = i := by
        rw [List.length_take, a.length_cells]
        omega
      have hbefore : a₁.cells.take (i + 1) = a.cells.take i ++ [x] := by
        rw [hcells₁, List.take_append, hi, Nat.add_sub_cancel_left,
          List.take_of_length_le (by omega)]
        rfl
      have hbehind : a₁.cells.drop (i + 1 + xs.length) = a.cells.drop (i + (xs.length + 1)) := by
        rw [hcells₁, List.drop_append, hi, List.drop_of_length_le (by omega), List.nil_append,
          (by omega : i + 1 + xs.length - i = xs.length + 1), List.drop_succ_cons, List.drop_drop]
        congr 1
        omega
      refine ⟨a₂, Option.bind_eq_some_iff.mpr ⟨a₁, hstore, hrest⟩, ?_⟩
      rw [hcells₂, hbefore, hbehind, List.append_assoc (a.cells.take i), List.singleton_append,
        List.length_cons]

theorem storeFrom_isSome_iff (a : Cells α size) {i : Nat} (hi : i ≤ size) (xs : List α) :
    (a.storeFrom i xs).isSome ↔ i + xs.length ≤ size := by
  constructor
  · intro hsome
    induction xs generalizing a i with
    | nil => exact hi
    | cons x xs ih =>
        obtain ⟨a', hstores⟩ := Option.isSome_iff_exists.mp hsome
        obtain ⟨a₁, hstore, hrest⟩ := Option.bind_eq_some_iff.mp hstores
        have hinside := (a.store_isSome_iff i x).mp (Option.isSome_iff_exists.mpr ⟨a₁, hstore⟩)
        have hfits := ih a₁ hinside (Option.isSome_iff_exists.mpr ⟨a', hrest⟩)
        rw [List.length_cons]
        omega
  · intro hfits
    obtain ⟨a', hstores, _⟩ := a.storeFrom_eq hfits
    exact Option.isSome_iff_exists.mpr ⟨a', hstores⟩

end Cells

/-! ### Portions -/

section Portions

variable {α : Type*}

/-- In mode 1 a content without its first `size` elements, in mode 2 only these, otherwise all of
it. -/
def portion (content : List α) (mode size : Nat) : List α :=
  if mode = 1 then content.drop (min size content.length)
  else if mode = 2 then content.take (min size content.length)
  else content

/-- Where the portion begins in a content of `length` elements. -/
def portionStart (length mode size : Nat) : Nat := if mode = 1 then min size length else 0

def portionLength (length mode size : Nat) : Nat :=
  if mode = 1 then length - min size length else if mode = 2 then min size length else length

theorem portion_length (content : List α) (mode size : Nat) :
    (portion content mode size).length = portionLength content.length mode size := by
  rw [portion, portionLength]
  split_ifs
  · exact List.length_drop
  · rw [List.length_take, Nat.min_eq_left (Nat.min_le_right _ _)]
  · rfl

theorem portion_eq (content : List α) (mode size : Nat) :
    portion content mode size =
      (content.drop (portionStart content.length mode size)).take
        (portionLength content.length mode size) := by
  rw [portion, portionStart, portionLength]
  split_ifs
  · rw [List.take_of_length_le (Nat.le_of_eq List.length_drop)]
  · rfl
  · rw [List.drop_zero, List.take_length]

end Portions

end NetworkHomework
