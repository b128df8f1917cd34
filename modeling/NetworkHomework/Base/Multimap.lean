import Mathlib

/-!
# Ordered multimaps

Pairs in the order of their keys, where keys of one rank count as the same key: `rank` is the
identity for an ordinary order, and forgets the case where the order does. A new pair goes behind
those of its key, so a multimap is built again from its pairs, taken in order (`emplaceAll_pairs`).
-/

namespace NetworkHomework

variable {κ ρ α : Type*} [LinearOrder ρ]

structure Multimap (rank : κ → ρ) (α : Type*) where
  pairs : List (κ × α)
  sorted : pairs.Pairwise fun p q => rank p.1 ≤ rank q.1

namespace Multimap

variable {rank : κ → ρ}

@[ext] theorem ext {m n : Multimap rank α} (h : m.pairs = n.pairs) : m = n := by
  cases m
  cases n
  cases h
  rfl

instance [DecidableEq κ] [DecidableEq α] : DecidableEq (Multimap rank α) := fun m n =>
  decidable_of_iff (m.pairs = n.pairs) ⟨ext, fun h => h ▸ rfl⟩

def empty : Multimap rank α := ⟨[], List.Pairwise.nil⟩

/-- Where a new pair with the key goes. -/
def upTo (rank : κ → ρ) (k : κ) (p : κ × α) : Bool := rank p.1 ≤ rank k

theorem lt_of_mem_dropWhile {pairs : List (κ × α)}
    (hsorted : pairs.Pairwise fun p q => rank p.1 ≤ rank q.1) {k : κ} {q : κ × α}
    (hq : q ∈ pairs.dropWhile (upTo rank k)) : rank k < rank q.1 := by
  induction pairs with
  | nil => cases hq
  | cons p pairs ih =>
      obtain ⟨hfirst, hrest⟩ := List.pairwise_cons.mp hsorted
      by_cases hp : rank p.1 ≤ rank k
      · rw [List.dropWhile_cons_of_pos (by simpa [upTo] using hp)] at hq
        exact ih hrest hq
      · rw [List.dropWhile_cons_of_neg (by simpa [upTo] using hp)] at hq
        rcases List.mem_cons.mp hq with rfl | hq
        · exact lt_of_not_ge hp
        · exact lt_of_lt_of_le (lt_of_not_ge hp) (hfirst q hq)

theorem le_of_mem_takeWhile {pairs : List (κ × α)} {k : κ} {q : κ × α}
    (hq : q ∈ pairs.takeWhile (upTo rank k)) : rank q.1 ≤ rank k := by
  have hupTo : upTo rank k q = true := List.mem_takeWhile_imp hq
  exact of_decide_eq_true hupTo

/-- `emplace`: behind the pairs of the same key. -/
def emplace (m : Multimap rank α) (p : κ × α) : Multimap rank α where
  pairs := m.pairs.takeWhile (upTo rank p.1) ++ p :: m.pairs.dropWhile (upTo rank p.1)
  sorted := by
    have hbefore := m.sorted.sublist (List.takeWhile_sublist (upTo rank p.1))
    have hbehind := m.sorted.sublist (List.dropWhile_sublist (upTo rank p.1))
    refine List.pairwise_append.mpr ⟨hbefore, List.pairwise_cons.mpr ⟨?_, hbehind⟩, ?_⟩
    · intro q hq
      exact le_of_lt (lt_of_mem_dropWhile m.sorted hq)
    · intro q hq r hr
      have hle := le_of_mem_takeWhile hq
      rcases List.mem_cons.mp hr with rfl | hr
      · exact hle
      · exact le_of_lt (lt_of_le_of_lt hle (lt_of_mem_dropWhile m.sorted hr))

/-- The value of the first pair with the key. -/
def get (m : Multimap rank α) (k : κ) : Option α :=
  (m.pairs.find? fun p => rank p.1 = rank k).map (·.2)

@[simp] theorem get_empty (k : κ) : (empty : Multimap rank α).get k = none := rfl

theorem get_emplace (m : Multimap rank α) (p : κ × α) (k : κ) :
    (m.emplace p).get k = (m.get k).or (if rank p.1 = rank k then some p.2 else none) := by
  have hpairs := List.takeWhile_append_dropWhile (p := upTo rank p.1) (l := m.pairs)
  have hget : m.get k =
      (((m.pairs.takeWhile (upTo rank p.1)).find? fun q => rank q.1 = rank k).or
        ((m.pairs.dropWhile (upTo rank p.1)).find? fun q => rank q.1 = rank k)).map (·.2) := by
    rw [← List.find?_append, hpairs]
    rfl
  rw [hget, get, emplace, List.find?_append, List.find?_cons]
  by_cases hp : rank p.1 = rank k
  · have hbehind : (m.pairs.dropWhile (upTo rank p.1)).find? (fun q => rank q.1 = rank k) =
        none := by
      rw [List.find?_eq_none]
      intro q hq
      have hlt := lt_of_mem_dropWhile m.sorted hq
      simpa [← hp] using ne_of_gt hlt
    rw [hbehind, if_pos hp]
    simp only [hp, decide_true]
    cases (m.pairs.takeWhile (upTo rank p.1)).find? fun q => rank q.1 = rank k <;> rfl
  · rw [if_neg hp, Option.or_none]
    simp only [hp, decide_false]

theorem emplace_last {m : Multimap rank α} {p : κ × α}
    (hlast : ∀ q ∈ m.pairs, rank q.1 ≤ rank p.1) :
    (m.emplace p).pairs = m.pairs ++ [p] := by
  have hall : ∀ q ∈ m.pairs, upTo rank p.1 q = true := fun q hq => decide_eq_true (hlast q hq)
  change m.pairs.takeWhile (upTo rank p.1) ++ p :: m.pairs.dropWhile (upTo rank p.1) = _
  rw [List.takeWhile_eq_self_iff.mpr hall, List.dropWhile_eq_nil_iff.mpr hall]

def emplaceAll (m : Multimap rank α) (pairs : List (κ × α)) : Multimap rank α :=
  pairs.foldl emplace m

theorem emplaceAll_behind {m : Multimap rank α} {pairs : List (κ × α)}
    (hsorted : (m.pairs ++ pairs).Pairwise fun p q => rank p.1 ≤ rank q.1) :
    (m.emplaceAll pairs).pairs = m.pairs ++ pairs := by
  induction pairs generalizing m with
  | nil => exact (List.append_nil _).symm
  | cons p pairs ih =>
      have hlast : (m.emplace p).pairs = m.pairs ++ [p] :=
        emplace_last fun q hq => (List.pairwise_append.mp hsorted).2.2 q hq p List.mem_cons_self
      change ((m.emplace p).emplaceAll pairs).pairs = _
      rw [ih (by rwa [hlast, List.append_assoc]), hlast, List.append_assoc]
      rfl

theorem emplaceAll_pairs (m : Multimap rank α) : empty.emplaceAll m.pairs = m :=
  ext (emplaceAll_behind m.sorted)

theorem mem_emplace {m : Multimap rank α} {p q : κ × α} :
    q ∈ (m.emplace p).pairs ↔ q = p ∨ q ∈ m.pairs := by
  have hpairs := List.takeWhile_append_dropWhile (p := upTo rank p.1) (l := m.pairs)
  conv_rhs => rw [← hpairs]
  change q ∈ m.pairs.takeWhile (upTo rank p.1) ++ p :: m.pairs.dropWhile (upTo rank p.1) ↔ _
  rw [List.mem_append, List.mem_append, List.mem_cons]
  exact or_left_comm

theorem get_emplace_of_ne {m : Multimap rank α} {p : κ × α} {k : κ} (hne : rank p.1 ≠ rank k) :
    (m.emplace p).get k = m.get k := by rw [get_emplace, if_neg hne, Option.or_none]

theorem get_emplace_of_none {m : Multimap rank α} {p : κ × α} {k : κ} (hnone : m.get k = none)
    (heq : rank p.1 = rank k) : (m.emplace p).get k = some p.2 := by
  rw [get_emplace, hnone, if_pos heq, Option.none_or]

/-! ### Equal pairs -/

theorem eraseDups_sublist {β : Type*} [BEq β] (xs : List β) : xs.eraseDups.Sublist xs := by
  induction hn : xs.length using Nat.strong_induction_on generalizing xs with
  | _ n ih =>
      cases xs with
      | nil => exact List.Sublist.refl _
      | cons x xs =>
          have hshort := List.length_filter_le (fun y => !y == x) xs
          rw [List.length_cons] at hn
          rw [List.eraseDups_cons]
          exact List.Sublist.cons_cons x ((ih _ (by omega) _ rfl).trans List.filter_sublist)

def distinct [BEq κ] [BEq α] (m : Multimap rank α) : Multimap rank α where
  pairs := m.pairs.eraseDups
  sorted := m.sorted.sublist (eraseDups_sublist m.pairs)

end Multimap

end NetworkHomework
