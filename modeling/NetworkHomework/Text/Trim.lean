import Mathlib

/-!
# `trim`

The three functions that the console programs copy from one another, with the `std::string`
functions they are made of. A position is `none` for `npos`; `npos + 1` wraps to `0`, so that a
string of white space only is erased from its start.
-/

namespace NetworkHomework.Text

/-- `ws`: space, tab, line feed, carriage return, form feed, vertical tab. -/
def ws : List UInt8 := [0x20, 0x09, 0x0a, 0x0d, 0x0c, 0x0b]

def isWs (c : UInt8) : Bool := c ∈ ws

def findFirstNotOf (s : List UInt8) : Option Nat := s.findIdx? (! isWs ·)

def findLastNotOf (s : List UInt8) : Option Nat :=
  (s.reverse.findIdx? (! isWs ·)).map (s.length - 1 - ·)

/-- `npos + 1`, or the position behind a position. -/
def behind : Option Nat → Nat
  | none => 0
  | some i => i + 1

/-- `s.erase(pos, count)`, `npos` as a count being all there is; `none` where it throws. -/
def erase (s : List UInt8) (pos : Nat) (count : Option Nat) : Option (List UInt8) :=
  if pos ≤ s.length then some (s.take pos ++ s.drop (pos + count.getD s.length)) else none

def rtrim (s : List UInt8) : Option (List UInt8) := erase s (behind (findLastNotOf s)) none

def ltrim (s : List UInt8) : Option (List UInt8) := erase s 0 (findFirstNotOf s)

def trim (s : List UInt8) : Option (List UInt8) := (rtrim s).bind ltrim

/-- A string without the white space at its two ends. -/
def stripped (s : List UInt8) : List UInt8 := (s.rdropWhile isWs).dropWhile isWs

theorem drop_findFirstNotOf (s : List UInt8) :
    s.drop ((findFirstNotOf s).getD s.length) = s.dropWhile isWs := by
  induction s with
  | nil => rfl
  | cons c s ih =>
      rw [findFirstNotOf, List.findIdx?_cons, List.dropWhile_cons]
      cases hc : isWs c with
      | false => rfl
      | true =>
          rw [findFirstNotOf] at ih
          rw [if_pos rfl, ← ih]
          cases s.findIdx? (! isWs ·) <;> rfl

theorem ltrim_eq (s : List UInt8) : ltrim s = some (s.dropWhile isWs) := by
  rw [ltrim, erase, if_pos (Nat.zero_le _), Nat.zero_add, drop_findFirstNotOf]
  rfl

theorem behind_findLastNotOf_concat (s : List UInt8) (c : UInt8) :
    behind (findLastNotOf (s ++ [c])) = if isWs c then
      behind (findLastNotOf s) else s.length + 1 := by
  rw [findLastNotOf, findLastNotOf, List.reverse_append, List.reverse_singleton,
    List.singleton_append,
    List.findIdx?_cons, List.length_append, List.length_singleton]
  cases hc : isWs c with
  | false => rfl
  | true =>
      cases s.reverse.findIdx? (! isWs ·) with
      | none => rfl
      | some n =>
          have hn : s.length + 1 - 1 - (n + 1) = s.length - 1 - n := by omega
          exact congrArg (· + 1) hn

theorem rtrim_eq (s : List UInt8) : rtrim s = some (s.rdropWhile isWs) := by
  -- taking the string from its end, as the search does
  have hspec : behind (findLastNotOf s) ≤ s.length ∧
      s.take (behind (findLastNotOf s)) = s.rdropWhile isWs := by
    induction s using List.reverseRecOn with
    | nil => exact ⟨Nat.le_refl 0, rfl⟩
    | append_singleton s c ih =>
        obtain ⟨hle, htake⟩ := ih
        rw [behind_findLastNotOf_concat, List.rdropWhile_concat, List.length_append,
          List.length_singleton]
        split_ifs
        · exact ⟨Nat.le_succ_of_le hle, by rw [List.take_append_of_le_length hle, htake]⟩
        · exact ⟨Nat.le_refl _, List.take_of_length_le (by simp)⟩
  have hall : s.drop (behind (findLastNotOf s) + s.length) = [] :=
    List.drop_eq_nil_of_le (Nat.le_add_left _ _)
  rw [rtrim, erase, if_pos hspec.1, hspec.2, Option.getD_none, hall, List.append_nil]

theorem trim_eq (s : List UInt8) : trim s = some (stripped s) := by
  rw [trim, rtrim_eq, Option.bind_some, ltrim_eq, stripped]

/-! ### What is left of a string -/

/-- `r` is `s` without white space at its two ends: none is left, and nothing else is gone. -/
structure Trimmed (s r : List UInt8) : Prop where
  cut : ∃ a b, (∀ c ∈ a, c ∈ ws) ∧ (∀ c ∈ b, c ∈ ws) ∧ s = a ++ r ++ b
  ends : r = [] ∨ (∃ c ∈ r.head?, c ∉ ws) ∧ ∃ c ∈ r.getLast?, c ∉ ws

theorem isWs_iff {c : UInt8} : isWs c = true ↔ c ∈ ws := decide_eq_true_iff

theorem not_mem_ws {c : UInt8} (hc : ¬ isWs c = true) : c ∉ ws := fun hmem => hc (isWs_iff.mpr hmem)

theorem stripped_trimmed (s : List UInt8) : Trimmed s (stripped s) := by
  have hfront : (s.rdropWhile isWs).takeWhile isWs ++ stripped s = s.rdropWhile isWs :=
    List.takeWhile_append_dropWhile
  refine ⟨⟨(s.rdropWhile isWs).takeWhile isWs, s.rtakeWhile isWs, fun c hc => ?_, fun c hc => ?_, ?_⟩, ?_⟩
  · exact isWs_iff.mp (List.mem_takeWhile_imp hc)
  · exact isWs_iff.mp (List.mem_rtakeWhile_imp hc)
  · rw [hfront, List.rdropWhile_append_rtakeWhile]
  · cases hstripped : stripped s with
    | nil => exact Or.inl rfl
    | cons c r =>
        refine Or.inr ⟨⟨c, rfl, ?_⟩, ?_⟩
        · have hhead := List.head?_dropWhile_not isWs (s.rdropWhile isWs)
          rw [← stripped, hstripped] at hhead
          exact not_mem_ws (by simpa using hhead)
        · rw [hstripped] at hfront
          have hne : s.rdropWhile isWs ≠ [] := by
            rw [← hfront]
            exact List.append_ne_nil_of_right_ne_nil _ (List.cons_ne_nil c r)
          have hlast : (c :: r).getLast? = some ((s.rdropWhile isWs).getLast hne) := by
            rw [← List.getLast?_eq_some_getLast hne,
              ← List.getLast?_append_of_ne_nil _ (List.cons_ne_nil c r), hfront]
          exact ⟨_, hlast, not_mem_ws (List.rdropWhile_last_not isWs s hne)⟩

theorem Trimmed.self {s r : List UInt8} (h : Trimmed s r) : Trimmed r r :=
  ⟨⟨[], [], nofun, nofun, by simp⟩, h.ends⟩

theorem Trimmed.stripped_eq {s r : List UInt8} (h : Trimmed s r) : stripped s = r := by
  obtain ⟨⟨a, b, ha, hb, rfl⟩, hends⟩ := h
  have hfront : ∀ c ∈ a, isWs c = true := fun c hc => isWs_iff.mpr (ha c hc)
  have hback : ∀ c ∈ b.reverse, isWs c = true :=
    fun c hc => isWs_iff.mpr (hb c (List.mem_reverse.mp hc))
  have hcut : (a ++ r ++ b).rdropWhile isWs = (a ++ r).rdropWhile isWs := by
    rw [List.rdropWhile, List.reverse_append, List.dropWhile_append_of_pos hback, ← List.rdropWhile]
  rw [stripped, hcut]
  cases hends with
  | inl hnil =>
      subst hnil
      have hall : (a ++ []).rdropWhile isWs = [] := by
        rw [List.append_nil, List.rdropWhile_eq_nil_iff]
        exact hfront
      rw [hall]
      rfl
  | inr hne =>
      obtain ⟨⟨c, hc, hcws⟩, d, hd, hdws⟩ := hne
      have hkeep : (a ++ r).rdropWhile isWs = a ++ r := by
        obtain ⟨front, hr⟩ := List.getLast?_eq_some_iff.mp hd
        rw [hr, ← List.append_assoc]
        exact List.rdropWhile_concat_neg _ _ _ (fun hws => hdws (isWs_iff.mp hws))
      rw [hkeep, List.dropWhile_append_of_pos hfront]
      obtain ⟨back, hr⟩ := List.head?_eq_some_iff.mp hc
      rw [hr]
      exact List.dropWhile_cons_of_neg (fun hws => hcws (isWs_iff.mp hws))

end NetworkHomework.Text
