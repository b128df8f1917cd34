import Mathlib

/-!
# Words and decimal numerals

A reader that skips blanks and takes what is up to the next one gets a word as it was written. The
numeral of a number, as code units of some kind, consists of digits, does not start with a zero
unless it is `0`, and a reader that takes its digits one by one comes to the number.
-/

namespace NetworkHomework.Numerals

theorem word_behind_blanks {α : Type*} {blank : α → Bool} {token : List α} (hne : token ≠ [])
    (htoken : ∀ u ∈ token, blank u = false) {blanks rest : List α}
    (hblanks : ∀ u ∈ blanks, blank u = true) (hrest : ∀ u ∈ rest.head?, blank u = true) :
    (blanks ++ token ++ rest).dropWhile blank = token ++ rest ∧
      (token ++ rest).takeWhile (! blank ·) = token ∧
      (token ++ rest).dropWhile (! blank ·) = rest := by
  have hall : ∀ u ∈ token, (! blank u) = true := fun u hu => by simp [htoken u hu]
  refine ⟨?_, ?_, ?_⟩
  · rw [List.append_assoc, List.dropWhile_append_of_pos hblanks]
    cases token with
    | nil => exact absurd rfl hne
    | cons u us => rw [List.cons_append, List.dropWhile_cons_of_neg (by simp [htoken u])]
  · rw [List.takeWhile_append_of_pos hall]
    cases rest with
    | nil => simp
    | cons u rest => simp [hrest u rfl]
  · rw [List.dropWhile_append_of_pos hall]
    cases rest with
    | nil => simp
    | cons u rest => simp [hrest u rfl]

theorem exists_word_of_rest {α : Type*} {blank : α → Bool} {s rest : List α}
    (hleft : (s.dropWhile blank).dropWhile (! blank ·) = rest) (hrest : rest ≠ []) :
    ∃ blanks token, s = blanks ++ token ++ rest ∧ (∀ u ∈ blanks, blank u = true) ∧ token ≠ [] ∧
      (∀ u ∈ token, blank u = false) ∧ ∀ u ∈ rest.head?, blank u = true := by
  have hword : s.dropWhile blank = (s.dropWhile blank).takeWhile (! blank ·) ++ rest := by
    rw [← hleft, List.takeWhile_append_dropWhile]
  have hhead : ∀ u ∈ rest.head?, blank u = true := by
    intro u hu
    have hend := List.head?_dropWhile_not (! blank ·) (s.dropWhile blank)
    rw [hleft, Option.mem_def.mp hu] at hend
    simpa using hend
  refine ⟨s.takeWhile blank, (s.dropWhile blank).takeWhile (! blank ·), ?_, ?_, ?_, ?_, hhead⟩
  · rw [List.append_assoc, ← hword, List.takeWhile_append_dropWhile]
  · exact fun u hu => List.mem_takeWhile_imp hu
  · intro hnil
    obtain ⟨u, hu⟩ := Option.isSome_iff_exists.mp (List.isSome_head?.mpr hrest)
    have hfront := List.head?_dropWhile_not blank s
    rw [hword, hnil, List.nil_append, hu] at hfront
    simp [hhead u hu] at hfront
  · intro u hu
    simpa using List.mem_takeWhile_imp hu

/-- The decimal numeral of a number, written in the units of some encoding of characters. -/
def numeral {α : Type*} (unit : ℕ → α) (n : ℕ) : List α :=
  (Nat.toDigits 10 n).map fun c => unit c.toNat

variable {α : Type*} {unit : ℕ → α}

theorem digit_bounds {n : ℕ} {c : Char} (hc : c ∈ Nat.toDigits 10 n) :
    0x30 ≤ c.toNat ∧ c.toNat ≤ 0x39 := by
  have hdigit := Nat.isDigit_of_mem_toDigits (by decide) (by decide) hc
  simp only [Char.isDigit, Bool.and_eq_true, decide_eq_true_eq, ge_iff_le] at hdigit
  exact hdigit

theorem mem_numeral {n : ℕ} {u : α} (hu : u ∈ numeral unit n) :
    ∃ d, d < 10 ∧ u = unit (0x30 + d) := by
  obtain ⟨c, hc, rfl⟩ := List.mem_map.mp hu
  obtain ⟨hlow, hhigh⟩ := digit_bounds hc
  exact ⟨c.toNat - 0x30, by omega, by rw [Nat.add_sub_of_le hlow]⟩

theorem numeral_ne_nil (n : ℕ) : numeral unit n ≠ [] := by
  rw [numeral, ne_eq, List.map_eq_nil_iff]
  exact Nat.toDigits_ne_nil

theorem foldl_numeral {value : α → ℕ} (hvalue : ∀ d < 10, value (unit (0x30 + d)) = d) (n : ℕ) :
    (numeral unit n).foldl (fun m u => 10 * m + value u) 0 = n := by
  have hread : (Nat.toDigits 10 n).foldl (fun m c => 10 * m + value (unit c.toNat)) 0 =
      Nat.ofDigitChars 10 (Nat.toDigits 10 n) 0 := by
    refine List.foldl_ext _ _ 0 fun m c hc => ?_
    obtain ⟨hlow, hhigh⟩ := digit_bounds hc
    have hdigit := hvalue (c.toNat - 0x30) (by omega)
    rw [Nat.add_sub_of_le hlow] at hdigit
    rw [hdigit]
    rfl
  rw [numeral, List.foldl_map, hread, Nat.ofDigitChars_ten_toDigits]

theorem numeral_leading {n : ℕ} (hn : 0 < n) :
    ∃ d rest, 0 < d ∧ d < 10 ∧ numeral unit n = unit (0x30 + d) :: rest := by
  induction n using Nat.base_induction 10 (by decide) with
  | single m hm =>
      refine ⟨m, [], hn, hm, ?_⟩
      rw [numeral, Nat.toDigits_of_lt_base hm, List.map_singleton, Nat.toNat_digitChar_of_lt_ten hm]
  | digit m k hk hm ih =>
      obtain ⟨d, rest, hpos, hd, hfirst⟩ := ih hm
      refine ⟨d, rest ++ numeral unit k, hpos, hd, ?_⟩
      rw [numeral, ← Nat.toDigits_append_toDigits (by decide) hm hk, List.map_append]
      rw [numeral] at hfirst
      rw [hfirst]
      rfl

end NetworkHomework.Numerals
