import Mathlib

/-!
# Path names, lexically

A path is written as names between slashes. `push` is what one name does to the directory it is
looked up in when nothing is a symbolic link: a name goes down, `..` goes up, and `.` and the empty
name behind a trailing slash stay. Normalising a path from the root is pushing its names one after
the other; a path that starts nowhere keeps the `..` it cannot resolve, which is `pushRelative`.
-/

namespace NetworkHomework.Paths

/-- What paths are made of: characters or bytes, three of which are special. -/
class PathChar (α : Type) where
  slash : α
  dot : α
  nul : α
  dot_ne_slash : dot ≠ slash
  nul_ne_slash : nul ≠ slash
  nul_ne_dot : nul ≠ dot

instance : PathChar Char := ⟨'/', '.', Char.ofNat 0, by decide, by decide, by decide⟩

instance : PathChar UInt8 := ⟨0x2f, 0x2e, 0, by decide, by decide, by decide⟩

open PathChar

abbrev Name (α : Type) := List α

variable {α : Type} [PathChar α]

structure Proper (n : Name α) : Prop where
  nonempty : n ≠ []
  noSlash : slash ∉ n
  notDot : n ≠ [dot]
  notDotDot : n ≠ [dot, dot]

theorem Proper.named {n : Name α} (hn : Proper n) : n ≠ [] ∧ slash ∉ n := ⟨hn.nonempty, hn.noSlash⟩

def slashed (l : List (Name α)) : List α := l.flatMap (slash :: ·)

theorem slashed_append (l l' : List (Name α)) : slashed (l ++ l') = slashed l ++ slashed l' :=
  List.flatMap_append

theorem slashed_eq_intercalate {l : List (Name α)} (hl : l ≠ []) :
    slashed l = slash :: [slash].intercalate l := by
  induction l with
  | nil => exact absurd rfl hl
  | cons n l ih =>
      cases l with
      | nil => simp [slashed]
      | cons m l =>
          have htail := ih (List.cons_ne_nil m l)
          rw [List.intercalate_cons_cons, ← List.singleton_append, slashed_append, htail]
          simp [slashed]

theorem getLast?_slashed {l : List (Name α)} (hl : ∀ n ∈ l, n ≠ [] ∧ slash ∉ n) :
    (slashed l).getLast? ≠ some slash := by
  obtain rfl | ⟨front, last, rfl⟩ := List.eq_nil_or_concat' l
  · simp [slashed]
  · obtain ⟨hne, hslash⟩ := hl last (by simp)
    obtain ⟨chars, c, rfl⟩ := (List.eq_nil_or_concat' last).resolve_left hne
    have hend : slashed (front ++ [chars ++ [c]]) = slashed front ++ slash :: chars ++ [c] := by
      simp [slashed]
    rw [hend, List.getLast?_concat]
    intro h
    exact hslash (by simp [Option.some.inj h])

theorem notProper_dotDot : ¬ Proper ([dot, dot] : Name α) ∧ slash ∉ ([dot, dot] : Name α) := by
  have hne : (slash : α) ≠ dot := dot_ne_slash.symm
  exact ⟨fun h => h.notDotDot rfl, by simp [hne]⟩

theorem notProper_dot : ¬ Proper ([dot] : Name α) ∧ slash ∉ ([dot] : Name α) := by
  have hne : (slash : α) ≠ dot := dot_ne_slash.symm
  exact ⟨fun h => h.notDot rfl, by simp [hne]⟩

theorem nul_not_mem_of_not_proper {n : Name α} (hn : ¬ Proper n) (hslash : slash ∉ n) :
    nul ∉ n := by
  intro hnul
  refine hn ⟨List.ne_nil_of_mem hnul, hslash, ?_, ?_⟩
  · rintro rfl
    exact nul_ne_dot (List.mem_singleton.mp hnul)
  · rintro rfl
    simp [nul_ne_dot] at hnul

/-- All names of the path's own come last, as they do in one that is normalised. -/
def UpFirst (l : List (Name α)) : Prop :=
  ∃ up down, l = up ++ down ∧ (∀ n ∈ up, ¬ Proper n ∧ slash ∉ n) ∧ ∀ n ∈ down, Proper n

theorem upFirst_of_proper {l : List (Name α)} (hl : ∀ n ∈ l, Proper n) : UpFirst l :=
  ⟨[], l, rfl, fun _ hn => absurd hn List.not_mem_nil, hl⟩

theorem UpFirst.filter {l : List (Name α)} (h : UpFirst l) (keep : Name α → Bool) :
    UpFirst (l.filter keep) := by
  obtain ⟨up, down, rfl, hup, hdown⟩ := h
  refine ⟨up.filter keep, down.filter keep, List.filter_append up down, fun n hn =>
    ?_, fun n hn => ?_⟩
  · exact hup n (List.mem_filter.mp hn).1
  · exact hdown n (List.mem_filter.mp hn).1

variable [DecidableEq α]

instance (n : Name α) : Decidable (Proper n) :=
  decidable_of_iff (n ≠ [] ∧ slash ∉ n ∧ n ≠ [dot] ∧ n ≠ [dot, dot])
    ⟨fun ⟨h₁, h₂, h₃, h₄⟩ => ⟨h₁, h₂, h₃, h₄⟩, fun ⟨h₁, h₂, h₃, h₄⟩ => ⟨h₁, h₂, h₃, h₄⟩⟩

/-! ### Names in a string -/

def names (s : List α) : List (Name α) := (s.splitOn slash).filter (· ≠ [])

theorem names_append_slash (s t : List α) : names (s ++ slash :: t) = names s ++ names t := by
  rw [names, List.splitOn_append_cons_self, List.filter_append]
  rfl

theorem names_nil : names ([] : List α) = [] := rfl

theorem names_cons_slash (s : List α) : names (slash :: s) = names s := names_append_slash [] s

theorem names_single {n : Name α} (hne : n ≠ []) (hslash : slash ∉ n) : names n = [n] := by
  rw [names, List.splitOn_eq_singleton hslash]
  simp [hne]

theorem names_slashed {l : List (Name α)} (hne : ∀ n ∈ l, n ≠ []) (hslash : ∀ n ∈ l, slash ∉ n) :
    names (slashed l) = l := by
  induction l using List.reverseRecOn with
  | nil => rfl
  | append_singleton l n ih =>
      have hsplit : slashed (l ++ [n]) = slashed l ++ slash :: n := by simp [slashed]
      rw [hsplit, names_append_slash, ih (fun m hm => hne m (by simp [hm])) fun m hm =>
        hslash m (by simp [hm]),
        names_single (hne n (by simp)) (hslash n (by simp))]

private theorem mem_splitOn {s n : List α} (hn : n ∈ s.splitOn slash) {c : α} (hc : c ∈ n) :
    c ∈ s ∧ c ≠ slash := by
  induction s generalizing n with
  | nil =>
      rw [List.splitOn_nil, List.mem_singleton] at hn
      exact absurd hc (hn ▸ List.not_mem_nil)
  | cons d s ih =>
      rw [List.splitOn_cons_eq_if_modifyHead] at hn
      split_ifs at hn with hd
      · rcases List.mem_cons.mp hn with rfl | hn
        · exact absurd hc List.not_mem_nil
        · exact (ih hn hc).imp_left (List.mem_cons_of_mem d)
      · cases hsplit : s.splitOn slash with
        | nil => exact absurd hsplit (List.splitOn_ne_nil slash s)
        | cons m l =>
            rw [hsplit] at ih hn
            rcases List.mem_cons.mp hn with rfl | hn
            · rcases List.mem_cons.mp hc with rfl | hc
              · exact ⟨List.mem_cons_self, by simpa using hd⟩
              · exact (ih List.mem_cons_self hc).imp_left (List.mem_cons_of_mem d)
            · exact (ih (List.mem_cons_of_mem m hn) hc).imp_left (List.mem_cons_of_mem d)

theorem mem_names {s : List α} {n : Name α} (hn : n ∈ names s) : n ≠ [] ∧ slash ∉ n := by
  obtain ⟨hmem, hne⟩ := List.mem_filter.mp hn
  exact ⟨of_decide_eq_true hne, fun hslash => (mem_splitOn hmem hslash).2 rfl⟩

theorem names_subset {s : List α} {n : Name α} (hn : n ∈ names s) : n ⊆ s := fun _ hc =>
  (mem_splitOn (List.mem_filter.mp hn).1 hc).1

theorem names_cons_ne_nil {c : α} (hc : c ≠ slash) (s : List α) : names (c :: s) ≠ [] := by
  intro hnil
  rw [names, List.splitOn_cons_eq_if_modifyHead, if_neg (by simpa using hc)] at hnil
  cases hsplit : s.splitOn slash with
  | nil => exact absurd hsplit (List.splitOn_ne_nil slash s)
  | cons m l => simp [hsplit] at hnil

theorem names_intercalate {l : List (Name α)} (hl : ∀ n ∈ l, n ≠ [] ∧ slash ∉ n) :
    names ([slash].intercalate l) = l := by
  cases hl' : l with
  | nil => rfl
  | cons n tail =>
      rw [← names_cons_slash, ← slashed_eq_intercalate (List.cons_ne_nil n tail), ← hl',
        names_slashed (fun m hm => (hl m hm).1) fun m hm => (hl m hm).2]

/-- Strings by the parts between their slashes. -/
theorem segment_induction {motive : List α → Prop} (last : ∀ part, slash ∉ part → motive part)
    (more : ∀ part s, slash ∉ part → motive s → motive (part ++ slash :: s)) (s : List α) :
    motive s := by
  induction hn : s.length using Nat.strong_induction_on generalizing s with
  | _ n ih =>
      by_cases hslash : slash ∈ s
      · obtain ⟨part, rest, rfl, hpart⟩ := List.eq_append_cons_of_mem hslash
        refine more part rest hpart (ih rest.length ?_ rest rfl)
        rw [← hn, List.length_append, List.length_cons]
        omega
      · exact last s hslash

theorem names_part {part : List α} (hslash : slash ∉ part) :
    names part = if part = [] then [] else [part] := by
  split_ifs with hnil
  · rw [hnil, names_nil]
  · exact names_single hnil hslash

theorem mem_iff_names {c : α} (hc : c ≠ slash) {s : List α} : c ∈ s ↔ ∃ n ∈ names s, c ∈ n := by
  refine ⟨fun hmem => ?_, fun ⟨n, hn, hcn⟩ => names_subset hn hcn⟩
  induction s using segment_induction with
  | last part hslash =>
      rw [names_part hslash, if_neg (List.ne_nil_of_mem hmem)]
      exact ⟨part, List.mem_singleton_self part, hmem⟩
  | more part s hslash ih =>
      rw [names_append_slash]
      rcases List.mem_append.mp hmem with hpart | hrest
      · rw [names_part hslash, if_neg (List.ne_nil_of_mem hpart)]
        exact ⟨part, List.mem_cons_self, hpart⟩
      · obtain ⟨n, hn, hcn⟩ := ih ((List.mem_cons.mp hrest).resolve_left hc)
        exact ⟨n, List.mem_append_right _ hn, hcn⟩

theorem names_behind {parent : List (Name α)} {last : Name α}
    (hnamed : ∀ n ∈ parent ++ [last], n ≠ [] ∧ slash ∉ n) (s : List α) :
    ∃ cut below, slash ∉ cut ∧ names s = names cut ++ below
      ∧ names (slashed (parent ++ [last]) ++ s) = parent ++ (last ++ cut) :: below := by
  have hlast := hnamed last (by simp)
  have hparent : names (slashed parent) = parent :=
    names_slashed (fun n hn => (hnamed n (by simp [hn])).1) fun n hn => (hnamed n (by simp [hn])).2
  have hstart (t : List α) : names (slashed (parent ++ [last]) ++ t) =
      parent ++ names (last ++ t) := by
    have hsplit : slashed (parent ++ [last]) ++ t = slashed parent ++ slash :: (last ++ t) := by
      simp [slashed]
    rw [hsplit, names_append_slash, hparent]
  have hjoined {cut : List α} (hcut : slash ∉ cut) : names (last ++ cut) = [last ++ cut] :=
    names_single (by simp [hlast.1]) (by simp [hlast.2, hcut])
  by_cases hslash : slash ∈ s
  · obtain ⟨cut, t, rfl, hcut⟩ := List.eq_append_cons_of_mem hslash
    refine ⟨cut, names t, hcut, names_append_slash cut t, ?_⟩
    rw [hstart, ← List.append_assoc, names_append_slash, hjoined hcut]
    rfl
  · exact ⟨s, [], hslash, (List.append_nil _).symm, by rw [hstart, hjoined hslash]⟩

/-! ### Up to the first null character -/

/-- What a string is to a function of C. -/
def cStr (s : List α) : List α := s.takeWhile (· ≠ nul)

theorem cStr_of_not_mem {s : List α} (hs : nul ∉ s) : cStr s = s :=
  List.takeWhile_eq_self_iff.mpr fun _ hc => decide_eq_true fun hnul => hs (hnul ▸ hc)

theorem cStr_append {s : List α} (hs : nul ∉ s) (t : List α) : cStr (s ++ t) = s ++ cStr t :=
  List.takeWhile_append_of_pos fun _ hc => decide_eq_true fun hnul => hs (hnul ▸ hc)

theorem cStr_append_of_mem {s : List α} (hs : nul ∈ s) (t : List α) : cStr (s ++ t) = cStr s := by
  obtain ⟨front, back, rfl, hfront⟩ := List.eq_append_cons_of_mem hs
  rw [List.append_assoc, cStr_append hfront, cStr_append hfront, cStr, cStr, List.cons_append,
    List.takeWhile_cons_of_neg (by simp), List.takeWhile_cons_of_neg (by simp)]

theorem cStr_cons_slash (s : List α) : cStr (slash :: s) = slash :: cStr s :=
  List.takeWhile_cons_of_pos (decide_eq_true nul_ne_slash.symm)

/-- The names up to the first null character in them. -/
def cutNames : List (Name α) → List (Name α)
  | [] => []
  | n :: l => if nul ∈ n then [cStr n] else n :: cutNames l

theorem cutNames_of_not_mem {l : List (Name α)} (hl : ∀ n ∈ l, nul ∉ n) : cutNames l = l := by
  induction l with
  | nil => rfl
  | cons n l ih =>
      rw [cutNames, if_neg (hl n List.mem_cons_self), ih fun m hm =>
        hl m (List.mem_cons_of_mem n hm)]

theorem cutNames_append {l : List (Name α)} (hl : ∀ n ∈ l, nul ∉ n) (l' : List (Name α)) :
    cutNames (l ++ l') = l ++ cutNames l' := by
  induction l with
  | nil => rfl
  | cons n l ih =>
      rw [List.cons_append, cutNames, if_neg (hl n List.mem_cons_self),
        ih fun m hm => hl m (List.mem_cons_of_mem n hm), List.cons_append]

theorem cutNames_cons_of_mem {n : Name α} (hn : nul ∈ n) (l : List (Name α)) :
    cutNames (n :: l) = [cStr n] := if_pos hn

theorem names_cStr (s : List α) : names (cStr s) = (cutNames (names s)).filter (· ≠ []) := by
  induction s using segment_induction with
  | last part hslash =>
      have hcut : slash ∉ cStr part := fun h => hslash ((List.takeWhile_prefix _).subset h)
      rw [names_part hslash, names_part hcut]
      by_cases hnul : nul ∈ part
      · have hne : part ≠ [] := List.ne_nil_of_mem hnul
        rw [if_neg hne, cutNames_cons_of_mem hnul]
        split_ifs with hnil
        · simp [hnil]
        · simp [hnil]
      · rw [cStr_of_not_mem hnul]
        split_ifs with hnil
        · rfl
        · rw [cutNames_of_not_mem (List.forall_mem_singleton.mpr hnul)]
          simp [hnil]
  | more part s hslash ih =>
      rw [names_append_slash]
      by_cases hnul : nul ∈ part
      · have hcut : slash ∉ cStr part := fun h => hslash ((List.takeWhile_prefix _).subset h)
        have hne : part ≠ [] := List.ne_nil_of_mem hnul
        rw [cStr_append_of_mem hnul, names_part hcut, names_part hslash, if_neg hne,
          List.singleton_append,
          cutNames_cons_of_mem hnul]
        split_ifs with hnil
        · simp [hnil]
        · simp [hnil]
      · have hkept : ∀ n ∈ names part, nul ∉ n := fun n hn hmem => hnul (names_subset hn hmem)
        have hfull : (names part).filter (· ≠ []) = names part :=
          List.filter_eq_self.mpr fun n hn => decide_eq_true (mem_names hn).1
        rw [cStr_append hnul, cStr_cons_slash, names_append_slash, ih, cutNames_append hkept,
          List.filter_append,
          hfull]

/-! ### Lexical normalisation -/

def push (dir : List (Name α)) (n : Name α) : List (Name α) :=
  if n = [] ∨ n = [dot] then dir else if n = [dot, dot] then dir.dropLast else dir ++ [n]

def pushRelative (dir : List (Name α)) (n : Name α) : List (Name α) :=
  if n = [] ∨ n = [dot] then dir
  else if n = [dot, dot] then
    if dir = [] ∨ dir.getLast? = some [dot, dot] then dir ++ [n] else dir.dropLast
  else dir ++ [n]

theorem push_nil (dir : List (Name α)) : push dir [] = dir := if_pos (Or.inl rfl)

theorem push_dot (dir : List (Name α)) : push dir [dot] = dir := if_pos (Or.inr rfl)

theorem push_dotDot (dir : List (Name α)) : push dir [dot, dot] = dir.dropLast := by
  rw [push, if_neg (by simp), if_pos rfl]

theorem push_proper {n : Name α} (hn : Proper n) (dir : List (Name α)) :
    push dir n = dir ++ [n] := by
  rw [push, if_neg, if_neg hn.notDotDot]
  rintro (hnil | hdot)
  · exact hn.nonempty hnil
  · exact hn.notDot hdot

theorem foldl_push_filter (l dir : List (Name α)) :
    (l.filter (· ≠ [])).foldl push dir = l.foldl push dir := by
  induction l generalizing dir with
  | nil => rfl
  | cons n l ih =>
      by_cases hn : n = []
      · rw [hn, List.filter_cons_of_neg (by simp), ih, List.foldl_cons, push_nil]
      · rw [List.filter_cons_of_pos (by simpa using hn), List.foldl_cons, ih, List.foldl_cons]

private theorem mem_foldl {β : Type*} {f : List (List β) → List β → List (List β)}
    (hf : ∀ {dir m n}, n ∈ f dir m → n ∈ dir ∨ n = m ∧ m ≠ []) {dir l : List (List β)} {n : List β}
    (hn : n ∈ l.foldl f dir) : n ∈ dir ∨ n ∈ l ∧ n ≠ [] := by
  induction l generalizing dir with
  | nil => exact .inl hn
  | cons m l ih =>
      rcases ih hn with hstep | ⟨hmem, hne⟩
      · refine (hf hstep).imp_right ?_
        rintro ⟨rfl, hne⟩
        exact ⟨List.mem_cons_self, hne⟩
      · exact .inr ⟨List.mem_cons_of_mem m hmem, hne⟩

private theorem mem_append_name {β : Type*} {dir : List (List β)} {m n : List β} {stays : Prop}
    (hgo : ¬(m = [] ∨ stays)) (hn : n ∈ dir ++ [m]) : n ∈ dir ∨ n = m ∧ m ≠ [] :=
  (List.mem_append.mp hn).imp_right fun hnew => ⟨List.mem_singleton.mp hnew, (not_or.mp hgo).1⟩

theorem mem_foldl_push {dir l : List (Name α)} {n : Name α} (hn : n ∈ l.foldl push dir) :
    n ∈ dir ∨ n ∈ l ∧ n ≠ [] := by
  refine mem_foldl (fun {dir m n} hpushed => ?_) hn
  rw [push] at hpushed
  split_ifs at hpushed with hstay hup
  · exact .inl hpushed
  · exact .inl (List.dropLast_subset dir hpushed)
  · exact mem_append_name hstay hpushed

theorem mem_foldl_pushRelative {dir l : List (Name α)} {n : Name α}
    (hn : n ∈ l.foldl pushRelative dir) :
    n ∈ dir ∨ n ∈ l ∧ n ≠ [] := by
  refine mem_foldl (fun {dir m n} hpushed => ?_) hn
  rw [pushRelative] at hpushed
  split_ifs at hpushed with hstay hup hkeep
  · exact .inl hpushed
  · exact mem_append_name hstay hpushed
  · exact .inl (List.dropLast_subset dir hpushed)
  · exact mem_append_name hstay hpushed

theorem foldl_push_proper {l : List (Name α)} (hl : ∀ n ∈ l, Proper n) (dir : List (Name α)) :
    l.foldl push dir = dir ++ l := by
  induction l generalizing dir with
  | nil => exact (List.append_nil dir).symm
  | cons n l ih =>
      rw [List.foldl_cons, push_proper (hl n List.mem_cons_self),
        ih (fun m hm => hl m (List.mem_cons_of_mem n hm)), List.append_assoc, List.singleton_append]

theorem foldl_push_all_proper {l dir : List (Name α)} (hdir : ∀ n ∈ dir, Proper n)
    (hl : ∀ n ∈ l, slash ∉ n) :
    ∀ n ∈ l.foldl push dir, Proper n := by
  induction l generalizing dir with
  | nil => exact hdir
  | cons n l ih =>
      refine ih ?_ fun m hm => hl m (List.mem_cons_of_mem n hm)
      rw [push]
      split_ifs with hstay hup
      · exact hdir
      · exact fun m hm => hdir m (List.dropLast_subset dir hm)
      · intro m hm
        rcases List.mem_append.mp hm with hold | hnew
        · exact hdir m hold
        · cases List.mem_singleton.mp hnew
          rw [not_or] at hstay
          exact ⟨hstay.1, hl n List.mem_cons_self, hstay.2, hup⟩

private theorem pushRelative_push {acc : List (Name α)} (hacc : ∀ n ∈ acc, n ≠ [] ∧ n ≠ [dot])
    (n : Name α) (dir : List (Name α)) :
    (∀ m ∈ pushRelative acc n, m ≠ [] ∧ m ≠ [dot])
      ∧ (pushRelative acc n).foldl push dir = push (acc.foldl push dir) n := by
  have happend : ¬(n = [] ∨ n = [dot]) → ∀ m ∈ acc ++ [n], m ≠ [] ∧ m ≠ [dot] := by
    intro hgo m hm
    rcases List.mem_append.mp hm with hold | hnew
    · exact hacc m hold
    · exact List.mem_singleton.mp hnew ▸ not_or.mp hgo
  rw [pushRelative]
  split_ifs with hstay hup hkeep
  · exact ⟨hacc, (if_pos hstay).symm⟩
  · exact ⟨happend hstay, by simp⟩
  · refine ⟨fun m hm => hacc m (List.dropLast_subset acc hm), ?_⟩
    -- the `..` takes back the name pushed last, which went down
    rw [not_or] at hkeep
    obtain ⟨front, last, rfl⟩ := (List.eq_nil_or_concat' acc).resolve_left hkeep.1
    have hlast := hacc last (by simp)
    have hdown : push (front.foldl push dir) last = front.foldl push dir ++ [last] := by
      rw [push, if_neg (by simp [hlast]), if_neg (by simpa using hkeep.2)]
    subst hup
    rw [List.dropLast_concat, List.foldl_append, List.foldl_cons, List.foldl_nil,
      hdown, push_dotDot,
      List.dropLast_concat]
  · exact ⟨happend hstay, by simp⟩

theorem push_of_not_proper {n : Name α} (hn : ¬ Proper n) (hslash : slash ∉ n)
    (dir : List (Name α)) :
    push dir n <+: dir := by
  rw [push]
  split_ifs with hstay hup
  · exact List.prefix_rfl
  · exact List.dropLast_prefix dir
  · rw [not_or] at hstay
    exact absurd ⟨hstay.1, hslash, hstay.2, hup⟩ hn

theorem foldl_push_of_not_proper {l : List (Name α)} (hl : ∀ n ∈ l, ¬ Proper n ∧ slash ∉ n)
    (dir : List (Name α)) : l.foldl push dir <+: dir := by
  induction l generalizing dir with
  | nil => exact List.prefix_rfl
  | cons n l ih =>
      obtain ⟨hn, hrest⟩ := List.forall_mem_cons.mp hl
      rw [List.foldl_cons]
      exact (ih hrest (push dir n)).trans (push_of_not_proper hn.1 hn.2 dir)

theorem prefix_append_cases {β : Type*} {dir l front : List β} (h : front <+: dir ++ l) :
    front <+: dir ∨ ∃ more, more <+: l ∧ front = dir ++ more := by
  rcases List.prefix_or_prefix_of_prefix h (List.prefix_append dir l) with habove | ⟨more, rfl⟩
  · exact Or.inl habove
  · exact Or.inr ⟨more, (List.prefix_append_right_inj dir).mp h, rfl⟩

/-- From below a directory only `..` leads out of it, and a name of its own leads back. -/
theorem foldl_push_cut {parent : List (Name α)} {last : Name α} (cut : Name α)
    {below : List (Name α)} (hbelow : ∀ n ∈ below, Proper n) :
    parent ++ [last] <+: (cut :: below).foldl push (parent ++ [last])
      ↔ (cut = [dot, dot] → below.head? = some last) := by
  rw [List.foldl_cons, foldl_push_proper hbelow, push]
  split_ifs with hstay hup
  · refine iff_of_true (List.prefix_append _ _) fun hup => ?_
    simp [hup] at hstay
  · rw [List.dropLast_concat, List.prefix_append_right_inj, List.singleton_prefix_iff_head?_eq_some]
    exact ⟨fun hhead _ => hhead, fun hhead => hhead hup⟩
  · simp [hup, List.append_assoc]

theorem foldl_push_foldl_pushRelative (dir l : List (Name α)) :
    (l.foldl pushRelative []).foldl push dir = l.foldl push dir := by
  have hgen : ∀ acc : List (Name α), (∀ n ∈ acc, n ≠ [] ∧ n ≠ [dot]) →
      (l.foldl pushRelative acc).foldl push dir = l.foldl push (acc.foldl push dir) := by
    induction l with
    | nil => exact fun acc _ => rfl
    | cons n l ih =>
        intro acc hacc
        obtain ⟨hkept, hsame⟩ := pushRelative_push hacc n dir
        rw [List.foldl_cons, List.foldl_cons, ih _ hkept, hsame]
  exact hgen [] fun n hn => absurd hn List.not_mem_nil

/-! ### Normalised paths with null characters -/

theorem foldl_push_cutNames_filter (l dir : List (Name α)) :
    (cutNames (l.filter (· ≠ []))).foldl push dir = (cutNames l).foldl push dir := by
  induction l generalizing dir with
  | nil => rfl
  | cons n l ih =>
      by_cases hn : n = []
      · subst hn
        rw [List.filter_cons_of_neg (by simp), ih, cutNames, if_neg List.not_mem_nil,
          List.foldl_cons, push_nil]
      · rw [List.filter_cons_of_pos (by simpa using hn), cutNames, cutNames]
        split_ifs
        · rfl
        · rw [List.foldl_cons, List.foldl_cons, ih]

theorem upFirst_cons {n : Name α} (hn : slash ∉ n) {l : List (Name α)} (hl : ∀ m ∈ l, Proper m) :
    UpFirst (n :: l) := by
  by_cases hproper : Proper n
  · exact upFirst_of_proper (List.forall_mem_cons.mpr ⟨hproper, hl⟩)
  · exact ⟨[n], l, rfl, List.forall_mem_singleton.mpr ⟨hproper, hn⟩, hl⟩

theorem upFirst_pushRelative {l : List (Name α)} (hl : ∀ n ∈ l, slash ∉ n) :
    UpFirst (l.foldl pushRelative []) := by
  have hgen : ∀ up down : List (Name α), (∀ n ∈ up, n = [dot, dot]) → (∀ n ∈ down, Proper n) →
      ∃ up' down', l.foldl pushRelative (up ++ down) = up' ++ down' ∧ (∀ n ∈ up', n = [dot, dot]) ∧
        ∀ n ∈ down', Proper n := by
    induction l with
    | nil => exact fun up down hup hdown => ⟨up, down, rfl, hup, hdown⟩
    | cons n l ih =>
        intro up down hup hdown
        obtain ⟨hn, hrest⟩ := List.forall_mem_cons.mp hl
        rw [List.foldl_cons, pushRelative]
        split_ifs with hstay hdots hkeep
        · exact ih hrest up down hup hdown
        · -- nothing proper is left that the `..` could take back
          have hnone : down = [] := by
            obtain rfl | ⟨front, last, rfl⟩ := List.eq_nil_or_concat' down
            · rfl
            · rw [← List.append_assoc, List.getLast?_concat] at hkeep
              rcases hkeep with hnil | hlast
              · simp at hnil
              · exact absurd (Option.some.inj hlast) (hdown last (by simp)).notDotDot
          subst hnone
          have hmore : up ++ [] ++ [n] = up ++ [n] ++ [] := by simp
          rw [hmore]
          exact ih hrest (up ++ [n]) [] (List.forall_mem_append.mpr ⟨hup, List.forall_mem_singleton.mpr hdots⟩)
            hdown
        · obtain rfl | ⟨front, last, rfl⟩ := List.eq_nil_or_concat' down
          · rw [not_or, List.append_nil] at hkeep
            obtain ⟨front, last, rfl⟩ := (List.eq_nil_or_concat' up).resolve_left hkeep.1
            rw [List.getLast?_concat] at hkeep
            exact absurd (congrArg some (hup last (by simp))) hkeep.2
          · rw [← List.append_assoc, List.dropLast_concat]
            exact ih hrest up front hup fun m hm => hdown m (List.mem_append_left _ hm)
        · rw [not_or] at hstay
          rw [List.append_assoc]
          exact ih hrest up (down ++ [n]) hup
            (List.forall_mem_append.mpr ⟨hdown, List.forall_mem_singleton.mpr ⟨hstay.1, hn, hstay.2, hdots⟩⟩)
  obtain ⟨up, down, hl', hup, hdown⟩ := hgen [] [] (fun _ h => absurd h List.not_mem_nil)
    fun _ h => absurd h List.not_mem_nil
  exact ⟨up, down, hl', fun n hn => (hup n hn).symm ▸ notProper_dotDot, hdown⟩

theorem exists_first_nul (l : List (Name α)) :
    (∀ n ∈ l, nul ∉ n) ∨ ∃ front n back, l = front ++ n :: back ∧ (∀ m ∈ front, nul ∉ m) ∧
    nul ∈ n := by
  induction l with
  | nil => exact Or.inl fun _ hn => absurd hn List.not_mem_nil
  | cons n l ih =>
      by_cases hn : nul ∈ n
      · exact Or.inr ⟨[], n, l, rfl, fun _ hm => absurd hm List.not_mem_nil, hn⟩
      · rcases ih with hfree | ⟨front, m, back, rfl, hfront, hm⟩
        · exact Or.inl (List.forall_mem_cons.mpr ⟨hn, hfree⟩)
        · exact Or.inr ⟨n :: front, m, back, rfl, List.forall_mem_cons.mpr ⟨hn, hfront⟩, hm⟩

/-- Cut short or not, the names lead back into the directory or out of it; where it makes a
difference, those up to the null character lead through nothing but directories above. -/
theorem UpFirst.cut {l dir : List (Name α)} (h : UpFirst l) (hdir : ∀ n ∈ dir, nul ∉ n) :
    (dir <+: l.foldl push dir ↔ dir <+: (cutNames l).foldl push dir) ∨
      ∀ front, front <+: cutNames l → front.foldl push dir <+: dir := by
  rcases exists_first_nul l with hfree | ⟨names, n, back, rfl, hfree, hn⟩
  · rw [cutNames_of_not_mem hfree]
    exact Or.inl Iff.rfl
  obtain ⟨up, down, hsplit, hup, hdown⟩ := h
  -- the name with the null character is one of the path's own
  obtain ⟨more, rfl, rfl⟩ : ∃ more, names = up ++ more ∧ down = more ++ n :: back := by
    rcases List.append_eq_append_iff.mp hsplit with ⟨more, hnames, hrest⟩ | ⟨more, hnames, hrest⟩
    · cases more with
      | nil => exact ⟨[], by rw [hnames, List.append_nil, List.append_nil], hrest.symm⟩
      | cons m more =>
          obtain ⟨rfl, -⟩ := List.cons.inj hrest
          have hmem : n ∈ up := by simp [hnames]
          exact absurd hn (nul_not_mem_of_not_proper (hup n hmem).1 (hup n hmem).2)
    · exact ⟨more, hnames, hrest⟩
  obtain ⟨hmore, htail⟩ := List.forall_mem_append.mp hdown
  have hX : up.foldl push dir <+: dir := foldl_push_of_not_proper hup dir
  generalize hplace : (up ++ more).foldl push dir = place
  have hplace' : up.foldl push dir ++ more = place := by
    rw [← hplace, List.foldl_append, foldl_push_proper hmore]
  have hwhole : (up ++ more ++ n :: back).foldl push dir = place ++ n :: back := by
    rw [List.foldl_append, hplace, foldl_push_proper htail]
  have hinside : dir <+: place ++ n :: back ↔ dir <+: place := by
    refine ⟨fun hprefix => ?_, fun hprefix => hprefix.trans (List.prefix_append _ _)⟩
    rcases prefix_append_cases hprefix with hin | ⟨tail, htail, rfl⟩
    · exact hin
    · rcases List.prefix_cons_iff.mp htail with rfl | ⟨tail, rfl, -⟩
      · rw [List.append_nil]
      · exact absurd hn (hdir n (by simp))
  rw [hwhole, hinside, cutNames_append hfree, cutNames_cons_of_mem hn, List.foldl_append, hplace,
    List.foldl_cons, List.foldl_nil]
  have hfronts (habove : place <+: dir) {front : List (Name α)} (hfront : front <+: up ++ more) :
      front.foldl push dir <+: dir := by
    rcases prefix_append_cases hfront with hin | ⟨most, hmost, rfl⟩
    · exact foldl_push_of_not_proper (fun m hm => hup m (hin.subset hm)) dir
    · rw [List.foldl_append, foldl_push_proper fun m hm => hmore m (hmost.subset hm)]
      exact (((List.prefix_append_right_inj _).mpr hmost).trans (hplace' ▸ List.prefix_rfl)).trans
        habove
  by_cases hall : place <+: dir ∧ push place (cStr n) <+: dir
  · right
    intro front hfront
    rcases List.prefix_concat_iff.mp hfront with rfl | hfront
    · rw [List.foldl_append, hplace]
      exact hall.2
    · exact hfronts hall.1 hfront
  · left
    rw [push] at hall ⊢
    split_ifs at hall ⊢ with hstay hdots
    · rfl
    · obtain rfl | ⟨front, last, rfl⟩ := List.eq_nil_or_concat' place
      · rfl
      · rw [List.dropLast_concat] at hall ⊢
        rw [List.prefix_concat_iff]
        refine or_iff_right fun hsame => hall ⟨hsame ▸ List.prefix_rfl, ?_⟩
        exact hsame ▸ List.prefix_append _ _
    · have hne : dir ≠ place ++ [cStr n] := fun hsame =>
        hall ⟨hsame ▸ List.prefix_append _ _, hsame ▸ List.prefix_rfl⟩
      rw [List.prefix_concat_iff]
      exact (or_iff_right hne).symm

end NetworkHomework.Paths
