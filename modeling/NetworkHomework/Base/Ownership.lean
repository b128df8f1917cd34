import Mathlib

/-!
# Owners of reusable names

Names are given out, given back and given out again, each time for a new thing; owners hold names
and pass them on. The trouble is a name that is given back by somebody who no longer holds it, since
it may stand for another thing by then. `Kept` is the invariant that rules this out: no two owners
hold one name, a name that is held stands for what it stood for when it was acquired, and whatever
was acquired is held or was released, once.
-/

namespace NetworkHomework

variable {Owner Name Thing : Type}

/-- What each owner holds and each name stands for, with the names acquired and released so far,
each with what it stood for at that moment. -/
@[ext] structure Holdings (Owner Name Thing : Type) where
  held : Owner → Option Name
  table : Name → Option Thing
  entered : List (Name × Option Thing)
  released : List (Name × Option Thing)

namespace Holdings

section

variable [DecidableEq Owner] [DecidableEq Name]

def acquire (s : Holdings Owner Name Thing) (x : Owner) (k : Name) : Holdings Owner Name Thing :=
  { s with held := Function.update s.held x (some k), entered := s.entered ++ [(k, s.table k)] }

def release (s : Holdings Owner Name Thing) (x : Owner) (k : Name) : Holdings Owner Name Thing :=
  { s with
    held := Function.update s.held x none
    table := Function.update s.table k none
    released := s.released ++ [(k, s.table k)] }

def pass (s : Holdings Owner Name Thing) (y x : Owner) : Holdings Owner Name Thing :=
  { s with held := Function.update (Function.update s.held x (s.held y)) y none }

def setName (s : Holdings Owner Name Thing) (k : Name) (thing : Option Thing) :
    Holdings Owner Name Thing :=
  { s with table := Function.update s.table k thing }

variable (s : Holdings Owner Name Thing) (x y : Owner) (k : Name) (thing : Option Thing)

omit [DecidableEq Name] in
@[simp] theorem acquire_held : (s.acquire x k).held = Function.update s.held x (some k) := rfl

@[simp] theorem release_held : (s.release x k).held = Function.update s.held x none := rfl

@[simp] theorem release_table : (s.release x k).table = Function.update s.table k none := rfl

omit [DecidableEq Name] in
@[simp] theorem pass_held :
    (s.pass y x).held = Function.update (Function.update s.held x (s.held y)) y none := rfl

omit [DecidableEq Owner] in
@[simp] theorem setName_table : (s.setName k thing).table = Function.update s.table k thing := rfl

end

structure Kept (s : Holdings Owner Name Thing) : Prop where
  alone : ∀ x y k, s.held x = some k → s.held y = some k → x = y
  live : ∀ x k, s.held x = some k → (s.table k).isSome ∧ (k, s.table k) ∈ s.entered
  named : ∀ e ∈ s.entered, e.2.isSome
  kept : ∀ e ∈ s.entered, e ∈ s.released ∨ ((∃ x, s.held x = some e.1) ∧ s.table e.1 = e.2)
  owned : ∀ e ∈ s.released, e ∈ s.entered
  gone : ∀ e ∈ s.released, s.table e.1 ≠ e.2
  entered_nodup : s.entered.Nodup
  released_nodup : s.released.Nodup

theorem Kept.released_perm {s : Holdings Owner Name Thing} (h : s.Kept)
    (hnone : ∀ x, s.held x = none) :
    s.released.Perm s.entered := by
  rw [List.perm_ext_iff_of_nodup h.released_nodup h.entered_nodup]
  intro e
  refine ⟨h.owned e, fun he => (h.kept e he).resolve_right ?_⟩
  rintro ⟨⟨x, hx⟩, _⟩
  rw [hnone x] at hx
  cases hx

theorem kept_start (table : Name → Option Thing) :
    Kept (⟨fun _ => none, table, [], []⟩ : Holdings Owner Name Thing) where
  alone x y k hx := by cases hx
  live x k hx := by cases hx
  named e he := absurd he List.not_mem_nil
  kept e he := absurd he List.not_mem_nil
  owned e he := absurd he List.not_mem_nil
  gone e he := absurd he List.not_mem_nil
  entered_nodup := List.nodup_nil
  released_nodup := List.nodup_nil

section

variable [DecidableEq Owner] [DecidableEq Name] {s : Holdings Owner Name Thing}

omit [DecidableEq Name] in
private theorem held_acquire {x y : Owner} {k l : Name} (hy : (s.acquire x k).held y = some l) :
    (y = x ∧ l = k) ∨ (y ≠ x ∧ s.held y = some l) := by
  rw [acquire_held, Function.update_apply] at hy
  split_ifs at hy with hyx
  · exact Or.inl ⟨hyx, (Option.some.inj hy).symm⟩
  · exact Or.inr ⟨hyx, hy⟩

omit [DecidableEq Name] in
theorem Kept.acquire (h : s.Kept) {x : Owner} {k : Name} (hx : s.held x = none)
    (hk : (s.table k).isSome) (hfree : ∀ y, s.held y ≠ some k) : (s.acquire x k).Kept where
  alone y z l hy hz := by
    rcases held_acquire hy with ⟨hyx, hlk⟩ | ⟨_, hy'⟩
    · rcases held_acquire hz with ⟨hzx, _⟩ | ⟨_, hz'⟩
      · rw [hyx, hzx]
      · exact absurd (hlk ▸ hz') (hfree z)
    · rcases held_acquire hz with ⟨_, hlk⟩ | ⟨_, hz'⟩
      · exact absurd (hlk ▸ hy') (hfree y)
      · exact h.alone y z l hy' hz'
  live y l hy := by
    rcases held_acquire hy with ⟨_, rfl⟩ | ⟨_, hy'⟩
    · exact ⟨hk, List.mem_append_right _ List.mem_cons_self⟩
    · obtain ⟨hsome, hentered⟩ := h.live y l hy'
      exact ⟨hsome, List.mem_append_left _ hentered⟩
  named e he := by
    rcases List.mem_append.mp he with he | he
    · exact h.named e he
    · obtain rfl := List.mem_singleton.mp he
      exact hk
  kept e he := by
    rcases List.mem_append.mp he with he | he
    · rcases h.kept e he with hreleased | ⟨⟨y, hy⟩, htable⟩
      · exact Or.inl hreleased
      · have hyx : y ≠ x := ne_of_apply_ne s.held (by rw [hy, hx]; exact Option.some_ne_none _)
        exact Or.inr ⟨⟨y, (Function.update_of_ne hyx _ _).trans hy⟩, htable⟩
    · obtain rfl := List.mem_singleton.mp he
      exact Or.inr ⟨⟨x, Function.update_self ..⟩, rfl⟩
  owned e he := List.mem_append_left _ (h.owned e he)
  gone := h.gone
  entered_nodup := by
    have hnew : (k, s.table k) ∉ s.entered := by
      intro hentered
      rcases h.kept _ hentered with hreleased | ⟨⟨y, hy⟩, _⟩
      · exact h.gone _ hreleased rfl
      · exact hfree y hy
    exact List.nodup_append_comm.mp (List.nodup_cons.mpr ⟨hnew, h.entered_nodup⟩)
  released_nodup := h.released_nodup

private theorem held_release (h : s.Kept) {x y : Owner} {k l : Name} (hx : s.held x = some k)
    (hy : (s.release x k).held y = some l) :
    s.held y = some l ∧ (s.release x k).table l = s.table l := by
  rw [release_held, Function.update_apply] at hy
  split_ifs at hy with hyx
  have hlk : l ≠ k := fun heq => hyx (h.alone y x k (heq ▸ hy) hx)
  exact ⟨hy, Function.update_of_ne hlk _ _⟩

theorem Kept.release (h : s.Kept) {x : Owner} {k : Name} (hx : s.held x = some k) :
    (s.release x k).Kept where
  alone y z l hy hz := h.alone y z l (held_release h hx hy).1 (held_release h hx hz).1
  live y l hy := by
    obtain ⟨hy, htable⟩ := held_release h hx hy
    rw [htable]
    exact h.live y l hy
  named := h.named
  kept e he := by
    rcases h.kept e he with hreleased | ⟨⟨y, hy⟩, htable⟩
    · exact Or.inl (List.mem_append_left _ hreleased)
    · by_cases hek : e.1 = k
      · refine Or.inl (List.mem_append_right _ ?_)
        rw [List.mem_singleton, ← hek, htable]
      · have hyx : y ≠ x :=
          ne_of_apply_ne s.held (by rw [hy, hx]; exact fun heq => hek (Option.some.inj heq))
        refine Or.inr ⟨⟨y, ?_⟩, ?_⟩
        · exact (Function.update_of_ne hyx _ _).trans hy
        · exact (Function.update_of_ne hek _ _).trans htable
  owned e he := by
    rcases List.mem_append.mp he with he | he
    · exact h.owned e he
    · obtain rfl := List.mem_singleton.mp he
      exact (h.live x k hx).2
  gone e he := by
    have hnamed : e.2.isSome := by
      rcases List.mem_append.mp he with he | he
      · exact h.named e (h.owned e he)
      · obtain rfl := List.mem_singleton.mp he
        exact (h.live x k hx).1
    intro htable
    rw [release_table, Function.update_apply] at htable
    split_ifs at htable with hek
    · rw [← htable] at hnamed
      cases hnamed
    · rcases List.mem_append.mp he with he | he
      · exact h.gone e he htable
      · exact hek (congrArg Prod.fst (List.mem_singleton.mp he))
  entered_nodup := h.entered_nodup
  released_nodup := by
    have hnew : (k, s.table k) ∉ s.released := fun hreleased => h.gone _ hreleased rfl
    exact List.nodup_append_comm.mp (List.nodup_cons.mpr ⟨hnew, h.released_nodup⟩)

omit [DecidableEq Name] in
private theorem held_pass {x y z : Owner} {l : Name} (hz : (s.pass y x).held z = some l) :
    s.held (if z = x then y else z) = some l ∧ z ≠ y := by
  rw [pass_held, Function.update_apply, Function.update_apply] at hz
  split_ifs at hz with hzy hzx
  · exact ⟨by rw [if_pos hzx]; exact hz, hzy⟩
  · exact ⟨by rw [if_neg hzx]; exact hz, hzy⟩

omit [DecidableEq Name] in
theorem Kept.pass (h : s.Kept) {x y : Owner} (hxy : x ≠ y) (hx : s.held x = none) :
    (s.pass y x).Kept where
  alone z z' l hz hz' := by
    obtain ⟨hz, hzy⟩ := held_pass hz
    obtain ⟨hz', hzy'⟩ := held_pass hz'
    have hback := h.alone _ _ l hz hz'
    split_ifs at hback with hzx hzx' hzx'
    · rw [hzx, hzx']
    · exact absurd hback.symm hzy'
    · exact absurd hback hzy
    · exact hback
  live z l hz := h.live _ l (held_pass hz).1
  named := h.named
  kept e he := by
    rcases h.kept e he with hreleased | ⟨⟨z, hz⟩, htable⟩
    · exact Or.inl hreleased
    · refine Or.inr ⟨?_, htable⟩
      by_cases hzy : z = y
      · refine ⟨x, ?_⟩
        rw [pass_held, Function.update_of_ne hxy, Function.update_self, ← hzy]
        exact hz
      · have hzx : z ≠ x := ne_of_apply_ne s.held (by rw [hz, hx]; exact Option.some_ne_none _)
        refine ⟨z, ?_⟩
        rw [pass_held, Function.update_of_ne hzy, Function.update_of_ne hzx]
        exact hz
  owned := h.owned
  gone := h.gone
  entered_nodup := h.entered_nodup
  released_nodup := h.released_nodup

omit [DecidableEq Owner] in
theorem Kept.setName (h : s.Kept) {k : Name} {thing : Option Thing} (hfree : ∀ y, s.held y ≠ some k)
    (hfresh : ∀ e ∈ s.entered, e.2 ≠ thing) : (s.setName k thing).Kept :=
  have htable : ∀ {y l}, s.held y = some l → (s.setName k thing).table l = s.table l :=
    fun hy => Function.update_of_ne (fun heq => hfree _ (heq ▸ hy)) _ _
  { alone := h.alone
    live := fun y l hy => by
      rw [htable hy]
      exact h.live y l hy
    named := h.named
    kept := fun e he => by
      rcases h.kept e he with hreleased | ⟨⟨y, hy⟩, hstands⟩
      · exact Or.inl hreleased
      · exact Or.inr ⟨⟨y, hy⟩, (htable hy).trans hstands⟩
    owned := h.owned
    gone := fun e he hstands => by
      rw [setName_table, Function.update_apply] at hstands
      split_ifs at hstands
      · exact hfresh e (h.owned e he) hstands.symm
      · exact h.gone e he hstands
    entered_nodup := h.entered_nodup
    released_nodup := h.released_nodup }

end

end Holdings

end NetworkHomework
