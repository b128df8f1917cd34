import Mathlib

/-!
# Runs of a partial step function

A system is a function `step : σ → ι → Option σ`: an input either moves the system on, or finds it
in a state that takes no more of them. `Always` says what holds in every state a list of inputs
visits, `Along` what holds of every input at the moment it is taken. The rules below turn facts
about one step into facts about whole runs. `taken` counts the inputs of a run that are taken,
`upTo` cuts an endless sequence of inputs into runs.
-/

namespace NetworkHomework.Runs

variable {σ ι : Type*} (step : σ → ι → Option σ)

def final : σ → List ι → σ
  | s, [] => s
  | s, x :: xs =>
      match step s x with
      | none => s
      | some s' => final s' xs

/-- `I` holds in `s` and in every state visited from there. -/
def Always (I : σ → Prop) : σ → List ι → Prop
  | s, [] => I s
  | s, x :: xs => I s ∧ ∀ s', step s x = some s' → Always I s' xs

/-- Every input that is taken satisfies `ok` in the state it is taken in. -/
def Along (ok : σ → ι → Prop) : σ → List ι → Prop
  | _, [] => True
  | s, x :: xs => ∀ s', step s x = some s' → ok s x ∧ Along ok s' xs

variable {step} {I : σ → Prop} {ok : σ → ι → Prop}

theorem Always.head {s : σ} {xs : List ι} (h : Always step I s xs) : I s := by
  cases xs with
  | nil => exact h
  | cons x xs => exact h.1

theorem Always.final {s : σ} {xs : List ι} (h : Always step I s xs) : I (final step s xs) := by
  induction xs generalizing s with
  | nil => exact h
  | cons x xs ih =>
      cases hstep : step s x with
      | none => simpa only [Runs.final, hstep] using h.1
      | some s' => simpa only [Runs.final, hstep] using ih (h.2 s' hstep)

theorem Always.mono {J : σ → Prop} (hIJ : ∀ s, I s → J s) {s : σ} {xs : List ι}
    (h : Always step I s xs) : Always step J s xs := by
  induction xs generalizing s with
  | nil => exact hIJ s h
  | cons x xs ih => exact ⟨hIJ s h.1, fun s' hstep => ih (h.2 s' hstep)⟩

theorem always_of_step (hstep : ∀ s x s', I s → step s x = some s' → I s') {s : σ} (hs : I s)
    (xs : List ι) : Always step I s xs := by
  induction xs generalizing s with
  | nil => exact hs
  | cons x xs ih => exact ⟨hs, fun s' hs' => ih (hstep s x s' hs hs')⟩

theorem always_of_along (hstep : ∀ s x s', I s → ok s x → step s x = some s' → I s') {s : σ}
    (hs : I s) {xs : List ι} (hxs : Along step ok s xs) : Always step I s xs := by
  induction xs generalizing s with
  | nil => exact hs
  | cons x xs ih =>
      refine ⟨hs, fun s' hs' => ?_⟩
      obtain ⟨hok, hrest⟩ := hxs s' hs'
      exact ih (hstep s x s' hs hok hs') hrest

/-- When an input that is `ok` keeps an invariant that implies `I`, and any other input breaks `I`
at once, then `I` holds throughout a run exactly if all its inputs are `ok`. Only inputs that the
surroundings of the system allow need be looked at. -/
theorem always_iff_along_of {J : σ → Prop} {allowed : σ → ι → Prop} (hJI : ∀ s, J s → I s)
    (hstep : ∀ s x s', J s → allowed s x → step s x = some s' →
      (ok s x ∧ J s') ∨ (¬ ok s x ∧ ¬ I s')) {s : σ} (hs : J s) {xs : List ι}
    (hxs : Along step allowed s xs) : Always step I s xs ↔ Along step ok s xs := by
  induction xs generalizing s with
  | nil => exact iff_of_true (hJI s hs) trivial
  | cons x xs ih =>
      constructor
      · intro h s' hs'
        obtain ⟨hallowed, hrest⟩ := hxs s' hs'
        rcases hstep s x s' hs hallowed hs' with ⟨hok, hJ⟩ | ⟨_, hbroken⟩
        · exact ⟨hok, (ih hJ hrest).mp (h.2 s' hs')⟩
        · exact absurd (h.2 s' hs').head hbroken
      · intro h
        refine ⟨hJI s hs, fun s' hs' => ?_⟩
        obtain ⟨hallowed, hrest⟩ := hxs s' hs'
        obtain ⟨hok, hmore⟩ := h s' hs'
        rcases hstep s x s' hs hallowed hs' with ⟨_, hJ⟩ | ⟨hbad, _⟩
        · exact (ih hJ hrest).mpr hmore
        · exact absurd hok hbad

theorem along_true (s : σ) (xs : List ι) : Along step (fun _ _ => True) s xs := by
  induction xs generalizing s with
  | nil => trivial
  | cons x xs ih => exact fun s' _ => ⟨trivial, ih s'⟩

theorem along_of_forall {p : ι → Prop} (s : σ) {xs : List ι} (h : ∀ x ∈ xs, p x) :
    Along step (fun _ x => p x) s xs := by
  induction xs generalizing s with
  | nil => trivial
  | cons x xs ih =>
      exact fun s' _ => ⟨h x List.mem_cons_self, ih s' fun y hy => h y (List.mem_cons_of_mem x hy)⟩

theorem Along.and {ok' : σ → ι → Prop} {s : σ} {xs : List ι} (h : Along step ok s xs)
    (h' : Along step ok' s xs) :
    Along step (fun s x => ok s x ∧ ok' s x) s xs := by
  induction xs generalizing s with
  | nil => trivial
  | cons x xs ih =>
      intro s' hstep
      obtain ⟨hok, hrest⟩ := h s' hstep
      obtain ⟨hok', hrest'⟩ := h' s' hstep
      exact ⟨⟨hok, hok'⟩, ih hrest hrest'⟩

theorem always_iff_along {J : σ → Prop} (hJI : ∀ s, J s → I s)
    (hstep : ∀ s x s', J s → step s x = some s' → (ok s x ∧ J s') ∨ (¬ ok s x ∧ ¬ I s')) {s : σ}
    (hs : J s) {xs : List ι} : Always step I s xs ↔ Along step ok s xs :=
  always_iff_along_of hJI (fun s x s' hJ _ hs' => hstep s x s' hJ hs') hs (along_true s xs)

theorem along_cons_iff {s s' : σ} {x : ι} {xs : List ι} (hstep : step s x = some s') :
    Along step ok s (x :: xs) ↔ ok s x ∧ Along step ok s' xs := by
  refine ⟨fun h => h s' hstep, fun h t ht => ?_⟩
  obtain rfl := Option.some.inj (hstep.symm.trans ht)
  exact h

theorem Along.cons {s s' : σ} {x : ι} {xs : List ι} (hstep : step s x = some s') (hx : ok s x)
    (hxs : Along step ok s' xs) : Along step ok s (x :: xs) := (along_cons_iff hstep).mpr ⟨hx, hxs⟩

theorem always_cons_iff {s s' : σ} {x : ι} {xs : List ι} (hstep : step s x = some s') :
    Always step I s (x :: xs) ↔ I s ∧ Always step I s' xs := by
  refine and_congr_right fun _ => ⟨fun h => h s' hstep, fun h t ht => ?_⟩
  obtain rfl := Option.some.inj (hstep.symm.trans ht)
  exact h

theorem Along.of_append {s : σ} {xs ys : List ι} (h : Along step ok s (xs ++ ys)) :
    Along step ok s xs := by
  induction xs generalizing s with
  | nil => trivial
  | cons x xs ih => exact fun s' hstep => ⟨(h s' hstep).1, ih (h s' hstep).2⟩

theorem final_append (hstop : ∀ s x y, step s x = none → step s y = none) (s : σ) (xs ys : List ι) :
    final step s (xs ++ ys) = final step (final step s xs) ys := by
  induction xs generalizing s with
  | nil => rfl
  | cons x xs ih =>
      cases hstep : step s x with
      | some s' => simpa only [List.cons_append, final, hstep] using ih s'
      | none =>
          simp only [List.cons_append, final, hstep]
          cases ys with
          | nil => rfl
          | cons y ys => rw [final, hstop s x y hstep]

theorem final_of_still {s : σ} {xs : List ι}
    (hstill : ∀ x ∈ xs, ∀ s', step s x = some s' → s' = s) :
    final step s xs = s := by
  induction xs with
  | nil => rfl
  | cons x xs ih =>
      have hrest := ih fun x hx => hstill x (List.mem_cons_of_mem _ hx)
      cases hstep : step s x with
      | none => simp only [final, hstep]
      | some s' =>
          obtain rfl := hstill x List.mem_cons_self s' hstep
          simpa only [final, hstep] using hrest

instance Along.decidable [∀ s x, Decidable (ok s x)] : ∀ s xs, Decidable (Along step ok s xs)
  | _, [] => isTrue trivial
  | s, x :: xs =>
      match hstep : step s x with
      | none => isTrue fun s' hs' => by rw [hstep] at hs'; cases hs'
      | some s' =>
          have := Along.decidable s' xs
          decidable_of_iff (ok s x ∧ Along step ok s' xs)
            ⟨fun h t ht => by rw [hstep] at ht; cases ht; exact h, fun h => h s' hstep⟩

/-- Unwinding. A system that takes every input is compared with itself on some of the inputs only: a
relation that the inputs kept preserve on both sides, and the others on the one side that sees them,
holds behind the two runs. -/
theorem final_filter (htaken : ∀ s x, ∃ s', step s x = some s') (keep : ι → Bool) {R : σ → σ → Prop}
    (hkeep : ∀ s t x s' t', R s t → ok s x → keep x = true → step s x = some s' →
      step t x = some t' → R s' t')
    (hskip : ∀ s t x s', R s t → ok s x → keep x = false → step s x = some s' → R s' t)
    {s t : σ} (hst : R s t) {xs : List ι} (hxs : Along step ok s xs) :
    R (final step s xs) (final step t (xs.filter keep)) := by
  induction xs generalizing s t with
  | nil => exact hst
  | cons x xs ih =>
      obtain ⟨s', hs'⟩ := htaken s x
      obtain ⟨hok, hrest⟩ := hxs s' hs'
      cases hx : keep x with
      | true =>
          obtain ⟨t', ht'⟩ := htaken t x
          rw [List.filter_cons_of_pos hx]
          simp only [final, hs', ht']
          exact ih (hkeep s t x s' t' hst hok hx hs' ht') hrest
      | false =>
          rw [List.filter_cons_of_neg (by rw [hx]; exact Bool.false_ne_true)]
          simp only [final, hs']
          exact ih (hskip s t x s' hst hok hx hs') hrest

/-! ### States that can be reached -/

def Reaches (step : σ → ι → Option σ) : σ → σ → Prop :=
  Relation.ReflTransGen fun s s' => ∃ x, step s x = some s'

theorem Reaches.refl (s : σ) : Reaches step s s := Relation.ReflTransGen.refl

theorem Reaches.trans {s t u : σ} (h : Reaches step s t) (h' : Reaches step t u) :
    Reaches step s u :=
  Relation.ReflTransGen.trans h h'

theorem Reaches.single {s s' : σ} (x : ι) (h : step s x = some s') : Reaches step s s' :=
  Relation.ReflTransGen.single ⟨x, h⟩

theorem Reaches.invariant (hstep : ∀ s x s', I s → step s x = some s' → I s') {s t : σ}
    (h : Reaches step s t) (hs : I s) : I t := by
  induction h with
  | refl => exact hs
  | tail _ hmove ih =>
      obtain ⟨x, hx⟩ := hmove
      exact hstep _ x _ ih hx

theorem Reaches.exists_final {s t : σ} (h : Reaches step s t) : ∃ xs, final step s xs = t := by
  induction h using Relation.ReflTransGen.head_induction_on with
  | refl => exact ⟨[], rfl⟩
  | head hmove _ ih =>
      obtain ⟨x, hx⟩ := hmove
      obtain ⟨xs, hxs⟩ := ih
      refine ⟨x :: xs, ?_⟩
      simpa only [final, hx] using hxs

/-! ### Runs that come to an end -/

def taken (step : σ → ι → Option σ) : σ → List ι → ℕ
  | _, [] => 0
  | s, x :: xs =>
      match step s x with
      | none => 0
      | some s' => taken step s' xs + 1

theorem taken_le {μ : σ → ℕ} {cost : ι → ℕ}
    (hstep : ∀ s x s', I s → step s x = some s' → I s' ∧ μ s' + 1 ≤ μ s + cost x) {s : σ} (hs : I s)
    (xs : List ι) :
    taken step s xs ≤ μ s + (xs.map cost).sum := by
  induction xs generalizing s with
  | nil => exact Nat.zero_le _
  | cons x xs ih =>
      rw [List.map_cons, List.sum_cons]
      cases hx : step s x with
      | none => simp only [taken, hx, Nat.zero_le]
      | some s' =>
          obtain ⟨hs', hless⟩ := hstep s x s' hs hx
          have hrest := ih hs'
          simp only [taken, hx]
          omega

/-! ### Endless inputs -/

/-- The first `n` of an endless sequence of inputs. -/
def upTo (r : ℕ → ι) (n : ℕ) : List ι := (List.range n).map r

theorem upTo_add (r : ℕ → ι) (n k : ℕ) :
    upTo r (n + k) = upTo r n ++ upTo (fun i => r (n + i)) k := by
  rw [upTo, List.range_add, List.map_append, List.map_map]
  rfl

theorem mem_upTo_shift {r : ℕ → ι} {n k : ℕ} {x : ι} (hx : x ∈ upTo (fun i => r (n + i)) k) :
    ∃ i, n ≤ i ∧ r i = x := by
  obtain ⟨i, _, rfl⟩ := List.mem_map.mp hx
  exact ⟨n + i, Nat.le_add_right n i, rfl⟩

/-- A function that answers with some of its inputs, and does not take an answer back, answers to an
endless sequence that it gets stuck on exactly if it has done so by then. -/
theorem answers_iff_of_stuck {β : Type*} {run : List ι → Option β} {r : ℕ → ι} {n : ℕ}
    (hkeep : ∀ xs ys y, run xs = some y → run (xs ++ ys) = some y)
    (hstuck : ∀ ys, (∀ x ∈ ys, ∃ i, n ≤ i ∧ r i = x) → run (upTo r n) = none →
      run (upTo r n ++ ys) = none)
    (y : β) : (∃ k, run (upTo r k) = some y) ↔ run (upTo r n) = some y := by
  refine ⟨fun ⟨k, hk⟩ => ?_, fun hn => ⟨n, hn⟩⟩
  rcases Nat.le_total k n with hle | hle
  · obtain ⟨m, rfl⟩ := Nat.exists_eq_add_of_le hle
    rw [upTo_add]
    exact hkeep _ _ y hk
  · obtain ⟨m, rfl⟩ := Nat.exists_eq_add_of_le hle
    rw [upTo_add] at hk
    cases hrun : run (upTo r n) with
    | none =>
        rw [hstuck _ (fun x hx => mem_upTo_shift hx) hrun] at hk
        cases hk
    | some y' =>
        rw [hkeep _ _ y' hrun] at hk
        exact hk

end NetworkHomework.Runs
