import NetworkHomework.Base.Loop

/-!
# Decoders fed in chunks

A decoder cuts one item after another off the front of what has arrived and keeps the rest until
more comes. What makes it independent of how a stream is cut is `Decodes`: a whole code word is
taken off exactly, and a proper part of one is left alone. From that, `feedAll_spec` says where
every cut leaves the decoder: the items delivered so far, and a proper part of the next word still
waiting.
-/

namespace NetworkHomework

variable {α β : Type*}

/-- A decoder: the item at the front of a buffer with what is left behind it, or `none` when the
buffer does not hold a whole item. An item is never empty. -/
structure Decoder (α β : Type*) where
  next : List β → Option (α × List β)
  shorter : ∀ {p rest : List β} {a : α}, next p = some (a, rest) → rest.length < p.length

def stream (encode : α → List β) (items : List α) : List β := items.flatMap encode

@[simp] theorem stream_nil (encode : α → List β) : stream encode [] = [] := rfl

@[simp] theorem stream_cons (encode : α → List β) (a : α) (items : List α) :
    stream encode (a :: items) = encode a ++ stream encode items := rfl

/-- `p` is a proper part of the first word of `items`, and empty if there is none. -/
def ProperPart (encode : α → List β) : List α → List β → Prop
  | [], p => p = []
  | a :: _, p => ∃ q, q ≠ [] ∧ encode a = p ++ q

theorem exists_chunk_completing {chunks : List (List β)} {front rest : List β} (hfront : front ≠ [])
    (hcut : chunks.flatten = front ++ rest) :
    ∃ early q tail late, chunks = early ++ (q ++ tail) :: late ∧ q ≠ [] ∧
    front = early.flatten ++ q ∧
      rest = tail ++ late.flatten := by
  induction chunks generalizing front with
  | nil => exact absurd (List.append_eq_nil_iff.mp hcut.symm).1 hfront
  | cons chunk chunks ih =>
      rw [List.flatten_cons] at hcut
      rcases List.append_eq_append_iff.mp hcut with ⟨more, hmore, hlater⟩ | ⟨tail, hchunk, hrest⟩
      · by_cases hnil : more = []
        · subst hnil
          rw [List.append_nil] at hmore
          subst hmore
          exact ⟨[], front, [], chunks, by rw [List.append_nil]; rfl, hfront, rfl, hlater.symm⟩
        · obtain ⟨early, q, tail, late, hsplit, hq, hends, hrest⟩ := ih hnil hlater
          refine ⟨chunk :: early, q, tail, late, by rw [hsplit]; rfl, hq, ?_, hrest⟩
          rw [hmore, hends, List.flatten_cons, List.append_assoc]
      · exact ⟨[], front, tail, chunks, by rw [hchunk]; rfl, hfront, rfl, hrest⟩

theorem eq_nil_of_properPart {encode : α → List β} {items : List α} {p : List β}
    (hpart : ProperPart encode items p) (hend : p = stream encode items) : items = [] := by
  cases items with
  | nil => rfl
  | cons a items =>
      obtain ⟨q, hq, hword⟩ := hpart
      have hlength := congrArg List.length hend
      rw [stream_cons, hword] at hlength
      simp only [List.length_append] at hlength
      have := List.length_pos_iff.mpr hq
      omega

namespace Decoder

variable (D : Decoder α β)

private def drainBody (s : List α × List β) : Turn (List α × List β) :=
  match D.next s.2 with
  | none => .leave s
  | some (a, rest) => .again (s.1 ++ [a], rest)

private theorem drainBody_lowers {s s' : List α × List β} (h : D.drainBody s = .again s') :
    s'.2.length < s.2.length := by
  rw [drainBody] at h
  split at h
  · cases h
  · next hnext =>
      cases h
      exact D.shorter hnext

private def drainLoop : Loop (List α × List β) where
  body := D.drainBody
  measure s := s.2.length
  lowers := D.drainBody_lowers

/-- Taking items off a buffer as long as it holds a whole one. -/
def drain (p : List β) : List α × List β := D.drainLoop.exec ([], p)

private theorem drainLoop_exec (got : List α) (p : List β) :
    D.drainLoop.exec (got, p) = (got ++ (D.drain p).1, (D.drain p).2) := by
  induction hn : p.length using Nat.strongRecOn generalizing got p with
  | ind n ih =>
      cases hnext : D.next p with
      | none =>
          have hbody : ∀ g, D.drainLoop.body (g, p) = .leave (g, p) := fun g => by
            change D.drainBody (g, p) = _
            rw [drainBody, hnext]
          rw [drain, D.drainLoop.exec_of_leave (hbody got), D.drainLoop.exec_of_leave (hbody []),
            List.append_nil]
      | some item =>
          obtain ⟨a, rest⟩ := item
          have hbody : ∀ g, D.drainLoop.body (g, p) = .again (g ++ [a], rest) := fun g => by
            change D.drainBody (g, p) = _
            rw [drainBody, hnext]
          have hshorter := D.shorter hnext
          rw [drain, D.drainLoop.exec_of_again (hbody got), D.drainLoop.exec_of_again (hbody []),
            ih rest.length (by omega) (got ++ [a]) rest rfl,
            ih rest.length (by omega) ([] ++ [a]) rest rfl]
          simp

theorem drain_of_none {p : List β} (hnext : D.next p = none) : D.drain p = ([], p) := by
  apply D.drainLoop.exec_of_leave
  change D.drainBody ([], p) = _
  rw [drainBody, hnext]

theorem drain_of_some {p rest : List β} {a : α} (hnext : D.next p = some (a, rest)) :
    D.drain p = (a :: (D.drain rest).1, (D.drain rest).2) := by
  have hbody : D.drainLoop.body ([], p) = .again ([a], rest) := by
    change D.drainBody ([], p) = _
    rw [drainBody, hnext]
    rfl
  rw [drain, D.drainLoop.exec_of_again hbody, drainLoop_exec]
  rfl

theorem next_nil : D.next [] = none := by
  cases hnext : D.next [] with
  | none => rfl
  | some item =>
      obtain ⟨a, rest⟩ := item
      exact absurd (D.shorter hnext) (Nat.not_lt_zero _)

def feed (s : List α × List β) (chunk : List β) : List α × List β :=
  (s.1 ++ (D.drain (s.2 ++ chunk)).1, (D.drain (s.2 ++ chunk)).2)

def feedAll (chunks : List (List β)) : List α × List β := chunks.foldl D.feed ([], [])

theorem feedAll_concat (chunks : List (List β)) (chunk : List β) :
    D.feedAll (chunks ++ [chunk]) = D.feed (D.feedAll chunks) chunk := by
  simp [feedAll]

/-- The words of the items that satisfy `ok` are read back, and a proper part of one is left
alone. -/
structure Decodes (encode : α → List β) (ok : α → Prop) : Prop where
  next_word : ∀ {a}, ok a → ∀ rest, D.next (encode a ++ rest) = some (a, rest)
  next_part : ∀ {a}, ok a → ∀ {p q}, encode a = p ++ q → q ≠ [] → D.next p = none

variable {D} {encode : α → List β} {ok : α → Prop}

theorem Decodes.next_cases (hD : D.Decodes encode ok) {a : α} (ha : ok a) {p q tail : List β}
    (hstream : p ++ q = encode a ++ tail) :
    (D.next p = none ∧ ∃ r, r ≠ [] ∧ encode a = p ++ r ∧ q = r ++ tail) ∨
      ∃ r, D.next p = some (a, r) ∧ p = encode a ++ r ∧ r ++ q = tail := by
  rcases List.append_eq_append_iff.mp hstream with ⟨r, hword, hq⟩ | ⟨r, hp, htail⟩
  · by_cases hr : r = []
    · subst hr
      rw [List.append_nil] at hword
      exact Or.inr ⟨[], by simpa [hword] using hD.next_word ha [], by simp [hword], hq⟩
    · exact Or.inl ⟨hD.next_part ha hword hr, r, hr, hword, hq⟩
  · exact Or.inr ⟨r, by rw [hp]; exact hD.next_word ha r, hp, htail.symm⟩

theorem Decodes.drain_stream (hD : D.Decodes encode ok) {items : List α}
    (hitems : ∀ a ∈ items, ok a) {p q : List β} (hstream : p ++ q = stream encode items) :
    ∃ later, items = (D.drain p).1 ++ later ∧ (D.drain p).2 ++ q = stream encode later ∧
      ProperPart encode later (D.drain p).2 := by
  induction items generalizing p with
  | nil =>
      obtain ⟨rfl, rfl⟩ := List.append_eq_nil_iff.mp hstream
      rw [D.drain_of_none D.next_nil]
      exact ⟨[], rfl, rfl, rfl⟩
  | cons a items ih =>
      rcases hD.next_cases (hitems a (by simp)) hstream with
        ⟨hnone, r, hr, hword, _⟩ | ⟨r, hsome, _, hrest⟩
      · rw [D.drain_of_none hnone]
        exact ⟨a :: items, rfl, hstream, r, hr, hword⟩
      · obtain ⟨later, hsplit, hlater, hpart⟩ := ih (fun b hb => hitems b (by simp [hb])) hrest
        rw [D.drain_of_some hsome]
        refine ⟨later, ?_, hlater, hpart⟩
        rw [List.cons_append, ← hsplit]

/-- Where any cut of a stream leaves the decoder. -/
theorem Decodes.feedAll_spec (hD : D.Decodes encode ok) {items : List α}
    (hitems : ∀ a ∈ items, ok a) {chunks : List (List β)} {q : List β}
    (hstream : chunks.flatten ++ q = stream encode items) :
    ∃ later, items = (D.feedAll chunks).1 ++ later ∧
      (D.feedAll chunks).2 ++ q = stream encode later ∧
      ProperPart encode later (D.feedAll chunks).2 := by
  induction chunks using List.reverseRecOn generalizing q with
  | nil =>
      cases items with
      | nil => exact ⟨[], rfl, hstream, rfl⟩
      | cons a items =>
          refine ⟨a :: items, rfl, hstream, encode a, ?_, rfl⟩
          intro hnil
          have hword := hD.next_word (hitems a (by simp)) []
          rw [hnil, List.append_nil, D.next_nil] at hword
          cases hword
  | append_singleton chunks chunk ih =>
      rw [List.flatten_append, List.flatten_singleton, List.append_assoc] at hstream
      obtain ⟨later, hsplit, hlater, _⟩ := ih hstream
      have hok : ∀ a ∈ later, ok a := fun a ha => hitems a (by rw [hsplit]; simp [ha])
      rw [← List.append_assoc] at hlater
      obtain ⟨later', hsplit', hlater', hpart'⟩ := hD.drain_stream hok hlater
      rw [feedAll_concat]
      refine ⟨later', ?_, hlater', hpart'⟩
      rw [feed, List.append_assoc, ← hsplit', ← hsplit]

/-- However a stream is cut, all its items are delivered, in order, and nothing is left over. -/
theorem Decodes.feedAll_stream (hD : D.Decodes encode ok) {items : List α}
    (hitems : ∀ a ∈ items, ok a) {chunks : List (List β)}
    (hstream : chunks.flatten = stream encode items) : D.feedAll chunks = (items, []) := by
  obtain ⟨later, hsplit, hlater, hpart⟩ :=
    hD.feedAll_spec hitems (q := []) (by rw [List.append_nil, hstream])
  rw [List.append_nil] at hlater
  have hnil := eq_nil_of_properPart hpart hlater
  subst hnil
  rw [List.append_nil] at hsplit
  exact Prod.ext hsplit.symm hlater

end Decoder

end NetworkHomework
