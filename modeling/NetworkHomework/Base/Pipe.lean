import NetworkHomework.Base.Decoder

/-!
# Between a sender and a decoder

Two ends of a stream that is read while it is being written. `Between` says how they stand: what has
been decoded is the front of what has been sent, and what the decoder holds, what is under way and
what has been lost behind it make up the code of the rest. Each end keeps it by what it does alone,
in any order.
-/

namespace NetworkHomework

variable {α β : Type*}

/-- The items `sent` and `got`, the part of a word that the decoder holds, what is under way to it,
and what will never come. -/
def Between (encode : α → List β) (sent got : List α) (held way lost : List β) : Prop :=
  ∃ later, sent = got ++ later ∧ held ++ way ++ lost = stream encode later ∧
  ProperPart encode later held

namespace Between

variable {D : Decoder α β} {encode : α → List β} {ok : α → Prop} {sent got : List α}
    {held way lost : List β}

theorem start (encode : α → List β) : Between encode [] [] [] [] [] := ⟨[], rfl, rfl, rfl⟩

theorem got_prefix (h : Between encode sent got held way lost) : got <+: sent := by
  obtain ⟨later, rfl, _⟩ := h
  exact List.prefix_append _ _

theorem encode_ne_nil (hD : D.Decodes encode ok) {a : α} (ha : ok a) : encode a ≠ [] := by
  intro hnil
  have hword := hD.next_word ha []
  rw [hnil, List.append_nil, D.next_nil] at hword
  cases hword

theorem send (hD : D.Decodes encode ok) (h : Between encode sent got held way []) {items : List α}
    (hitems : ∀ a ∈ items, ok a) :
    Between encode (sent ++ items) got held (way ++ stream encode items) [] := by
  obtain ⟨later, rfl, hstream, hpart⟩ := h
  refine ⟨later ++ items, List.append_assoc _ _ _, ?_, ?_⟩
  · rw [List.append_nil] at hstream
    rw [List.append_nil, ← List.append_assoc, hstream, stream, stream, stream, List.flatMap_append]
  · cases later with
    | cons a later => exact hpart
    | nil =>
        obtain rfl : held = [] := hpart
        cases items with
        | nil => rfl
        | cons a items => exact ⟨encode a, encode_ne_nil hD (hitems a List.mem_cons_self), rfl⟩

theorem receive (hD : D.Decodes encode ok) (hsent : ∀ a ∈ sent, ok a) {chunk : List β}
    (h : Between encode sent got held (chunk ++ way) lost) :
    Between encode sent (got ++ (D.drain (held ++ chunk)).1) (D.drain (held ++ chunk)).2
      way lost := by
  obtain ⟨later, rfl, hstream, _⟩ := h
  rw [← List.append_assoc, List.append_assoc] at hstream
  obtain ⟨rest, hlater, hrest, hpart⟩ :=
    hD.drain_stream (fun a ha => hsent a (List.mem_append_right _ ha)) hstream
  refine ⟨rest, ?_, ?_, hpart⟩
  · rw [List.append_assoc, ← hlater]
  · rw [List.append_assoc]
    exact hrest

theorem lose {tail : List β} (h : Between encode sent got held (way ++ tail) lost) :
    Between encode sent got held way (tail ++ lost) := by
  obtain ⟨later, hsent, hstream, hpart⟩ := h
  refine ⟨later, hsent, ?_, hpart⟩
  rw [← hstream]
  simp only [List.append_assoc]

theorem arrived (h : Between encode sent got held [] []) : got = sent := by
  obtain ⟨later, rfl, hstream, hpart⟩ := h
  rw [List.append_nil, List.append_nil] at hstream
  rw [eq_nil_of_properPart hpart hstream, List.append_nil]

end Between

end NetworkHomework
