import NetworkHomework.Qt.Grammar

/-!
# The two editions of the server

The server of hw6 is a second copy of the server of hw5 over TLS. Its guard in front of the
announcement tests `sizeof(filename)`, so a `get` without a file name is announced too, and no block
follows. `hw6_writes_as_hw5_iff` says that nothing else differs: on one connection the two write the
same bytes exactly as long as nobody sends such a request.
-/

namespace NetworkHomework.Qt

/-- A request whose command is `get` and whose file name is missing. -/
def GetsNothing (str : QString) : Prop :=
  (parseCommand str).command.Same announcement ∧ (parseCommand str).filename.size = 0

instance (str : QString) : Decidable (GetsNothing str) := inferInstanceAs (Decidable (_ ∧ _))

section

variable (currentPath : List UInt16)

theorem requestedBlock_of_no_name (disk : FileSystem) {str : QString}
    (hname : (parseCommand str).filename.size = 0) :
    requestedBlock currentPath disk str = none := by
  rw [requestedBlock, fileBlock, if_pos hname]

/-- hw6 announces what hw5 does, and a `get` without a file name. -/
theorem announcesFile_hw6_iff (str : QString) :
    AnnouncesFile .hw6 str ↔ AnnouncesFile .hw5 str ∨ GetsNothing str := by
  have hhw5 : Edition.hw5.guard (parseCommand str).filename = true ↔
      0 < (parseCommand str).filename.size :=
    decide_eq_true_iff
  have hhw6 : Edition.hw6.guard (parseCommand str).filename = true := rfl
  rw [AnnouncesFile, AnnouncesFile, GetsNothing, hhw5, ← and_or_left]
  refine and_congr_right fun _ => iff_of_true hhw6 ?_
  omega

theorem not_announcesFile_hw5 {str : QString} (hnothing : GetsNothing str) :
    ¬ AnnouncesFile .hw5 str := by
  intro hannounce
  have hname : 0 < (parseCommand str).filename.size := decide_eq_true_iff.mp hannounce.2
  exact absurd hnothing.2 (Nat.ne_of_gt hname)

/-- What hw6 writes behind the reply of hw5. -/
def surplus (str : QString) : List UInt8 := if GetsNothing str then textFrame announcement else []

theorem reply_hw6 (disk : FileSystem) (str : QString) :
    reply .hw6 currentPath disk str = reply .hw5 currentPath disk str ++ surplus str := by
  rw [reply, reply, surplus, List.append_assoc, List.append_assoc]
  congr 2
  by_cases hnothing : GetsNothing str
  · rw [if_pos ((announcesFile_hw6_iff str).mpr (Or.inr hnothing)),
      if_neg (not_announcesFile_hw5 hnothing),
      if_pos hnothing, requestedBlock_of_no_name currentPath disk hnothing.2]
    exact List.append_nil _
  · have hsame : AnnouncesFile .hw6 str ↔ AnnouncesFile .hw5 str := by
      rw [announcesFile_hw6_iff, or_iff_left hnothing]
    rw [if_neg hnothing, List.append_nil]
    simp only [hsame]

theorem replies_cons (edition : Edition) (r : QString × FileSystem)
    (requests : List (QString × FileSystem)) :
    replies edition currentPath (r :: requests) =
      reply edition currentPath r.2 r.1 ++ replies edition currentPath requests := List.flatMap_cons

theorem replies_hw6_length (requests : List (QString × FileSystem)) :
    (replies .hw6 currentPath requests).length =
      (replies .hw5 currentPath requests).length + (requests.flatMap fun r =>
        surplus r.1).length := by
  induction requests with
  | nil => rfl
  | cons r requests ih =>
      rw [replies_cons, replies_cons, reply_hw6, List.flatMap_cons]
      simp only [List.length_append, ih]
      omega

theorem surplus_eq_nil_iff (str : QString) : surplus str = [] ↔ ¬ GetsNothing str := by
  have hframe : textFrame announcement ≠ [] := by decide
  rw [surplus]
  split
  · next hnothing => exact iff_of_false hframe (not_not_intro hnothing)
  · next hnothing => exact iff_of_true rfl hnothing

theorem replies_hw6_eq_iff (requests : List (QString × FileSystem)) :
    replies .hw6 currentPath requests = replies .hw5 currentPath requests ↔
      ∀ r ∈ requests, ¬ GetsNothing r.1 := by
  constructor
  · intro h r hr
    have hlength := replies_hw6_length currentPath requests
    rw [h] at hlength
    have hnil : requests.flatMap (fun r => surplus r.1) = [] := by
      apply List.eq_nil_of_length_eq_zero
      omega
    rw [← surplus_eq_nil_iff]
    exact List.flatMap_eq_nil_iff.mp hnil r hr
  · intro h
    induction requests with
    | nil => rfl
    | cons r requests ih =>
        obtain ⟨hr, hrest⟩ := List.forall_mem_cons.mp h
        rw [replies_cons, replies_cons, reply_hw6, (surplus_eq_nil_iff r.1).mpr hr,
          List.append_nil, ih hrest]

/-- **Two editions.** Whatever comes in over a connection, however it is cut, and whatever the disk
looks like, the server of hw6 writes the bytes the server of hw5 writes exactly if no request is a
`get` without a file name. -/
theorem hw6_writes_as_hw5_iff (ds : List Delivery) :
    (calls .hw6 currentPath ds).out.tx = (calls .hw5 currentPath ds).out.tx ↔
      ∀ r ∈ requestsIn [] ds, ¬ GetsNothing r.1 := by
  rw [calls_tx, calls_tx, List.append_cancel_left_eq]
  exact replies_hw6_eq_iff currentPath (requestsIn [] ds)

end

/-- The one request `get`: hw6 announces a file. -/
theorem hw6_announces_nothing :
    (calls .hw6 [] [⟨textFrame (.lit "get"), fun _ => noFiles⟩]).out.tx =
        (calls .hw5 [] [⟨textFrame (.lit "get"), fun _ => noFiles⟩]).out.tx ++
          textFrame announcement ∧
      (calls .hw6 [] [⟨textFrame (.lit "get"), fun _ => noFiles⟩]).out.tx ≠
        (calls .hw5 [] [⟨textFrame (.lit "get"), fun _ => noFiles⟩]).out.tx := by
  have hserved : requestsIn [] [⟨textFrame (.lit "get"), fun _ => noFiles⟩] =
      [(.lit "get", noFiles)] := by rfl
  have hnothing : GetsNothing (.lit "get") := by decide +kernel
  have hmore : (calls .hw6 [] [⟨textFrame (.lit "get"), fun _ => noFiles⟩]).out.tx =
      (calls .hw5 [] [⟨textFrame (.lit "get"), fun _ => noFiles⟩]).out.tx ++
        textFrame announcement := by
    rw [calls_tx, calls_tx, hserved, replies_cons, replies_cons, reply_hw6, surplus,
      if_pos hnothing]
    simp [replies]
  refine ⟨hmore, ?_⟩
  rw [hmore]
  exact fun h => absurd (List.append_right_eq_self.mp h) (by decide)

end NetworkHomework.Qt
