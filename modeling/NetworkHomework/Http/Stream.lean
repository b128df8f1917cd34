import NetworkHomework.Http.Query

/-!
# Reading from a connection

What the peer sends arrives in segments that have nothing to do with its lines. `SocketStream::read`
keeps what it has received too much, `getline` takes one byte after the other,
`read_content_with_length` as many as it can get. `pending` is what is still to be read: what a
reader makes of it does not depend on how it is cut.
-/

namespace NetworkHomework.Http

/-- What one `recv` can get at most. -/
abbrev Segment := { bytes : List UInt8 // bytes ≠ [] }

/-- What is left in `read_buff_`, the segments still to come, and whether the peer closes the
connection behind them or a call fails. -/
structure SocketStream where
  buff : List UInt8
  segments : List Segment
  closed : Bool

namespace SocketStream

def readBuffSize : Nat := 4096

/-- `recv`; `none` is a negative result. -/
def recv (s : SocketStream) (size : Nat) : Option (List UInt8) × SocketStream :=
  match s.segments with
  | [] => (if s.closed then some [] else none, s)
  | segment :: segments =>
      (some (segment.1.take size),
        { s with segments := if h : segment.1.drop size = [] then
          segments else ⟨segment.1.drop size, h⟩ :: segments })

def read (s : SocketStream) (size : Nat) : Option (List UInt8) × SocketStream :=
  if s.buff ≠ [] then
    if size ≤ s.buff.length then (some (s.buff.take size), { s with buff := s.buff.drop size })
    else (some s.buff, { s with buff := [] })
  else if size < readBuffSize then
    match s.recv readBuffSize with
    | (none, s) => (none, s)
    | (some bytes, s) =>
        if bytes.length ≤ size then (some bytes, s)
        else (some (bytes.take size), { s with buff := bytes.drop size })
  else s.recv size

def pending (s : SocketStream) : List UInt8 := s.buff ++ s.segments.flatMap (·.1)

theorem pending_of_segments {s : SocketStream} {segment : Segment} {segments : List Segment}
    (hbuff : s.buff = []) (hsegments : s.segments = segment :: segments) :
    s.pending = segment.1 ++ segments.flatMap (·.1) := by
  rw [pending, hbuff, hsegments, List.nil_append, List.flatMap_cons]

theorem recv_segment {s : SocketStream} {segment : Segment} {segments : List Segment}
    (hbuff : s.buff = []) (hsegments : s.segments = segment :: segments) (size : Nat) :
    ∃ s', s.recv size = (some (segment.1.take size), s') ∧ s'.buff = [] ∧ s'.closed = s.closed ∧
      segment.1.take size ++ s'.pending = s.pending := by
  rw [recv, hsegments]
  refine ⟨_, rfl, hbuff, rfl, ?_⟩
  rw [pending_of_segments hbuff hsegments, pending, hbuff, List.nil_append]
  dsimp only
  split_ifs with hall
  · conv_rhs => rw [← List.take_append_drop size segment.1, hall, List.append_nil]
  · rw [List.flatMap_cons, ← List.append_assoc, List.take_append_drop]

theorem pending_eq_nil {s : SocketStream} (hnothing : s.pending = []) :
    s.buff = [] ∧ s.segments = [] := by
  obtain ⟨hbuff, hsegments⟩ := List.append_eq_nil_iff.mp hnothing
  refine ⟨hbuff, ?_⟩
  cases h : s.segments with
  | nil => rfl
  | cons segment segments =>
      rw [h, List.flatMap_cons] at hsegments
      exact absurd (List.append_eq_nil_iff.mp hsegments).1 segment.2

theorem read_nothing {s : SocketStream} (hnothing : s.pending = []) (size : Nat) :
    s.read size = (if s.closed then some [] else none, s) := by
  obtain ⟨hbuff, hnone⟩ := pending_eq_nil hnothing
  have hrecv : ∀ size, s.recv size = (if s.closed then some [] else none, s) := by
    intro size
    rw [recv, hnone]
  rw [read, if_neg (not_not_intro hbuff), hrecv, hrecv]
  split_ifs with hsmall hclosed
  · exact if_pos (Nat.zero_le size)
  · rfl
  · rfl
  · rfl

theorem read_some {s : SocketStream} (hpending : s.pending ≠ []) {size : Nat} (hsize : 0 < size) :
    ∃ bytes s', s.read size = (some bytes, s') ∧ bytes ≠ [] ∧ bytes.length ≤ size ∧
      bytes ++ s'.pending = s.pending ∧ s'.closed = s.closed := by
  have htake : ∀ bytes : List UInt8, bytes ≠ [] → bytes.take size ≠ [] := by
    intro bytes hbytes h
    rcases List.take_eq_nil_iff.mp h with hzero | hnil
    · omega
    · exact hbytes hnil
  by_cases hbuff : s.buff = []
  · obtain ⟨segment, segments, hsegments⟩ :
      ∃ segment segments, s.segments = segment :: segments := by
      refine List.exists_cons_of_ne_nil fun h => hpending ?_
      rw [pending, hbuff, h]
      rfl
    rw [read, if_neg (not_not_intro hbuff)]
    by_cases hsmall : size < readBuffSize
    · obtain ⟨s', hrecv, hbuff', hclosed, hrest⟩ := recv_segment hbuff hsegments readBuffSize
      have hgot : segment.1.take readBuffSize ≠ [] := by
        intro h
        rcases List.take_eq_nil_iff.mp h with hzero | hnil
        · exact absurd hzero (by decide)
        · exact segment.2 hnil
      rw [if_pos hsmall, hrecv]
      dsimp only
      split_ifs with hlength
      · exact ⟨_, _, rfl, hgot, hlength, hrest, hclosed⟩
      · refine ⟨_, _, rfl, htake _ hgot, List.length_take_le _ _, ?_, hclosed⟩
        rw [← hrest, pending, pending, hbuff', List.nil_append, ← List.append_assoc,
          List.take_append_drop]
    · obtain ⟨s', hrecv, _, hclosed, hrest⟩ := recv_segment hbuff hsegments size
      rw [if_neg hsmall]
      exact ⟨_, _, hrecv, htake _ segment.2, List.length_take_le _ _, hrest, hclosed⟩
  · rw [read, if_pos hbuff]
    split_ifs with hlength
    · refine ⟨_, _, rfl, htake _ hbuff, List.length_take_le _ _, ?_, rfl⟩
      rw [pending, pending, ← List.append_assoc, List.take_append_drop]
    · exact ⟨_, _, rfl, hbuff, Nat.le_of_not_le hlength, rfl, rfl⟩

theorem read_one {s : SocketStream} {c : UInt8} {rest : List UInt8}
    (hpending : s.pending = c :: rest) :
    ∃ s', s.read 1 = (some [c], s') ∧ s'.pending = rest ∧ s'.closed = s.closed := by
  obtain ⟨bytes, s', hread, hbytes, hlength, hall, hclosed⟩ :=
    @read_some s (by rw [hpending]; exact List.cons_ne_nil c rest) 1 Nat.one_pos
  obtain ⟨d, bytes, rfl⟩ := List.exists_cons_of_ne_nil hbytes
  rw [List.length_cons] at hlength
  obtain rfl := List.length_eq_zero_iff.mp (by omega : bytes.length = 0)
  rw [hpending] at hall
  obtain ⟨rfl, hrest⟩ := List.cons.inj hall
  exact ⟨s', hread, hrest, hclosed⟩

theorem read_lt {s s' : SocketStream} {size : Nat} (hsize : 0 < size) {bytes : List UInt8}
    (hread : s.read size = (some bytes, s')) (hbytes : bytes ≠ []) :
    s'.pending.length < s.pending.length := by
  by_cases hpending : s.pending = []
  · rw [read_nothing hpending] at hread
    obtain ⟨hgot, _⟩ := Prod.mk.inj hread
    cases hclosed : s.closed with
    | true =>
        rw [hclosed] at hgot
        exact absurd (Option.some.inj hgot).symm hbytes
    | false =>
        rw [hclosed] at hgot
        cases hgot
  · obtain ⟨bytes', s'', hread', _, _, hall, _⟩ := read_some hpending hsize
    obtain ⟨hgot, hs⟩ := Prod.mk.inj (hread.symm.trans hread')
    obtain rfl := Option.some.inj hgot
    subst hs
    have hpos := List.length_pos_iff.mpr hbytes
    rw [← hall, List.length_append]
    omega

/-- Where a reader is that has failed: it has got everything that there was. -/
def drained (s : SocketStream) : SocketStream := { s with buff := [], segments := [] }

/-! ### What comes later

A read takes up no more than one segment, so what is behind does not matter to it. -/

def append (s : SocketStream) (more : List Segment) : SocketStream :=
  { s with segments := s.segments ++ more }

theorem recv_append {s : SocketStream} (hsegments : s.segments ≠ []) (more : List Segment)
    (size : Nat) :
    (s.append more).recv size = ((s.recv size).1, (s.recv size).2.append more) := by
  obtain ⟨segment, segments, hcons⟩ := List.exists_cons_of_ne_nil hsegments
  rw [recv, recv, append, hcons, List.cons_append]
  dsimp only
  split_ifs <;> rfl

theorem read_append {s : SocketStream} (hpending : s.pending ≠ []) (more : List Segment)
    (size : Nat) :
    (s.append more).read size = ((s.read size).1, (s.read size).2.append more) := by
  have hsame : (s.append more).buff = s.buff := rfl
  rw [read, read, hsame]
  by_cases hbuff : s.buff = []
  · have hsegments : s.segments ≠ [] := by
      intro h
      rw [pending, hbuff, h] at hpending
      exact hpending rfl
    rw [if_neg (not_not_intro hbuff), if_neg (not_not_intro hbuff), recv_append hsegments,
      recv_append hsegments]
    split_ifs
    · rcases s.recv readBuffSize with ⟨_ | bytes, s'⟩
      · rfl
      · dsimp only
        split_ifs <;> rfl
    · rfl
  · rw [if_pos hbuff, if_pos hbuff]
    split_ifs <;> rfl

/-- Nothing is left of the segments, or the last of them is still to come. -/
def EndsIn (last : Segment) (s : SocketStream) : Prop :=
  s.segments = [] ∨ ∃ front, s.segments = front ++ [last]

theorem EndsIn.recv {last : Segment} {s : SocketStream} (h : s.EndsIn last) {size : Nat}
    (hlast : last.1.length ≤ size) : (s.recv size).2.EndsIn last := by
  rcases h with hnone | ⟨front, hfront⟩
  · rw [SocketStream.recv, hnone]
    exact Or.inl hnone
  · cases front with
    | nil =>
        have hsegments : s.segments = [last] := hfront
        rw [SocketStream.recv, hsegments]
        exact Or.inl (dif_pos (List.drop_eq_nil_of_le hlast))
    | cons segment front =>
        rw [SocketStream.recv, hfront, List.cons_append]
        dsimp only
        split_ifs with hall
        · exact Or.inr ⟨front, rfl⟩
        · exact Or.inr ⟨_ :: front, rfl⟩

theorem EndsIn.read {last : Segment} {s s' : SocketStream} (h : s.EndsIn last)
    (hlast : last.1.length ≤ readBuffSize) {bytes : List UInt8}
    (hread : s.read 1 = (some bytes, s')) :
    s'.EndsIn last := by
  rw [SocketStream.read] at hread
  split_ifs at hread with hbuff hone hsmall
  · cases hread
    exact h
  · cases hread
    exact h
  · have hrecv := h.recv hlast
    revert hread hrecv
    rcases s.recv readBuffSize with ⟨_ | got, s''⟩
    · intro hread
      cases hread
    · dsimp only
      intro hread hrecv
      split_ifs at hread
      all_goals
        cases hread
        exact hrecv
  · exact absurd (by decide) hsmall

def trickle (bytes : List UInt8) : SocketStream :=
  ⟨[], bytes.map fun c => ⟨[c], List.cons_ne_nil c []⟩, true⟩

theorem trickle_pending (bytes : List UInt8) : (trickle bytes).pending = bytes := by
  rw [pending, trickle, List.nil_append, List.flatMap_map, List.flatMap_singleton']

/-! ### Lines -/

/-- The loop of `getline`, with what it has taken. -/
def getlineLoop (s : SocketStream) (line : List UInt8) : Option (List UInt8 × SocketStream) :=
  match hread : s.read 1 with
  | (none, _) => none
  | (some [], s') => if line = [] then none else some (line, s')
  | (some (c :: bytes), s') =>
      have := read_lt Nat.one_pos hread (List.cons_ne_nil c bytes)
      if c = 0x0a then some (line ++ [c], s') else getlineLoop s' (line ++ [c])
termination_by s.pending.length

def getline (s : SocketStream) : Option (List UInt8 × SocketStream) := s.getlineLoop []

theorem getlineLoop_end {s s' : SocketStream} (hread : s.read 1 = (some [], s'))
    (line : List UInt8) :
    s.getlineLoop line = if line = [] then none else some (line, s') := by
  rw [getlineLoop]
  split
  · rename_i h
    cases hread.symm.trans h
  · rename_i h
    cases hread.symm.trans h
    rfl
  · rename_i h
    cases hread.symm.trans h

theorem getlineLoop_failed {s s' : SocketStream} (hread : s.read 1 = (none, s'))
    (line : List UInt8) :
    s.getlineLoop line = none := by
  rw [getlineLoop]
  split
  · rfl
  · rename_i h
    cases hread.symm.trans h
  · rename_i h
    cases hread.symm.trans h

theorem getlineLoop_byte {s s' : SocketStream} {c : UInt8} (hread : s.read 1 = (some [c], s'))
    (line : List UInt8) :
    s.getlineLoop line = if c = 0x0a then
      some (line ++ [c], s') else s'.getlineLoop (line ++ [c]) := by
  rw [getlineLoop]
  split
  · rename_i h
    cases hread.symm.trans h
  · rename_i h
    cases hread.symm.trans h
  · rename_i h
    cases hread.symm.trans h
    rfl

/-- A line comes out as it was sent, however it is cut, and what is behind it is still pending. -/
theorem getline_of_pending {s : SocketStream} {line rest : List UInt8} (hline : 0x0a ∉ line)
    (hpending : s.pending = line ++ 0x0a :: rest) :
    ∃ s', s.getline = some (line ++ [0x0a], s') ∧ s'.pending = rest ∧ s'.closed = s.closed := by
  have hloop : ∀ taken, ∃ s', s.getlineLoop taken = some (taken ++ line ++ [0x0a], s') ∧
      s'.pending = rest ∧
      s'.closed = s.closed := by
    induction line generalizing s with
    | nil =>
        intro taken
        obtain ⟨s', hread, hrest, hclosed⟩ := read_one hpending
        rw [getlineLoop_byte hread, if_pos rfl, List.append_nil]
        exact ⟨s', rfl, hrest, hclosed⟩
    | cons c line ih =>
        intro taken
        obtain ⟨s', hread, hrest, hclosed⟩ := read_one hpending
        have hc : c ≠ 0x0a := fun h => hline (h ▸ List.mem_cons_self)
        obtain ⟨s'', hloop, hrest', hclosed'⟩ :=
          ih (fun h => hline (List.mem_cons_of_mem c h)) hrest (taken ++ [c])
        rw [getlineLoop_byte hread, if_neg hc, hloop, List.append_assoc taken [c] line]
        exact ⟨s'', rfl, hrest', hclosed'.trans hclosed⟩
  exact hloop []

/-- Where no line ends any more, the last one is what is pending, if there is one. -/
theorem getline_unended {s : SocketStream} (hline : 0x0a ∉ s.pending) :
    s.getline = none ∨ ∃ s', s.getline = some (s.pending, s') ∧ s.pending ≠ [] ∧
    s'.pending = [] := by
  have hloop : ∀ (n : Nat) (s : SocketStream) taken, s.pending.length = n → 0x0a ∉ s.pending →
      s.getlineLoop taken = none ∨
        ∃ s', s.getlineLoop taken = some (taken ++ s.pending, s') ∧ taken ++ s.pending ≠ [] ∧
        s'.pending = [] := by
    intro n
    induction n with
    | zero =>
        intro s taken hlength _
        have hpending := List.length_eq_zero_iff.mp hlength
        have hnothing := read_nothing hpending 1
        cases hclosed : s.closed with
        | true =>
            rw [hclosed, if_pos rfl] at hnothing
            rw [getlineLoop_end hnothing, hpending, List.append_nil]
            by_cases htaken : taken = []
            · exact Or.inl (if_pos htaken)
            · exact Or.inr ⟨s, if_neg htaken, htaken, hpending⟩
        | false =>
            rw [hclosed, if_neg Bool.false_ne_true] at hnothing
            exact Or.inl (getlineLoop_failed hnothing taken)
    | succ n ih =>
        intro s taken hlength hline
        obtain ⟨c, rest, hpending⟩ := List.exists_cons_of_length_eq_add_one hlength
        obtain ⟨s', hread, hrest, _⟩ := read_one hpending
        rw [hpending, List.mem_cons, not_or] at hline
        rw [hpending, List.length_cons] at hlength
        rw [getlineLoop_byte hread, if_neg (Ne.symm hline.1), hpending,
          List.append_cons taken c rest, ← hrest]
        exact ih s' (taken ++ [c]) (by rw [hrest]; omega) (by rw [hrest]; exact hline.2)
  exact hloop _ s [] rfl hline

theorem getline_append {s : SocketStream} (hline : 0x0a ∈ s.pending) (more : List Segment) :
    (s.append more).getline = s.getline.map fun r => (r.1, r.2.append more) := by
  have hloop : ∀ (n : Nat) (s : SocketStream) taken, s.pending.length = n → 0x0a ∈ s.pending →
      (s.append more).getlineLoop taken = (s.getlineLoop taken).map fun r =>
        (r.1, r.2.append more) := by
    intro n
    induction n with
    | zero =>
        intro s taken hlength hline
        rw [List.length_eq_zero_iff.mp hlength] at hline
        exact absurd hline List.not_mem_nil
    | succ n ih =>
        intro s taken hlength hline
        obtain ⟨c, rest, hpending⟩ := List.exists_cons_of_length_eq_add_one hlength
        obtain ⟨s', hread, hrest, _⟩ := read_one hpending
        have hmore := @read_append s (by rw [hpending]; exact List.cons_ne_nil c rest) more 1
        rw [hread] at hmore
        rw [getlineLoop_byte hmore, getlineLoop_byte hread]
        split_ifs with hend
        · rfl
        · rw [hpending, List.length_cons] at hlength
          rw [hpending] at hline
          refine ih s' _ (by rw [hrest]; omega) ?_
          rw [hrest]
          exact (List.mem_cons.mp hline).resolve_left (Ne.symm hend)
  exact hloop _ s [] rfl hline

theorem getline_keeps {P : SocketStream → Prop}
    (hkeep : ∀ (s s' : SocketStream) bytes, P s → s.read 1 = (some bytes, s') → P s')
    {s s' : SocketStream} {line : List UInt8} (hs : P s) (h : s.getline = some (line, s')) :
    P s' := by
  have hloop : ∀ (n : Nat) (s : SocketStream) taken, s.pending.length = n → P s →
      s.getlineLoop taken = some (line, s') → P s' := by
    intro n
    induction n with
    | zero =>
        intro s taken hlength hs h
        have hnothing := read_nothing (List.length_eq_zero_iff.mp hlength) 1
        cases hclosed : s.closed with
        | true =>
            rw [hclosed, if_pos rfl] at hnothing
            rw [getlineLoop_end hnothing] at h
            split_ifs at h with htaken
            cases h
            exact hs
        | false =>
            rw [hclosed, if_neg Bool.false_ne_true] at hnothing
            rw [getlineLoop_failed hnothing] at h
            cases h
    | succ n ih =>
        intro s taken hlength hs h
        obtain ⟨c, rest, hpending⟩ := List.exists_cons_of_length_eq_add_one hlength
        obtain ⟨s'', hread, hrest, _⟩ := read_one hpending
        have hs'' := hkeep s s'' [c] hs hread
        rw [getlineLoop_byte hread] at h
        split_ifs at h with hend
        · cases h
          exact hs''
        · refine ih s'' _ ?_ hs'' h
          rw [hpending, List.length_cons] at hlength
          rw [hrest]
          omega
  exact hloop _ s [] rfl hs h

theorem getline_lt {s s' : SocketStream} {line : List UInt8} (h : s.getline = some (line, s')) :
    s'.pending.length < s.pending.length := by
  have hloop : ∀ (n : Nat) (s : SocketStream) taken, s.pending.length = n →
      s.getlineLoop taken = some (line, s') →
      s'.pending.length < s.pending.length ∨
      (taken ≠ [] ∧ s'.pending.length ≤ s.pending.length) := by
    intro n
    induction n with
    | zero =>
        intro s taken hlength h
        have hnothing := read_nothing (List.length_eq_zero_iff.mp hlength) 1
        cases hclosed : s.closed with
        | true =>
            rw [hclosed, if_pos rfl] at hnothing
            rw [getlineLoop_end hnothing] at h
            split_ifs at h with htaken
            cases h
            exact Or.inr ⟨htaken, Nat.le_refl _⟩
        | false =>
            rw [hclosed, if_neg Bool.false_ne_true] at hnothing
            rw [getlineLoop_failed hnothing] at h
            cases h
    | succ n ih =>
        intro s taken hlength h
        obtain ⟨c, rest, hpending⟩ := List.exists_cons_of_length_eq_add_one hlength
        obtain ⟨s'', hread, hrest, _⟩ := read_one hpending
        have hless : s''.pending.length = n := by
          rw [hpending, List.length_cons] at hlength
          rw [hrest]
          omega
        rw [getlineLoop_byte hread] at h
        split_ifs at h with hend
        · cases h
          exact Or.inl (by omega)
        · rcases ih s'' _ hless h with hlt | ⟨_, hle⟩
          · exact Or.inl (by omega)
          · exact Or.inl (by omega)
  rcases hloop _ s [] rfl h with hlt | ⟨hne, _⟩
  · exact hlt
  · exact absurd rfl hne

/-! ### Contents -/

def recvBufsiz : Nat := 4096

/-- `read_content_with_length` with `left` bytes to go: what the receiver gets, and whether that is
all. -/
def readContentWithLength (s : SocketStream) (left : Nat) :
    List (List UInt8) × Bool × SocketStream :=
  if hdone : left = 0 then ([], true, s)
  else
    match s.read (min left recvBufsiz) with
    | (none, s') => ([], false, s')
    | (some [], s') => ([], false, s')
    | (some (c :: bytes), s') =>
        have : left - (bytes.length + 1) < left := by omega
        let more := readContentWithLength s' (left - (bytes.length + 1))
        ((c :: bytes) :: more.1, more.2)
termination_by left

/-- However it is cut, the receiver gets as much of the content as there is, in pieces that are not
empty, and what is behind it is still pending. -/
theorem readContentWithLength_spec (s : SocketStream) (left : Nat) :
    ∃ chunks s', s.readContentWithLength left = (chunks, decide (left ≤ s.pending.length), s') ∧
      chunks.flatten = s.pending.take left ∧ (∀ chunk ∈ chunks, chunk ≠ []) ∧
      s'.pending = s.pending.drop left ∧
      s'.closed = s.closed := by
  induction left using Nat.strong_induction_on generalizing s with
  | _ left ih =>
      rw [readContentWithLength]
      by_cases hdone : left = 0
      · subst hdone
        rw [dif_pos rfl]
        exact ⟨[], s, rfl, rfl, fun chunk h => absurd h List.not_mem_nil, rfl, rfl⟩
      rw [dif_neg hdone]
      by_cases hpending : s.pending = []
      · have hmissing : ¬ left ≤ s.pending.length := by
          rw [hpending, List.length_nil]
          omega
        rw [read_nothing hpending, decide_eq_false hmissing, hpending, List.take_nil, List.drop_nil]
        refine ⟨[], s, ?_, rfl, fun chunk h => absurd h List.not_mem_nil, hpending, rfl⟩
        cases s.closed <;> rfl
      · have hsize : 0 < min left recvBufsiz := Nat.lt_min.mpr ⟨Nat.pos_of_ne_zero hdone, by decide⟩
        obtain ⟨bytes, s', hread, hbytes, hlength, hall, hclosed⟩ := read_some hpending hsize
        have hinside : bytes.length ≤ left := Nat.le_trans hlength (Nat.min_le_left _ _)
        have hpos := List.length_pos_iff.mpr hbytes
        obtain ⟨chunks, s'', hmore, hflatten, hchunks, hrest, hclosed'⟩ :=
          ih (left - bytes.length) (by omega) s'
        obtain ⟨c, bytes, rfl⟩ := List.exists_cons_of_ne_nil hbytes
        have henough : left - (c :: bytes).length ≤ s'.pending.length ↔
            left ≤ s.pending.length := by
          rw [← hall, List.length_append]
          omega
        rw [decide_eq_decide.mpr henough, List.length_cons] at hmore
        rw [hread]
        dsimp only
        rw [hmore]
        refine ⟨_, s'', rfl, ?_, ?_, ?_, hclosed'.trans hclosed⟩
        · rw [List.flatten_cons, hflatten, ← hall, List.take_append, List.take_of_length_le hinside]
        · exact List.forall_mem_cons.mpr ⟨hbytes, hchunks⟩
        · rw [hrest, ← hall, List.drop_append, List.drop_eq_nil_of_le hinside, List.nil_append]

theorem readContentWithLength_of_pending {s : SocketStream} {content rest : List UInt8}
    (hpending : s.pending = content ++ rest) :
    ∃ chunks s', s.readContentWithLength content.length = (chunks, true, s') ∧
    chunks.flatten = content ∧
      (∀ chunk ∈ chunks, chunk ≠ []) ∧ s'.pending = rest ∧ s'.closed = s.closed := by
  obtain ⟨chunks, s', hread, hflatten, hchunks, hrest, hclosed⟩ :=
    s.readContentWithLength_spec content.length
  have hall : content.length ≤ s.pending.length := by
    rw [hpending, List.length_append]
    exact Nat.le_add_right _ _
  rw [decide_eq_true hall] at hread
  rw [hpending, List.take_left] at hflatten
  rw [hpending, List.drop_left] at hrest
  exact ⟨chunks, s', hread, hflatten, hchunks, hrest, hclosed⟩

end SocketStream

end NetworkHomework.Http
