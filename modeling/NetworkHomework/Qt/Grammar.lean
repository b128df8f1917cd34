import NetworkHomework.Qt.Server

/-!
# What the server writes, as a language

The client takes the server's bytes for text frames, with a file block behind every text `get`. The
server answers a request with one or two text frames, and behind the announcement of a file with
what `send_to_file` makes of it, which can be nothing. `output_parses_iff` says when the two agree:
every echo has to fit its frame, and every announced file has to be there.
-/

namespace NetworkHomework.Qt

open BigEndian

/-- The streams the client expects. -/
inductive OutputGrammar : List UInt8 → Prop
  | nil : OutputGrammar []
  | text {text : QString} {rest : List UInt8} (hfit : FitsFrame text) (hget : text ≠ announcement)
      (hrest : OutputGrammar rest) : OutputGrammar (textFrame text ++ rest)
  | file {name : QString} {content rest : List UInt8}
      (hsize : (writeQString name).length + content.length < 2 ^ 32)
      (hrest : OutputGrammar rest) :
        OutputGrammar (textFrame announcement ++ (blockOf name content ++ rest))

/-! ### Taking a stream apart -/

def QString.mark : QString → Nat
  | null => nullMark
  | units us => 2 * us.length

theorem writeQString_eq (s : QString) : writeQString s = toBytes 4 s.mark ++ unitBytes s.data := by
  cases s with
  | null => rfl
  | units us => rfl

theorem textFrame_append_inj {s t : QString} (hs : FitsFrame s) (ht : FitsFrame t)
    {rest rest' : List UInt8} (h : textFrame s ++ rest = textFrame t ++ rest') :
    s = t ∧ rest = rest' := by
  have hleft := frameDecoder_decodes.next_word hs rest
  rw [h, frameDecoder_decodes.next_word ht rest'] at hleft
  obtain ⟨hst, hrest⟩ := Prod.mk.inj (Option.some.inj hleft)
  exact ⟨hst.symm, hrest.symm⟩

/-- A frame whose size field is truncated does not begin like a frame that fits. -/
theorem textFrame_append_ne {s t : QString} (hs : ¬ FitsFrame s) (hsize : 2 * s.size < 2 ^ 32)
    (ht : FitsFrame t) (rest rest' : List UInt8) : textFrame s ++ rest ≠ textFrame t ++ rest' := by
  intro h
  rw [textFrame_eq, textFrame_eq, writeQString_eq, writeQString_eq] at h
  simp only [List.append_assoc] at h
  obtain ⟨_, hbody⟩ := List.append_inj h (by simp)
  obtain ⟨hmark, _⟩ := List.append_inj hbody (by simp)
  have hfit : t.size ≤ 32765 := ht
  have hlong : ¬ s.size ≤ 32765 := hs
  cases s with
  | null => exact hlong (Nat.zero_le _)
  | units us =>
      change ¬ us.length ≤ 32765 at hlong
      cases t with
      | null =>
          have heq : 2 * us.length = nullMark := toBytes_inj hsize (by decide) hmark
          rw [nullMark] at heq
          omega
      | units ts =>
          change ts.length ≤ 32765 at hfit
          have heq : 2 * us.length = 2 * ts.length := toBytes_inj hsize (by omega) hmark
          omega

theorem blockOf_length (name : QString) (content : List UInt8) :
    (blockOf name content).length = 4 + ((writeQString name).length + content.length) := by
  simp only [blockOf, List.length_append, toBytes_length]
  omega

theorem blockOf_append_inj {name name' : QString} {content content' rest rest' : List UInt8}
    (hsize : (writeQString name).length + content.length < 2 ^ 32)
    (hsize' : (writeQString name').length + content'.length < 2 ^ 32)
    (h : blockOf name content ++ rest = blockOf name' content' ++ rest') : rest = rest' := by
  have hheader := h
  simp only [blockOf, List.append_assoc] at hheader
  have hlength := toBytes_inj hsize hsize' (List.append_inj hheader (by simp)).1
  refine (List.append_inj h ?_).2
  rw [blockOf_length, blockOf_length, hlength]

theorem textFrame_append_ne_nil (text : QString) (rest : List UInt8) :
    textFrame text ++ rest ≠ [] := by
  intro hnil
  have hlength := congrArg List.length hnil
  rw [List.length_append, textFrame_eq, List.length_append, toBytes_length] at hlength
  simp at hlength

theorem text_parses_iff {text : QString} {rest : List UInt8} (hget : text ≠ announcement)
    (hsize : 2 * text.size < 2 ^ 32) :
    OutputGrammar (textFrame text ++ rest) ↔ FitsFrame text ∧ OutputGrammar rest := by
  refine ⟨fun h => ?_, fun ⟨hfit, hrest⟩ => .text hfit hget hrest⟩
  generalize hbytes : textFrame text ++ rest = bytes at h
  cases h with
  | nil => exact absurd hbytes (textFrame_append_ne_nil _ _)
  | text hfit' _ hrest' =>
      by_cases hfit : FitsFrame text
      · obtain ⟨_, rfl⟩ := textFrame_append_inj hfit hfit' hbytes
        exact ⟨hfit, hrest'⟩
      · exact absurd hbytes (textFrame_append_ne hfit hsize hfit' _ _)
  | file _ _ =>
      by_cases hfit : FitsFrame text
      · exact absurd (textFrame_append_inj hfit announcement_fits hbytes).1 hget
      · exact absurd hbytes (textFrame_append_ne hfit hsize announcement_fits _ _)

theorem announcement_parses {rest : List UInt8}
    (h : OutputGrammar (textFrame announcement ++ rest)) :
    ∃ name content rest', (writeQString name).length + content.length < 2 ^ 32 ∧
      rest = blockOf name content ++ rest' ∧ OutputGrammar rest' := by
  generalize hbytes : textFrame announcement ++ rest = bytes at h
  cases h with
  | nil => exact absurd hbytes (textFrame_append_ne_nil _ _)
  | text hfit' hget' _ =>
      exact absurd (textFrame_append_inj announcement_fits hfit' hbytes).1.symm hget'
  | file hsize hrest =>
      obtain ⟨_, rfl⟩ := textFrame_append_inj announcement_fits announcement_fits hbytes
      exact ⟨_, _, _, hsize, rfl, hrest⟩

theorem file_parses_iff {name : QString} {content rest : List UInt8}
    (hsize : (writeQString name).length + content.length < 2 ^ 32) :
    OutputGrammar (textFrame announcement ++ (blockOf name content ++ rest)) ↔
    OutputGrammar rest := by
  refine ⟨fun h => ?_, .file hsize⟩
  obtain ⟨name', content', rest', hsize', hblock, hrest'⟩ := announcement_parses h
  rw [blockOf_append_inj hsize hsize' hblock]
  exact hrest'

/-- The low byte of a string's length is even, or `0xff`; an echo has an `S` where a block has
it. -/
theorem echo_not_block (str : QString) (rest : List UInt8) (name : QString)
    (content rest' : List UInt8) :
    textFrame (echo str) ++ rest ≠ blockOf name content ++ rest' := by
  intro h
  have hmark : (UInt8.ofNat name.mark).toNat ≠ 0x53 := by
    rw [UInt8.toNat_ofNat']
    cases name with
    | null => decide
    | units us =>
        change 2 * us.length % 256 ≠ 0x53
        omega
  rw [textFrame_eq, blockOf, writeQString_eq, writeQString_eq] at h
  have hletter : unitBytes (echo str).data = 0 :: 0x53 :: (unitBytes (echo str).data).drop 2 := rfl
  rw [hletter] at h
  simp only [toBytes, List.nil_append, List.cons_append, List.append_assoc, List.cons.injEq] at h
  exact hmark (congrArg UInt8.toNat h.2.2.2.2.2.2.2.1).symm

/-! ### What a request adds to the stream -/

section

variable (edition : Edition) (currentPath : List UInt16)

def AnnouncesFile (str : QString) : Prop :=
  (parseCommand str).command.Same announcement ∧ edition.guard (parseCommand str).filename = true

instance (str : QString) : Decidable (AnnouncesFile edition str) :=
  inferInstanceAs (Decidable (_ ∧ _))

def requestedBlock (disk : FileSystem) (str : QString) : Option (List UInt8) :=
  fileBlock currentPath disk (parseCommand str).filename (fictOf (parseCommand str).fiction)
    (parseCommand str).sizeFict

def reply (disk : FileSystem) (str : QString) : List UInt8 :=
  textFrame (echo str) ++
    ((if (parseCommand str).command.Same (.lit "exit") then textFrame (.lit "exit") else []) ++
      if AnnouncesFile edition str then
        textFrame announcement ++ (requestedBlock currentPath disk str).getD []
      else [])

theorem eq_lit_of_same {s : QString} {us : List UInt16} (hne : us ≠ []) (h : s.Same (.units us)) :
    s = .units us := by
  cases s with
  | null => exact absurd h.symm hne
  | units vs => exact congrArg QString.units h

theorem writeLoop_whole (block : List UInt8) :
    (writeLoop block [(block.length : Int)] 0 []).getD [] = block := by
  cases block with
  | nil => rfl
  | cons byte block => simp [writeLoop]

theorem answer_tx (disk : FileSystem) (str : QString) (out : Output) :
    (answer edition currentPath disk str out).tx =
      out.tx ++ reply edition currentPath disk str := by
  have hfile : ∀ out : Output, (out.sendToFile currentPath disk (parseCommand str).filename
      (fictOf (parseCommand str).fiction) (parseCommand str).sizeFict).tx =
        out.tx ++ (requestedBlock currentPath disk str).getD [] := by
    intro out
    rw [Output.sendToFile, ← requestedBlock]
    cases requestedBlock currentPath disk str with
    | none => exact (List.append_nil _).symm
    | some block => exact congrArg (out.tx ++ ·) (writeLoop_whole block)
  have hexit : (parseCommand str).command.Same (.lit "exit") →
      (parseCommand str).command = .lit "exit" := eq_lit_of_same (by decide)
  have hget : (parseCommand str).command.Same announcement →
      (parseCommand str).command = announcement :=
    eq_lit_of_same (by decide)
  rw [answer, reply]
  change (if AnnouncesFile edition str then _ else _ : Output).tx = _
  by_cases hannounce : AnnouncesFile edition str
  · have hnot : ¬ (parseCommand str).command.Same (.lit "exit") := by
      rw [hget hannounce.1]
      decide
    rw [if_pos hannounce, if_pos hannounce, hfile, if_neg hnot, if_neg hnot, hget hannounce.1]
    simp [Output.sendToClient]
  · rw [if_neg hannounce, if_neg hannounce, List.append_nil]
    by_cases hquit : (parseCommand str).command.Same (.lit "exit")
    · rw [if_pos hquit, if_pos hquit, hexit hquit]
      simp [Output.sendToClient]
    · rw [if_neg hquit, if_neg hquit, List.append_nil]
      rfl

theorem answer_served (disk : FileSystem) (str : QString) (out : Output) :
    (answer edition currentPath disk str out).served = out.served + 1 := by
  have hfile : ∀ (out : Output) (filename : QString) (fict size : Nat),
      (out.sendToFile currentPath disk filename fict size).served = out.served := by
    intro out filename fict size
    rw [Output.sendToFile]
    split <;> rfl
  rw [answer]
  split_ifs <;> simp [Output.sendToClient, hfile]

/-! ### The requests served -/

/-- Requests with what the disk looks like at each, counted from the `k`-th of a call. -/
def withDisks (disk : Nat → FileSystem) : Nat → List QString → List (QString × FileSystem)
  | _, [] => []
  | k, str :: strs => (str, disk k) :: withDisks disk (k + 1) strs

/-- The requests that come out of a series of deliveries, behind bytes that are already there. -/
def requestsIn : List UInt8 → List Delivery → List (QString × FileSystem)
  | _, [] => []
  | pending, d :: ds =>
      let drained := frameDecoder.drain (pending ++ d.bytes)
      withDisks d.disk 0 drained.1 ++ requestsIn drained.2 ds

def replies (requests : List (QString × FileSystem)) : List UInt8 :=
  requests.flatMap fun r => reply edition currentPath r.2 r.1

theorem answerAll_tx (disk : Nat → FileSystem) (strs : List QString) (out : Output) :
    (answerAll edition currentPath disk strs out).tx =
      out.tx ++ replies edition currentPath (withDisks disk out.served strs) := by
  induction strs generalizing out with
  | nil => exact (List.append_nil _).symm
  | cons str strs ih =>
      rw [answerAll_cons, ih, answer_tx, answer_served, withDisks, replies, replies,
        List.flatMap_cons,
        List.append_assoc]

private theorem foldl_call_tx (ds : List Delivery) (s : Slot) :
    (ds.foldl (Slot.call edition currentPath) s).out.tx =
      s.out.tx ++ replies edition currentPath (requestsIn s.reader.unread ds) := by
  induction ds generalizing s with
  | nil => exact (List.append_nil _).symm
  | cons d ds ih =>
      obtain ⟨hunread, hout, _⟩ := slotReadClient_spec edition currentPath d.disk
        ⟨s.reader.receive d.bytes, { s.out with served := 0 }⟩
      rw [FrameReader.unread_receive] at hunread hout
      rw [List.foldl_cons, ih, Slot.call, hunread, hout, answerAll_tx, requestsIn]
      simp only [replies, List.flatMap_append, List.append_assoc]

theorem calls_tx (ds : List Delivery) :
    (calls edition currentPath ds).out.tx = textFrame (.lit "Server Response: Connected!") ++
      replies edition currentPath (requestsIn [] ds) :=
  foldl_call_tx edition currentPath ds .connected

/-! ### When the stream parses -/

/-- A request that Qt can hold and answer: a `QString` has fewer than 2^30 code units, and the
length of a block is one its 32-bit field carries, since no `QByteArray` is longer. -/
structure WithinQt (r : QString × FileSystem) : Prop where
  size : r.1.size < 2 ^ 30
  block : ∀ block, requestedBlock currentPath r.2 r.1 = some block → block.length < 2 ^ 32 + 4

def FileThere (r : QString × FileSystem) : Prop :=
  (parseCommand r.1).filename.size ≠ 0 ∧
    let file := r.2 (currentPath ++ [0x2f] ++ (parseCommand r.1).filename.data)
    file.present = true ∨ file.opens = true

/-- A request whose echo fits its frame and which asks for no file or for one that is there. -/
def Answerable (r : QString × FileSystem) : Prop :=
  r.1.size + 28 ≤ 32765 ∧ (AnnouncesFile edition r.1 → FileThere currentPath r)

theorem echo_ne_get (str : QString) : echo str ≠ announcement := by
  intro h
  have hsize := congrArg QString.size h
  have hget : announcement.size = 3 := by decide
  rw [echo_size, hget] at hsize
  omega

theorem requestedBlock_cases (r : QString × FileSystem) :
    (requestedBlock currentPath r.2 r.1 = none ∧ ¬ FileThere currentPath r) ∨
      ∃ name content, requestedBlock currentPath r.2 r.1 = some (blockOf name content) ∧
        FileThere currentPath r := by
  rw [requestedBlock, fileBlock_eq]
  dsimp only
  split
  · next hnone =>
      refine Or.inl ⟨rfl, ?_⟩
      rcases hnone with hsize | ⟨habsent, hclosed⟩
      · exact fun h => h.1 hsize
      · rintro ⟨_, hpresent | hopens⟩
        · exact Bool.false_ne_true (habsent.symm.trans hpresent)
        · exact Bool.false_ne_true (hclosed.symm.trans hopens)
  · next hsome =>
      refine Or.inr ⟨_, _, rfl, fun hsize => hsome (Or.inl hsize), ?_⟩
      by_contra hneither
      rw [not_or, Bool.not_eq_true, Bool.not_eq_true] at hneither
      exact hsome (Or.inr hneither)

/-- What follows the reply to a request: nothing, or the echo of the next one. -/
def AtEcho (rest : List UInt8) : Prop := rest = [] ∨ ∃ str tail, rest = textFrame (echo str) ++ tail

theorem atEcho_replies (requests : List (QString × FileSystem)) :
    AtEcho (replies edition currentPath requests) := by
  cases requests with
  | nil => exact Or.inl rfl
  | cons r requests =>
      rw [replies, List.flatMap_cons, reply, List.append_assoc]
      exact Or.inr ⟨r.1, _, rfl⟩

/-- Where no block follows, the announcement swallows what comes next. -/
theorem not_parses_of_missing {rest : List UInt8} (hrest : AtEcho rest) :
    ¬ OutputGrammar (textFrame announcement ++ rest) := by
  intro h
  obtain ⟨name, content, rest', _, hblock, _⟩ := announcement_parses h
  rcases hrest with rfl | ⟨str, tail, rfl⟩
  · have hlength := congrArg List.length hblock
    rw [List.length_append, blockOf_length, List.length_nil] at hlength
    omega
  · exact echo_not_block str tail name content rest' hblock

theorem reply_parses_iff {r : QString × FileSystem} (hqt : WithinQt currentPath r)
    {rest : List UInt8} (hrest : AtEcho rest) :
    OutputGrammar (reply edition currentPath r.2 r.1 ++ rest) ↔
      Answerable edition currentPath r ∧ OutputGrammar rest := by
  have hsize := hqt.size
  have hecho := echo_size r.1
  have hexit : ∀ rest, OutputGrammar
      ((if (parseCommand r.1).command.Same (.lit "exit") then textFrame (.lit "exit") else []) ++ rest) ↔
        OutputGrammar rest := by
    intro rest
    split
    · rw [text_parses_iff (by decide) (by decide)]
      exact and_iff_right (by decide)
    · rfl
  rw [reply, List.append_assoc, List.append_assoc,
    text_parses_iff (echo_ne_get r.1) (by omega), hexit,
    FitsFrame, hecho, Answerable, and_assoc]
  refine and_congr_right fun _ => ?_
  by_cases hannounce : AnnouncesFile edition r.1
  · rw [if_pos hannounce, List.append_assoc]
    rcases requestedBlock_cases currentPath r with
      ⟨hnone, hmissing⟩ | ⟨name, content, hsome, hthere⟩
    · rw [hnone]
      exact iff_of_false (not_parses_of_missing hrest) fun h => hmissing (h.1 hannounce)
    · have hbound := hqt.block _ hsome
      rw [blockOf_length] at hbound
      rw [hsome, Option.getD_some, file_parses_iff (by omega)]
      exact (and_iff_right fun _ => hthere).symm
  · rw [if_neg hannounce, List.nil_append]
    exact (and_iff_right fun h => absurd h hannounce).symm

theorem replies_parse_iff {requests : List (QString × FileSystem)}
    (hqt : ∀ r ∈ requests, WithinQt currentPath r) :
    OutputGrammar (replies edition currentPath requests) ↔
      ∀ r ∈ requests, Answerable edition currentPath r := by
  induction requests with
  | nil => exact iff_of_true .nil fun r hr => absurd hr List.not_mem_nil
  | cons r requests ih =>
      rw [replies, List.flatMap_cons, ← replies,
        reply_parses_iff edition currentPath (hqt r (by simp))
          (atEcho_replies edition currentPath requests),
        ih fun r' hr' => hqt r' (by simp [hr']), List.forall_mem_cons]

theorem greeting_parses_iff (rest : List UInt8) :
    OutputGrammar (textFrame (.lit "Server Response: Connected!") ++ rest) ↔
    OutputGrammar rest := by
  rw [text_parses_iff (by decide) (by decide)]
  exact and_iff_right (by decide)

/-- **Output grammar.** Whatever comes in and whatever the disk looks like, what the server writes
to a client parses exactly when every request it has served is answerable. -/
theorem output_parses_iff (ds : List Delivery)
    (hqt : ∀ r ∈ requestsIn [] ds, WithinQt currentPath r) :
    OutputGrammar (calls edition currentPath ds).out.tx ↔
      ∀ r ∈ requestsIn [] ds, Answerable edition currentPath r := by
  rw [calls_tx, greeting_parses_iff]
  exact replies_parse_iff edition currentPath hqt

end

def diskWithA : FileSystem :=
  fun path => if path = [0x2f, 0x61] then ⟨true, true, 1, [0x41]⟩ else noFiles path

theorem output_parses_get_a :
    OutputGrammar (calls .hw5 [] [⟨textFrame (.lit "get a"), fun _ => diskWithA⟩]).out.tx := by
  have hserved : requestsIn [] [⟨textFrame (.lit "get a"), fun _ => diskWithA⟩] =
      [(.lit "get a", diskWithA)] := by rfl
  refine (output_parses_iff .hw5 [] _ ?_).mpr ?_
  · rw [hserved, List.forall_mem_singleton]
    refine ⟨by decide, fun block hblock => ?_⟩
    have hlength : (requestedBlock [] diskWithA (.lit "get a")).map List.length = some 13 := by
      decide +kernel
    rw [hblock] at hlength
    rw [Option.some.inj hlength]
    omega
  · rw [hserved, List.forall_mem_singleton]
    exact ⟨by decide, fun _ => ⟨by decide +kernel, Or.inl (by decide +kernel)⟩⟩

theorem announced_without_block :
    ¬ OutputGrammar (calls .hw5 [] [⟨textFrame (.lit "get nofile"), fun _ => noFiles⟩]).out.tx := by
  have hserved : requestsIn [] [⟨textFrame (.lit "get nofile"), fun _ => noFiles⟩] =
      [(.lit "get nofile", noFiles)] := by rfl
  have hnone : requestedBlock [] noFiles (.lit "get nofile") = none := by decide +kernel
  rw [calls_tx, greeting_parses_iff, hserved]
  have hqt : ∀ r ∈ [(QString.lit "get nofile", noFiles)], WithinQt [] r := by
    rw [List.forall_mem_singleton]
    exact ⟨by decide, fun block hblock => by rw [hnone] at hblock; cases hblock⟩
  rw [replies_parse_iff .hw5 [] hqt, List.forall_mem_singleton]
  intro hanswerable
  rcases (hanswerable.2 (by decide +kernel)).2 with hpresent | hopens
  · cases hpresent
  · cases hopens

end NetworkHomework.Qt
