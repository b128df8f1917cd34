import NetworkHomework.Qt.Server
import NetworkHomework.Qt.Client

/-!
# A download on the client's side

The server announces a file with the text `get` and sends the block behind it. `read_file` can wait
for the rest of a block, but `slot_ready_read` calls it once, when the announcement is read, and
takes whatever comes later for text frames. So the download arrives exactly when nothing cuts the
stream behind the announcement: `downloaded_iff`.
-/

namespace NetworkHomework.Qt

open BigEndian

/-- A text reply: it fits its frame and announces no file. -/
structure Reply where
  text : QString
  fits : FitsFrame text
  notGet : ¬ text.Same announcement

/-- A file block, which as a `QByteArray` is shorter than 2 GiB. -/
structure FileBlock where
  name : QString
  content : List UInt8
  bounded : (blockOf name content).length < 2 ^ 31

def FileBlock.bytes (block : FileBlock) : List UInt8 := blockOf block.name block.content

def announced (replies : List Reply) : List UInt8 :=
  stream textFrame (replies.map (·.text) ++ [announcement])

section

variable (currentPath : List UInt16) (canOpen : List UInt16 → Bool)

def clientAfter (chunks : List (List UInt8)) : TcpClient :=
  chunks.foldl (TcpClient.arrive currentPath canOpen) .start

/-- The replies and the announcement were shown, and one file was written, with this content. -/
def Downloaded (c : TcpClient) (replies : List Reply) (content : List UInt8) : Prop :=
  receivedOf c.shown = replies.map (·.text) ++ [announcement] ∧ ∃ path, c.files = [(path, content)]

/-! ### Up to the announcement -/

theorem TcpClient.take_of_not_get (c : TcpClient) (reader : FrameReader) {str : QString}
    (hget : ¬ str.Same announcement) :
    (c.take currentPath canOpen reader str).reader = reader ∧
      (c.take currentPath canOpen reader str).blockSize = c.blockSize ∧
      (c.take currentPath canOpen reader str).files = c.files := by
  rw [take]
  dsimp only
  rw [announcement] at hget
  split_ifs <;> simp

/-- The client is on its way to the announcement: it has shown some of the replies, and the others
and the announcement are in what it has not read and in `q`, which is still to come. -/
def Before (replies : List Reply) (q : List UInt8) (c : TcpClient) : Prop :=
  ∃ done todo, replies = done ++ todo ∧ receivedOf c.shown = done.map (·.text) ∧ c.blockSize = 0 ∧
    c.files = [] ∧ c.reader.unread ++ q = announced todo

theorem before_start (replies : List Reply) : Before replies (announced replies) .start :=
  ⟨[], replies, rfl, rfl, rfl, rfl, rfl⟩

private theorem take_reply (c : TcpClient) (reply : Reply) (rest : List UInt8) :
    let c' := c.take currentPath canOpen ⟨0, rest⟩ reply.text
    c'.reader.unread = rest ∧ c'.blockSize = c.blockSize ∧ c'.files = c.files ∧
      receivedOf c'.shown = receivedOf c.shown ++ [reply.text] := by
  obtain ⟨hreader, hblock, hfiles⟩ :=
    c.take_of_not_get currentPath canOpen ⟨0, rest⟩ reply.notGet
  refine ⟨?_, hblock, hfiles, receivedOf_take currentPath canOpen c ⟨0, rest⟩ reply.text⟩
  rw [hreader]
  rfl

theorem slotReadyRead_before {replies : List Reply} {c : TcpClient} {q : List UInt8} (hq : q ≠ [])
    (hc : Before replies q c) : Before replies q (slotReadyRead currentPath canOpen c) := by
  obtain ⟨done, todo, hsplit, hshown, hblock, hfiles, hstream⟩ := hc
  have hstop : ∀ (c : TcpClient) (done todo : List Reply), decodeFrame c.reader.unread = none →
      replies = done ++ todo → receivedOf c.shown = done.map (·.text) → c.blockSize = 0 →
      c.files = [] → c.reader.unread ++ q = announced todo →
      Before replies q (slotReadyRead currentPath canOpen c) := by
    intro c done todo hnone hsplit hshown hblock hfiles hstream
    obtain ⟨r, hcall, hunread, _⟩ := slotReadyRead_of_none currentPath canOpen hnone
    rw [hcall]
    exact ⟨done, todo, hsplit, hshown, hblock, hfiles, by rw [← hstream, hunread]⟩
  induction todo generalizing c done with
  | nil =>
      rcases frameDecoder_decodes.next_cases announcement_fits hstream with
        ⟨hnone, _⟩ | ⟨r, _, _, hrest⟩
      · exact hstop c done [] hnone hsplit hshown hblock hfiles hstream
      · exact absurd (List.append_eq_nil_iff.mp hrest).2 hq
  | cons reply todo ih =>
      rcases frameDecoder_decodes.next_cases reply.fits hstream with
        ⟨hnone, _⟩ | ⟨r, hsome, _, hrest⟩
      · exact hstop c done (reply :: todo) hnone hsplit hshown hblock hfiles hstream
      · obtain ⟨hunread, hblock', hfiles', hshown'⟩ := take_reply currentPath canOpen c reply r
        rw [slotReadyRead_of_some currentPath canOpen hsome]
        refine ih (done ++ [reply]) (by simp [hsplit]) ?_ (hblock'.trans hblock)
          (hfiles'.trans hfiles) ?_
        · rw [hshown', hshown, List.map_append, List.map_singleton]
        · rw [hunread]
          exact hrest

/-- A call that finds the whole announcement shows all the replies before it and then reads the file
from what is buffered behind it. -/
theorem slotReadyRead_announced {todo : List Reply} {c : TcpClient} {tail : List UInt8}
    (hunread : c.reader.unread = announced todo ++ tail) :
    ∃ c' : TcpClient, slotReadyRead currentPath canOpen c =
        slotReadyRead currentPath canOpen (c'.take currentPath canOpen ⟨0, tail⟩ announcement) ∧
      receivedOf c'.shown = receivedOf c.shown ++ todo.map (·.text) ∧ c'.blockSize = c.blockSize ∧
      c'.files = c.files := by
  induction todo generalizing c with
  | nil =>
      have hnext : decodeFrame c.reader.unread = some (announcement, tail) := by
        rw [hunread, announced, List.map_nil, List.nil_append, stream_cons, stream_nil,
          List.append_nil]
        exact frameDecoder_decodes.next_word announcement_fits tail
      exact ⟨c, slotReadyRead_of_some currentPath canOpen hnext, (List.append_nil _).symm, rfl, rfl⟩
  | cons reply todo ih =>
      have hnext : decodeFrame c.reader.unread = some (reply.text, announced todo ++ tail) := by
        rw [hunread, announced, List.map_cons, List.cons_append, stream_cons, List.append_assoc]
        exact frameDecoder_decodes.next_word reply.fits _
      obtain ⟨hunread', hblock, hfiles, hshown⟩ :=
        take_reply currentPath canOpen c reply (announced todo ++ tail)
      obtain ⟨c', hcall, hshown', hblock', hfiles'⟩ := ih hunread'
      refine ⟨c', ?_, ?_, hblock'.trans hblock, hfiles'.trans hfiles⟩
      · rw [slotReadyRead_of_some currentPath canOpen hnext, hcall]
      · rw [hshown', hshown, List.append_assoc, List.map_cons, List.singleton_append]

/-! ### Behind the announcement -/

theorem FileBlock.bytes_length (block : FileBlock) :
    block.bytes.length = 4 + ((writeQString block.name).length + block.content.length) := by
  simp only [bytes, blockOf, List.length_append, toBytes_length]
  omega

theorem readFile_whole (block : FileBlock) (c : TcpClient) (hblock : c.blockSize = 0)
    (hrx : c.reader.rx = block.bytes) :
    c.readFile currentPath canOpen =
      let target := targetPath currentPath block.name
      let c := { c with reader := { c.reader with rx := [] } }
      if canOpen target then (true, { c with files := c.files ++ [(target, block.content)] })
      else (false, c) := by
  have hbound := block.bounded
  have hlength := block.bytes_length
  rw [← FileBlock.bytes, hlength] at hbound
  have hread : read 4 block.bytes = ((writeQString block.name).length + block.content.length,
      writeQString block.name ++ block.content) := by
    rw [FileBlock.bytes, blockOf, List.append_assoc, read_toBytes_append,
      Nat.mod_eq_of_lt (by omega)]
  have hname : Encodable block.name := by
    rw [Encodable, nullMark]
    rw [writeQString_length] at hbound
    omega
  rw [TcpClient.readFile, if_pos hblock, hrx, if_neg (by omega), hread, TcpClient.readBlock]
  dsimp only
  rw [toQint32_of_lt (by omega), if_neg (by simp), readQString_writeQString _ hname, ← hblock]

theorem readFile_part (block : FileBlock) (c : TcpClient) (hblock : c.blockSize = 0)
    {q : List UInt8} (hq : q ≠ []) (hrx : c.reader.rx ++ q = block.bytes) :
    (c.readFile currentPath canOpen).1 = false ∧ (c.readFile currentPath canOpen).2.files =
      c.files := by
  have hbound := block.bounded
  have hlength := block.bytes_length
  have hpos := List.length_pos_iff.mpr hq
  rw [← FileBlock.bytes, hlength] at hbound
  have hsum := congrArg List.length hrx
  rw [List.length_append, hlength] at hsum
  rw [TcpClient.readFile, if_pos hblock]
  split_ifs with hheader
  · exact ⟨rfl, rfl⟩
  · have hsize : (read 4 c.reader.rx).1 = (writeQString block.name).length +
        block.content.length := by
      have hback := @toBytes_read 4 c.reader.rx (by omega)
      rw [← hback, FileBlock.bytes, blockOf, List.append_assoc, List.append_assoc] at hrx
      exact toBytes_inj (read_lt 4 _) (by omega) (List.append_inj hrx (by simp)).1
    have hrest := read_length 4 c.reader.rx
    rw [TcpClient.readBlock]
    dsimp only
    rw [hsize, toQint32_of_lt (by omega), if_pos (by omega)]
    exact ⟨rfl, rfl⟩

/-- The download has gone wrong for good: the announcement has been shown and no file written, or
more than the announced texts has been shown. -/
def Strayed (replies : List Reply) (c : TcpClient) : Prop :=
  (receivedOf c.shown = replies.map (·.text) ++ [announcement] ∧ c.files = []) ∨
    ∃ extra, extra ≠ [] ∧ receivedOf c.shown = replies.map (·.text) ++ [announcement] ++ extra

theorem Strayed.not_downloaded {replies : List Reply} {c : TcpClient} {content : List UInt8}
    (h : Strayed replies c) : ¬ Downloaded c replies content := by
  rintro ⟨hshown, path, hfiles⟩
  rcases h with ⟨_, hnone⟩ | ⟨extra, hextra, hmore⟩
  · rw [hnone] at hfiles
    cases hfiles
  · rw [hmore] at hshown
    exact hextra (List.append_right_eq_self.mp hshown)

theorem Strayed.take {replies : List Reply} {c : TcpClient} (h : Strayed replies c)
    (reader : FrameReader) (str : QString) :
    Strayed replies (c.take currentPath canOpen reader str) := by
  refine Or.inr ?_
  rw [receivedOf_take]
  rcases h with ⟨hshown, _⟩ | ⟨extra, _, hshown⟩
  · exact ⟨[str], by simp, by rw [hshown]⟩
  · exact ⟨extra ++ [str], by simp, by rw [hshown, List.append_assoc, List.append_assoc]⟩

theorem Strayed.slotReadyRead {replies : List Reply} {c : TcpClient} (h : Strayed replies c) :
    Strayed replies (slotReadyRead currentPath canOpen c) :=
  slotReadyRead_keeps currentPath canOpen (fun _ _ hc => hc)
    (fun _ reader str hc => hc.take currentPath canOpen reader str) h

theorem Strayed.after {replies : List Reply} {c : TcpClient} (h : Strayed replies c)
    (chunks : List (List UInt8)) :
    Strayed replies (chunks.foldl (TcpClient.arrive currentPath canOpen) c) :=
  arrive_keeps currentPath canOpen (fun _ _ hc => hc) (fun _ reader str hc =>
    hc.take currentPath canOpen reader str)
    h chunks

end

/-! ### Where the stream may be cut -/

/-- No cut falls behind the announcement: a cut at the end of the first `head` bytes or later has
nothing left behind it. -/
def UncutBehind (head : Nat) (chunks : List (List UInt8)) : Prop :=
  ∀ early late, chunks = early ++ late → early.flatten.length < head ∨ late.flatten = []

private theorem uncutBehind_iff {head : Nat} {early late : List (List UInt8)} {chunk : List UInt8}
    (hearly : early.flatten.length < head) (hreach : head ≤ early.flatten.length + chunk.length) :
    UncutBehind head (early ++ chunk :: late) ↔ late.flatten = [] := by
  constructor
  · intro h
    rcases h (early ++ [chunk]) late (by simp) with hlt | hnil
    · rw [List.flatten_append, List.length_append, List.flatten_singleton] at hlt
      omega
    · exact hnil
  · intro hnil early' late' hsplit
    rcases List.append_eq_append_iff.mp hsplit with ⟨middle, hearly', hlate⟩ | ⟨middle, hearly', _⟩
    · cases middle with
      | nil =>
          rw [List.append_nil] at hearly'
          exact Or.inl (by rw [hearly']; exact hearly)
      | cons first middle =>
          rw [List.cons_append, List.cons.injEq] at hlate
          rw [hlate.2, List.flatten_append] at hnil
          exact Or.inr (List.append_eq_nil_iff.mp hnil).2
    · refine Or.inl (Nat.lt_of_le_of_lt ?_ hearly)
      rw [hearly', List.flatten_append, List.length_append]
      exact Nat.le_add_right _ _

section

variable (currentPath : List UInt16) (canOpen : List UInt16 → Bool)

private theorem clientAfter_before (replies : List Reply) {early : List (List UInt8)}
    {q : List UInt8} (hq : q ≠ []) (hstream : early.flatten ++ q = announced replies) :
    Before replies q (clientAfter currentPath canOpen early) := by
  induction early using List.reverseRecOn generalizing q with
  | nil =>
      have hall : q = announced replies := hstream
      rw [hall]
      exact before_start replies
  | append_singleton early chunk ih =>
      rw [List.flatten_append, List.flatten_singleton, List.append_assoc] at hstream
      obtain ⟨done, todo, hsplit, hshown, hblock, hfiles, hrest⟩ := ih (by simp [hq]) hstream
      rw [clientAfter, List.foldl_append, List.foldl_cons, List.foldl_nil]
      apply slotReadyRead_before currentPath canOpen hq
      exact ⟨done, todo, hsplit, hshown, hblock, hfiles,
        by rw [← hrest, FrameReader.unread_receive, List.append_assoc]; rfl⟩

private theorem idle_after {c : TcpClient} (hidle : decodeFrame c.reader.unread = none)
    {chunks : List (List UInt8)} (hnil : chunks.flatten = []) :
    let c' := chunks.foldl (TcpClient.arrive currentPath canOpen) c
    c'.shown = c.shown ∧ c'.files = c.files := by
  induction chunks generalizing c with
  | nil => exact ⟨rfl, rfl⟩
  | cons chunk chunks ih =>
      obtain ⟨hchunk, hchunks⟩ := List.append_eq_nil_iff.mp hnil
      have hreceive : (c.reader.receive chunk).unread = c.reader.unread := by
        rw [FrameReader.unread_receive, hchunk, List.append_nil]
      obtain ⟨r, hcall, hunread, _⟩ := slotReadyRead_of_none currentPath canOpen
        (c := { c with reader := c.reader.receive chunk }) (by rw [hreceive]; exact hidle)
      rw [List.foldl_cons, TcpClient.arrive, hcall]
      refine ih (c := { c with reader := r }) ?_ hchunks
      rw [hunread, hreceive]
      exact hidle

theorem take_announcement (c : TcpClient) (rest : List UInt8) :
    let read := TcpClient.readFile currentPath canOpen
      { c with reader := ⟨0, rest⟩, shown := c.shown ++ [Shown.received announcement] }
    (c.take currentPath canOpen ⟨0, rest⟩ announcement).reader = read.2.reader ∧
      (c.take currentPath canOpen ⟨0, rest⟩ announcement).files = read.2.files := by
  have hexit : ¬ announcement.Same (.lit "exit") := by decide
  have hget : announcement.Same (.lit "get") := by decide
  rw [TcpClient.take]
  dsimp only
  rw [if_neg hexit, if_pos hget]
  exact ⟨rfl, rfl⟩

/-- The chunk that completes the announcement brings `tail` behind it, from which the file is
read. -/
private theorem clientAfter_announced (replies : List Reply) {early late : List (List UInt8)}
    {q tail : List UInt8} (hq : q ≠ []) (hannounced : announced replies = early.flatten ++ q) :
    ∃ c : TcpClient, clientAfter currentPath canOpen (early ++ (q ++ tail) :: late) =
        late.foldl (TcpClient.arrive currentPath canOpen)
          (slotReadyRead currentPath canOpen (c.take currentPath canOpen ⟨0, tail⟩ announcement)) ∧
      receivedOf c.shown = replies.map (·.text) ∧ c.blockSize = 0 ∧ c.files = [] := by
  obtain ⟨done, todo, hsplit, hshown, hsize, hfiles, htodo⟩ :=
    clientAfter_before currentPath canOpen replies hq hannounced.symm
  have hunread : ((clientAfter currentPath canOpen early).reader.receive (q ++ tail)).unread =
      announced todo ++ tail := by
    rw [FrameReader.unread_receive, ← List.append_assoc, htodo]
  obtain ⟨c, hcall, hshown', hsize', hfiles'⟩ := slotReadyRead_announced currentPath canOpen
    (c := { clientAfter currentPath canOpen early with
      reader := (clientAfter currentPath canOpen early).reader.receive (q ++ tail) }) hunread
  refine ⟨c, ?_, ?_, hsize'.trans hsize, hfiles'.trans hfiles⟩
  · rw [clientAfter, List.foldl_append, List.foldl_cons, ← hcall]
    rfl
  · rw [hshown', hshown, hsplit, List.map_append]

private theorem downloaded_of_whole {replies : List Reply} {block : FileBlock} {c : TcpClient}
    (hshown : receivedOf c.shown = replies.map (·.text)) (hsize : c.blockSize = 0)
    (hfiles : c.files = []) (hopen : canOpen (targetPath currentPath block.name) = true)
    {late : List (List UInt8)} (hlate : late.flatten = []) :
    Downloaded (late.foldl (TcpClient.arrive currentPath canOpen) (slotReadyRead currentPath canOpen
      (c.take currentPath canOpen ⟨0, block.bytes⟩ announcement))) replies block.content := by
  obtain ⟨hreader, hwritten⟩ := take_announcement currentPath canOpen c block.bytes
  rw [readFile_whole currentPath canOpen block
    { c with reader := ⟨0, block.bytes⟩, shown := c.shown ++ [Shown.received announcement] }
    hsize rfl] at hreader hwritten
  dsimp only at hreader hwritten
  rw [if_pos hopen] at hreader hwritten
  -- the buffer is empty, and stays so
  have hidle : decodeFrame
      (c.take currentPath canOpen ⟨0, block.bytes⟩ announcement).reader.unread = none := by
    rw [hreader]
    rfl
  obtain ⟨r, hstop, hunread, _⟩ := slotReadyRead_of_none currentPath canOpen hidle
  rw [hstop]
  obtain ⟨hshown', hfiles'⟩ := idle_after currentPath canOpen
    (c := { c.take currentPath canOpen ⟨0, block.bytes⟩ announcement with reader := r })
    (by rw [hunread]; exact hidle) hlate
  refine ⟨?_, targetPath currentPath block.name, ?_⟩
  · rw [hshown']
    exact (receivedOf_take currentPath canOpen c _ _).trans (by rw [hshown])
  · rw [hfiles']
    exact hwritten.trans (by rw [hfiles, List.nil_append])

private theorem not_downloaded_of_unwritten {replies : List Reply} {c : TcpClient}
    {tail : List UInt8} (hshown : receivedOf c.shown = replies.map (·.text))
    (hunwritten : (c.take currentPath canOpen ⟨0, tail⟩ announcement).files = [])
    (late : List (List UInt8)) (content : List UInt8) :
    ¬ Downloaded (late.foldl (TcpClient.arrive currentPath canOpen) (slotReadyRead currentPath canOpen
      (c.take currentPath canOpen ⟨0, tail⟩ announcement))) replies content := by
  have hstrayed : Strayed replies (c.take currentPath canOpen ⟨0, tail⟩ announcement) :=
    Or.inl ⟨by rw [receivedOf_take, hshown], hunwritten⟩
  exact ((hstrayed.slotReadyRead currentPath canOpen).after currentPath canOpen late).not_downloaded

/-- **Download.** Whatever the replies, the block and the chunks, the client shows the texts and
writes the file with the block's content exactly when no cut falls behind the announcement and the
file can be opened. -/
theorem downloaded_iff (replies : List Reply) (block : FileBlock) (chunks : List (List UInt8))
    (hcut : chunks.flatten = announced replies ++ block.bytes) :
    Downloaded (clientAfter currentPath canOpen chunks) replies block.content ↔
      UncutBehind (announced replies).length chunks ∧
        canOpen (targetPath currentPath block.name) = true := by
  have hnonempty : announced replies ≠ [] := by
    apply List.ne_nil_of_length_pos
    simp [announced, stream, textFrame_eq]
  obtain ⟨early, q, tail, late, rfl, hq, hannounced, hblock⟩ :=
    exists_chunk_completing hnonempty hcut
  obtain ⟨c, hafter, hshown, hsize, hfiles⟩ :=
    clientAfter_announced currentPath canOpen replies hq hannounced
  have hlength := congrArg List.length hannounced
  have hpos := List.length_pos_iff.mpr hq
  rw [List.length_append] at hlength
  rw [hafter, uncutBehind_iff (by omega) (by rw [List.length_append]; omega)]
  by_cases hlate : late.flatten = []
  · rw [hlate, List.append_nil] at hblock
    subst hblock
    by_cases hopen : canOpen (targetPath currentPath block.name) = true
    · exact iff_of_true (downloaded_of_whole currentPath canOpen hshown hsize hfiles hopen hlate)
        ⟨hlate, hopen⟩
    · refine iff_of_false (not_downloaded_of_unwritten currentPath canOpen hshown ?_ late _)
        fun h => hopen h.2
      obtain ⟨_, hwritten⟩ := take_announcement currentPath canOpen c block.bytes
      rw [readFile_whole currentPath canOpen block
        { c with reader := ⟨0, block.bytes⟩, shown := c.shown ++ [Shown.received announcement] }
          hsize rfl]
        at hwritten
      dsimp only at hwritten
      rw [if_neg hopen] at hwritten
      exact hwritten.trans hfiles
  · refine iff_of_false (not_downloaded_of_unwritten currentPath canOpen hshown ?_ late _) fun h =>
      hlate h.1
    obtain ⟨_, hwritten⟩ := take_announcement currentPath canOpen c tail
    obtain ⟨_, hunwritten⟩ := readFile_part currentPath canOpen block
      { c with reader := ⟨0, tail⟩, shown := c.shown ++ [Shown.received announcement] } hsize
        hlate hblock.symm
    exact hwritten.trans (hunwritten.trans hfiles)

end

def oneByte : FileBlock := ⟨.lit "a", [0x41], by decide⟩

def someReply : Reply := ⟨.lit "hi", by decide, by decide⟩

/-- With a cut in the frame of the reply. -/
theorem downloaded_iff_two_chunks :
    Downloaded
      (clientAfter [] (fun _ => true)
        [(announced [someReply]).take 3, (announced [someReply]).drop 3 ++ oneByte.bytes])
      [someReply] oneByte.content := by
  have hcut : [(announced [someReply]).take 3,
    (announced [someReply]).drop 3 ++ oneByte.bytes].flatten =
      announced [someReply] ++ oneByte.bytes := by
    rw [List.flatten_cons, List.flatten_singleton, ← List.append_assoc, List.take_append_drop]
  refine (downloaded_iff [] (fun _ => true) [someReply] oneByte _ hcut).mpr ⟨?_, rfl⟩
  exact (@uncutBehind_iff _ [(announced [someReply]).take 3] [] _ (by decide +kernel) (by decide +kernel)).mpr rfl

/-- A cut between the announcement and the block: no file is written. -/
theorem download_lost :
    [announced [], oneByte.bytes].flatten = announced [] ++ oneByte.bytes ∧
      (clientAfter [] (fun _ => true) [announced [], oneByte.bytes]).files = [] ∧
      ¬ Downloaded (clientAfter [] (fun _ => true) [announced [], oneByte.bytes]) []
        oneByte.content := by
  have hfiles : (clientAfter [] (fun _ => true) [announced [], oneByte.bytes]).files = [] := by
    decide +kernel
  refine ⟨by simp, hfiles, ?_⟩
  rintro ⟨_, path, hpath⟩
  rw [hfiles] at hpath
  cases hpath

end NetworkHomework.Qt
