import NetworkHomework.Qt.Confinement
import NetworkHomework.Qt.Client

/-!
# `read_file`: what a block can overwrite

The name of the file that the client writes comes from the server. Of that name it keeps what
follows the last slash and puts it behind the current directory: `readFile_confined` says that this
names a file of the directory itself, or else a directory, which is not opened for writing.
`files_confined` says the same of all files that a client has written.
-/

namespace NetworkHomework.Qt

open BigEndian FileServer Paths PathChar

/-! ### The file that `read_file` opens -/

/-- The file name and the content in the block that `read_file` finds complete in the buffer. -/
def TcpClient.block (c : TcpClient) : Option (QString × List UInt8) :=
  if c.blockSize = 0 then
    if c.reader.rx.length < 4 then none
    else if ((read 4 c.reader.rx).2.length : Int) < toQint32 (read 4 c.reader.rx).1 then none
    else some (readQString (read 4 c.reader.rx).2)
  else if (c.reader.rx.length : Int) < c.blockSize then none
  else some (readQString c.reader.rx)

/-- The path that `read_file` opens for writing, if it comes to that. -/
def TcpClient.opening (currentPath : List UInt16) (c : TcpClient) : Option (List UInt16) :=
  c.block.map fun item => targetPath currentPath item.1

def written (currentPath : List UInt16) (canOpen : List UInt16 → Bool) :
    Option (QString × List UInt8) → List (List UInt16 × List UInt8)
  | none => []
  | some (fileName, line) =>
      if canOpen (targetPath currentPath fileName) then
        [(targetPath currentPath fileName, line)] else []

section

variable {currentPath : List UInt16} {canOpen : List UInt16 → Bool}

theorem readBlock_files (c : TcpClient) :
    (c.readBlock currentPath canOpen).2.files =
      c.files ++ written currentPath canOpen
        (if (c.reader.rx.length : Int) < c.blockSize then
          none else some (readQString c.reader.rx)) := by
  rw [TcpClient.readBlock]
  split_ifs with hsize
  · exact (List.append_nil _).symm
  · dsimp only [written]
    split_ifs
    · rfl
    · exact (List.append_nil _).symm

theorem readFile_files (c : TcpClient) :
    (c.readFile currentPath canOpen).2.files = c.files ++ written currentPath canOpen c.block := by
  rw [TcpClient.readFile, TcpClient.block]
  split_ifs with hsize hfour hshort
  · exact (List.append_nil _).symm
  · rw [readBlock_files, if_pos hshort]
  · rw [readBlock_files, if_neg hshort]
  · next hshort => rw [readBlock_files, if_pos hshort]
  · next hshort => rw [readBlock_files, if_neg hshort]

theorem opening_of_written {c : TcpClient} {e : List UInt16 × List UInt8}
    (he : e ∈ written currentPath canOpen c.block) :
    c.opening currentPath = some e.1 ∧ canOpen e.1 = true := by
  rw [TcpClient.opening]
  cases hblock : c.block with
  | none =>
      rw [hblock] at he
      exact absurd he List.not_mem_nil
  | some item =>
      rw [hblock, written] at he
      split_ifs at he with hopen
      · rw [List.mem_singleton] at he
        rw [he]
        exact ⟨rfl, hopen⟩
      · exact absurd he List.not_mem_nil

end

/-! ### Behind the last slash -/

theorem lastSection_noSlash (us : List UInt16) : 0x2f ∉ lastSection us := by
  intro h
  rw [lastSection, List.mem_reverse] at h
  have hother := List.mem_takeWhile_imp h
  simp at hother

theorem nativeName_noSlash {us : List UInt16} (hus : 0x2f ∉ us) : '/' ∉ nativeName us := by
  intro h
  apply hus
  have hdecode : '/' ∈ Utf16.decode '?' us := (List.takeWhile_prefix _).subset h
  exact Utf16.mem_of_mem_decode '?' (by decide) (by decide) hdecode

/-! ### Direct children -/

/-- The path is that of the directory with one more name. -/
structure DirectChild (dir : List (Name Char)) (p : Path Char) : Prop where
  absolute : p.absolute = true
  trailing : p.trailing = false
  names : ∃ n, Proper n ∧ p.names = dir ++ [n]

variable (fs : Disk)

section

variable {fs} {s : List Char}

theorem directChild_of_proper (hs : Proper s) :
    DirectChild fs.cwd (.parse (fs.toFileTree.currentPath.string ++ slash :: s)) := by
  refine ⟨?_, ?_, s, hs, ?_⟩
  · rw [string_currentPath]
    rfl
  · have hlast : (fs.toFileTree.currentPath.string ++ slash :: s).getLast? ≠ some '/' := by
      rw [← List.singleton_append, ← List.append_assoc,
        List.getLast?_append_of_ne_nil _ hs.nonempty]
      exact fun h => hs.noSlash (List.mem_of_getLast? h)
    exact decide_eq_false fun h => hlast h.2
  · rw [parse_joined_names, names_single hs.nonempty hs.noSlash]

theorem DirectChild.place {p : Path Char} (h : DirectChild fs.cwd p) :
    ∃ n, Proper n ∧ fs.place p = fs.cwd ++ [n] := by
  obtain ⟨n, hn, hnames⟩ := h.names
  refine ⟨n, hn, ?_⟩
  rw [FileTree.place, FileTree.start, h.absolute, if_pos rfl, hnames, foldl_push_cwd]
  exact push_proper hn fs.cwd

theorem elements_of_not_proper (hs : ¬ Proper s) (hslash : '/' ∉ s) :
    ∃ l, (Path.parse (fs.toFileTree.currentPath.string ++ slash :: s)).elements = fs.cwd ++ l ∧
      ∀ n ∈ l, ¬ Proper n ∧ '/' ∉ n := by
  refine ⟨_, by rw [Path.elements, parse_joined_names, List.append_assoc], fun n hn => ?_⟩
  rcases List.mem_append.mp hn with hname | hempty
  · have hne : s ≠ [] := by
      intro hnil
      rw [hnil, names_nil] at hname
      exact absurd hname List.not_mem_nil
    rw [names_single hne hslash, List.mem_singleton] at hname
    rw [hname]
    exact ⟨hs, hslash⟩
  · split_ifs at hempty
    · rw [List.mem_singleton] at hempty
      rw [hempty]
      exact ⟨fun hproper => hproper.nonempty rfl, List.not_mem_nil⟩
    · exact absurd hempty List.not_mem_nil

theorem status_of_not_proper (hs : ¬ Proper s) (hslash : '/' ∉ s) :
    fs.status (.parse (fs.toFileTree.currentPath.string ++ slash :: s)) = some .directory := by
  obtain ⟨l, helements, hl⟩ := @elements_of_not_proper fs s hs hslash
  have hway : ∀ front, front <+: fs.cwd ++ l → fs.kind (front.foldl push []) = some .directory := by
    intro front hfront
    rcases prefix_append_cases hfront with habove | ⟨more, hmore, rfl⟩
    · rw [foldl_push_proper fun n hn => fs.cwd_proper n (habove.subset hn)]
      exact fs.directory_of_prefix habove fs.cwd_directory
    · rw [foldl_push_cwd]
      apply fs.directory_of_prefix _ fs.cwd_directory
      exact foldl_push_of_not_proper (fun n hn => hl n (hmore.subset hn)) fs.cwd
  have hend := hway _ List.prefix_rfl
  have hresolve : fs.resolve (.parse (fs.toFileTree.currentPath.string ++ slash :: s)) =
      some ((fs.cwd ++ l).foldl push []) := by
    rw [FileTree.resolve_eq_some_iff, parse_joined_start, helements]
    exact ⟨rfl, Option.isSome_of_eq_some hend, fun front hfront _ => hway front hfront⟩
  exact (FileTree.status_of_resolve hresolve).trans hend

end

/-! ### What the client writes -/

/-- The path as the operating system reads it. -/
def asRead (path : List UInt16) : Path Char := .parse (nativeName path)

/-- `open(QIODevice::WriteOnly)` fails for a directory. -/
def RefusesDirectories (fs : Disk) (canOpen : List UInt16 → Bool) : Prop :=
  ∀ path, fs.status (asRead path) = some .directory → canOpen path = false

section

variable {fs} {canOpen : List UInt16 → Bool}

theorem asRead_target (fileName : QString) :
    asRead (targetPath fs.currentPath fileName) =
      .parse (fs.toFileTree.currentPath.string ++ slash :: nativeName (lastSection fileName.data)) := by
  rw [asRead, targetPath, nativeName_below]

theorem target_child_or_directory (fileName : QString) :
    DirectChild fs.cwd (asRead (targetPath fs.currentPath fileName)) ∨
      fs.status (asRead (targetPath fs.currentPath fileName)) = some .directory := by
  have hslash : '/' ∉ nativeName (lastSection fileName.data) :=
    nativeName_noSlash (lastSection_noSlash _)
  rw [asRead_target]
  by_cases hproper : Proper (nativeName (lastSection fileName.data))
  · exact Or.inl (directChild_of_proper hproper)
  · exact Or.inr (status_of_not_proper hproper hslash)

theorem opening_child_or_directory {c : TcpClient} {path : List UInt16}
    (hopening : c.opening fs.currentPath = some path) :
    DirectChild fs.cwd (asRead path) ∨ fs.status (asRead path) = some .directory := by
  obtain ⟨item, -, rfl⟩ := Option.map_eq_some_iff.mp hopening
  exact target_child_or_directory item.1

/-- **Only in the own directory.** Whatever name a block gives: the path that `read_file` opens for
writing is a direct child of the current directory; or it is that of a directory, `open` fails, and
nothing is written. What is written goes to the path opened. -/
theorem readFile_confined (fs : Disk) (hrefuses : RefusesDirectories fs canOpen) (c : TcpClient) :
    ∃ files, (c.readFile fs.currentPath canOpen).2.files = c.files ++ files ∧
      (∀ path, c.opening fs.currentPath = some path →
        DirectChild fs.cwd (asRead path) ∨
          (fs.status (asRead path) = some .directory ∧ canOpen path = false ∧ files = [])) ∧
      ∀ e ∈ files, c.opening fs.currentPath = some e.1 := by
  refine ⟨_, readFile_files c, fun path hopening => ?_, fun e he => (opening_of_written he).1⟩
  refine (opening_child_or_directory hopening).imp_right fun hstatus => ?_
  have hcannot := hrefuses path hstatus
  refine ⟨hstatus, hcannot, ?_⟩
  apply List.eq_nil_iff_forall_not_mem.mpr
  intro e he
  obtain ⟨hsame, hopen⟩ := opening_of_written he
  rw [hopening, Option.some.injEq] at hsame
  rw [← hsame, hcannot] at hopen
  cases hopen

def writable (fs : Disk) (path : List UInt16) : Bool := fs.status (asRead path) ≠ some .directory

def sentBlock (fileName : QString) (content : List UInt8) : TcpClient :=
  { TcpClient.start with reader := ⟨0, blockOf fileName content⟩ }

/-- The client in `/home/me` is sent a file under the name `../key`. -/
theorem readFile_confined_key :
    ((sentBlock (.lit "../key") [0x73]).readFile homesDisk.currentPath (writable homesDisk)).2.files =
        [(QString.data (.lit "/home/me/key"), [0x73])] ∧
      DirectChild homesDisk.cwd (asRead (QString.data (.lit "/home/me/key"))) := by
  have hwritten :
      ((sentBlock (.lit "../key") [0x73]).readFile homesDisk.currentPath (writable homesDisk)).2.files =
      [(QString.data (.lit "/home/me/key"), [0x73])] := by decide +kernel
  have hrefuses : RefusesDirectories homesDisk (writable homesDisk) := fun path hstatus =>
    decide_eq_false (not_not_intro hstatus)
  obtain ⟨files, hfiles, hpath, hopened⟩ :=
    readFile_confined homesDisk hrefuses (sentBlock (.lit "../key") [0x73])
  refine ⟨hwritten, ?_⟩
  rw [hwritten] at hfiles
  have hmem : (QString.data (.lit "/home/me/key"), [0x73]) ∈ files := by
    rw [← show [(QString.data (.lit "/home/me/key"), [0x73])] = files from hfiles]
    exact List.mem_cons_self
  rcases hpath _ (hopened _ hmem) with hchild | ⟨-, -, hnone⟩
  · exact hchild
  · rw [hnone] at hmem
    exact absurd hmem List.not_mem_nil

/-! ### Whole runs -/

def OwnFiles (fs : Disk) (c : TcpClient) : Prop := ∀ e ∈ c.files, DirectChild fs.cwd (asRead e.1)

variable (hrefuses : RefusesDirectories fs canOpen)

include hrefuses

theorem OwnFiles.readFile {c : TcpClient} (h : OwnFiles fs c) :
    OwnFiles fs (c.readFile fs.currentPath canOpen).2 := by
  intro e he
  rw [readFile_files] at he
  rcases List.mem_append.mp he with hbefore | hnew
  · exact h e hbefore
  · obtain ⟨hopening, hopen⟩ := opening_of_written hnew
    rcases opening_child_or_directory hopening with hchild | hstatus
    · exact hchild
    · rw [hrefuses e.1 hstatus] at hopen
      cases hopen

theorem OwnFiles.take {c : TcpClient} (h : OwnFiles fs c) (reader : FrameReader) (str : QString) :
    OwnFiles fs (c.take fs.currentPath canOpen reader str) := by
  rw [TcpClient.take]
  split_ifs
  · exact OwnFiles.readFile hrefuses h
  · exact OwnFiles.readFile hrefuses h
  · exact h
  · exact h

/-- Whatever arrives, and in whatever chunks, each file that the client has written is in its own
directory. -/
theorem files_confined (chunks : List (List UInt8)) :
    ∀ e ∈ (chunks.foldl (TcpClient.arrive fs.currentPath canOpen) TcpClient.start).files,
      ∃ n, Proper n ∧ fs.place (asRead e.1) = fs.cwd ++ [n] := by
  have hown : OwnFiles fs (chunks.foldl (TcpClient.arrive fs.currentPath canOpen) TcpClient.start) := by
    apply arrive_keeps
    · exact fun _ _ h => h
    · exact fun _ reader str h => OwnFiles.take hrefuses h reader str
    · exact fun e he => absurd he List.not_mem_nil
  exact fun e he => (hown e he).place

end

end NetworkHomework.Qt
