import NetworkHomework.Base.Utf16
import NetworkHomework.FileServer.Confinement
import NetworkHomework.Qt.Grammar

/-!
# `send_to_file`: what a request can reach

The Qt servers put the working directory, a slash and the file name of the request together and open
what the operating system finds under that. Nothing looks at the `..` in a file name, which the file
servers of hw4 and hw7 resolve before they use it. `confined_iff` says which requests stay in the
working directory all the same: those whose names, taken one after the other, never leave the line
of directories that starts at the root and goes through the working directory.
-/

namespace NetworkHomework.Qt

open FileServer Paths PathChar

/-! ### Files without symbolic links -/

/-- A file tree with what can be read from its files. A directory is not opened. -/
structure Disk extends FileTree Char where
  opens : List (Name Char) → Bool
  size : List (Name Char) → Nat
  content : List (Name Char) → List UInt8
  opens_file : ∀ place, kind place = some .directory → opens place = false

/-- `QFile::encodeName`, where `?` stands for what is not UTF-16, as far as the system calls read
it. -/
def nativeName (us : List UInt16) : List Char := (Utf16.decode '?' us).takeWhile (· ≠ nul)

namespace Disk

variable (fs : Disk)

def currentPath : List UInt16 := Utf16.encode fs.toFileTree.currentPath.string

def qfile : FileSystem := fun path =>
  match fs.resolve (.parse (nativeName path)) with
  | none => ⟨false, false, 0, []⟩
  | some place => ⟨true, fs.opens place, fs.size place, fs.content place⟩

def path (str : QString) : List UInt16 :=
  fs.currentPath ++ [0x2f] ++ (parseCommand str).filename.data

def nativePath (str : QString) : Path Char := .parse (nativeName (fs.path str))

def opened (edition : Edition) (str : QString) : Option (List (Name Char)) :=
  if AnnouncesFile edition str ∧ (parseCommand str).filename.size ≠ 0 then
    (fs.resolve (fs.nativePath str)).filter fs.opens
  else none

end Disk

/-! ### Confinement -/

def Below (cwd place : List (Name Char)) : Prop := cwd <+: place ∧ place ≠ cwd

/-- The directory has the same files below it, and they read the same. -/
structure AgreeBelow (cwd : List (Name Char)) (fs fs' : Disk) : Prop where
  kind : ∀ place, cwd <+: place → fs.kind place = fs'.kind place
  opens : ∀ place, cwd <+: place → fs.opens place = fs'.opens place
  size : ∀ place, cwd <+: place → fs.size place = fs'.size place
  content : ∀ place, cwd <+: place → fs.content place = fs'.content place

/-- Whatever the disk looks like, the file that is opened for a request is below the working
directory. -/
def OpensBelow (edition : Edition) (cwd : List (Name Char)) (str : QString) : Prop :=
  ∀ fs : Disk, fs.cwd = cwd → ∀ place, fs.opened edition str = some place → Below cwd place

/-- What is sent for a request depends on nothing but what is below the working directory. -/
def SendsSame (edition : Edition) (cwd : List (Name Char)) (str : QString) : Prop :=
  ∀ fs fs' : Disk, fs.cwd = cwd → fs'.cwd = cwd → AgreeBelow cwd fs fs' → ∀ out : Output,
    (answer edition fs.currentPath fs.qfile str out).tx =
      (answer edition fs'.currentPath fs'.qfile str out).tx

/-- One of the places lies on the way to the other. -/
def Near (cwd place : List (Name Char)) : Prop := place <+: cwd ∨ cwd <+: place

instance (cwd place : List (Name Char)) : Decidable (Near cwd place) :=
  inferInstanceAs (Decidable (_ ∨ _))

def requestedNames (str : QString) : List (Name Char) :=
  names (nativeName (parseCommand str).filename.data)

/-- From the working directory the names lead to no place that is neither above it nor below. -/
def StaysNear (cwd : List (Name Char)) (str : QString) : Prop :=
  ∀ front ∈ (requestedNames str).inits, Near cwd (front.foldl push cwd)

instance (cwd : List (Name Char)) (str : QString) : Decidable (StaysNear cwd str) :=
  inferInstanceAs (Decidable (∀ front ∈ _, _))

/-- The names end at a place that is neither above the working directory nor below, and that can be
a file: no slash follows, and they have not led to it or below it before. -/
def LeadsOut (cwd : List (Name Char)) (str : QString) : Prop :=
  (nativeName (parseCommand str).filename.data).getLast? ≠ some '/' ∧
    ¬ Near cwd ((requestedNames str).foldl push cwd) ∧
      ∀ front ∈ (requestedNames str).inits, front ≠ requestedNames str →
        ¬ (requestedNames str).foldl push cwd <+: front.foldl push cwd

instance (cwd : List (Name Char)) (str : QString) : Decidable (LeadsOut cwd str) :=
  inferInstanceAs (Decidable (_ ∧ _ ∧ ∀ front ∈ _, _))

/-! ### The path -/

theorem currentPath_nul (fs : Disk) : nul ∉ fs.toFileTree.currentPath.string := by
  rw [string_currentPath]
  by_cases hroot : fs.cwd = []
  · rw [hroot]
    decide
  · rw [← slashed_eq_intercalate hroot, slashed, List.mem_flatMap]
    rintro ⟨n, hn, hnul⟩
    rcases List.mem_cons.mp hnul with hslash | hnul
    · exact absurd hslash (by decide)
    · exact fs.cwd_nameable n hn hnul

theorem nativeName_below (fs : Disk) (us : List UInt16) :
    nativeName (fs.currentPath ++ [0x2f] ++ us) = fs.toFileTree.currentPath.string ++
      slash :: nativeName us := by
  have hslash : Utf16.decode '?' (0x2f :: us) = '/' :: Utf16.decode '?' us :=
    Utf16.decode_cons_of_not_high '?' (by decide) _
  have hkept : ∀ c ∈ fs.toFileTree.currentPath.string, decide (c ≠ nul) = true := fun c hc =>
    decide_eq_true fun hnul => currentPath_nul fs (hnul ▸ hc)
  rw [nativeName, Disk.currentPath, List.append_assoc, Utf16.decode_encode_append,
    List.singleton_append, hslash, List.takeWhile_append_of_pos hkept]
  rfl

theorem nativeName_path (fs : Disk) (str : QString) :
    nativeName (fs.path str) =
      fs.toFileTree.currentPath.string ++ slash :: nativeName (parseCommand str).filename.data :=
  nativeName_below fs _

theorem nativePath_names (fs : Disk) (str : QString) :
    (fs.nativePath str).names = fs.cwd ++ requestedNames str := by
  rw [Disk.nativePath, nativeName_path]
  exact (names_append_slash _ _).trans (congrArg (· ++ _) fs.toFileTree.currentPath.names_string)

theorem nativePath_start (fs fs' : Disk) (str : QString) : fs'.start (fs.nativePath str) = [] := by
  rw [Disk.nativePath, nativeName_path]
  rfl

theorem foldl_nativePath (fs : Disk) (str : QString) :
    (fs.nativePath str).elements.foldl push [] = (requestedNames str).foldl push fs.cwd := by
  rw [Path.foldl_push_elements, nativePath_names, foldl_push_cwd]

theorem nativePath_trailing (fs : Disk) {str : QString} (hnames : requestedNames str ≠ []) :
    (fs.nativePath str).trailing = true ↔ (nativeName (parseCommand str).filename.data).getLast? =
      some '/' := by
  have hne : nativeName (parseCommand str).filename.data ≠ [] := by
    intro hnil
    rw [requestedNames, hnil] at hnames
    exact hnames rfl
  have hall : (fs.nativePath str).names ≠ [] := by
    rw [nativePath_names]
    exact fun hnil => hnames (List.append_eq_nil_iff.mp hnil).2
  have hlast : (nativeName (fs.path str)).getLast? =
      (nativeName (parseCommand str).filename.data).getLast? := by
    rw [nativeName_path, ← List.singleton_append, ← List.append_assoc,
      List.getLast?_append_of_ne_nil _ hne]
  rw [← hlast]
  exact Path.trailing_parse hall

/-- On its way from the root the path comes to the places it comes to from the working directory,
and to those above. -/
theorem near_of_staysNear {fs : Disk} {str : QString} (hnear : StaysNear fs.cwd str)
    {front : List (Name Char)} (hfront : front <+: (fs.nativePath str).elements) :
    Near fs.cwd (front.foldl push []) := by
  have hall : ∀ front, front <+: fs.cwd ++ requestedNames str →
      Near fs.cwd (front.foldl push []) := by
    intro front hfront
    rcases prefix_append_cases hfront with habove | ⟨more, hmore, rfl⟩
    · rw [foldl_push_proper fun n hn => fs.cwd_proper n (habove.subset hn)]
      exact Or.inl habove
    · rw [foldl_push_cwd]
      exact hnear more ((List.mem_inits _ _).mpr hmore)
  rw [Path.elements, nativePath_names] at hfront
  split_ifs at hfront
  · rcases List.prefix_concat_iff.mp hfront with rfl | hfront
    · rw [List.foldl_append]
      exact hall _ List.prefix_rfl
    · exact hall front hfront
  · rw [List.append_nil] at hfront
    exact hall front hfront

/-! ### A request whose names stay near -/

section

variable {cwd : List (Name Char)} {fs fs' : Disk} {str : QString}

theorem directory_above (hcwd : fs.cwd = cwd) {place : List (Name Char)} (habove : place <+: cwd) :
    fs.kind place = some .directory := by
  rw [← hcwd] at habove
  exact fs.directory_of_prefix habove fs.cwd_directory

theorem AgreeBelow.near (h : AgreeBelow cwd fs fs') (hcwd : fs.cwd = cwd) (hcwd' : fs'.cwd = cwd)
    {place : List (Name Char)} (hnear : Near cwd place) : fs.kind place = fs'.kind place := by
  rcases hnear with habove | hbelow
  · rw [directory_above hcwd habove, directory_above hcwd' habove]
  · exact h.kind place hbelow

theorem resolve_nativePath {place : List (Name Char)}
    (hplace : fs'.resolve (fs.nativePath str) = some place) :
    (requestedNames str).foldl push fs.cwd = place ∧
      ∀ front, front <+: (fs.nativePath str).elements → front ≠ (fs.nativePath str).elements →
        fs'.kind (front.foldl push []) = some .directory := by
  obtain ⟨hend, -, hway⟩ := fs'.resolve_eq_some_iff.mp hplace
  rw [nativePath_start] at hend hway
  rw [foldl_nativePath] at hend
  exact ⟨hend, hway⟩

theorem below_of_opens {place : List (Name Char)} (hnear : Near fs.cwd place)
    (hopens : fs.opens place = true) :
    Below fs.cwd place := by
  have hfile : fs.kind place ≠ some .directory := fun hdirectory => by
    rw [fs.opens_file place hdirectory] at hopens
    cases hopens
  rcases hnear with habove | hbelow
  · exact absurd (directory_above rfl habove) hfile
  · refine ⟨hbelow, fun hcwd => hfile ?_⟩
    rw [hcwd, fs.cwd_directory]

theorem currentPath_eq (h : fs.cwd = fs'.cwd) : fs.currentPath = fs'.currentPath := by
  rw [Disk.currentPath, Disk.currentPath, string_currentPath, string_currentPath, h]

theorem AgreeBelow.resolve (h : AgreeBelow cwd fs fs') (hcwd : fs.cwd = cwd) (hcwd' : fs'.cwd = cwd)
    (hnear : StaysNear cwd str) :
    fs.resolve (fs.nativePath str) = fs'.resolve (fs.nativePath str) := by
  subst hcwd
  have hwalk : fs.walk [] (fs.nativePath str).elements = fs'.walk [] (fs.nativePath str).elements :=
    FileTree.walk_congr fun front hfront => h.near rfl hcwd' (near_of_staysNear hnear hfront)
  rw [FileTree.resolve, FileTree.resolve, nativePath_start, nativePath_start, hwalk]

/-- Of a file that is not opened, only that it is there is told. -/
def Alike (file file' : File) : Prop :=
  file = file' ∨ file.present = file'.present ∧ file.opens = false ∧ file'.opens = false

theorem AgreeBelow.qfile (h : AgreeBelow cwd fs fs') (hcwd : fs.cwd = cwd) (hcwd' : fs'.cwd = cwd)
    (hnear : StaysNear cwd str) : Alike (fs.qfile (fs.path str)) (fs'.qfile (fs.path str)) := by
  rw [Disk.qfile, Disk.qfile, ← Disk.nativePath, ← h.resolve hcwd hcwd' hnear]
  cases hplace : fs.resolve (fs.nativePath str) with
  | none => exact Or.inl rfl
  | some place =>
      have hplaces : Near cwd place := by
        obtain ⟨rfl, -⟩ := resolve_nativePath hplace
        rw [hcwd]
        exact hnear _ ((List.mem_inits _ _).mpr List.prefix_rfl)
      rcases hplaces with habove | hbelow
      · exact Or.inr ⟨rfl, fs.opens_file place (directory_above hcwd habove),
          fs'.opens_file place (directory_above hcwd' habove)⟩
      · left
        simp only [h.opens place hbelow, h.size place hbelow, h.content place hbelow]

theorem slice_of_closed {file : File} (hclosed : file.opens = false) (fict size : Nat) :
    file.slice fict size = [] := by
  have hread (pos count : Nat) : file.read pos count = [] :=
    if_neg (by rw [hclosed]; exact Bool.false_ne_true)
  rw [File.slice, hread, hread, hread]
  split_ifs <;> rfl

theorem requestedBlock_alike {currentPath : List UInt16} {disk disk' : FileSystem}
    (h : Alike (disk (currentPath ++ [0x2f] ++ (parseCommand str).filename.data))
      (disk' (currentPath ++ [0x2f] ++ (parseCommand str).filename.data))) :
    requestedBlock currentPath disk str = requestedBlock currentPath disk' str := by
  rw [requestedBlock, requestedBlock, fileBlock_eq, fileBlock_eq]
  dsimp only
  rcases h with hsame | ⟨hpresent, hclosed, hclosed'⟩
  · rw [hsame]
  · rw [hpresent, hclosed, hclosed', slice_of_closed hclosed, slice_of_closed hclosed']

theorem AgreeBelow.reply (h : AgreeBelow cwd fs fs') (hcwd : fs.cwd = cwd) (hcwd' : fs'.cwd = cwd)
    (edition : Edition) (hnear : (parseCommand str).command.Same announcement → StaysNear cwd str) :
    Qt.reply edition fs.currentPath fs.qfile str =
      Qt.reply edition fs'.currentPath fs'.qfile str := by
  rw [← currentPath_eq (hcwd.trans hcwd'.symm), Qt.reply, Qt.reply]
  by_cases hannounce : AnnouncesFile edition str
  · rw [requestedBlock_alike (h.qfile hcwd hcwd' (hnear hannounce.1))]
  · rw [if_neg hannounce, if_neg hannounce]

end

/-! ### A request whose names leave -/

def Disk.shaped (fs : Disk) (kindOf : List (Name Char) → Option Kind)
    (hcwd : ∀ dir, dir <+: fs.cwd → kindOf dir = some .directory)
    (hparent : ∀ dir n, (kindOf (dir ++ [n])).isSome → kindOf dir = some .directory) : Disk where
  kind place := if ∀ n ∈ place, Proper n ∧ nul ∉ n then kindOf place else none
  cwd := fs.cwd
  root := (if_pos fun n hn => absurd hn List.not_mem_nil).trans (hcwd [] List.nil_prefix)
  parent dir n h := by
    split_ifs at h with hnames
    · rw [if_pos fun m hm => hnames m (List.mem_append_left _ hm)]
      exact hparent dir n h
    · cases h
  proper place h n hn := by
    split_ifs at h with hnames
    · exact (hnames n hn).1
    · cases h
  cwd_directory :=
    (if_pos fun n hn => ⟨fs.cwd_proper n hn, fs.cwd_nameable n hn⟩).trans
      (hcwd fs.cwd List.prefix_rfl)
  opens place := kindOf place = some .regular
  size _ := 0
  content _ := []
  opens_file place hdirectory := by
    split_ifs at hdirectory with hnames
    rw [hdirectory]
    decide
  nameable place h n hn := by
    split_ifs at h with hnames
    · exact (hnames n hn).2
    · cases h

def Disk.whole (fs : Disk) : Disk :=
  fs.shaped (fun _ => some .directory) (fun _ _ => rfl) fun _ _ _ => rfl

def kindBesides (place : List (Name Char)) (what : Option Kind) (dir : List (Name Char)) :
    Option Kind :=
  if place <+: dir then if dir = place then what else none else some .directory

def Disk.besides (fs : Disk) (place : List (Name Char)) (hplace : ¬ Near fs.cwd place)
    (what : Option Kind) : Disk :=
  fs.shaped (kindBesides place what)
    (fun _ hdir => if_neg fun hbelow => hplace (Or.inl (hbelow.trans hdir)))
    fun dir n h => by
      refine if_neg fun hbelow => ?_
      have hmore : dir ++ [n] ≠ place := fun heq => by
        have hlength := hbelow.length_le
        rw [← heq, List.length_append, List.length_singleton] at hlength
        omega
      rw [kindBesides, if_pos (hbelow.trans (List.prefix_append dir [n])), if_neg hmore] at h
      cases h

section

variable {fs : Disk} {str : QString}

theorem requestedNames_nul : ∀ n ∈ requestedNames str, nul ∉ n := by
  intro n hn hnul
  have hkept : nul ∈ (Utf16.decode '?' (parseCommand str).filename.data).takeWhile (· ≠ nul) :=
    names_subset hn hnul
  have hother := List.mem_takeWhile_imp hkept
  simp at hother

theorem named_of_nativePath {front : List (Name Char)}
    (hfront : front <+: (fs.nativePath str).elements) :
    ∀ n ∈ front.foldl push [], Proper n ∧ nul ∉ n := by
  have hnamed : ∀ n ∈ front, '/' ∉ n ∧ nul ∉ n := by
    intro n hn
    rcases List.mem_append.mp (hfront.subset hn) with hname | hlast
    · refine ⟨((fs.nativePath str).named n hname).2, ?_⟩
      rw [nativePath_names] at hname
      rcases List.mem_append.mp hname with hcwd | hrequested
      · exact fs.cwd_nameable n hcwd
      · exact requestedNames_nul n hrequested
    · split_ifs at hlast
      · obtain rfl := List.mem_singleton.mp hlast
        exact ⟨List.not_mem_nil, List.not_mem_nil⟩
      · exact absurd hlast List.not_mem_nil
  intro n hn
  refine ⟨foldl_push_all_proper (fun m hm => absurd hm List.not_mem_nil) (fun m hm => (hnamed m hm).1) n hn, ?_⟩
  rcases mem_foldl_push hn with hnil | ⟨hmem, -⟩
  · exact absurd hnil List.not_mem_nil
  · exact (hnamed n hmem).2

section

variable {kindOf : List (Name Char) → Option Kind}
    {hcwd : ∀ dir, dir <+: fs.cwd → kindOf dir = some .directory}
  {hparent : ∀ dir n, (kindOf (dir ++ [n])).isSome → kindOf dir = some .directory}

theorem shaped_kind {front : List (Name Char)} (hfront : front <+: (fs.nativePath str).elements) :
    (fs.shaped kindOf hcwd hparent).kind (front.foldl push []) = kindOf (front.foldl push []) :=
  if_pos (named_of_nativePath hfront)

theorem shaped_resolve (hend : (kindOf ((requestedNames str).foldl push fs.cwd)).isSome)
    (hway : ∀ front, front <+: (fs.nativePath str).elements → front ≠ (fs.nativePath str).elements →
      kindOf (front.foldl push []) = some .directory) :
    (fs.shaped kindOf hcwd hparent).resolve (fs.nativePath str) =
      some ((requestedNames str).foldl push fs.cwd) := by
  rw [FileTree.resolve_eq_some_iff, nativePath_start, foldl_nativePath]
  refine ⟨rfl, ?_, fun front hfront hne => ?_⟩
  · rw [← foldl_nativePath, shaped_kind List.prefix_rfl, foldl_nativePath]
    exact hend
  · rw [shaped_kind hfront]
    exact hway front hfront hne

end

theorem kindBesides_self (place : List (Name Char)) (what : Option Kind) :
    kindBesides place what place = what := by
  rw [kindBesides, if_pos List.prefix_rfl, if_pos rfl]

theorem agreeBelow_besides {place : List (Name Char)} (hplace : ¬ Near fs.cwd place) :
    AgreeBelow fs.cwd fs.whole (fs.besides place hplace none) := by
  have hkind (below : List (Name Char)) (hbelow : fs.cwd <+: below) :
      some Kind.directory = kindBesides place none below :=
    (if_neg fun hgone => hplace (List.prefix_or_prefix_of_prefix hgone hbelow)).symm
  refine ⟨fun below hbelow => ?_, fun below hbelow => ?_, fun _ _ => rfl, fun _ _ => rfl⟩
  · exact congrArg (fun kind => if ∀ n ∈ below, Proper n ∧ nul ∉ n then kind else none)
      (hkind below hbelow)
  · exact congrArg (fun kind => decide (kind = some Kind.regular)) (hkind below hbelow)

theorem whole_present : (fs.whole.qfile (fs.path str)).present = true := by
  have hresolve : fs.whole.resolve (fs.nativePath str) =
      some ((requestedNames str).foldl push fs.cwd) :=
    shaped_resolve rfl fun _ _ _ => rfl
  rw [Disk.qfile, ← Disk.nativePath, hresolve]

theorem besides_absent {front : List (Name Char)} (hfront : front <+: requestedNames str)
    (hplace : ¬ Near fs.cwd (front.foldl push fs.cwd)) :
    (fs.besides _ hplace none).qfile (fs.path str) = ⟨false, false, 0, []⟩ := by
  have hway : fs.cwd ++ front <+: (fs.nativePath str).elements := by
    rw [Path.elements, nativePath_names, List.append_assoc, List.prefix_append_right_inj]
    exact hfront.trans (List.prefix_append _ _)
  have hgone : (fs.besides _ hplace none).kind (front.foldl push fs.cwd) = none := by
    have hkind : (fs.besides _ hplace none).kind ((fs.cwd ++ front).foldl push []) =
        kindBesides _ none _ :=
      shaped_kind hway
    rw [foldl_push_cwd] at hkind
    rw [hkind, kindBesides_self]
  have hnone : (fs.besides _ hplace none).resolve (fs.nativePath str) = none := by
    by_contra hsome
    obtain ⟨place, hresolve⟩ := Option.ne_none_iff_exists'.mp hsome
    obtain ⟨hend, hexists, hdirectories⟩ := (FileTree.resolve_eq_some_iff _).mp hresolve
    rw [nativePath_start] at hend hdirectories
    by_cases hlast : fs.cwd ++ front = (fs.nativePath str).elements
    · rw [← hend, ← hlast, foldl_push_cwd, hgone] at hexists
      cases hexists
    · have hthere := hdirectories _ hway hlast
      rw [foldl_push_cwd, hgone] at hthere
      cases hthere
  rw [Disk.qfile, ← Disk.nativePath, hnone]

theorem requestedBlock_whole (fs : Disk) (hsize : (parseCommand str).filename.size ≠ 0) :
    ∃ content, requestedBlock fs.currentPath fs.whole.qfile str =
      some (blockOf (.units (fs.path str)) content) := by
  rw [requestedBlock, fileBlock_eq]
  refine ⟨_, if_neg (not_or.mpr ⟨hsize, fun hnot => ?_⟩)⟩
  exact absurd (whole_present.symm.trans hnot.1) (by decide)

theorem requestedBlock_besides {front : List (Name Char)} (hfront : front <+: requestedNames str)
    (hplace : ¬ Near fs.cwd (front.foldl push fs.cwd)) :
    requestedBlock fs.currentPath (fs.besides _ hplace none).qfile str = none := by
  rw [requestedBlock, fileBlock_eq]
  dsimp only
  rw [← Disk.path, besides_absent hfront hplace, if_pos (Or.inr ⟨rfl, rfl⟩)]

theorem ne_nil_of_not_near {cwd l : List (Name Char)} (hplace : ¬ Near cwd (l.foldl push cwd)) :
    l ≠ [] := by
  rintro rfl
  exact hplace (Or.inl List.prefix_rfl)

theorem size_ne_zero {front : List (Name Char)} (hfront : front <+: requestedNames str)
    (hplace : ¬ Near fs.cwd (front.foldl push fs.cwd)) : (parseCommand str).filename.size ≠ 0 := by
  intro hsize
  have hnames : requestedNames str = [] := by
    rw [requestedNames, List.eq_nil_of_length_eq_zero hsize]
    rfl
  rw [hnames] at hfront
  exact ne_nil_of_not_near hplace (List.prefix_nil.mp hfront)

theorem announcesFile_of_size (edition : Edition)
    (hget : (parseCommand str).command.Same announcement)
    (hsize : (parseCommand str).filename.size ≠ 0) : AnnouncesFile edition str := by
  refine ⟨hget, ?_⟩
  cases edition with
  | hw5 => exact decide_eq_true (Nat.pos_of_ne_zero hsize)
  | hw6 => rfl

theorem SendsSame.staysNear {edition : Edition} (h : SendsSame edition fs.cwd str)
    (hget : (parseCommand str).command.Same announcement) : StaysNear fs.cwd str := by
  intro front hfront
  rw [List.mem_inits] at hfront
  by_contra hplace
  have hsize := size_ne_zero hfront hplace
  have hannounce := announcesFile_of_size edition hget hsize
  obtain ⟨content, hwhole⟩ := requestedBlock_whole fs hsize
  have hbesides := requestedBlock_besides hfront hplace
  have hsent :=
    h fs.whole (fs.besides _ hplace none) rfl rfl (agreeBelow_besides hplace) Output.start
  rw [answer_tx, answer_tx, show fs.whole.currentPath = fs.currentPath from rfl,
    show (fs.besides _ hplace none).currentPath = fs.currentPath from rfl,
      List.append_cancel_left_eq, reply, reply,
    if_pos hannounce, if_pos hannounce, hwhole, hbesides, List.append_cancel_left_eq,
    List.append_cancel_left_eq,
    List.append_cancel_left_eq] at hsent
  have hempty : blockOf (.units (fs.path str)) content = [] := hsent
  rw [blockOf, List.append_eq_nil_iff, List.append_eq_nil_iff] at hempty
  exact absurd hempty.1.1 (List.cons_ne_nil _ _)

theorem sendsSame_iff (edition : Edition) (fs : Disk) (str : QString) :
    SendsSame edition fs.cwd str ↔
    ((parseCommand str).command.Same announcement → StaysNear fs.cwd str) := by
  refine ⟨fun h hget => h.staysNear hget, fun h fs₁ fs₂ hcwd₁ hcwd₂ hagree out => ?_⟩
  rw [answer_tx, answer_tx, hagree.reply hcwd₁ hcwd₂ edition h]

/-! ### A request that opens a file elsewhere -/

theorem elements_of_not_trailing (fs : Disk) (hnames : requestedNames str ≠ [])
    (hlast : (nativeName (parseCommand str).filename.data).getLast? ≠ some '/') :
    (fs.nativePath str).elements = fs.cwd ++ requestedNames str := by
  have htrailing : (fs.nativePath str).trailing = false := by
    rw [← Bool.not_eq_true, nativePath_trailing fs hnames]
    exact hlast
  rw [Path.elements, htrailing, nativePath_names]
  exact List.append_nil _

theorem LeadsOut.opens (h : LeadsOut fs.cwd str) (edition : Edition)
    (hget : (parseCommand str).command.Same announcement) :
    (fs.besides _ h.2.1 (some .regular)).opened edition str =
      some ((requestedNames str).foldl push fs.cwd) := by
  obtain ⟨hlast, hplace, hway⟩ := h
  have hsize := size_ne_zero List.prefix_rfl hplace
  have helements := elements_of_not_trailing fs (ne_nil_of_not_near hplace) hlast
  have hresolve : (fs.besides _ hplace (some .regular)).resolve (fs.nativePath str) =
      some ((requestedNames str).foldl push fs.cwd) := by
    refine shaped_resolve ?_ fun front hfront hne => if_neg fun hbelow => ?_
    · rw [kindBesides_self]
      rfl
    · rw [helements] at hfront hne
      rcases prefix_append_cases hfront with habove | ⟨more, hmore, rfl⟩
      · rw [foldl_push_proper fun n hn => fs.cwd_proper n (habove.subset hn)] at hbelow
        exact hplace (Or.inl (hbelow.trans habove))
      · rw [foldl_push_cwd] at hbelow
        exact hway more ((List.mem_inits _ _).mpr hmore) (fun heq => hne (by rw [heq])) hbelow
  rw [Disk.opened, if_pos ⟨announcesFile_of_size edition hget hsize, hsize⟩,
    Option.filter_eq_some_iff]
  refine ⟨hresolve, decide_eq_true ?_⟩
  exact kindBesides_self _ _

theorem leadsOut_of_opened {edition : Edition} {place : List (Name Char)}
    (hopened : fs.opened edition str = some place) (hout : ¬ Below fs.cwd place) :
    LeadsOut fs.cwd str := by
  rw [Disk.opened, Option.ite_none_right_eq_some, Option.filter_eq_some_iff] at hopened
  obtain ⟨-, hresolve, hopens⟩ := hopened
  obtain ⟨rfl, hway⟩ := resolve_nativePath hresolve
  have hfar : ¬ Near fs.cwd ((requestedNames str).foldl push fs.cwd) :=
    fun hnear => hout (below_of_opens hnear hopens)
  -- what is opened is no directory, so the path has not led below it before
  have hoff : ∀ front, front <+: (fs.nativePath str).elements →
      front ≠ (fs.nativePath str).elements →
      ¬ (requestedNames str).foldl push fs.cwd <+: front.foldl push [] := by
    intro front hfront hne hbelow
    have hdirectory := fs.directory_of_prefix hbelow (hway front hfront hne)
    rw [fs.opens_file _ hdirectory] at hopens
    cases hopens
  have hall : fs.cwd ++ requestedNames str <+: (fs.nativePath str).elements := by
    rw [Path.elements, nativePath_names]
    exact List.prefix_append _ _
  refine ⟨fun hlast => ?_, hfar, fun front hfront hne hbelow => ?_⟩
  · refine hoff _ hall (fun heq => ?_) (by rw [foldl_push_cwd])
    rw [Path.elements, (nativePath_trailing fs (ne_nil_of_not_near hfar)).mpr hlast,
      nativePath_names] at heq
    exact List.cons_ne_nil _ _ (List.self_eq_append_right.mp heq)
  · rw [List.mem_inits] at hfront
    refine hoff (fs.cwd ++ front) (((List.prefix_append_right_inj _).mpr hfront).trans hall)
      (fun heq => hne ?_) ?_
    · rw [← heq, List.prefix_append_right_inj] at hall
      exact hfront.eq_of_length_le hall.length_le
    · rw [foldl_push_cwd]
      exact hbelow

theorem opensBelow_iff (edition : Edition) (fs : Disk) (str : QString) :
    OpensBelow edition fs.cwd str ↔
    ((parseCommand str).command.Same announcement → ¬ LeadsOut fs.cwd str) := by
  constructor
  · intro h hget hout
    have hbelow := h (fs.besides _ hout.2.1 (some .regular)) rfl _ (hout.opens edition hget)
    exact hout.2.1 (Or.inr hbelow.1)
  · intro h fs' hcwd place hopened
    by_contra hout
    rw [← hcwd] at h hout
    refine h ?_ (leadsOut_of_opened hopened hout)
    rw [Disk.opened, Option.ite_none_right_eq_some] at hopened
    exact hopened.1.1.1

end

/-- **Confinement.** A request stays in the working directory, whatever the disk looks like, exactly
if it does not get a file or the names it gives stay near. It opens a file elsewhere, on some disk,
exactly if the names lead out. -/
theorem confined_iff (edition : Edition) (fs : Disk) (str : QString) :
    (OpensBelow edition fs.cwd str ∧ SendsSame edition fs.cwd str ↔
        ((parseCommand str).command.Same announcement → StaysNear fs.cwd str)) ∧
      (OpensBelow edition fs.cwd str ↔
        ((parseCommand str).command.Same announcement → ¬ LeadsOut fs.cwd str)) := by
  refine ⟨?_, opensBelow_iff edition fs str⟩
  rw [sendsSame_iff, opensBelow_iff]
  refine and_iff_right_of_imp fun h hget hout => ?_
  exact hout.2.1 (h hget _ ((List.mem_inits _ _).mpr List.prefix_rfl))

def homesDisk : Disk where
  toFileTree :=
    .ofLists [[], ["home".toList], ["home".toList, "me".toList]] [["home".toList, "key".toList]]
      ["home".toList, "me".toList] (by decide) (by decide) (by decide) (by decide)
  opens place := place = ["home".toList, "key".toList]
  size _ := 1
  content _ := [0x73]
  opens_file place hdirectory := by
    rw [decide_eq_false_iff_not]
    rintro rfl
    exact absurd hdirectory (by decide)

/-- The request `get ../key` is answered with the file `/home/key` from `/home/me`. -/
theorem get_escapes :
    homesDisk.opened .hw5 (.lit "get ../key") = some ["home".toList, "key".toList] ∧
      requestedBlock homesDisk.currentPath homesDisk.qfile (.lit "get ../key") =
        some (blockOf (.lit "/home/me/../key") [0x73]) ∧
      ¬ OpensBelow .hw5 homesDisk.cwd (.lit "get ../key") := by
  have hopened : homesDisk.opened .hw5 (.lit "get ../key") =
      some ["home".toList, "key".toList] := by
    decide +kernel
  refine ⟨hopened, by decide +kernel, fun h => ?_⟩
  exact absurd (h homesDisk rfl _ hopened).1 (by decide)

end NetworkHomework.Qt
