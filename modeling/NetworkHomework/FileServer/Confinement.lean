import NetworkHomework.Base.Conversions
import NetworkHomework.Base.Utf8
import NetworkHomework.FileServer.Path

/-!
# `recv_file_path`: which requests stay below the working directory

The file servers of hw4 and hw7 turn a request into a path the same way: they canonicalise the
request, take the working directory off the front of the result if the string starts with it, and
canonicalise the working directory, a slash and what is left. What is left can still hold `..`:
because the request started with a missing name and stayed relative, because the string of the
working directory ended in the middle of a name, or because a null character hides what follows a
`..`. `recvFilePath_confined_iff` says which requests get out. In between the strings have wide
characters, and a name that is not UTF-8 has none.
-/

namespace NetworkHomework.FileServer

open NetworkHomework.Paths PathChar Conversions

/-! ### The path of a request -/

def separ : Char := '/'

/-- What is thrown for a path that has no wide characters, or that the operating system says nothing
about. -/
inductive FilesystemError where
  | cannotConvert
  | cannotGetStatus
deriving DecidableEq

/-- `wstring`, where the native encoding is UTF-8. -/
def Path.wstring (p : Path UInt8) : Except FilesystemError (List Char) :=
  match Utf8.decode p.string with
  | some s => .ok s
  | none => .error .cannotConvert

def Path.ofWide (s : List Char) : Path UInt8 := .parse (Utf8.encode s)

/-- `file_path` behind the `if` in which the working directory is taken off it. -/
def behindCurPath {α : Type} [DecidableEq α] (curPath filePath : List α) : List α :=
  if curPath <+: filePath then filePath.drop curPath.length else filePath

section

variable {α : Type} [PathChar α]

def FileTree.currentPath (fs : FileTree α) : Path α :=
  ⟨true, fs.cwd, false, fun n hn => (fs.cwd_proper n hn).named, fun h => by cases h⟩

theorem string_currentPath (fs : FileTree α) :
    fs.currentPath.string = slash :: [slash].intercalate fs.cwd :=
  List.append_nil _

theorem currentPath_string {fs : FileTree α} {parent : List (Name α)} {last : Name α}
    (hcwd : fs.cwd = parent ++ [last]) : fs.currentPath.string = slashed (parent ++ [last]) := by
  rw [slashed_eq_intercalate (by simp), ← hcwd, string_currentPath]

variable [DecidableEq α]

/-- The path is the directory `cwd` or leads to a place below it. -/
def Confined (cwd : List (Name α)) (p : Path α) : Prop :=
  p.absolute ∧ cwd <+: p.names ∧ [dot, dot] ∉ p.names

instance (cwd : List (Name α)) (p : Path α) : Decidable (Confined cwd p) :=
  inferInstanceAs (Decidable (_ ∧ _ ∧ _))

end

/-- `recv_file_path` of hw7. -/
def recvFilePath (fs : FileTree UInt8) (filename_ : List UInt8) :
    Except FilesystemError (Option (Path UInt8)) :=
  let requestData := filename_
  if requestData = [] then .ok none
  else do
    let curPath ← fs.currentPath.wstring
    let filePath ← (fs.weaklyCanonical (.parse requestData)).wstring
    return some (fs.weaklyCanonical (.ofWide (curPath ++ separ :: behindCurPath curPath filePath)))

/-- `Client::recv_file_path` of hw4. -/
def Client.recvFilePath (fs : FileTree UInt8) (filename_ : List UInt8) :
    Except FilesystemError (Option (Path UInt8)) :=
  FileServer.recvFilePath fs filename_

def served (fs : FileTree UInt8) (filename_ : List UInt8) : Option (List (Name UInt8)) :=
  match recvFilePath fs filename_ with
  | .ok (some filePath) => (fs.canonical filePath).filter fun place => fs.kind place = some .regular
  | .ok none | .error _ => none

/-! ### The requests that stay -/

section

variable {α : Type} [DecidableEq α] [PathChar α]

/-- Where a path leads: to what the operating system finds, or if that is nothing but its first name
exists, where its names lead. -/
def FileTree.leads (fs : FileTree α) (p : Path α) : Option (List (Name α)) :=
  match fs.canonical p with
  | some place => some place
  | none => if fs.Found p then some (fs.place p) else none

/-- The names behind those of a directory; of the last of these a name may be the beginning. -/
def behindCwd : List (Name α) → List (Name α) → Option (List (Name α))
  | [], l => some l
  | [last], n :: below => if last <+: n then some (n.drop last.length :: below) else none
  | m :: m' :: cwd, n :: l => if m = n then behindCwd (m' :: cwd) l else none
  | _ :: _, [] => none

/-- The names that are left of a request: behind those of the working directory, if it leads
anywhere, and otherwise all of them, normalised as they are. -/
def left (fs : FileTree α) (p : Path α) : List (Name α) :=
  match fs.leads p with
  | some place => (behindCwd fs.cwd place).getD place
  | none => p.elements.foldl pushRelative []

/-- From the working directory the names that are left, up to the first null character in them, lead
back into it. -/
def StaysBelow (fs : FileTree α) (p : Path α) : Prop :=
  fs.cwd <+: (cutNames (left fs p)).foldl push fs.cwd

instance (fs : FileTree α) (p : Path α) : Decidable (StaysBelow fs p) :=
  inferInstanceAs (Decidable (_ <+: _))

end

/-- Neither the working directory nor where the request leads has a name without wide characters. -/
def Converts (fs : FileTree UInt8) (p : Path UInt8) : Prop :=
  ∀ n ∈ fs.cwd ++ (fs.leads p).getD (p.elements.foldl pushRelative []), Utf8.Valid n

instance (fs : FileTree UInt8) (p : Path UInt8) : Decidable (Converts fs p) :=
  inferInstanceAs (Decidable (∀ n ∈ _, _))

/-! ### Wide characters -/

theorem encode_separ (s : List Char) : Utf8.encode (separ :: s) = slash :: Utf8.encode s := by
  rw [Utf8.encode_cons]
  rfl

theorem encode_behindCurPath (curPath filePath : List Char) :
    Utf8.encode (behindCurPath curPath filePath) =
      behindCurPath (Utf8.encode curPath) (Utf8.encode filePath) := by
  rw [behindCurPath, behindCurPath]
  by_cases hfront : curPath <+: filePath
  · rw [if_pos hfront, if_pos (Utf8.encode_prefix_iff.mpr hfront), Utf8.encode_drop hfront]
  · rw [if_neg hfront, if_neg fun h => hfront (Utf8.encode_prefix_iff.mp h)]

theorem valid_iff_names (s : List UInt8) : Utf8.Valid s ↔ ∀ n ∈ Paths.names s, Utf8.Valid n := by
  induction s using segment_induction with
  | last part hslash =>
      rw [names_part hslash]
      split_ifs with hnil
      · rw [hnil]
        exact iff_of_true (Utf8.valid_encode []) fun n hn => absurd hn List.not_mem_nil
      · rw [List.forall_mem_singleton]
  | more part s hslash ih =>
      have hpart : Utf8.Valid part ↔ ∀ n ∈ Paths.names part, Utf8.Valid n := by
        rw [names_part hslash]
        split_ifs with hnil
        · rw [hnil]
          exact iff_of_true (Utf8.valid_encode []) fun n hn => absurd hn List.not_mem_nil
        · rw [List.forall_mem_singleton]
      have hascii : (slash : UInt8).toNat < 0x80 := by decide
      rw [Utf8.valid_append_cons_iff hascii, names_append_slash, List.forall_mem_append, hpart, ih]

theorem Path.wstring_of_valid {p : Path UInt8} (h : ∀ n ∈ p.names, Utf8.Valid n) :
    ∃ s, p.wstring = .ok s ∧ Utf8.encode s = p.string := by
  rw [← p.names_string, ← valid_iff_names, Utf8.Valid, Option.isSome_iff_exists] at h
  obtain ⟨s, hs⟩ := h
  refine ⟨s, ?_, Utf8.decode_eq_some_iff.mp hs⟩
  rw [Path.wstring, hs]

theorem Path.wstring_of_not_valid {p : Path UInt8} (h : ¬ ∀ n ∈ p.names, Utf8.Valid n) :
    p.wstring = .error .cannotConvert := by
  rw [← p.names_string, ← valid_iff_names, Utf8.Valid, Bool.not_eq_true, Option.isSome_eq_false_iff,
    Option.isNone_iff_eq_none] at h
  rw [Path.wstring, h]

/-! ### The two canonicalisations -/

section

variable {α : Type} [DecidableEq α] [PathChar α] (fs : FileTree α)

/-- What the first canonicalisation makes of a request. -/
theorem weaklyCanonical_leads {p : Path α} (hp : p.absolute = true ∨ p.names ≠ []) :
    match fs.leads p with
    | some place => (fs.weaklyCanonical p).absolute = true ∧ (fs.weaklyCanonical p).names = place
    | none => (fs.weaklyCanonical p).absolute = false ∧
        ((fs.weaklyCanonical p).names = p.elements.foldl pushRelative [] ∨
          p.elements.foldl pushRelative [] = [] ∧ (fs.weaklyCanonical p).names = [[dot]]) := by
  rw [FileTree.leads]
  cases hcanonical : fs.canonical p with
  | some place =>
      rw [FileTree.weaklyCanonical_of_canonical hcanonical]
      exact ⟨rfl, rfl⟩
  | none =>
      by_cases hfound : fs.Found p
      · rw [if_pos hfound]
        exact FileTree.weaklyCanonical_found hcanonical hfound
      · rw [if_neg hfound]
        have hne := hp.resolve_left fun habs => hfound (Or.inl habs)
        obtain ⟨habs, -, hnames⟩ := FileTree.weaklyCanonical_missing hcanonical hfound hne
        exact ⟨habs, hnames⟩

theorem leads_proper {fs : FileTree α} {p : Path α} {place : List (Name α)}
    (h : fs.leads p = some place) :
    ∀ n ∈ place, Proper n := by
  rw [FileTree.leads] at h
  cases hcanonical : fs.canonical p with
  | some found =>
      rw [hcanonical] at h
      cases h
      exact fs.proper place (fs.canonical_isSome hcanonical)
  | none =>
      rw [hcanonical] at h
      dsimp only at h
      split_ifs at h
      cases h
      exact fs.place_proper p

theorem parse_joined_names (s : List α) :
    (Path.parse (fs.currentPath.string ++ slash :: s)).names = fs.cwd ++ Paths.names s :=
  (names_append_slash _ s).trans (congrArg (· ++ Paths.names s) fs.currentPath.names_string)

theorem parse_joined_absolute (s : List α) :
    (Path.parse (fs.currentPath.string ++ slash :: s)).absolute = true := decide_eq_true rfl

theorem parse_joined_start (s : List α) :
    fs.start (.parse (fs.currentPath.string ++ slash :: s)) = [] := by
  rw [FileTree.start, parse_joined_absolute, if_pos rfl]

theorem foldl_push_cwd (l : List (Name α)) : (fs.cwd ++ l).foldl push [] = l.foldl push fs.cwd := by
  rw [List.foldl_append, foldl_push_proper fs.cwd_proper, List.nil_append]

theorem weaklyCanonical_joined (s : List α) :
    (fs.weaklyCanonical (.parse (fs.currentPath.string ++ slash :: s))).absolute = true ∧
      (fs.weaklyCanonical (.parse (fs.currentPath.string ++ slash :: s))).names =
        match fs.canonical (.parse (fs.currentPath.string ++ slash :: s)) with
        | some _ => (cutNames (Paths.names s)).foldl push fs.cwd
        | none => (Paths.names s).foldl push fs.cwd := by
  cases hcanonical : fs.canonical (.parse (fs.currentPath.string ++ slash :: s)) with
  | some place =>
      have hplace := FileTree.canonical_names hcanonical
      rw [parse_joined_names, parse_joined_start, cutNames_append fs.cwd_nameable,
        foldl_push_cwd] at hplace
      rw [FileTree.weaklyCanonical_of_canonical hcanonical]
      exact ⟨rfl, hplace⟩
  | none =>
      obtain ⟨habs, hnames⟩ :=
        FileTree.weaklyCanonical_found hcanonical (Or.inl (parse_joined_absolute fs s))
      rw [FileTree.place, parse_joined_names, parse_joined_start, foldl_push_cwd] at hnames
      exact ⟨habs, hnames⟩

theorem canonical_joined {fs : FileTree α} {s : List α}
    (h : ∀ front, front <+: cutNames (Paths.names s) → front.foldl push fs.cwd <+: fs.cwd) :
    (fs.canonical (.parse (fs.currentPath.string ++ slash :: s))).isSome := by
  have habove : ∀ front, front <+:
      cutNames (Path.parse (fs.currentPath.string ++ slash :: s)).names →
      fs.kind (front.foldl push (fs.start (.parse (fs.currentPath.string ++ slash :: s)))) =
        some .directory := by
    intro front hfront
    rw [parse_joined_names, cutNames_append fs.cwd_nameable] at hfront
    rw [parse_joined_start]
    rcases prefix_append_cases hfront with hin | ⟨more, hmore, rfl⟩
    · rw [foldl_push_proper fun n hn => fs.cwd_proper n (hin.subset hn)]
      exact fs.directory_of_prefix hin fs.cwd_directory
    · rw [foldl_push_cwd]
      exact fs.directory_of_prefix (h more hmore) fs.cwd_directory
  have hne : cStr (Path.parse (fs.currentPath.string ++ slash :: s)).string ≠ [] := by
    have hstring : (Path.parse (fs.currentPath.string ++ slash :: s)).string.head? =
        some slash := by
      have hparsed := parse_joined_absolute fs s
      rw [← (Path.parse (fs.currentPath.string ++ slash :: s)).parse_string] at hparsed
      exact of_decide_eq_true hparsed
    cases hs : (Path.parse (fs.currentPath.string ++ slash :: s)).string with
    | nil =>
        rw [hs] at hstring
        cases hstring
    | cons c t =>
        rw [hs] at hstring
        rw [Option.some.inj hstring, cStr_cons_slash]
        exact List.cons_ne_nil _ _
  rw [FileTree.canonical_of_directories hne habove]
  rfl

/-- What a null character hides makes no difference to where the second canonicalisation ends. -/
theorem weaklyCanonical_joined_confined {s : List α} (hs : UpFirst (Paths.names s)) :
    Confined fs.cwd (fs.weaklyCanonical (.parse (fs.currentPath.string ++ slash :: s))) ↔
      fs.cwd <+: (cutNames (Paths.names s)).foldl push fs.cwd := by
  obtain ⟨habs, hnames⟩ := weaklyCanonical_joined fs s
  have hup : [dot, dot] ∉ (fs.weaklyCanonical (.parse (fs.currentPath.string ++ slash :: s))).names := fun h =>
    (FileTree.weaklyCanonical_proper habs _ h).notDotDot rfl
  have hplace :
      Confined fs.cwd (fs.weaklyCanonical (.parse (fs.currentPath.string ++ slash :: s))) ↔
      fs.cwd <+: (fs.weaklyCanonical (.parse (fs.currentPath.string ++ slash :: s))).names :=
    ⟨fun h => h.2.1, fun h => ⟨habs, h, hup⟩⟩
  rw [hplace, hnames]
  cases hcanonical : fs.canonical (.parse (fs.currentPath.string ++ slash :: s)) with
  | some place => rfl
  | none =>
      rcases hs.cut fs.cwd_nameable with hiff | habove
      · exact hiff
      · have hsome := canonical_joined habove
        rw [hcanonical] at hsome
        cases hsome

/-! ### What is left of a request -/

variable {fs}

theorem behindCwd_cons {β : Type} [DecidableEq β] {cwd : List (List β)} (hne : cwd ≠ [])
    (m n : List β) (l : List (List β)) :
    behindCwd (m :: cwd) (n :: l) = if m = n then behindCwd cwd l else none := by
  cases cwd with
  | nil => exact absurd rfl hne
  | cons m' cwd => rfl

theorem behindCwd_eq_some_iff {β : Type} [DecidableEq β] {parent l names : List (List β)}
    {last : List β} :
    behindCwd (parent ++ [last]) l = some names ↔
      ∃ cut below, names = cut :: below ∧ l = parent ++ (last ++ cut) :: below := by
  induction parent generalizing l with
  | nil =>
      cases l with
      | nil => exact iff_of_false (by simp [behindCwd]) (by simp)
      | cons n l =>
          rw [List.nil_append, behindCwd, Option.ite_none_right_eq_some]
          constructor
          · rintro ⟨⟨cut, rfl⟩, h⟩
            rw [List.drop_left] at h
            exact ⟨cut, l, (Option.some.inj h).symm, rfl⟩
          · rintro ⟨cut, below, rfl, h⟩
            obtain ⟨rfl, rfl⟩ := List.cons.inj h
            exact ⟨List.prefix_append _ _, by rw [List.drop_left]⟩
  | cons m parent ih =>
      cases l with
      | nil => exact iff_of_false (by simp [behindCwd]) (by simp)
      | cons n l =>
          rw [List.cons_append, behindCwd_cons (by simp), Option.ite_none_right_eq_some, ih]
          constructor
          · rintro ⟨rfl, cut, below, rfl, rfl⟩
            exact ⟨cut, below, rfl, rfl⟩
          · rintro ⟨cut, below, rfl, h⟩
            obtain ⟨rfl, rfl⟩ := List.cons.inj h
            exact ⟨rfl, cut, below, rfl, rfl⟩

theorem nul_not_mem_left {cwd l : List (Name α)} (hl : ∀ n ∈ l, nul ∉ n) :
    ∀ n ∈ (behindCwd cwd l).getD l, nul ∉ n := by
  cases hbehind : behindCwd cwd l with
  | none => exact hl
  | some names =>
      obtain rfl | ⟨parent, last, rfl⟩ := List.eq_nil_or_concat' cwd
      · cases hbehind
        exact hl
      · obtain ⟨cut, below, rfl, rfl⟩ := behindCwd_eq_some_iff.mp hbehind
        refine List.forall_mem_cons.mpr ⟨fun hnul => ?_, fun n hn => hl n (by simp [hn])⟩
        exact hl (last ++ cut) (by simp) (List.mem_append_right _ hnul)

theorem names_behindCurPath {q : Path α} (habs : q.absolute = true) :
    Paths.names (behindCurPath fs.currentPath.string q.string) =
      ((behindCwd fs.cwd q.names).getD q.names).filter (· ≠ []) := by
  have hnamed : q.names.filter (· ≠ []) = q.names :=
    List.filter_eq_self.mpr fun n hn => decide_eq_true (q.named n hn).1
  rcases List.eq_nil_or_concat' fs.cwd with hroot | ⟨parent, last, hcwd⟩
  · obtain ⟨t, ht⟩ : ∃ t, q.string = slash :: t := by
      rw [Path.string, habs]
      exact ⟨_, rfl⟩
    have hnames : Paths.names t = q.names := by rw [← names_cons_slash, ← ht, q.names_string]
    have hfront : [slash] <+: slash :: t := ⟨t, rfl⟩
    rw [string_currentPath, hroot, ht, behindCurPath]
    change Paths.names (if [slash] <+: slash :: t then t else slash :: t) = _
    rw [if_pos hfront, hnames]
    exact hnamed.symm
  · rw [behindCurPath]
    split_ifs with hfront
    · obtain ⟨s, hs⟩ := hfront
      have hcwdNamed : ∀ n ∈ fs.cwd, n ≠ [] ∧ slash ∉ n := fs.currentPath.named
      obtain ⟨cut, below, hcut, hnames, hwhole⟩ := names_behind (hcwd ▸ hcwdNamed) s
      rw [← currentPath_string hcwd, hs, q.names_string] at hwhole
      have hbelow : below.filter (· ≠ []) = below :=
        List.filter_eq_self.mpr fun n hn => decide_eq_true (q.named n (by simp [hwhole, hn])).1
      have hbehind : behindCwd fs.cwd q.names = some (cut :: below) := by
        rw [hcwd, behindCwd_eq_some_iff]
        exact ⟨cut, below, rfl, hwhole⟩
      rw [← hs, List.drop_left, hnames, hbehind, Option.getD_some, names_part hcut]
      split_ifs with hnil
      · rw [List.filter_cons_of_neg (by simp [hnil]), hbelow, List.nil_append]
      · rw [List.filter_cons_of_pos (by simpa using hnil), hbelow, List.singleton_append]
    · have hbehind : behindCwd fs.cwd q.names = none := by
        rw [Option.eq_none_iff_forall_ne_some]
        intro names h
        rw [hcwd, behindCwd_eq_some_iff] at h
        obtain ⟨cut, below, -, hq⟩ := h
        apply hfront
        rw [currentPath_string hcwd, Path.string_absolute habs (by simp [hq]), hq]
        exact ⟨cut ++ slashed below ++ if q.trailing then [slash] else [], by simp [slashed]⟩
      rw [hbehind, Option.getD_none, hnamed, q.names_string]

theorem left_upFirst {place : List (Name α)} (hplace : ∀ n ∈ place, Proper n) :
    UpFirst ((behindCwd fs.cwd place).getD place) := by
  cases hbehind : behindCwd fs.cwd place with
  | none => exact upFirst_of_proper hplace
  | some names =>
      rw [Option.getD_some]
      rcases List.eq_nil_or_concat' fs.cwd with hroot | ⟨parent, last, hcwd⟩
      · rw [hroot] at hbehind
        obtain rfl : place = names := Option.some.inj hbehind
        exact upFirst_of_proper hplace
      · rw [hcwd, behindCwd_eq_some_iff] at hbehind
        obtain ⟨cut, below, rfl, rfl⟩ := hbehind
        have hname := hplace (last ++ cut) (by simp)
        exact upFirst_cons (fun h => hname.noSlash (List.mem_append_right _ h)) fun n hn =>
          hplace n (by simp [hn])

theorem left_cut {p : Path α} (hp : p.absolute = true ∨ p.names ≠ []) :
    UpFirst (Paths.names (behindCurPath fs.currentPath.string (fs.weaklyCanonical p).string)) ∧
      (cutNames (Paths.names (behindCurPath fs.currentPath.string (fs.weaklyCanonical p).string))).foldl push
        fs.cwd = (cutNames (left fs p)).foldl push fs.cwd := by
  have hfirst := weaklyCanonical_leads fs hp
  rw [left]
  cases hleads : fs.leads p with
  | some place =>
      rw [hleads] at hfirst
      obtain ⟨habs, hnames⟩ := hfirst
      rw [names_behindCurPath habs, hnames]
      exact ⟨(left_upFirst (leads_proper hleads)).filter _, foldl_push_cutNames_filter _ _⟩
  | none =>
      rw [hleads] at hfirst
      obtain ⟨habs, hnames⟩ := hfirst
      -- the string does not start with a slash, so the working directory is not taken off it
      have hwhole : ¬ fs.currentPath.string <+: (fs.weaklyCanonical p).string := by
        rintro ⟨rest, hrest⟩
        apply Path.head?_string_relative habs
        rw [← hrest, string_currentPath]
        rfl
      rw [behindCurPath, if_neg hwhole, Path.names_string]
      dsimp only
      rcases hnames with hnames | ⟨hnil, hnames⟩
      · rw [hnames]
        refine ⟨upFirst_pushRelative fun n hn => ?_, rfl⟩
        rcases List.mem_append.mp hn with hname | hlast
        · exact (p.named n hname).2
        · split_ifs at hlast
          · rw [List.mem_singleton.mp hlast]
            exact List.not_mem_nil
          · exact absurd hlast List.not_mem_nil
      · have hdot : nul ∉ ([dot] : Name α) :=
          nul_not_mem_of_not_proper notProper_dot.1 notProper_dot.2
        rw [hnames, hnil, cutNames_of_not_mem (List.forall_mem_singleton.mpr hdot),
          List.foldl_cons, push_dot]
        exact ⟨upFirst_cons notProper_dot.2 fun _ h => absurd h List.not_mem_nil, rfl⟩

end

variable {fs : FileTree UInt8} {request : List UInt8}

theorem request_named (hne : request ≠ []) :
    (Path.parse request).absolute = true ∨ (Path.parse request).names ≠ [] := by
  cases request with
  | nil => exact absurd rfl hne
  | cons c s =>
      by_cases hc : c = slash
      · exact Or.inl (decide_eq_true (congrArg some hc))
      · exact Or.inr (names_cons_ne_nil hc s)

theorem converts_iff (hne : request ≠ []) :
    Converts fs (.parse request) ↔
      (∀ n ∈ fs.currentPath.names, Utf8.Valid n) ∧
        ∀ n ∈ (fs.weaklyCanonical (.parse request)).names, Utf8.Valid n := by
  have hfirst := weaklyCanonical_leads fs (request_named hne)
  rw [Converts, List.forall_mem_append]
  refine and_congr_right fun _ => ?_
  cases hleads : fs.leads (.parse request) with
  | some place =>
      rw [hleads] at hfirst
      rw [hfirst.2]
      rfl
  | none =>
      rw [hleads] at hfirst
      rcases hfirst.2 with hnames | ⟨hnil, hnames⟩
      · rw [hnames]
        rfl
      · rw [hnames, Option.getD_none, hnil]
        refine iff_of_true (fun n hn => absurd hn List.not_mem_nil)
          (List.forall_mem_singleton.mpr ?_)
        exact Utf8.valid_singleton (by decide)

theorem recvFilePath_of_converts (hne : request ≠ []) (h : Converts fs (.parse request)) :
    recvFilePath fs request = .ok (some (fs.weaklyCanonical (.parse (fs.currentPath.string ++
      slash :: behindCurPath fs.currentPath.string
        (fs.weaklyCanonical (.parse request)).string)))) := by
  obtain ⟨hcwd, hfirst⟩ := (converts_iff hne).mp h
  obtain ⟨curPath, hcurPath, hcur⟩ := Path.wstring_of_valid hcwd
  obtain ⟨filePath, hfilePath, hfile⟩ := Path.wstring_of_valid hfirst
  rw [recvFilePath, if_neg hne, hcurPath, hfilePath, ← hcur, ← hfile, ← encode_behindCurPath,
    ← encode_separ,
    ← Utf8.encode_append]
  rfl

theorem recvFilePath_of_not_converts (hne : request ≠ []) (h : ¬ Converts fs (.parse request)) :
    recvFilePath fs request = .error .cannotConvert := by
  rw [converts_iff hne, not_and_or] at h
  rw [recvFilePath, if_neg hne]
  by_cases hcwd : ∀ n ∈ fs.currentPath.names, Utf8.Valid n
  · obtain ⟨curPath, hcurPath, -⟩ := Path.wstring_of_valid hcwd
    rw [hcurPath, Path.wstring_of_not_valid (h.resolve_left (not_not_intro hcwd))]
    rfl
  · rw [Path.wstring_of_not_valid hcwd]
    rfl

/-- A path that is confined leads to no file elsewhere, whatever a null character hides of it. -/
theorem regular_below {p : Path UInt8} (h : Confined fs.cwd p) (hproper : ∀ n ∈ p.names, Proper n)
    {file : List (Name UInt8)} (hfile : fs.canonical p = some file)
    (hregular : fs.kind file = some .regular) :
    fs.cwd <+: file := by
  obtain ⟨habs, ⟨l, hl⟩, -⟩ := h
  have hplace := FileTree.canonical_names hfile
  rw [← hl, cutNames_append fs.cwd_nameable, FileTree.start, if_pos habs, foldl_push_cwd] at hplace
  have hlproper : ∀ n ∈ l, Proper n := fun n hn => hproper n (hl ▸ List.mem_append_right _ hn)
  rcases (upFirst_of_proper hlproper).cut fs.cwd_nameable with hiff | habove
  · rw [hplace, ← hiff, foldl_push_proper hlproper]
    exact List.prefix_append _ _
  · have hdirectory := fs.directory_of_prefix (habove _ List.prefix_rfl) fs.cwd_directory
    rw [← hplace, hregular] at hdirectory
    cases hdirectory

theorem served_below (hconfined : ∀ p, recvFilePath fs request = .ok (some p) → Confined fs.cwd p)
    {file : List (Name UInt8)} (hserved : served fs request = some file) : fs.cwd <+: file := by
  rw [served] at hserved
  split at hserved
  · next filePath hpath =>
      obtain ⟨hfile, hregular⟩ := Option.filter_eq_some_iff.mp hserved
      refine regular_below (hconfined filePath hpath) ?_ hfile (of_decide_eq_true hregular)
      have hne : request ≠ [] := by
        rintro rfl
        cases hpath
      by_cases hconverts : Converts fs (.parse request)
      · rw [recvFilePath_of_converts hne hconverts] at hpath
        cases hpath
        exact FileTree.weaklyCanonical_proper (weaklyCanonical_joined fs _).1
      · rw [recvFilePath_of_not_converts hne hconverts] at hpath
        cases hpath
  · cases hserved
  · cases hserved

/-- **Confinement.** The path that either server makes of a request, and the file it serves, are in
the working directory exactly if there is no request, if it throws, or if the request stays below by
itself. -/
theorem recvFilePath_confined_iff (fs : FileTree UInt8) (request : List UInt8) :
    (∀ p, recvFilePath fs request = .ok (some p) ∨ Client.recvFilePath fs request = .ok (some p) →
          Confined fs.cwd p) ∧
        (∀ file, served fs request = some file → fs.cwd <+: file)
      ↔ request = [] ∨ ¬ Converts fs (.parse request) ∨ StaysBelow fs (.parse request) := by
  have hboth : (∀ p, recvFilePath fs request = .ok (some p) ∨
    Client.recvFilePath fs request = .ok (some p) →
      Confined fs.cwd p) ↔ ∀ p, recvFilePath fs request = .ok (some p) → Confined fs.cwd p :=
    forall_congr' fun p => imp_congr_left or_self_iff
  rw [hboth, and_iff_left_of_imp fun h file hserved => served_below h hserved]
  by_cases hne : request = []
  · subst hne
    exact iff_of_true (fun p hp => by cases hp) (Or.inl rfl)
  rw [or_iff_right hne]
  by_cases hconverts : Converts fs (.parse request)
  · obtain ⟨hup, hcut⟩ := @left_cut _ _ _ fs _ (request_named hne)
    rw [recvFilePath_of_converts hne hconverts, or_iff_right (not_not_intro hconverts),
      StaysBelow, ← hcut,
      ← weaklyCanonical_joined_confined fs hup]
    refine ⟨fun h => h _ rfl, fun h p hp => ?_⟩
    cases hp
    exact h
  · rw [recvFilePath_of_not_converts hne hconverts]
    exact iff_of_true (fun p hp => by cases hp) (Or.inl hconverts)

/-! ### Requests without null characters -/

section

variable {α : Type} [DecidableEq α] [PathChar α] {fs : FileTree α} {p : Path α}

theorem leads_of_nul_free (hp : p.absolute = true ∨ p.names ≠ []) (hnul : ∀ n ∈ p.names, nul ∉ n) :
    fs.leads p = if fs.Found p then some (fs.place p) else none := by
  rw [FileTree.leads, FileTree.canonical_of_nul_free (Path.string_ne_nil hp) hnul]
  cases hresolve : fs.resolve p with
  | some place => rw [if_pos (FileTree.found_of_resolve hp hresolve), fs.resolve_eq_place hresolve]
  | none => rfl

theorem behindCwd_stays {l : List (Name α)} (hl : ∀ n ∈ l, Proper n) :
    fs.cwd <+: ((behindCwd fs.cwd l).getD l).foldl push fs.cwd ↔
      ∀ parent last below, fs.cwd = parent ++ [last] → l = parent ++ (last ++ [dot, dot]) :: below →
        below.head? = some last := by
  rcases List.eq_nil_or_concat' fs.cwd with hroot | ⟨parent, last, hcwd⟩
  · rw [hroot]
    exact iff_of_true List.nil_prefix fun parent last below h => by simp at h
  rw [hcwd]
  cases hbehind : behindCwd (parent ++ [last]) l with
  | none =>
      rw [Option.getD_none, foldl_push_proper hl]
      refine iff_of_true (List.prefix_append _ _) fun parent' last' below h hplace => ?_
      rw [h, behindCwd_eq_some_iff.mpr ⟨_, below, rfl, hplace⟩] at hbehind
      cases hbehind
  | some names =>
      obtain ⟨cut, below, rfl, rfl⟩ := behindCwd_eq_some_iff.mp hbehind
      rw [Option.getD_some, foldl_push_cut cut fun n hn => hl n (by simp [hn])]
      constructor
      · intro hcut parent' last' below' h hplace
        obtain ⟨rfl, hlast⟩ := List.append_inj' h rfl
        cases hlast
        obtain ⟨hname, rfl⟩ := List.cons.inj (List.append_cancel_left hplace)
        exact hcut (List.append_cancel_left hname)
      · rintro hall rfl
        exact hall parent last below rfl rfl

theorem nul_not_mem_foldl {dir l : List (Name α)} (hdir : ∀ n ∈ dir, nul ∉ n)
    (hl : ∀ n ∈ l, nul ∉ n) :
    ∀ n ∈ l.foldl push dir, nul ∉ n := fun n hn =>
  (mem_foldl_push hn).elim (hdir n) fun h => hl n h.1

/-- Without null characters a request that starts with a missing name stays below if its names lead
there; any other, unless it leads to or below a sibling of the working directory whose name is that
of the working directory and `..`, and not on by a name that is again the working directory's. -/
theorem staysBelow_of_nul_free (hp : p.absolute = true ∨ p.names ≠ [])
    (hnul : ∀ n ∈ p.names, nul ∉ n) :
    StaysBelow fs p ↔
      if fs.Found p then
        ∀ parent last below, fs.cwd = parent ++ [last] →
        fs.place p = parent ++ (last ++ [dot, dot]) :: below →
          below.head? = some last
      else fs.cwd <+: fs.place p := by
  rw [StaysBelow, left, leads_of_nul_free hp hnul]
  by_cases hfound : fs.Found p
  · rw [if_pos hfound, if_pos hfound]
    dsimp only
    have hstart : ∀ n ∈ fs.start p, nul ∉ n := by
      rw [FileTree.start]
      split_ifs
      · exact fun n hn => absurd hn List.not_mem_nil
      · exact fs.cwd_nameable
    have hplace : ∀ n ∈ fs.place p, nul ∉ n := nul_not_mem_foldl hstart hnul
    rw [cutNames_of_not_mem (nul_not_mem_left hplace), behindCwd_stays (fs.place_proper p)]
  · rw [if_neg hfound, if_neg hfound]
    dsimp only
    have hstart : fs.start p = fs.cwd := if_neg fun habs => hfound (Or.inl habs)
    have hfree : ∀ n ∈ p.elements.foldl pushRelative [], nul ∉ n := by
      intro n hn
      rcases mem_foldl_pushRelative hn with hnil | ⟨hmem, hne⟩
      · exact absurd hnil List.not_mem_nil
      · rcases List.mem_append.mp hmem with hname | hlast
        · exact hnul n hname
        · split_ifs at hlast
          · exact absurd (List.mem_singleton.mp hlast) hne
          · exact absurd hlast List.not_mem_nil
    rw [cutNames_of_not_mem hfree, foldl_push_foldl_pushRelative, p.foldl_push_elements,
      FileTree.place, hstart]

end

/-! ### Ways out -/

def homes : FileTree UInt8 :=
  .ofLists [[], [ascii "home"], [ascii "home", ascii "me"]] [[ascii "home", ascii "key"]]
    [ascii "home", ascii "me"] (by decide) (by decide +kernel) (by decide +kernel)
      (by decide +kernel)

def keyPath : Path UInt8 :=
  ⟨true, [ascii "home", ascii "key"], false, by decide +kernel, fun h => by cases h⟩

/-- The request `x/../../key` is served the file `/home/key` from `/home/me`. -/
theorem recvFilePath_escapes :
    (∃ p, recvFilePath homes (ascii "x/../../key") = .ok (some p) ∧ ¬Confined homes.cwd p)
      ∧ served homes (ascii "x/../../key") = some [ascii "home", ascii "key"] := by
  refine ⟨⟨keyPath, ?_, ?_⟩, ?_⟩
  · decide +kernel
  · decide +kernel
  · decide +kernel

-- the null character is not seen by the first canonicalisation, and ends the path of the second one
example : ¬ StaysBelow homes (.parse (ascii "/home/me.." ++ [0])) := by decide +kernel

-- a name that is no UTF-8 is converted, unless it is taken back before
example : recvFilePath homes [0xe9] = .error .cannotConvert := by decide +kernel

example : recvFilePath homes (0xe9 :: ascii "/../../key") = .ok (some keyPath) := by decide +kernel

end NetworkHomework.FileServer
