import NetworkHomework.FileServer.Confinement

/-!
# `recv_file_path`: which file a request is mapped to

Inside the working directory the detour over a string and back is harmless as long as there is a
string: a request that names a file is mapped to the canonical path of that file, however it is
spelt, if that path is UTF-8 (`recvFilePath_serves`). Outside, the request should be looked for
below the working directory with all of its names. But the test whether the working directory stands
in front looks at characters, and a sibling directory whose name begins with the name of the working
directory passes it: `recvFilePath_joins_iff`.
-/

namespace NetworkHomework.FileServer

open NetworkHomework.Paths PathChar Conversions

section

variable {α : Type} [DecidableEq α] [PathChar α] {fs : FileTree α}

/-! ### Files of the working directory -/

theorem resolve_canonicalPath {place : List (Name α)} (hplace : (fs.kind place).isSome) :
    fs.resolve (fs.canonicalPath place hplace) = some place := by
  have helements : (fs.canonicalPath place hplace).elements = place := List.append_nil place
  have hproper := fs.proper place hplace
  rw [FileTree.resolve_eq_some_iff, helements]
  refine ⟨foldl_push_proper hproper [], hplace, fun front hfront hne => ?_⟩
  have hpushed : front.foldl push (fs.start (fs.canonicalPath place hplace)) = front :=
    foldl_push_proper (fun n hn => hproper n (hfront.subset hn)) []
  rw [hpushed]
  exact fs.directory_above hfront hne hplace

theorem weaklyCanonical_canonicalPath {place : List (Name α)} (hplace : (fs.kind place).isSome) :
    fs.weaklyCanonical (fs.canonicalPath place hplace) = fs.canonicalPath place hplace := by
  refine FileTree.weaklyCanonical_of_canonical ?_
  rw [FileTree.canonical_of_nul_free (Path.string_ne_nil (Or.inl rfl)) (fs.nameable place hplace)]
  exact resolve_canonicalPath hplace

/-- The string of a place below the working directory: what stands behind the working directory in
it has the names behind the working directory, and no slash at its end. -/
theorem behindCurPath_below {below : List (Name α)} (hne : below ≠ [])
    (hnamed : ∀ n ∈ fs.cwd ++ below, n ≠ [] ∧ slash ∉ n) :
    Paths.names (behindCurPath fs.currentPath.string (slashed (fs.cwd ++ below))) = below ∧
      (behindCurPath fs.currentPath.string (slashed (fs.cwd ++ below))).getLast? ≠ some slash := by
  have hbelow : ∀ n ∈ below, n ≠ [] ∧ slash ∉ n :=
    fun n hn => hnamed n (List.mem_append_right fs.cwd hn)
  obtain ⟨rest, hrest, hnames⟩ :
      ∃ rest, slashed (fs.cwd ++ below) = fs.currentPath.string ++ rest ∧
      Paths.names rest = below := by
    obtain hroot | ⟨parent, last, hcwd⟩ := List.eq_nil_or_concat' fs.cwd
    · refine ⟨[slash].intercalate below, ?_, names_intercalate hbelow⟩
      rw [string_currentPath, hroot, List.nil_append, slashed_eq_intercalate hne]
      rfl
    · refine ⟨slashed below, ?_, names_slashed (fun n hn => (hbelow n hn).1) fun n hn =>
        (hbelow n hn).2⟩
      rw [currentPath_string hcwd, hcwd, slashed_append]
  have hkept : behindCurPath fs.currentPath.string (slashed (fs.cwd ++ below)) = rest := by
    rw [behindCurPath, hrest, if_pos (List.prefix_append _ rest), List.drop_left]
  rw [hkept]
  refine ⟨hnames, fun hlast => getLast?_slashed hnamed ?_⟩
  rw [hrest, List.getLast?_append, hlast]
  rfl

theorem parse_joined {s : List α} {below : List (Name α)} (hnames : Paths.names s = below)
    (hne : below ≠ []) (hlast : s.getLast? ≠ some slash)
    (hexists : (fs.kind (fs.cwd ++ below)).isSome) :
    Path.parse (fs.currentPath.string ++ slash :: s) =
      fs.canonicalPath (fs.cwd ++ below) hexists := by
  have hs : s ≠ [] := by
    rintro rfl
    exact hne hnames.symm
  have hend : (fs.currentPath.string ++ slash :: s).getLast? = s.getLast? := by
    rw [← List.singleton_append, ← List.append_assoc, List.getLast?_append_of_ne_nil _ hs]
  refine Path.eq_of (parse_joined_absolute fs s) ?_ ?_
  · rw [parse_joined_names, hnames]
    rfl
  · refine decide_eq_false fun h => hlast ?_
    rw [← hend]
    exact h.2

end

/-- **Serving.** Without symbolic links, every request that leads to a regular file below the
working directory is mapped by both servers to the canonical path of this file, if that is UTF-8,
and otherwise throws. -/
theorem recvFilePath_serves {fs : FileTree UInt8} {file : List (Name UInt8)}
    (hfile : fs.kind file = some .regular) (hbelow : fs.cwd <+: file) {request : List UInt8}
    (hnames : fs.canonical (.parse request) = some file) :
    (recvFilePath fs request =
        if ∀ n ∈ file, Utf8.Valid n then
          .ok (some (fs.canonicalPath file (Option.isSome_of_eq_some hfile)))
        else .error .cannotConvert) ∧
      Client.recvFilePath fs request = recvFilePath fs request := by
  refine ⟨?_, rfl⟩
  have hexists := Option.isSome_of_eq_some hfile
  obtain ⟨below, rfl⟩ := hbelow
  have hne : below ≠ [] := by
    rintro rfl
    rw [List.append_nil, fs.cwd_directory] at hfile
    cases hfile
  have hrequest : request ≠ [] := by
    rintro rfl
    cases hnames
  have hleads : fs.leads (.parse request) = some (fs.cwd ++ below) := by
    rw [FileTree.leads, hnames]
  split_ifs with hvalid
  · have hconverts : Converts fs (.parse request) := by
      rw [Converts, hleads]
      exact List.forall_mem_append.mpr ⟨fun n hn => hvalid n (List.mem_append_left _ hn), hvalid⟩
    have hstring : (fs.canonicalPath (fs.cwd ++ below) hexists).string =
        slashed (fs.cwd ++ below) := by
      rw [Path.string_absolute rfl (List.append_ne_nil_of_right_ne_nil _ hne)]
      exact List.append_nil _
    obtain ⟨hbehind, hlast⟩ := behindCurPath_below hne fun n hn => (fs.proper _ hexists n hn).named
    rw [recvFilePath_of_converts hrequest hconverts,
      FileTree.weaklyCanonical_of_canonical hnames, hstring,
      parse_joined hbehind hne hlast hexists, weaklyCanonical_canonicalPath]
  · refine recvFilePath_of_not_converts hrequest fun hconverts => hvalid fun n hn => ?_
    rw [Converts, hleads] at hconverts
    exact hconverts n (List.mem_append_right _ hn)

/-- The working directory is `/home/me`, and in it are a file `a` and one with a name in Latin-1. -/
def shelf : FileTree UInt8 :=
  .ofLists [[ascii "home", ascii "me"], [ascii "home"], []]
    [[ascii "home", ascii "me", ascii "a"], [ascii "home", ascii "me", ascii "caf" ++ [0xe9]]]
    [ascii "home", ascii "me"] (by decide) (by decide +kernel) (by decide +kernel)
      (by decide +kernel)

/-- The request `../me/./a` for a file of the working directory. -/
theorem recvFilePath_serves_spelling :
    recvFilePath shelf (ascii "../me/./a") =
      .ok (some (shelf.canonicalPath [ascii "home", ascii "me", ascii "a"] (by decide +kernel))) := by
  have hvalid : ∀ n ∈ [ascii "home", ascii "me", ascii "a"], Utf8.Valid n := by decide +kernel
  have hserves :=
    (@recvFilePath_serves shelf [ascii "home", ascii "me", ascii "a"] (by decide +kernel)
    (by decide +kernel) (ascii "../me/./a") (by decide +kernel)).1
  rwa [if_pos hvalid] at hserves

/-- The file `caf` and `e` with an acute accent, one byte in Latin-1, is not served. -/
theorem recvFilePath_throws :
    ¬ ∀ (fs : FileTree UInt8) (file : List (Name UInt8)) (hfile : fs.kind file = some .regular),
      fs.cwd <+: file → ∀ request, fs.canonical (.parse request) = some file →
        recvFilePath fs request = .ok (some (fs.canonicalPath file (Option.isSome_of_eq_some hfile))) := by
  intro h
  have hserved := h shelf [ascii "home", ascii "me", ascii "caf" ++ [0xe9]] (by decide +kernel)
    (by decide +kernel) (ascii "caf" ++ [0xe9]) (by decide +kernel)
  have hthrows : recvFilePath shelf (ascii "caf" ++ [0xe9]) = .error .cannotConvert := by
    decide +kernel
  rw [hthrows] at hserved
  cases hserved

/-! ### Names outside the working directory -/

section

variable {α : Type} [DecidableEq α] [PathChar α] {fs : FileTree α}

/-- A name of the path begins with the last name of the working directory where that one should
stand. -/
def Sibling (cwd names : List (Name α)) : Prop :=
  ∃ parent last cut below, cwd = parent ++ [last] ∧ cut ≠ [] ∧
  names = parent ++ (last ++ cut) :: below

/-- The path behind the working directory with all of its names. -/
def FileTree.behind (fs : FileTree α) (q : Path α) : Path α where
  absolute := true
  names := fs.cwd ++ q.names
  trailing := q.trailing
  named := List.forall_mem_append.mpr ⟨fs.currentPath.named, q.named⟩
  trailing_named h := List.append_ne_nil_of_right_ne_nil _ (q.trailing_named h)

/-- A path with a null character names no file, neither by itself nor behind the working
directory. -/
def Hides (fs : FileTree α) (q : Path α) : Prop :=
  (∀ n ∈ q.names, nul ∉ n) ∨ fs.canonical q = none ∧ fs.canonical (fs.behind q) = none

/-- Outside of the working directory its names stand in front of nothing but those of a sibling. -/
theorem behindCwd_outside {l : List (Name α)} (hnot : ¬ fs.cwd <+: l) :
    match behindCwd fs.cwd l with
    | some names => ∃ parent last cut below, fs.cwd = parent ++ [last] ∧ cut ≠ [] ∧
        l = parent ++ (last ++ cut) :: below ∧ names = cut :: below
    | none => ¬ Sibling fs.cwd l := by
  obtain hroot | ⟨parent, last, hcwd⟩ := List.eq_nil_or_concat' fs.cwd
  · exact absurd (hroot ▸ List.nil_prefix) hnot
  cases hbehind : behindCwd fs.cwd l with
  | some names =>
      rw [hcwd, behindCwd_eq_some_iff] at hbehind
      obtain ⟨cut, below, rfl, rfl⟩ := hbehind
      refine ⟨parent, last, cut, below, hcwd, ?_, rfl, rfl⟩
      rintro rfl
      refine hnot ⟨below, ?_⟩
      rw [hcwd, List.append_nil, List.append_assoc, List.singleton_append]
  | none =>
      rintro ⟨parent', last', cut, below, hcwd', -, hl⟩
      rw [hcwd', behindCwd_eq_some_iff.mpr ⟨cut, below, rfl, hl⟩] at hbehind
      cases hbehind

theorem canonical_congr {p q : Path α} (habs : p.absolute = q.absolute) (hnames : p.names = q.names)
    {n : Name α} (hn : n ∈ p.names) (hnul : nul ∈ n) : fs.canonical p = fs.canonical q := by
  have hcut (r : Path α) (hr : r.names = p.names) :
      cStr r.string = cStr ((if r.absolute then [slash] else []) ++ [slash].intercalate r.names) := by
    refine cStr_append_of_mem ?_ _
    have hmem : nul ∈ r.string := (Path.mem_string nul_ne_slash).mpr ⟨n, hr ▸ hn, hnul⟩
    refine (List.mem_append.mp hmem).resolve_right fun hlast => ?_
    split_ifs at hlast
    · exact nul_ne_slash (List.mem_singleton.mp hlast)
    · exact List.not_mem_nil hlast
  rw [FileTree.canonical, FileTree.canonical, hcut p rfl, hcut q hnames.symm, habs, hnames]

theorem weaklyCanonical_normalised {q : Path α} (habs : q.absolute = true)
    (hproper : ∀ n ∈ q.names, Proper n) (hnul : (∀ n ∈ q.names, nul ∉ n) ∨ fs.canonical q = none) :
    fs.leads q = some q.names ∧ (fs.weaklyCanonical q).absolute = true ∧
      (fs.weaklyCanonical q).names = q.names ∧
      (q.trailing = false → (fs.weaklyCanonical q).trailing = false) := by
  have hplace : fs.place q = q.names := by
    rw [FileTree.place, FileTree.start, if_pos habs, foldl_push_proper hproper, List.nil_append]
  have hfound : fs.Found q := Or.inl habs
  have hleads : fs.leads q = some q.names := by
    rcases hnul with hfree | hnone
    · rw [leads_of_nul_free (Or.inl habs) hfree, if_pos hfound, hplace]
    · rw [FileTree.leads, hnone]
      dsimp only
      rw [if_pos hfound, hplace]
  have hfirst := weaklyCanonical_leads fs (p := q) (Or.inl habs)
  rw [hleads] at hfirst
  refine ⟨hleads, hfirst.1, hfirst.2, fun hflat =>
    FileTree.weaklyCanonical_trailing (Or.inl habs) ?_⟩
  rw [Path.elements, hflat]
  exact List.forall_mem_append.mpr ⟨hproper, fun n hn => absurd hn List.not_mem_nil⟩

theorem weaklyCanonical_whole {first : Path α} (hproper : ∀ n ∈ first.names, Proper n)
    (htrailing : first.trailing = false) :
    (fs.weaklyCanonical (.parse (fs.currentPath.string ++ slash :: first.string))).trailing =
      false := by
  by_cases hnil : first.names = []
  · have hnames : Paths.names first.string = [] := first.names_string.trans hnil
    have hfound := @canonical_joined _ _ _ fs first.string fun front hfront => by
      rw [hnames] at hfront
      rw [List.prefix_nil.mp hfront]
      exact List.prefix_rfl
    obtain ⟨place, hplace⟩ := Option.isSome_iff_exists.mp hfound
    rw [FileTree.weaklyCanonical_of_canonical hplace]
    rfl
  · refine FileTree.weaklyCanonical_trailing (Or.inl (parse_joined_absolute fs _)) ?_
    have hflat : (Path.parse (fs.currentPath.string ++ slash :: first.string)).trailing =
        false := by
      refine decide_eq_false fun h => Path.getLast?_string hnil htrailing ?_
      have hlast := h.2
      rwa [← List.singleton_append, ← List.append_assoc,
        List.getLast?_append_of_ne_nil _ (Path.string_ne_nil (Or.inr hnil))] at hlast
    rw [Path.elements, hflat, parse_joined_names, first.names_string]
    exact List.forall_mem_append.mpr
      ⟨List.forall_mem_append.mpr ⟨fs.cwd_proper, hproper⟩, fun n hn => absurd hn List.not_mem_nil⟩

theorem push_cut_ne {parent below : List (Name α)} {last : Name α} {cut : List α}
    (hlast : last ≠ []) :
    push (parent ++ [last]) cut ++ below ≠ parent ++ [last] ++
      (parent ++ (last ++ cut) :: below) := by
  intro h
  rw [push] at h
  split_ifs at h with hstay hup
  · have hlength := congrArg List.length h
    simp only [List.length_append, List.length_cons, List.length_nil] at hlength
    omega
  · have hlength := congrArg List.length h
    simp only [List.length_append, List.length_cons, List.length_nil,
      List.length_dropLast] at hlength
    omega
  · have hlength := congrArg List.length h
    simp only [List.length_append, List.length_cons, List.length_nil] at hlength
    obtain rfl : parent = [] := List.length_eq_zero_iff.mp (by omega)
    simp at h
    exact hlast h

section

variable {q : Path α} (hnot : ¬ fs.cwd <+: q.names)

include hnot

theorem left_of_not_sibling (hsibling : ¬ Sibling fs.cwd q.names) :
    (behindCwd fs.cwd q.names).getD q.names = q.names := by
  have houtside := behindCwd_outside hnot
  cases hbehind : behindCwd fs.cwd q.names with
  | none => rfl
  | some names =>
      rw [hbehind] at houtside
      obtain ⟨parent, last, cut, below, hcwd, hcut, hplace, -⟩ := houtside
      exact absurd ⟨parent, last, cut, below, hcwd, hcut, hplace⟩ hsibling

theorem behindCurPath_of_not_sibling (hsibling : ¬ Sibling fs.cwd q.names) {first : Path α}
    (hfirst : first.names = q.names) :
    behindCurPath fs.currentPath.string first.string = first.string := by
  refine if_neg ?_
  rintro ⟨s, hs⟩
  obtain hroot | ⟨parent, last, hcwd⟩ := List.eq_nil_or_concat' fs.cwd
  · exact hnot (hroot ▸ List.nil_prefix)
  · have hnamed : ∀ n ∈ fs.cwd, n ≠ [] ∧ slash ∉ n := fs.currentPath.named
    obtain ⟨cut, below, -, -, hwhole⟩ := names_behind (hcwd ▸ hnamed) s
    rw [← currentPath_string hcwd, hs, first.names_string, hfirst] at hwhole
    refine hsibling ⟨parent, last, cut, below, hcwd, ?_, hwhole⟩
    rintro rfl
    refine hnot ⟨below, ?_⟩
    rw [hwhole, hcwd, List.append_nil, List.append_assoc, List.singleton_append]

variable (hproper : ∀ n ∈ q.names, Proper n)

include hproper

theorem foldl_push_left :
    ((behindCwd fs.cwd q.names).getD q.names).foldl push fs.cwd = fs.cwd ++ q.names ↔
    ¬ Sibling fs.cwd q.names := by
  have houtside := behindCwd_outside hnot
  cases hbehind : behindCwd fs.cwd q.names with
  | none =>
      rw [hbehind] at houtside
      exact iff_of_true (foldl_push_proper hproper fs.cwd) houtside
  | some names =>
      rw [hbehind] at houtside
      obtain ⟨parent, last, cut, below, hcwd, hcut, hplace, rfl⟩ := houtside
      refine iff_of_false ?_ (not_not_intro ⟨parent, last, cut, below, hcwd, hcut, hplace⟩)
      have hbelow : ∀ n ∈ below, Proper n := fun n hn => hproper n (by simp [hplace, hn])
      rw [Option.getD_some, List.foldl_cons, foldl_push_proper hbelow, hplace, hcwd]
      exact push_cut_ne (fs.cwd_proper last (by simp [hcwd])).nonempty

variable (habs : q.absolute = true)

include habs

theorem names_left_normalised (hnul : (∀ n ∈ q.names, nul ∉ n) ∨ fs.canonical q = none) :
    Paths.names (behindCurPath fs.currentPath.string (fs.weaklyCanonical q).string) =
      (behindCwd fs.cwd q.names).getD q.names := by
  obtain ⟨-, hfirst, hnames, -⟩ := weaklyCanonical_normalised habs hproper hnul
  rw [names_behindCurPath hfirst, hnames, List.filter_eq_self]
  intro n hn
  have houtside := behindCwd_outside hnot
  cases hbehind : behindCwd fs.cwd q.names with
  | none =>
      rw [hbehind, Option.getD_none] at hn
      exact decide_eq_true (q.named n hn).1
  | some names =>
      rw [hbehind] at houtside hn
      obtain ⟨parent, last, cut, below, -, hcut, hplace, rfl⟩ := houtside
      rcases List.mem_cons.mp hn with rfl | hn
      · exact decide_eq_true hcut
      · exact decide_eq_true (q.named n (by simp [hplace, hn])).1

theorem joins_iff_of_nul_free (hfree : ∀ n ∈ q.names, nul ∉ n) :
    (fs.weaklyCanonical (.parse (fs.currentPath.string ++ slash ::
        behindCurPath fs.currentPath.string (fs.weaklyCanonical q).string))).names =
          fs.cwd ++ q.names ↔
      ¬ Sibling fs.cwd q.names := by
  have hnames := names_left_normalised hnot hproper habs (Or.inl hfree)
  rw [(weaklyCanonical_joined fs _).2, hnames, cutNames_of_not_mem (nul_not_mem_left hfree),
    ← foldl_push_left hnot hproper]
  split
  · rfl
  · rfl

theorem joins_iff_of_nul {n : Name α} (hn : n ∈ q.names) (hnul : nul ∈ n) :
    (fs.weaklyCanonical (.parse (fs.currentPath.string ++ slash ::
        behindCurPath fs.currentPath.string (fs.weaklyCanonical q).string))).names =
          fs.cwd ++ q.names ↔
      ¬ Sibling fs.cwd q.names ∧ fs.canonical q = none ∧ fs.canonical (fs.behind q) = none := by
  have hleft := names_left_normalised hnot hproper habs
  have hmem : n ∈ fs.cwd ++ q.names := List.mem_append_right _ hn
  generalize hrest : behindCurPath fs.currentPath.string (fs.weaklyCanonical q).string =
    rest at hleft ⊢
  have hjoined := (weaklyCanonical_joined fs rest).2
  -- what is found under the joined path is found behind the working directory
  have hbehind (hall : Paths.names rest = q.names) :
      fs.canonical (.parse (fs.currentPath.string ++ slash :: rest)) =
        fs.canonical (fs.behind q) := by
    have hnames : (Path.parse (fs.currentPath.string ++ slash :: rest)).names =
        (fs.behind q).names := by
      rw [parse_joined_names, hall]
      rfl
    exact canonical_congr (parse_joined_absolute fs rest) hnames (hnames ▸ hmem) hnul
  constructor
  · intro h
    have hnone : fs.canonical (.parse (fs.currentPath.string ++ slash :: rest)) = none := by
      by_contra hsome
      obtain ⟨place, hplace⟩ := Option.ne_none_iff_exists'.mp hsome
      rw [FileTree.weaklyCanonical_of_canonical hplace] at h
      have hclean := fs.nameable place (fs.canonical_isSome hplace) n
      rw [show place = fs.cwd ++ q.names from h] at hclean
      exact hclean hmem hnul
    rw [hjoined, hnone] at h
    dsimp only at h
    have hfirst : fs.canonical q = none := by
      by_contra hsome
      obtain ⟨place, hplace⟩ := Option.ne_none_iff_exists'.mp hsome
      have hclean := fs.nameable place (fs.canonical_isSome hplace)
      have hrestClean : ∀ m ∈ Paths.names rest, nul ∉ m := by
        intro m hm
        rw [← hrest, FileTree.weaklyCanonical_of_canonical hplace, names_behindCurPath rfl] at hm
        exact nul_not_mem_left hclean m (List.mem_filter.mp hm).1
      exact nul_not_mem_foldl fs.cwd_nameable hrestClean n (h ▸ hmem) hnul
    have hsibling : ¬ Sibling fs.cwd q.names := by
      rw [← foldl_push_left hnot hproper, ← hleft (Or.inr hfirst)]
      exact h
    refine ⟨hsibling, hfirst, ?_⟩
    rw [← hbehind ((hleft (Or.inr hfirst)).trans (left_of_not_sibling hnot hsibling)), hnone]
  · rintro ⟨hsibling, hfirst, hsecond⟩
    have hnames := (hleft (Or.inr hfirst)).trans (left_of_not_sibling hnot hsibling)
    rw [hjoined, hbehind hnames, hsecond, hnames]
    exact foldl_push_proper hproper fs.cwd

/-- The second canonicalisation has all names of a normalised path behind those of the working
directory exactly if it is no sibling's and hides nothing. -/
theorem weaklyCanonical_joins_iff :
    (fs.weaklyCanonical (.parse (fs.currentPath.string ++ slash ::
        behindCurPath fs.currentPath.string (fs.weaklyCanonical q).string))).names =
          fs.cwd ++ q.names ↔
      ¬ Sibling fs.cwd q.names ∧ Hides fs q := by
  rw [Hides]
  by_cases hfree : ∀ n ∈ q.names, nul ∉ n
  · rw [joins_iff_of_nul_free hnot hproper habs hfree]
    exact (and_iff_left (Or.inl hfree)).symm
  · rw [or_iff_right hfree]
    obtain ⟨n, hn⟩ := not_forall.mp hfree
    obtain ⟨hmem, hnul⟩ := Classical.not_imp.mp hn
    exact joins_iff_of_nul hnot hproper habs hmem (not_not.mp hnul)

end

end

/-- **Names outside.** A normalised absolute path that is not below the working directory is looked
for, with all of its names, below it exactly if none of these begins with the last name of the
working directory in its place, all are UTF-8, and no null character in them hides that a file is
named. -/
theorem recvFilePath_joins_iff {fs : FileTree UInt8} {q : Path UInt8} (habs : q.absolute = true)
    (hproper : ∀ n ∈ q.names, Proper n) (hnot : ¬fs.cwd <+: q.names) :
    (∃ p, recvFilePath fs q.string = .ok (some p) ∧ Client.recvFilePath fs q.string = .ok (some p) ∧
        p.absolute = true ∧ p.names = fs.cwd ++ q.names ∧
        (q.trailing = false → p.trailing = false)) ↔
      ¬Sibling fs.cwd q.names ∧ (∀ n ∈ fs.cwd ++ q.names, Utf8.Valid n) ∧ Hides fs q := by
  have hne : q.string ≠ [] := Path.string_ne_nil (Or.inl habs)
  have hjoins := weaklyCanonical_joins_iff hnot hproper habs
  have hconverts (hhides : Hides fs q) :
      Converts fs (.parse q.string) ↔ ∀ n ∈ fs.cwd ++ q.names, Utf8.Valid n := by
    obtain ⟨hleads, -⟩ := weaklyCanonical_normalised habs hproper (hhides.imp_right fun h => h.1)
    rw [q.parse_string, Converts, hleads, Option.getD_some]
  constructor
  · rintro ⟨p, hp, -, -, hnames, -⟩
    have hconv : Converts fs (.parse q.string) := by
      by_contra h
      cases (recvFilePath_of_not_converts hne h).symm.trans hp
    cases (recvFilePath_of_converts hne hconv).symm.trans hp
    rw [q.parse_string, hjoins] at hnames
    exact ⟨hnames.1, (hconverts hnames.2).mp hconv, hnames.2⟩
  · rintro ⟨hsibling, hvalid, hhides⟩
    have hmapped := recvFilePath_of_converts hne ((hconverts hhides).mpr hvalid)
    rw [q.parse_string] at hmapped
    refine ⟨_, hmapped, hmapped, (weaklyCanonical_joined fs _).1, hjoins.mpr ⟨hsibling, hhides⟩,
      fun hflat => ?_⟩
    obtain ⟨-, hfirst, hnames, htrailing⟩ :=
      weaklyCanonical_normalised habs hproper (hhides.imp_right fun h => h.1)
    rw [behindCurPath_of_not_sibling hnot hsibling hnames]
    exact weaklyCanonical_whole (hnames ▸ hproper) (htrailing hflat)

def siblings : FileTree UInt8 :=
  .ofLists [[], [ascii "home"], [ascii "home", ascii "me"], [ascii "home", ascii "me2"]]
    [[ascii "home", ascii "me2", ascii "key"]] [ascii "home", ascii "me"]
    (by decide) (by decide +kernel) (by decide +kernel) (by decide +kernel)

theorem keyPath_not_sibling : ¬Sibling siblings.cwd keyPath.names := by
  rintro ⟨parent, last, cut, below, hcwd, _, hnames⟩
  have hsplit : [ascii "home"] ++ [ascii "me"] = parent ++ [last] := hcwd
  obtain ⟨rfl, hlast⟩ := List.append_inj' hsplit rfl
  cases hlast
  have hpath : [ascii "home"] ++ [ascii "key"] = [ascii "home"] ++ (ascii "me" ++ cut) :: below :=
    hnames
  have hkey : ascii "key" = ascii "me" ++ cut := (List.cons.inj (List.append_cancel_left hpath)).1
  have hprefix : ascii "me" <+: ascii "key" := ⟨cut, hkey.symm⟩
  exact absurd hprefix (by decide +kernel)

theorem recvFilePath_joins_key :
    ∃ p, recvFilePath siblings keyPath.string = .ok (some p) ∧
      p.names = [ascii "home", ascii "me", ascii "home", ascii "key"] := by
  have hvalid : ∀ n ∈ siblings.cwd ++ keyPath.names, Utf8.Valid n := by decide +kernel
  have hhides : Hides siblings keyPath := Or.inl (by decide +kernel)
  obtain ⟨p, hp, _, _, hnames, _⟩ :=
    (@recvFilePath_joins_iff siblings keyPath rfl (by decide +kernel) (by decide +kernel)).mpr
      ⟨keyPath_not_sibling, hvalid, hhides⟩
  exact ⟨p, hp, hnames⟩

/-- The request `/home/me2/key` is mapped to `/home/me/2/key`. -/
theorem recvFilePath_cuts_sibling :
    ¬ ∀ (fs : FileTree UInt8) (q : Path UInt8), q.absolute = true → (∀ n ∈ q.names, Proper n) →
      ¬fs.cwd <+: q.names →
      ∃ p, recvFilePath fs q.string = .ok (some p) ∧ p.names = fs.cwd ++ q.names := by
  intro h
  obtain ⟨p, hp, hnames⟩ :=
    h siblings (.parse (ascii "/home/me2/key")) (by decide +kernel) (by decide +kernel)
    (by decide +kernel)
  have hmapped : recvFilePath siblings (Path.parse (ascii "/home/me2/key")).string =
      .ok (some (.parse (ascii "/home/me/2/key"))) := by decide +kernel
  cases hmapped.symm.trans hp
  exact absurd hnames (by decide +kernel)

end NetworkHomework.FileServer
