import NetworkHomework.Base.Paths

/-!
# Paths and files without symbolic links

What the file servers use of `std::filesystem`: a path as it is written, a tree of directories and
files with a working directory, `status`, and `weakly_canonical`. The last is the canonical path if
there is one. Otherwise it follows the path for as long as its names exist, and normalises lexically
what is left. The operating system reads a path up to its first null character. It is taken to
answer what it is asked: no permission is missing, and no name is too long.
-/

namespace NetworkHomework.FileServer

open NetworkHomework.Paths PathChar

variable {α : Type} [PathChar α]

/-! ### Written paths -/

structure Path (α : Type) [PathChar α] where
  absolute : Bool
  names : List (Name α)
  /-- The path ends in a slash behind its last name. -/
  trailing : Bool
  named : ∀ n ∈ names, n ≠ [] ∧ slash ∉ n
  trailing_named : trailing = true → names ≠ []
deriving DecidableEq

namespace Path

/-- What iterating over a path gives behind its root: a trailing slash ends in an empty name. -/
def elements (p : Path α) : List (Name α) := p.names ++ if p.trailing then [[]] else []

theorem named_of_elements {p : Path α} {dir : List (Name α)} (hdir : ∀ n ∈ dir, n ≠ [] ∧ slash ∉ n)
    {n : Name α} (hn : n ∈ dir ∨ n ∈ p.elements ∧ n ≠ []) : n ≠ [] ∧ slash ∉ n := by
  rcases hn with hdirn | ⟨hmem, hne⟩
  · exact hdir n hdirn
  · rcases List.mem_append.mp hmem with hname | hlast
    · exact p.named n hname
    · split_ifs at hlast
      · exact absurd (List.mem_singleton.mp hlast) hne
      · exact absurd hlast List.not_mem_nil

theorem eq_of {p q : Path α} (habs : p.absolute = q.absolute) (hnames : p.names = q.names)
    (htrailing : p.trailing = q.trailing) : p = q := by
  cases p
  cases q
  cases habs
  cases hnames
  cases htrailing
  rfl

def string (p : Path α) : List α :=
  (if p.absolute then [slash] else []) ++ [slash].intercalate p.names ++ if p.trailing then
    [slash] else []

theorem head?_string_relative {p : Path α} (habs : p.absolute = false) :
    p.string.head? ≠ some slash := by
  rw [string, habs]
  cases hnames : p.names with
  | nil =>
      have htrailing : p.trailing = false := by
        by_contra h
        exact p.trailing_named (by simpa using h) hnames
      simp [htrailing]
  | cons n l =>
      obtain ⟨hn, hslash⟩ := p.named n (hnames ▸ List.mem_cons_self)
      cases n with
      | nil => exact absurd rfl hn
      | cons c n =>
          rw [List.intercalate_cons_cons_left]
          exact fun hc => hslash (Option.some.inj hc ▸ List.mem_cons_self)

theorem string_absolute {p : Path α} (habs : p.absolute = true) (hne : p.names ≠ []) :
    p.string = slashed p.names ++ if p.trailing then [slash] else [] := by
  rw [string, habs, slashed_eq_intercalate hne]
  rfl

variable [DecidableEq α]

def parse (s : List α) : Path α where
  absolute := s.head? = some slash
  names := Paths.names s
  trailing := Paths.names s ≠ [] ∧ s.getLast? = some slash
  named _ hn := mem_names hn
  trailing_named h := (of_decide_eq_true h).1

theorem trailing_parse {s : List α} (hnames : (parse s).names ≠ []) :
    (parse s).trailing = true ↔ s.getLast? = some slash :=
  decide_eq_true_iff.trans (and_iff_right hnames)

theorem names_string (p : Path α) : Paths.names p.string = p.names := by
  have hbody := names_intercalate p.named
  have hfront : Paths.names ((if p.absolute then [slash] else []) ++ [slash].intercalate p.names) =
      p.names := by
    cases p.absolute with
    | false => exact hbody
    | true => exact (names_cons_slash _).trans hbody
  rw [string]
  cases p.trailing with
  | false => exact (congrArg Paths.names (List.append_nil _)).trans hfront
  | true => exact (names_append_slash _ []).trans ((List.append_nil _).trans hfront)

theorem getLast?_string {p : Path α} (hne : p.names ≠ []) (htrailing : p.trailing = false) :
    p.string.getLast? ≠ some slash := by
  have hbody : [slash].intercalate p.names ≠ [] := by
    intro hnil
    have hnames := names_intercalate p.named
    rw [hnil, names_nil] at hnames
    exact hne hnames.symm
  rw [string, htrailing, if_neg Bool.false_ne_true, List.append_nil,
    List.getLast?_append_of_ne_nil _ hbody,
    ← List.getLast?_append_of_ne_nil [slash] hbody, List.singleton_append,
    ← slashed_eq_intercalate hne]
  exact getLast?_slashed p.named

theorem parse_string (p : Path α) : parse p.string = p := by
  refine eq_of ?_ p.names_string ?_
  · change decide (p.string.head? = some slash) = p.absolute
    cases habs : p.absolute with
    | false => exact decide_eq_false (head?_string_relative habs)
    | true =>
        rw [string, habs]
        exact decide_eq_true rfl
  · change decide (Paths.names p.string ≠ [] ∧ p.string.getLast? = some slash) = p.trailing
    rw [names_string]
    cases htrailing : p.trailing with
    | false => exact decide_eq_false fun h => getLast?_string h.1 htrailing h.2
    | true =>
        refine decide_eq_true ⟨p.trailing_named htrailing, ?_⟩
        rw [string, htrailing, if_pos rfl, List.getLast?_concat]

theorem string_ne_nil {p : Path α} (hp : p.absolute = true ∨ p.names ≠ []) : p.string ≠ [] := by
  intro hnil
  have hparsed := p.parse_string
  rw [hnil] at hparsed
  rcases hp with habs | hnames
  · rw [← hparsed] at habs
    cases habs
  · rw [← hparsed] at hnames
    exact hnames rfl

theorem mem_string {p : Path α} {c : α} (hc : c ≠ slash) : c ∈ p.string ↔ ∃ n ∈ p.names, c ∈ n := by
  rw [mem_iff_names hc, names_string]

theorem foldl_push_elements (p : Path α) (dir : List (Name α)) :
    p.elements.foldl push dir = p.names.foldl push dir := by
  rw [elements, List.foldl_append]
  split_ifs
  · rfl
  · rfl

end Path

/-! ### Directories and files -/

inductive Kind where
  | directory
  | regular
  | other
deriving DecidableEq

structure FileTree (α : Type) [PathChar α] where
  kind : List (Name α) → Option Kind
  cwd : List (Name α)
  root : kind [] = some .directory
  parent : ∀ dir n, (kind (dir ++ [n])).isSome → kind dir = some .directory
  proper : ∀ place, (kind place).isSome → ∀ n ∈ place, Proper n
  nameable : ∀ place, (kind place).isSome → ∀ n ∈ place, nul ∉ n
  cwd_directory : kind cwd = some .directory

namespace FileTree

section

variable (fs : FileTree α)

theorem cwd_proper : ∀ n ∈ fs.cwd, Proper n :=
  fs.proper fs.cwd (Option.isSome_of_eq_some fs.cwd_directory)

theorem cwd_nameable : ∀ n ∈ fs.cwd, nul ∉ n :=
  fs.nameable fs.cwd (Option.isSome_of_eq_some fs.cwd_directory)

theorem directory_of_prefix {dir place : List (Name α)} (hdir : dir <+: place)
    (hplace : fs.kind place = some .directory) : fs.kind dir = some .directory := by
  obtain ⟨rest, rfl⟩ := hdir
  induction rest using List.reverseRecOn with
  | nil => rwa [List.append_nil] at hplace
  | append_singleton rest n ih =>
      rw [← List.append_assoc] at hplace
      exact ih (fs.parent _ n (Option.isSome_of_eq_some hplace))

theorem directory_above {dir place : List (Name α)} (hdir : dir <+: place) (hne : dir ≠ place)
    (hplace : (fs.kind place).isSome) : fs.kind dir = some .directory := by
  obtain ⟨rest, rfl⟩ := hdir
  obtain rfl | ⟨rest, n, rfl⟩ := List.eq_nil_or_concat' rest
  · exact absurd (List.append_nil dir).symm hne
  · rw [← List.append_assoc] at hplace
    exact fs.directory_of_prefix (List.prefix_append dir rest) (fs.parent _ n hplace)

def start (p : Path α) : List (Name α) := if p.absolute then [] else fs.cwd

theorem start_proper (p : Path α) : ∀ n ∈ fs.start p, Proper n := by
  intro n hn
  rw [start] at hn
  split_ifs at hn
  · exact absurd hn List.not_mem_nil
  · exact fs.cwd_proper n hn

theorem start_directory (p : Path α) : fs.kind (fs.start p) = some .directory := by
  rw [start]
  split_ifs
  · exact fs.root
  · exact fs.cwd_directory

end

theorem mem_of_kind {β : Type*} {dirs files : List β} {place : β} [Decidable (place ∈ dirs)]
    [Decidable (place ∈ files)]
    (h : (if place ∈ dirs then some Kind.directory else if place ∈ files then some .regular else none).isSome) :
    place ∈ dirs ++ files := by
  by_contra hout
  rw [List.mem_append, not_or] at hout
  rw [if_neg hout.1, if_neg hout.2] at h
  cases h

variable [DecidableEq α]

def ofLists (dirs files : List (List (Name α))) (cwd : List (Name α)) (hroot : [] ∈ dirs)
    (hparent : ∀ place ∈ dirs ++ files, place ≠ [] → place.dropLast ∈ dirs)
    (hnames : ∀ place ∈ dirs ++ files, ∀ n ∈ place, Proper n ∧ nul ∉ n) (hcwd : cwd ∈ dirs) :
    FileTree α where
  kind place := if place ∈ dirs then some .directory else if place ∈ files then
    some .regular else none
  cwd := cwd
  root := if_pos hroot
  parent dir n h := by
    have hdir := hparent _ (mem_of_kind h) (by simp)
    rw [List.dropLast_concat] at hdir
    exact if_pos hdir
  proper place h n hn := (hnames place (mem_of_kind h) n hn).1
  nameable place h n hn := (hnames place (mem_of_kind h) n hn).2
  cwd_directory := if_pos hcwd

variable (fs : FileTree α)

def lookup (dir : List (Name α)) (n : Name α) : Option (List (Name α)) :=
  if fs.kind dir = some .directory ∧ (fs.kind (push dir n)).isSome then some (push dir n) else none

/-- How far the names exist, and the names that are left. -/
def walk (dir : List (Name α)) : List (Name α) → List (Name α) × List (Name α)
  | [] => (dir, [])
  | n :: left =>
      match fs.lookup dir n with
      | some next => walk next left
      | none => (dir, n :: left)

theorem lookup_push {dir next : List (Name α)} {n : Name α} (h : fs.lookup dir n = some next) :
    push dir n = next ∧ (fs.kind (push dir n)).isSome := by
  rw [lookup, Option.ite_none_right_eq_some] at h
  exact ⟨Option.some.inj h.2, h.1.2⟩

theorem foldl_push_walk (dir l : List (Name α)) :
    (fs.walk dir l).2.foldl push (fs.walk dir l).1 = l.foldl push dir := by
  induction l generalizing dir with
  | nil => rfl
  | cons n l ih =>
      rw [walk]
      cases hlookup : fs.lookup dir n with
      | none => rfl
      | some next =>
          rw [List.foldl_cons, (fs.lookup_push hlookup).1]
          exact ih next

theorem mem_walk {dir l : List (Name α)} {n : Name α}
    (hn : n ∈ (fs.walk dir l).2.foldl push (fs.walk dir l).1) : n ∈ dir ∨ n ∈ l ∧ n ≠ [] := by
  rw [foldl_push_walk] at hn
  exact mem_foldl_push hn

theorem walk_suffix (dir l : List (Name α)) : (fs.walk dir l).2 <:+ l := by
  induction l generalizing dir with
  | nil => exact List.suffix_refl []
  | cons n l ih =>
      rw [walk]
      cases fs.lookup dir n with
      | none => exact List.suffix_refl (n :: l)
      | some next => exact (ih next).trans (List.suffix_cons n l)

theorem walk_end_iff {dir l : List (Name α)} (hdir : (fs.kind dir).isSome) :
    (fs.walk dir l).2 = [] ↔ (fs.kind (l.foldl push dir)).isSome ∧
      ∀ front, front <+: l → front ≠ l → fs.kind (front.foldl push dir) = some .directory := by
  induction l generalizing dir with
  | nil =>
      refine iff_of_true rfl ⟨hdir, fun front hfront hne => ?_⟩
      exact absurd (List.prefix_nil.mp hfront) hne
  | cons n l ih =>
      rw [walk, lookup]
      by_cases hnext : fs.kind dir = some .directory ∧ (fs.kind (push dir n)).isSome
      · rw [if_pos hnext]
        dsimp only
        rw [ih hnext.2]
        refine and_congr_right fun _ => ⟨fun h front hfront hne => ?_, fun h front hfront hne => ?_⟩
        · rcases List.prefix_cons_iff.mp hfront with hnil | ⟨front', hcons, hfront'⟩
          · rw [hnil]
            exact hnext.1
          · rw [hcons]
            exact h front' hfront' fun heq => hne (by rw [hcons, heq])
        · exact h (n :: front) ((List.prefix_cons_inj n).mpr hfront) fun heq =>
            hne (List.cons.inj heq).2
      · rw [if_neg hnext]
        refine iff_of_false (List.cons_ne_nil n l) fun h => hnext ⟨?_, ?_⟩
        · exact h.2 [] List.nil_prefix (List.cons_ne_nil n l).symm
        · cases l with
          | nil => exact h.1
          | cons m l =>
              have hfirst := h.2 [n] ((List.prefix_cons_inj n).mpr List.nil_prefix) (by simp)
              exact Option.isSome_of_eq_some hfirst

/-- Where two trees agree on all places a path comes to, it leads equally far. -/
theorem walk_congr {fs fs' : FileTree α} {dir l : List (Name α)}
    (h : ∀ front, front <+: l → fs.kind (front.foldl push dir) = fs'.kind (front.foldl push dir)) :
    fs.walk dir l = fs'.walk dir l := by
  induction l generalizing dir with
  | nil => rfl
  | cons n l ih =>
      have hdir : fs.kind dir = fs'.kind dir := h [] List.nil_prefix
      have hnext (front : List (Name α)) (hfront : front <+: l) :
          fs.kind (front.foldl push (push dir n)) = fs'.kind (front.foldl push (push dir n)) :=
        h (n :: front) ((List.prefix_cons_inj n).mpr hfront)
      have hlookup : fs.lookup dir n = fs'.lookup dir n := by
        rw [lookup, lookup, hdir, show fs.kind (push dir n) = fs'.kind (push dir n) from hnext [] List.nil_prefix]
      rw [walk, walk, hlookup]
      cases hnew : fs'.lookup dir n with
      | none => rfl
      | some next =>
          rw [(fs'.lookup_push hnew).1] at hnext
          exact ih hnext

def place (p : Path α) : List (Name α) := p.names.foldl push (fs.start p)

theorem place_proper (p : Path α) : ∀ n ∈ fs.place p, Proper n :=
  foldl_push_all_proper (fs.start_proper p) fun n hn => (p.named n hn).2

def status (p : Path α) : Option Kind :=
  match fs.walk (fs.start p) p.elements with
  | (place, []) => fs.kind place
  | (_, _ :: _) => none

def resolve (p : Path α) : Option (List (Name α)) :=
  match fs.walk (fs.start p) p.elements with
  | (place, []) => some place
  | (_, _ :: _) => none

theorem resolve_eq_some_iff {p : Path α} {place : List (Name α)} :
    fs.resolve p = some place ↔ p.elements.foldl push (fs.start p) = place ∧
    (fs.kind place).isSome ∧
      ∀ front, front <+: p.elements → front ≠ p.elements →
        fs.kind (front.foldl push (fs.start p)) = some .directory := by
  have hend := fs.walk_end_iff (l := p.elements) (Option.isSome_of_eq_some (fs.start_directory p))
  rw [resolve]
  split
  · next place' hwalk =>
      have hplace : p.elements.foldl push (fs.start p) = place' := by
        rw [← foldl_push_walk, hwalk]
        rfl
      rw [hwalk, hplace] at hend
      rw [hplace, Option.some.injEq]
      refine ⟨fun h => ?_, fun h => h.1⟩
      rw [← h]
      exact ⟨rfl, hend.mp rfl⟩
  · next n left hwalk =>
      rw [hwalk] at hend
      refine iff_of_false (fun h => by cases h) ?_
      rintro ⟨rfl, h⟩
      exact absurd (hend.mpr h) (List.cons_ne_nil n left)

theorem resolve_of_directories {p : Path α}
    (h : ∀ front, front <+: p.names → fs.kind (front.foldl push (fs.start p)) = some .directory) :
    fs.resolve p = some (fs.place p) := by
  rw [resolve_eq_some_iff, p.foldl_push_elements]
  refine ⟨rfl, Option.isSome_of_eq_some (h _ List.prefix_rfl), fun front hfront _ => ?_⟩
  rw [Path.elements] at hfront
  rcases prefix_append_cases hfront with hin | ⟨more, hmore, rfl⟩
  · exact h front hin
  · have hstay : more.foldl push (p.names.foldl push (fs.start p)) =
        p.names.foldl push (fs.start p) := by
      split_ifs at hmore
      · rcases List.prefix_cons_iff.mp hmore with rfl | ⟨rest, rfl, hrest⟩
        · rfl
        · rw [List.prefix_nil.mp hrest, List.foldl_cons, push_nil]
          rfl
      · rw [List.prefix_nil.mp hmore]
        rfl
    rw [List.foldl_append, hstay]
    exact h _ List.prefix_rfl

theorem resolve_isSome {p : Path α} {place : List (Name α)} (h : fs.resolve p = some place) :
    (fs.kind place).isSome := (fs.resolve_eq_some_iff.mp h).2.1

theorem resolve_eq_place {p : Path α} {place : List (Name α)} (h : fs.resolve p = some place) :
    place = fs.place p := by
  rw [FileTree.place, ← p.foldl_push_elements]
  exact (fs.resolve_eq_some_iff.mp h).1.symm

/-! ### `canonical` and `weakly_canonical` -/

/-- What the operating system finds under a path; there is nothing under an empty one. -/
def canonical (p : Path α) : Option (List (Name α)) :=
  if cStr p.string = [] then none else fs.resolve (.parse (cStr p.string))

theorem canonical_isSome {p : Path α} {place : List (Name α)} (h : fs.canonical p = some place) :
    (fs.kind place).isSome := by
  rw [canonical] at h
  split_ifs at h
  exact fs.resolve_isSome h

def canonicalPath (place : List (Name α)) (hplace : (fs.kind place).isSome) : Path α :=
  ⟨true, place, false, fun n hn => (fs.proper place hplace n hn).named, fun h => by cases h⟩

def Found (p : Path α) : Prop := p.absolute ∨ ∃ n ∈ p.elements.head?, (fs.lookup fs.cwd n).isSome

instance (p : Path α) : Decidable (fs.Found p) :=
  inferInstanceAs (Decidable (_ ∨ ∃ n ∈ p.elements.head?, _))

/-- Normalising keeps the slash behind a last element that names no file. -/
def slashKept (l : List (Name α)) : Bool := l.getLast? ∈ [some [], some [dot], some [dot, dot]]

def weaklyCanonical (p : Path α) : Path α :=
  match h : fs.canonical p with
  | some place => fs.canonicalPath place (fs.canonical_isSome h)
  | none =>
      -- a name with a null character ends the part that exists, or else all of the path would exist
      if fs.Found p then
        let walked := fs.walk (fs.start p) p.elements
        let names := walked.2.foldl push walked.1
        { absolute := true
          names := names
          trailing := slashKept walked.2 ∧ names ≠ []
          named := fun _ hn =>
            Path.named_of_elements (fun m hm => (fs.start_proper p m hm).named) (fs.mem_walk hn)
          trailing_named := fun htrailing => (of_decide_eq_true htrailing).2 }
      else if p.names = [] then p
      else if hnil : p.elements.foldl pushRelative [] = [] then
        ⟨false, [[dot]], false, List.forall_mem_singleton.mpr ⟨List.cons_ne_nil _ _, notProper_dot.2⟩,
          fun h => by cases h⟩
      else
        { absolute := false
          names := p.elements.foldl pushRelative []
          trailing :=
        slashKept p.elements ∧ (p.elements.foldl pushRelative []).getLast? ≠ some [dot, dot]
          named := fun _ hn =>
            Path.named_of_elements (fun _ h => absurd h List.not_mem_nil)
              (mem_foldl_pushRelative hn)
          trailing_named := fun _ => hnil }

variable {fs} {p : Path α}

theorem status_of_resolve {place : List (Name α)} (h : fs.resolve p = some place) :
    fs.status p = fs.kind place := by
  rw [resolve] at h
  rw [status]
  split at h
  · cases h
    rfl
  · cases h

theorem found_of_resolve (hp : p.absolute = true ∨ p.names ≠ []) {place : List (Name α)}
    (h : fs.resolve p = some place) : fs.Found p := by
  by_cases habs : p.absolute = true
  · exact Or.inl habs
  · right
    cases helements : p.elements with
    | nil => exact absurd (List.append_eq_nil_iff.mp helements).1 (hp.resolve_left habs)
    | cons n l =>
        refine ⟨n, rfl, ?_⟩
        cases hlookup : fs.lookup fs.cwd n with
        | some next => rfl
        | none =>
            rw [resolve, start, if_neg habs, helements, walk, hlookup] at h
            cases h

theorem canonical_of_nul_free (hne : p.string ≠ []) (hnul : ∀ n ∈ p.names, nul ∉ n) :
    fs.canonical p = fs.resolve p := by
  have hwhole : cStr p.string = p.string := cStr_of_not_mem fun h => by
    obtain ⟨n, hn, hmem⟩ := (Path.mem_string nul_ne_slash).mp h
    exact hnul n hn hmem
  rw [canonical, hwhole, if_neg hne, p.parse_string]

theorem names_parse_cStr (p : Path α) :
    (Path.parse (cStr p.string)).names = (cutNames p.names).filter (· ≠ []) := by
  rw [← p.names_string]
  exact names_cStr p.string

theorem start_parse_cStr (hnil : cStr p.string ≠ []) :
    fs.start (.parse (cStr p.string)) = fs.start p := by
  have hhead : (cStr p.string).head? = p.string.head? := by
    cases hs : p.string with
    | nil => rfl
    | cons c s =>
        rw [hs] at hnil
        by_cases hc : c = nul
        · exact absurd (List.takeWhile_cons_of_neg (by simp [hc])) hnil
        · rw [cStr, List.takeWhile_cons_of_pos (by simpa using hc)]
          rfl
  have habs : (Path.parse (cStr p.string)).absolute = (Path.parse p.string).absolute := by
    rw [Path.parse, Path.parse, hhead]
  rw [start, start, habs, p.parse_string]

theorem canonical_names {place : List (Name α)} (h : fs.canonical p = some place) :
    place = (cutNames p.names).foldl push (fs.start p) := by
  rw [canonical] at h
  split_ifs at h with hnil
  rw [fs.resolve_eq_place h, FileTree.place, start_parse_cStr hnil, names_parse_cStr,
    foldl_push_filter]

theorem canonical_of_directories (hnil : cStr p.string ≠ [])
    (h : ∀ front, front <+: cutNames p.names →
      fs.kind (front.foldl push (fs.start p)) = some .directory) :
    fs.canonical p = some ((cutNames p.names).foldl push (fs.start p)) := by
  have hway : ∀ front, front <+: (Path.parse (cStr p.string)).names →
      fs.kind (front.foldl push (fs.start (.parse (cStr p.string)))) = some .directory := by
    intro front hfront
    rw [names_parse_cStr, List.prefix_filter_iff] at hfront
    obtain ⟨front', hfront', rfl⟩ := hfront
    rw [start_parse_cStr hnil, foldl_push_filter]
    exact h front' hfront'
  rw [canonical, if_neg hnil, fs.resolve_of_directories hway, FileTree.place, start_parse_cStr hnil,
    names_parse_cStr, foldl_push_filter]

theorem weaklyCanonical_of_canonical {place : List (Name α)} (h : fs.canonical p = some place) :
    fs.weaklyCanonical p = fs.canonicalPath place (fs.canonical_isSome h) := by
  rw [weaklyCanonical]
  split
  · next place' h' =>
      cases h.symm.trans h'
      rfl
  · next h' => cases h.symm.trans h'

theorem weaklyCanonical_found (hnone : fs.canonical p = none) (hfound : fs.Found p) :
    (fs.weaklyCanonical p).absolute = true ∧ (fs.weaklyCanonical p).names = fs.place p := by
  rw [weaklyCanonical]
  split
  · next h' => cases hnone.symm.trans h'
  · rw [if_pos hfound]
    exact ⟨rfl, (fs.foldl_push_walk _ _).trans (p.foldl_push_elements _)⟩

theorem weaklyCanonical_trailing (hfound : fs.Found p) (hproper : ∀ n ∈ p.elements, Proper n) :
    (fs.weaklyCanonical p).trailing = false := by
  have hkept : slashKept (fs.walk (fs.start p) p.elements).2 = false := by
    rw [slashKept, decide_eq_false_iff_not]
    intro hmem
    have hall : ∀ n, (fs.walk (fs.start p) p.elements).2.getLast? = some n → Proper n := fun n hn =>
      hproper n ((fs.walk_suffix _ _).subset (List.mem_of_getLast? hn))
    rcases List.mem_cons.mp hmem with hlast | hmem
    · exact (hall _ hlast).nonempty rfl
    · rcases List.mem_cons.mp hmem with hlast | hmem
      · exact (hall _ hlast).notDot rfl
      · exact (hall _ (List.mem_singleton.mp hmem)).notDotDot rfl
  rw [weaklyCanonical]
  split
  · rfl
  · rw [if_pos hfound]
    simp only [hkept]
    simp

theorem weaklyCanonical_missing (hnone : fs.canonical p = none) (hmissing : ¬fs.Found p)
    (hne : p.names ≠ []) :
    (fs.weaklyCanonical p).absolute = false ∧ (fs.weaklyCanonical p).names ≠ [] ∧
      ((fs.weaklyCanonical p).names = p.elements.foldl pushRelative [] ∨
        p.elements.foldl pushRelative [] = [] ∧ (fs.weaklyCanonical p).names = [[dot]]) := by
  rw [weaklyCanonical]
  split
  · next h' => cases hnone.symm.trans h'
  · rw [if_neg hmissing, if_neg hne]
    by_cases hnil : p.elements.foldl pushRelative [] = []
    · rw [dif_pos hnil]
      exact ⟨rfl, List.cons_ne_nil _ _, Or.inr ⟨hnil, rfl⟩⟩
    · rw [dif_neg hnil]
      exact ⟨rfl, hnil, Or.inl rfl⟩

theorem weaklyCanonical_proper (habs : (fs.weaklyCanonical p).absolute = true) :
    ∀ n ∈ (fs.weaklyCanonical p).names, Proper n := by
  cases hcanonical : fs.canonical p with
  | some place =>
      rw [weaklyCanonical_of_canonical hcanonical]
      exact fs.proper place (fs.canonical_isSome hcanonical)
  | none =>
      by_cases hfound : fs.Found p
      · rw [(weaklyCanonical_found hcanonical hfound).2]
        exact fs.place_proper p
      · by_cases hne : p.names = []
        · have hsame : fs.weaklyCanonical p = p := by
            rw [weaklyCanonical]
            split
            · next h' => cases hcanonical.symm.trans h'
            · rw [if_neg hfound, if_pos hne]
          rw [hsame, hne]
          exact fun _ hn => absurd hn List.not_mem_nil
        · rw [(weaklyCanonical_missing hcanonical hfound hne).1] at habs
          cases habs

end FileTree

end NetworkHomework.FileServer
