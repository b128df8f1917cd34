import NetworkHomework.Base.Ownership
import NetworkHomework.Base.Runs

/-!
# `Socket`

The class that owns a descriptor: two constructors that acquire one, moves that pass it on, and
`close` and the destructor, which give it back. The operations work on a population of objects and
on the descriptor table of the operating system, where a number that has been closed is soon given
out again. `sound_always` says that whatever is done with any number of objects, no `Socket` ever
closes what is not, or not any more, its own.
-/

namespace NetworkHomework.SocketWrapper

def invalidSocket : Int := -1

/-- The objects that live, each with its `socket_descriptor_`; what the open descriptors stand for,
which is a new file each time one is opened; and the record of what `socket` and `accept` have
returned, of the descriptors stored in a `Socket`, and of those a `Socket` has passed to `close`,
with what they stood for then. -/
structure World where
  sockets : Nat → Option Int
  table : Int → Option Nat
  files : Nat
  returned : List Int
  entered : List (Int × Option Nat)
  closes : List (Int × Option Nat)

namespace World

def start : World := ⟨fun _ => none, fun _ => none, 0, [], [], []⟩

/-! ### The operating system -/

/-- `socket` and `accept` return `INVALID_SOCKET`, or a descriptor that is open from then on. -/
def openFile (w : World) (fd : Int) : World :=
  if fd = invalidSocket then w
  else { w with table := Function.update w.table fd (some w.files), files := w.files + 1 }

def closeFile (w : World) (fd : Int) : World := { w with table := Function.update w.table fd none }

def osReturn (w : World) (fd : Int) : World := { w.openFile fd with returned := w.returned ++ [fd] }

def closeSocket (w : World) (fd : Int) : World :=
  { w.closeFile fd with closes := w.closes ++ [(fd, w.table fd)] }

/-! ### The member functions -/

def socketDescriptor (w : World) (x : Nat) : Int := (w.sockets x).getD invalidSocket

def assign (w : World) (x : Nat) (fd : Int) : World :=
  { w with sockets := Function.update w.sockets x (some fd) }

def opened (w : World) (x : Nat) : Bool := w.socketDescriptor x ≠ invalidSocket

/-- A descriptor from outside is stored in a `Socket`. -/
def enter (w : World) (x : Nat) (fd : Int) : World :=
  { w.assign x fd with
    entered := if fd = invalidSocket then w.entered else w.entered ++ [(fd, w.table fd)] }

def close (w : World) (x : Nat) : World :=
  (w.closeSocket (w.socketDescriptor x)).assign x invalidSocket

def closeIfOpened (w : World) (x : Nat) : World := if w.opened x then w.close x else w

def openSocket (w : World) (x : Nat) (result : Int) : World :=
  ((w.closeIfOpened x).osReturn result).enter x result

def construct (w : World) (x : Nat) (result : Int) : World :=
  (w.assign x invalidSocket).openSocket x result

def adopt (w : World) (x : Nat) (fd : Int) : World := w.enter x fd

def moveConstruct (w : World) (x s : Nat) : World :=
  let w := w.assign x (w.socketDescriptor s)
  w.assign s invalidSocket

def swap (w : World) (x s : Nat) : World :=
  (w.assign x (w.socketDescriptor s)).assign s (w.socketDescriptor x)

def moveAssign (w : World) (x s : Nat) : World := if s = x then w else (w.closeIfOpened x).swap x s

def destroy (w : World) (x : Nat) : World :=
  { w.closeIfOpened x with sockets := Function.update (w.closeIfOpened x).sockets x none }

end World

/-! ### Runs -/

/-- An operation on `Socket` objects, or something else the program does with descriptors: it calls
`accept`, or opens or closes one without a `Socket`. -/
inductive Op where
  | construct (x : Nat) (result : Int)
  | adopt (x : Nat) (fd : Int)
  | moveConstruct (x s : Nat)
  | moveAssign (x s : Nat)
  | close (x : Nat)
  | destroy (x : Nat)
  | accept (result : Int)
  | otherOpens (fd : Int)
  | otherCloses (fd : Int)

namespace World

def apply (w : World) : Op → World
  | .construct x result => w.construct x result
  | .adopt x fd => w.adopt x fd
  | .moveConstruct x s => w.moveConstruct x s
  | .moveAssign x s => w.moveAssign x s
  | .close x => w.close x
  | .destroy x => w.destroy x
  | .accept result => w.osReturn result
  | .otherOpens fd => w.openFile fd
  | .otherCloses fd => w.closeFile fd

def step (w : World) (op : Op) : Option World := some (w.apply op)

/-- A descriptor that is new: none at all, or one that is not open. -/
def New (w : World) (fd : Int) : Prop := fd = invalidSocket ∨ w.table fd = none

def Unowned (w : World) (fd : Int) : Prop := ∀ x, w.sockets x ≠ some fd

/-- Objects are constructed where none lives and used while they live; what is opened is new; what
is adopted is open and unowned, or none; and nothing else closes what a `Socket` owns. -/
def Allowed (w : World) : Op → Prop
  | .construct x result => w.sockets x = none ∧ w.New result
  | .adopt x fd => w.sockets x = none ∧ (fd = invalidSocket ∨ ((w.table fd).isSome ∧ w.Unowned fd))
  | .moveConstruct x s => w.sockets x = none ∧ (w.sockets s).isSome
  | .moveAssign x s => (w.sockets x).isSome ∧ (w.sockets s).isSome
  | .close x => (w.sockets x).isSome
  | .destroy x => (w.sockets x).isSome
  | .accept result => w.New result
  | .otherOpens fd => w.New fd
  | .otherCloses fd => w.Unowned fd

/-- The valid descriptors passed to `close`. -/
def passed (w : World) : List (Int × Option Nat) := w.closes.filter (·.1 ≠ invalidSocket)

/-- No two objects own one valid descriptor, and what is owned is open. What is passed to `close`
has entered a `Socket` and stands for what it stood for then, and no descriptor that entered is
passed twice; when no object is left, each has been passed. -/
structure Sound (w : World) : Prop where
  alone : ∀ x y fd, w.sockets x = some fd → w.sockets y = some fd → fd ≠ invalidSocket → x = y
  live : ∀ x fd, w.sockets x = some fd → fd ≠ invalidSocket → (w.table fd).isSome
  named : ∀ e ∈ w.entered, e.2.isSome
  owned : ∀ e ∈ w.passed, e ∈ w.entered
  once : w.passed.Nodup ∧ w.entered.Nodup
  all : (∀ x, w.sockets x = none) → w.passed.Perm w.entered

/-! ### The objects as owners -/

/-- What a world is about: which object owns which valid descriptor, and what has become of them. -/
def holdings (w : World) : Holdings Nat Int Nat where
  held x := (w.sockets x).filter (· ≠ invalidSocket)
  table := w.table
  entered := w.entered
  released := w.passed

structure Kept (w : World) : Prop where
  holdings : w.holdings.Kept
  invalid : w.table invalidSocket = none
  files : ∀ fd file, w.table fd = some file → file < w.files
  entered : ∀ e ∈ w.entered, ∀ file, e.2 = some file → file < w.files

theorem held_eq_some {w : World} {x : Nat} {fd : Int} :
    w.holdings.held x = some fd ↔ w.sockets x = some fd ∧ fd ≠ invalidSocket := by
  rw [World.holdings, Option.filter_eq_some_iff, decide_eq_true_iff]

theorem Kept.sound {w : World} (h : w.Kept) : w.Sound where
  alone x y fd hx hy hfd :=
    h.holdings.alone x y fd (held_eq_some.mpr ⟨hx, hfd⟩) (held_eq_some.mpr ⟨hy, hfd⟩)
  live x fd hx hfd := (h.holdings.live x fd (held_eq_some.mpr ⟨hx, hfd⟩)).1
  named := h.holdings.named
  owned := h.holdings.owned
  once := ⟨h.holdings.released_nodup, h.holdings.entered_nodup⟩
  all hnone := h.holdings.released_perm fun x => by
    change (w.sockets x).filter _ = none
    rw [hnone x]
    rfl

theorem kept_start : start.Kept where
  holdings := Holdings.kept_start _
  invalid := rfl
  files fd file htable := by cases htable
  entered e he := absurd he List.not_mem_nil

theorem Kept.of_holdings {w w' : World} (h : w.Kept) (hholdings : w'.holdings.Kept)
    (htable : w'.table = w.table) (hfiles : w'.files = w.files)
    (hentered : w'.entered = w.entered) : w'.Kept where
  holdings := hholdings
  invalid := by rw [htable, h.invalid]
  files := by
    rw [htable, hfiles]
    exact h.files
  entered := by
    rw [hentered, hfiles]
    exact h.entered

/-! ### One operation of the operating system -/

theorem openFile_sockets (w : World) (fd : Int) : (w.openFile fd).sockets = w.sockets := by
  rw [World.openFile]
  split <;> rfl

theorem openFile_closes (w : World) (fd : Int) : (w.openFile fd).closes = w.closes := by
  rw [World.openFile]
  split <;> rfl

theorem openFile_returned (w : World) (fd : Int) : (w.openFile fd).returned = w.returned := by
  rw [World.openFile]
  split <;> rfl

theorem openFile_table (w : World) {fd : Int} (hfd : fd ≠ invalidSocket) :
    (w.openFile fd).table = Function.update w.table fd (some w.files) := by
  rw [World.openFile, if_neg hfd]

theorem Kept.openFile {w : World} (h : w.Kept) {fd : Int} (hnew : w.New fd) :
    (w.openFile fd).Kept := by
  rw [World.openFile]
  split_ifs with hfd
  · exact h
  · have hclosed : w.table fd = none := hnew.resolve_left hfd
    have hfree : ∀ y, w.holdings.held y ≠ some fd := by
      intro y hy
      have hlive := (h.holdings.live y fd hy).1
      rw [show w.holdings.table fd = none from hclosed] at hlive
      cases hlive
    have hfresh : ∀ e ∈ w.holdings.entered, e.2 ≠ some w.files := fun e he hfile =>
      Nat.lt_irrefl _ (h.entered e he w.files hfile)
    refine ⟨h.holdings.setName hfree hfresh, ?_, ?_, fun e he file hfile =>
      Nat.lt_succ_of_lt (h.entered e he file hfile)⟩
    · exact (Function.update_of_ne (Ne.symm hfd) _ _).trans h.invalid
    · intro l file hl
      change Function.update w.table fd (some w.files) l = some file at hl
      rw [Function.update_apply] at hl
      split_ifs at hl
      · obtain rfl := Option.some.inj hl
        exact Nat.lt_succ_self _
      · exact Nat.lt_succ_of_lt (h.files l file hl)

theorem Kept.osReturn {w : World} (h : w.Kept) {fd : Int} (hnew : w.New fd) :
    (w.osReturn fd).Kept :=
  (h.openFile hnew).of_holdings (h.openFile hnew).holdings rfl rfl rfl

theorem Kept.files_closed {w : World} (h : w.Kept) (fd l : Int) (file : Nat)
    (hl : Function.update w.table fd none l = some file) : file < w.files := by
  rw [Function.update_apply] at hl
  split_ifs at hl
  exact h.files l file hl

theorem Kept.closeFile {w : World} (h : w.Kept) {fd : Int} (hfree : w.Unowned fd) :
    (w.closeFile fd).Kept := by
  have hnobody : ∀ y, w.holdings.held y ≠ some fd := fun y hy => hfree y (held_eq_some.mp hy).1
  have hnamed : ∀ e ∈ w.holdings.entered, e.2 ≠ none := by
    intro e he hnone
    have hsome := h.holdings.named e he
    rw [hnone] at hsome
    cases hsome
  refine ⟨h.holdings.setName hnobody hnamed, ?_, h.files_closed fd, h.entered⟩
  change Function.update w.table fd none invalidSocket = none
  rw [Function.update_apply]
  split_ifs
  · rfl
  · exact h.invalid

/-! ### One member function -/

theorem assign_sockets (w : World) (x : Nat) (fd : Int) :
    (w.assign x fd).sockets = Function.update w.sockets x (some fd) := rfl

/-- Nothing is owned yet, so `open` closes nothing. -/
theorem construct_eq (w : World) (x : Nat) (result : Int) :
    w.construct x result = ((w.assign x invalidSocket).osReturn result).enter x result := by
  have hopened : (w.assign x invalidSocket).opened x = false := by
    rw [opened, socketDescriptor, assign_sockets, Function.update_self]
    rfl
  rw [construct, openSocket, closeIfOpened, hopened]
  rfl

theorem construct_closes (w : World) (x : Nat) (result : Int) :
    (w.construct x result).closes = w.closes := by
  rw [construct_eq]
  exact openFile_closes (w.assign x invalidSocket) result

theorem construct_returned (w : World) (x : Nat) (result : Int) :
    (w.construct x result).returned = w.returned ++ [result] := by
  rw [construct_eq]
  rfl

theorem closeIfOpened_returned (w : World) (x : Nat) :
    (w.closeIfOpened x).returned = w.returned := by
  rw [World.closeIfOpened]
  split <;> rfl

theorem assign_held (w : World) (x : Nat) (fd : Int) :
    (w.assign x fd).holdings.held =
      Function.update w.holdings.held x (if fd = invalidSocket then none else some fd) := by
  funext y
  change (Function.update w.sockets x (some fd) y).filter _ = _
  rw [Function.update_apply, Function.update_apply]
  split_ifs with hyx hfd
  · rw [hfd]
    rfl
  · exact Option.filter_some_pos (decide_eq_true hfd)
  · rfl

theorem held_eq_descriptor (w : World) (x : Nat) :
    w.holdings.held x = if w.socketDescriptor x = invalidSocket then
      none else some (w.socketDescriptor x) := by
  change (w.sockets x).filter _ = _
  rw [socketDescriptor]
  cases w.sockets x with
  | none => rfl
  | some fd =>
      rw [Option.getD_some]
      split_ifs with hfd
      · rw [hfd]
        rfl
      · exact Option.filter_some_pos (decide_eq_true hfd)

theorem descriptor_of_not_opened {w : World} {x : Nat} (hopened : ¬ w.opened x = true) :
    w.socketDescriptor x = invalidSocket := by
  rw [opened, decide_eq_true_iff] at hopened
  exact not_not.mp hopened

theorem closeIfOpened_of_invalid {w : World} {x : Nat} (hx : w.socketDescriptor x = invalidSocket) :
    w.closeIfOpened x = w := by
  have hopened : w.opened x = false := by
    rw [opened, hx]
    rfl
  rw [World.closeIfOpened, hopened]
  rfl

theorem descriptor_assign (w : World) (result : Int) (x : Nat) :
    (w.assign x result).socketDescriptor x = result := by
  rw [socketDescriptor, assign_sockets, Function.update_self, Option.getD_some]

theorem descriptor_assign_of_ne (w : World) (result : Int) {x y : Nat} (hxy : x ≠ y) :
    (w.assign y result).socketDescriptor x = w.socketDescriptor x := by
  rw [socketDescriptor, assign_sockets, Function.update_of_ne hxy, socketDescriptor]

theorem descriptor_construct (w : World) (result : Int) (x : Nat) :
    (w.construct x result).socketDescriptor x = result := by
  rw [construct_eq]
  exact descriptor_assign _ result x

theorem descriptor_closeIfOpened (w : World) (x : Nat) :
    (w.closeIfOpened x).socketDescriptor x = invalidSocket := by
  rw [World.closeIfOpened]
  split_ifs with hopened
  · exact descriptor_assign _ invalidSocket x
  · exact descriptor_of_not_opened hopened

theorem descriptor_closeIfOpened_of_ne (w : World) {x y : Nat} (hxy : x ≠ y) :
    (w.closeIfOpened y).socketDescriptor x = w.socketDescriptor x := by
  rw [World.closeIfOpened]
  split_ifs
  · exact descriptor_assign_of_ne _ invalidSocket hxy
  · rfl

theorem descriptor_moveAssign (w : World) {x s : Nat} (hxs : x ≠ s) :
    (w.moveAssign x s).socketDescriptor x = w.socketDescriptor s ∧
      (w.moveAssign x s).socketDescriptor s = invalidSocket := by
  rw [World.moveAssign, if_neg (Ne.symm hxs), swap]
  constructor
  · rw [descriptor_assign_of_ne _ _ hxs, descriptor_assign,
      descriptor_closeIfOpened_of_ne w (Ne.symm hxs)]
  · rw [descriptor_assign, descriptor_closeIfOpened]

theorem held_of_none {w : World} {x : Nat} (hx : w.sockets x = none) :
    w.holdings.held x = none := by
  rw [held_eq_descriptor, socketDescriptor, hx]
  rfl

theorem descriptor_of_held {w : World} {x : Nat} (hx : w.holdings.held x = none) :
    w.socketDescriptor x = invalidSocket := by
  by_contra hfd
  rw [held_eq_descriptor, if_neg hfd] at hx
  cases hx

theorem holdings_assign_invalid {w : World} {x : Nat} (hx : w.holdings.held x = none) :
    (w.assign x invalidSocket).holdings = w.holdings := by
  apply Holdings.ext
  · rw [assign_held, if_pos rfl, ← hx, Function.update_eq_self]
  · rfl
  · rfl
  · rfl

theorem Kept.closeIfOpened {w : World} (h : w.Kept) (x : Nat) :
    (w.closeIfOpened x).Kept ∧ (w.closeIfOpened x).holdings.held x = none := by
  rw [World.closeIfOpened]
  split_ifs with hopened
  · have hfd : w.socketDescriptor x ≠ invalidSocket := of_decide_eq_true hopened
    have hx : w.holdings.held x = some (w.socketDescriptor x) := by
      rw [held_eq_descriptor, if_neg hfd]
    have hclose : (w.close x).holdings = w.holdings.release x (w.socketDescriptor x) := by
      apply Holdings.ext
      · exact (assign_held _ x invalidSocket).trans (by rw [if_pos rfl]; rfl)
      · rfl
      · rfl
      · change (w.closes ++ [(w.socketDescriptor x, w.table (w.socketDescriptor x))]).filter _ = _
        rw [List.filter_append, List.filter_cons_of_pos (by simpa using hfd), List.filter_nil]
        rfl
    refine ⟨⟨?_, ?_, h.files_closed _, h.entered⟩, ?_⟩
    · rw [hclose]
      exact h.holdings.release hx
    · exact (Function.update_of_ne (Ne.symm hfd) _ _).trans h.invalid
    · rw [hclose, Holdings.release_held, Function.update_self]
  · exact ⟨h, by rw [held_eq_descriptor, if_pos (descriptor_of_not_opened hopened)]⟩

/-- `close` called on an object that owns nothing passes on `INVALID_SOCKET`, which is not open. -/
theorem Kept.close {w : World} (h : w.Kept) (x : Nat) : (w.close x).Kept := by
  by_cases hopened : w.opened x = true
  · have hclosed := (h.closeIfOpened x).1
    rwa [World.closeIfOpened, if_pos hopened] at hclosed
  · have hfd := descriptor_of_not_opened hopened
    have htable : Function.update w.table invalidSocket none = w.table := by
      rw [← h.invalid, Function.update_eq_self]
    refine h.of_holdings ?_ (by rw [World.close, hfd]; exact htable) rfl rfl
    have hsame : (w.close x).holdings = w.holdings := by
      apply Holdings.ext
      · rw [World.close, assign_held, if_pos rfl]
        change Function.update w.holdings.held x none = _
        rw [show (none : Option Int) = w.holdings.held x by rw [held_eq_descriptor, if_pos hfd],
          Function.update_eq_self]
      · rw [World.close, hfd]
        exact htable
      · rfl
      · change (w.closes ++ [(w.socketDescriptor x, w.table (w.socketDescriptor x))]).filter _ =
          w.passed
        rw [List.filter_append, hfd, List.filter_cons_of_neg (by simp), List.filter_nil,
          List.append_nil]
        rfl
    rw [hsame]
    exact h.holdings

theorem enter_entered (w : World) (x : Nat) (fd : Int) : (w.enter x fd).entered =
    if fd = invalidSocket then w.entered else w.entered ++ [(fd, w.table fd)] := rfl

theorem Kept.enter {w : World} (h : w.Kept) {x : Nat} {fd : Int} (hx : w.holdings.held x = none)
    (hfd : fd = invalidSocket ∨ ((w.table fd).isSome ∧ w.Unowned fd)) : (w.enter x fd).Kept := by
  by_cases hvalid : fd = invalidSocket
  · subst hvalid
    have hentered : (w.enter x invalidSocket).entered = w.entered := by
      rw [enter_entered, if_pos rfl]
    refine h.of_holdings ?_ rfl rfl hentered
    have hsame : (w.enter x invalidSocket).holdings = (w.assign x invalidSocket).holdings := by
      apply Holdings.ext
      · rfl
      · rfl
      · exact hentered
      · rfl
    rw [hsame, holdings_assign_invalid hx]
    exact h.holdings
  · obtain ⟨hopen, hfree⟩ := hfd.resolve_left hvalid
    have henter : (w.enter x fd).holdings = w.holdings.acquire x fd := by
      apply Holdings.ext
      · exact (assign_held w x fd).trans (by rw [if_neg hvalid]; rfl)
      · rfl
      · exact (enter_entered w x fd).trans (if_neg hvalid)
      · rfl
    refine ⟨?_, h.invalid, h.files, ?_⟩
    · rw [henter]
      exact h.holdings.acquire hx hopen fun y hy => hfree y (held_eq_some.mp hy).1
    · intro e he file hfile
      rw [enter_entered, if_neg hvalid] at he
      rcases List.mem_append.mp he with he | he
      · exact h.entered e he file hfile
      · obtain rfl := List.mem_singleton.mp he
        exact h.files fd file hfile

theorem Kept.take {w : World} (h : w.Kept) {x s : Nat} (hxs : x ≠ s)
    (hx : w.holdings.held x = none) :
    ((w.assign x (w.socketDescriptor s)).assign s invalidSocket).Kept := by
  refine h.of_holdings ?_ rfl rfl rfl
  have hpass : ((w.assign x (w.socketDescriptor s)).assign s invalidSocket).holdings =
      w.holdings.pass s x := by
    apply Holdings.ext
    · rw [assign_held, assign_held, if_pos rfl, ← held_eq_descriptor]
      rfl
    · rfl
    · rfl
    · rfl
  rw [hpass]
  exact h.holdings.pass hxs hx

/-! ### Runs -/

private theorem Kept.construct {w : World} (h : w.Kept) {x : Nat} {result : Int}
    (hx : w.sockets x = none) (hnew : w.New result) : (w.construct x result).Kept := by
  have hheld := held_of_none hx
  have hsame := holdings_assign_invalid hheld
  have hassign : (w.assign x invalidSocket).Kept := by
    refine h.of_holdings ?_ rfl rfl rfl
    rw [hsame]
    exact h.holdings
  rw [construct_eq]
  apply (hassign.osReturn hnew).enter
  · change (((w.assign x invalidSocket).openFile result).sockets x).filter _ = none
    rw [openFile_sockets]
    exact (congrFun (congrArg Holdings.held hsame) x).trans hheld
  · by_cases hvalid : result = invalidSocket
    · exact Or.inl hvalid
    · refine Or.inr ⟨?_, fun y hy => ?_⟩
      · change (((w.assign x invalidSocket).openFile result).table result).isSome
        rw [openFile_table _ hvalid, Function.update_self]
        rfl
      · change ((w.assign x invalidSocket).openFile result).sockets y = some result at hy
        rw [openFile_sockets] at hy
        have hlive := (hassign.holdings.live y result (held_eq_some.mpr ⟨hy, hvalid⟩)).1
        have htable : (w.assign x invalidSocket).holdings.table result = none :=
          hnew.resolve_left hvalid
        rw [htable] at hlive
        cases hlive

private theorem Kept.moveConstruct {w : World} (h : w.Kept) {x t : Nat} (hx : w.sockets x = none)
    (ht : (w.sockets t).isSome) : (w.moveConstruct x t).Kept := by
  have hxt : x ≠ t := by
    intro heq
    rw [← heq, hx] at ht
    cases ht
  exact h.take hxt (held_of_none hx)

private theorem Kept.moveAssign {w : World} (h : w.Kept) (x t : Nat) : (w.moveAssign x t).Kept := by
  rw [World.moveAssign]
  split_ifs with hsame
  · exact h
  · obtain ⟨hkept, hx⟩ := h.closeIfOpened x
    rw [swap, descriptor_of_held hx]
    exact hkept.take (Ne.symm hsame) hx

private theorem Kept.destroy {w : World} (h : w.Kept) (x : Nat) : (w.destroy x).Kept := by
  obtain ⟨hkept, hx⟩ := h.closeIfOpened x
  refine hkept.of_holdings ?_ rfl rfl rfl
  have hgone : (w.destroy x).holdings = (w.closeIfOpened x).holdings := by
    apply Holdings.ext
    · funext y
      change (Function.update (w.closeIfOpened x).sockets x none y).filter _ = _
      rw [Function.update_apply]
      split_ifs with hyx
      · rw [hyx, hx]
        rfl
      · rfl
    · rfl
    · rfl
    · rfl
  rw [hgone]
  exact hkept.holdings

theorem Kept.apply {w : World} (h : w.Kept) {op : Op} (hop : w.Allowed op) : (w.apply op).Kept := by
  cases op with
  | construct x result => exact h.construct hop.1 hop.2
  | adopt x fd => exact h.enter (held_of_none hop.1) hop.2
  | moveConstruct x t => exact h.moveConstruct hop.1 hop.2
  | moveAssign x t => exact h.moveAssign x t
  | close x => exact h.close x
  | destroy x => exact h.destroy x
  | accept result => exact h.osReturn hop
  | otherOpens fd => exact h.openFile hop
  | otherCloses fd => exact h.closeFile hop

/-- **Socket ownership.** In every state of every run whose operations are allowed, no two objects
own one descriptor, what is owned is open, and `close` is passed what has entered, each once and as
long as it stands for what it stood for then. -/
theorem sound_always (ops : List Op) (hops : Runs.Along step Allowed start ops) :
    Runs.Always step Sound start ops := by
  refine Runs.Always.mono (fun w h => Kept.sound h) (Runs.always_of_along ?_ kept_start hops)
  intro w op w' hkept hallowed hstep
  obtain rfl := Option.some.inj hstep
  exact hkept.apply hallowed

def reuse : List Op :=
  [.otherOpens 0, .construct 1 3, .adopt 2 0, .moveAssign 2 1, .otherOpens 0,
    .destroy 1, .destroy 2]

theorem sound_always_reuse :
    Runs.Always step Sound start reuse ∧
      (Runs.final step start reuse).closes = [(0, some 0), (3, some 1)] ∧
      (Runs.final step start reuse).table 0 = some 2 := by
  refine ⟨sound_always reuse ?_, rfl, rfl⟩
  refine .cons rfl (Or.inr rfl) (.cons rfl ⟨rfl, Or.inr rfl⟩ (.cons rfl ⟨rfl, Or.inr ⟨rfl, ?_⟩⟩ (.cons rfl ⟨rfl, rfl⟩
    (.cons rfl (Or.inr rfl) (.cons rfl rfl (.cons rfl rfl trivial))))))
  intro x hx
  change Function.update (Function.update (fun _ => none) 1 (some invalidSocket)) 1 (some (3 : Int))
    x = some 0 at hx
  rw [Function.update_idem, Function.update_apply] at hx
  split_ifs at hx
  cases hx

end World

end NetworkHomework.SocketWrapper
