import NetworkHomework.Base.Conversions
import NetworkHomework.SocketWrapper.Socket
import NetworkHomework.TcpEcho.Communicate

/-!
# The descriptors the TCP programs close

What `main` of the client and of the server do with their `Socket` objects, in order. Both
initialise a `Socket` that has nothing to own yet with `{ 0 }`, which is a valid descriptor,
standard input; the next move assignment, or the destructor, closes it. `closes_own_iff` says when
the programs close only what `socket` or `accept` has returned to them.
-/

namespace NetworkHomework.TcpEcho

open SocketWrapper SocketWrapper.World

/-! ### The programs -/

/-- The objects: the two variables and the temporary of an assignment. -/
def sock : Nat := 0

def newsock : Nat := 1

def temporary : Nat := 2

/-- `x = {...}`: a temporary is constructed, moved from and destroyed. -/
def assignTemporary (x : Nat) (construction : Op) : List Op :=
  [construction, .moveAssign x temporary, .destroy temporary]

/-- What `socket` and `connect` return for an address. -/
structure AddrInfo where
  socket : Int
  connect : Int

/-- What the client's system calls return, and the addresses `getaddrinfo` delivers. -/
structure ClientEnv where
  getaddrinfo : Int
  servInfo : List AddrInfo
  ioctl : Int
  setsockopt : Int

/-- From the loop's end on. The loop that talks to the server is not left: `send_request` returns
true whenever it returns. -/
def ClientEnv.talk (env : ClientEnv) : List Op :=
  if env.ioctl < 0 then [.destroy sock]
  else if env.setsockopt < 0 then [.destroy sock]
  else []

/-- The loop over the addresses, which each branch of its body leaves. -/
def ClientEnv.connectLoop (env : ClientEnv) : List AddrInfo → List Op
  | [] => env.talk
  | ai :: _ =>
      assignTemporary sock (.construct temporary ai.socket) ++
        if ai.socket = invalidSocket then [.destroy sock]
        else if ai.connect ≠ 0 then [.destroy sock]
        else env.talk

def clientMain (env : ClientEnv) : List Op :=
  .adopt sock 0 ::
    if env.getaddrinfo < 0 then [.destroy sock]
    else env.connectLoop env.servInfo

/-- What `accept` returns, and what `send` and `recv` do on the connection. -/
structure Accepted where
  result : Int
  sends : List SendResult
  recvs : List RecvResult

structure ServerEnv where
  argv : List (List UInt8)
  socket : Int
  bind : Int
  accepts : List Accepted

/-- `communicate` returns true if it returns. -/
def Conversation.result (c : Conversation) : Option Bool :=
  if c.ending = .returned then some true else none

/-- `while (!exit_state)`, up to and with the destruction of the two objects. -/
def acceptLoop (buffer : Buffer) : List Accepted → List Op
  | [] => []
  | accepted :: accepts =>
      let c := communicate buffer accepted.sends accepted.recvs
      .accept accepted.result :: assignTemporary newsock (.adopt temporary accepted.result) ++
        if accepted.result = invalidSocket then [.destroy newsock, .destroy sock]
        else
          match c.result with
          | none => []
          | some true => [.destroy newsock, .destroy sock]
          | some false => acceptLoop c.buffer accepts

def serverMain (env : ServerEnv) : List Op :=
  match env.argv with
  | [_, port] =>
      .construct sock env.socket ::
        match Conversions.stoi port with
        -- nobody catches what `stoi` throws, so nothing is destroyed
        | none => []
        | some _ =>
            if env.socket = invalidSocket then [.destroy sock]
            else if env.bind ≠ 0 then [.destroy sock]
            else .adopt newsock 0 :: acceptLoop zeros env.accepts
  | _ => []

/-! ### Closing one's own descriptors only -/

/-- What has been closed through a `Socket` had been returned by `socket` or `accept`. -/
def OnlyOwn (w : World) : Prop := ∀ e ∈ w.closes, e.1 ∈ w.returned

/-- What has been closed or is owned has been returned, or is one of `others`, which the program has
from elsewhere. -/
structure Own (others : List Int) (w : World) : Prop where
  closes : ∀ e ∈ w.closes, e.1 ∈ others ++ w.returned
  owns : ∀ x fd, w.sockets x = some fd → fd ≠ invalidSocket → fd ∈ others ++ w.returned

/-- An operation that stores in an object only what has been returned or is one of `others`, and
closes only what is owned. -/
def KeepsOwn (others : List Int) (w : World) : Op → Prop
  | .adopt _ fd => fd = invalidSocket ∨ fd ∈ others ++ w.returned
  | .close x => w.opened x = true
  | _ => True

section

variable {others : List Int} {w : World}

theorem Own.closeIfOpened (h : Own others w) (x : Nat) : Own others (w.closeIfOpened x) := by
  rw [World.closeIfOpened]
  split_ifs with hopened
  · have hfd : w.socketDescriptor x ≠ invalidSocket := of_decide_eq_true hopened
    have hx : w.sockets x = some (w.socketDescriptor x) := by
      rw [socketDescriptor] at hfd ⊢
      cases hsocket : w.sockets x with
      | none =>
          rw [hsocket] at hfd
          exact absurd rfl hfd
      | some fd => rfl
    refine ⟨fun e he => ?_, fun y fd hy hvalid => ?_⟩
    · rcases List.mem_append.mp he with he | he
      · exact h.closes e he
      · obtain rfl := List.mem_singleton.mp he
        exact h.owns x _ hx hfd
    · change Function.update w.sockets x (some invalidSocket) y = some fd at hy
      rw [Function.update_apply] at hy
      split_ifs at hy
      · exact absurd (Option.some.inj hy).symm hvalid
      · exact h.owns y fd hy hvalid
  · exact h

theorem Own.assign (h : Own others w) (x : Nat) {fd : Int}
    (hfd : fd = invalidSocket ∨ fd ∈ others ++ w.returned) :
    Own others (w.assign x fd) := by
  refine ⟨h.closes, fun y l hy hvalid => ?_⟩
  rw [assign_sockets, Function.update_apply] at hy
  split_ifs at hy
  · obtain rfl := Option.some.inj hy
    exact hfd.resolve_left hvalid
  · exact h.owns y l hy hvalid

theorem Own.enter (h : Own others w) (x : Nat) {fd : Int}
    (hfd : fd = invalidSocket ∨ fd ∈ others ++ w.returned) :
    Own others (w.enter x fd) := ⟨(h.assign x hfd).closes, (h.assign x hfd).owns⟩

theorem Own.openFile (h : Own others w) (fd : Int) : Own others (w.openFile fd) := by
  refine ⟨?_, ?_⟩
  · rw [openFile_closes, openFile_returned]
    exact h.closes
  · rw [openFile_sockets, openFile_returned]
    exact h.owns

theorem Own.osReturn (h : Own others w) (fd : Int) : Own others (w.osReturn fd) := by
  obtain ⟨hcloses, howns⟩ := h.openFile fd
  rw [openFile_returned] at hcloses howns
  have hmore : (w.osReturn fd).returned = w.returned ++ [fd] := rfl
  refine ⟨fun e he => ?_, fun y l hy hvalid => ?_⟩
  · rw [hmore, ← List.append_assoc]
    exact List.mem_append_left _ (hcloses e he)
  · rw [hmore, ← List.append_assoc]
    exact List.mem_append_left _ (howns y l hy hvalid)

theorem Own.descriptor (h : Own others w) (x : Nat) :
    w.socketDescriptor x = invalidSocket ∨ w.socketDescriptor x ∈ others ++ w.returned := by
  rw [or_iff_not_imp_left, socketDescriptor]
  cases hx : w.sockets x with
  | none => exact fun hvalid => absurd rfl hvalid
  | some fd => exact h.owns x fd hx

theorem Own.apply (h : Own others w) {op : Op} (hop : KeepsOwn others w op) :
    Own others (w.apply op) := by
  cases op with
  | construct x result =>
      change Own others (w.construct x result)
      rw [construct_eq]
      apply ((h.assign x (Or.inl rfl)).osReturn result).enter
      exact Or.inr (List.mem_append_right _ (List.mem_append_right _ List.mem_cons_self))
  | adopt x fd => exact h.enter x hop
  | moveConstruct x s => exact (h.assign x (h.descriptor s)).assign s (Or.inl rfl)
  | moveAssign x s =>
      change Own others (w.moveAssign x s)
      rw [World.moveAssign]
      split_ifs
      · exact h
      · have hclosed := h.closeIfOpened x
        exact (hclosed.assign x (hclosed.descriptor s)).assign s (hclosed.descriptor x)
  | close x =>
      have hclosed := h.closeIfOpened x
      rwa [World.closeIfOpened, if_pos (show w.opened x = true from hop)] at hclosed
  | destroy x =>
      obtain ⟨hcloses, howns⟩ := h.closeIfOpened x
      refine ⟨hcloses, fun y l hy hvalid => ?_⟩
      change Function.update (w.closeIfOpened x).sockets x none y = some l at hy
      rw [Function.update_apply] at hy
      split_ifs at hy
      exact howns y l hy hvalid
  | accept result => exact h.osReturn result
  | otherOpens fd => exact h.openFile fd
  | otherCloses fd => exact ⟨h.closes, h.owns⟩

theorem Own.onlyOwn (h : Own others w) (hothers : ∀ fd ∈ others, fd ∈ w.returned) : OnlyOwn w := by
  intro e he
  rcases List.mem_append.mp (h.closes e he) with hother | hreturned
  · exact hothers e.1 hother
  · exact hreturned

theorem mem_returned_apply {fd : Int} (hfd : fd ∈ w.returned) (op : Op) :
    fd ∈ (w.apply op).returned := by
  cases op with
  | construct x result =>
      change fd ∈ (w.construct x result).returned
      rw [construct_returned]
      exact List.mem_append_left _ hfd
  | moveAssign x s =>
      change fd ∈ (w.moveAssign x s).returned
      rw [World.moveAssign]
      split_ifs
      · exact hfd
      · exact (closeIfOpened_returned w x).symm ▸ hfd
  | destroy x => exact (closeIfOpened_returned w x).symm ▸ hfd
  | accept result => exact List.mem_append_left _ hfd
  | otherOpens fd' => exact (openFile_returned w fd').symm ▸ hfd
  | adopt x fd' => exact hfd
  | moveConstruct x s => exact hfd
  | close x => exact hfd
  | otherCloses fd' => exact hfd

/-- When all of `others` have been returned, what is closed from then on is the program's own. -/
theorem Own.always (h : Own others w) (hothers : ∀ fd ∈ others, fd ∈ w.returned) {ops : List Op}
    (hops : Runs.Along step (KeepsOwn others) w ops) : Runs.Always step OnlyOwn w ops := by
  refine Runs.Always.mono (I := fun w => Own others w ∧ ∀ fd ∈ others, fd ∈ w.returned)
    (fun w h => h.1.onlyOwn h.2) (Runs.always_of_along ?_ ⟨h, hothers⟩ hops)
  rintro w op w' ⟨hown, hall⟩ hop hstep
  obtain rfl := Option.some.inj hstep
  exact ⟨hown.apply hop, fun fd hfd => mem_returned_apply (hall fd hfd) op⟩

end

/-- An operation that stores nothing from outside, and closes nothing that is not owned. -/
def Plain : Op → Prop
  | .adopt _ _ | .close _ => False
  | _ => True

theorem along_of_plain (others : List Int) (w : World) {ops : List Op}
    (hops : ∀ op ∈ ops, Plain op) :
    Runs.Along step (KeepsOwn others) w ops := by
  induction ops generalizing w with
  | nil => trivial
  | cons op ops ih =>
      obtain ⟨hop, hrest⟩ := List.forall_mem_cons.mp hops
      refine Runs.Along.cons rfl ?_ (ih (w.apply op) hrest)
      cases op with
      | adopt x fd => exact absurd hop id
      | close x => exact absurd hop id
      | _ => trivial

theorem always_cons_iff {w : World} {op : Op} {ops : List Op} :
    Runs.Always step OnlyOwn w (op :: ops) ↔
    OnlyOwn w ∧ Runs.Always step OnlyOwn (w.apply op) ops :=
  Runs.always_cons_iff rfl

/-! ### The placeholder -/

/-- An object holds the placeholder, and nothing has been closed. -/
structure Placeholder (w : World) (x : Nat) : Prop where
  sockets : w.sockets x = some 0
  closes : w.closes = []

theorem onlyOwn_of_nil {w : World} (hcloses : w.closes = []) : OnlyOwn w := by
  rw [OnlyOwn, hcloses]
  exact fun e he => absurd he List.not_mem_nil

theorem placeholder_adopt {w : World} (x : Nat) (hcloses : w.closes = []) :
    Placeholder (w.apply (.adopt x 0)) x := ⟨Function.update_self .., hcloses⟩

theorem Placeholder.construct {w : World} {x y : Nat} (h : Placeholder w x) (hxy : x ≠ y)
    (result : Int) :
    Placeholder (w.apply (.construct y result)) x := by
  refine ⟨?_, (construct_closes w y result).trans h.closes⟩
  change (w.construct y result).sockets x = some 0
  rw [construct_eq]
  change Function.update ((w.assign y invalidSocket).openFile result).sockets y (some result) x =
    some 0
  rw [Function.update_of_ne hxy, openFile_sockets, assign_sockets, Function.update_of_ne hxy]
  exact h.sockets

theorem Placeholder.adopt {w : World} {x y : Nat} (h : Placeholder w x) (hxy : x ≠ y) (fd : Int) :
    Placeholder (w.apply (.adopt y fd)) x :=
  ⟨(Function.update_of_ne hxy _ _).trans h.sockets, h.closes⟩

theorem Placeholder.accept {w : World} {x : Nat} (h : Placeholder w x) (result : Int) :
    Placeholder (w.apply (.accept result)) x :=
  ⟨(congrFun (openFile_sockets w result) x).trans h.sockets,
    (openFile_closes w result).trans h.closes⟩

theorem Placeholder.descriptor {w : World} {x : Nat} (h : Placeholder w x) :
    w.socketDescriptor x = 0 := by
  rw [socketDescriptor, h.sockets, Option.getD_some]

theorem Placeholder.closeIfOpened_eq {w : World} {x : Nat} (h : Placeholder w x) :
    w.closeIfOpened x = w.close x := by
  have hopened : w.opened x = true := by
    rw [opened, h.descriptor]
    rfl
  rw [World.closeIfOpened, if_pos hopened]

theorem Placeholder.closeIfOpened {w : World} {x : Nat} (h : Placeholder w x) :
    (0, w.table 0) ∈ (w.closeIfOpened x).closes ∧ (w.closeIfOpened x).returned = w.returned := by
  rw [h.closeIfOpened_eq]
  refine ⟨?_, rfl⟩
  change (0, w.table 0) ∈ w.closes ++ [(w.socketDescriptor x, w.table (w.socketDescriptor x))]
  rw [h.descriptor]
  exact List.mem_append_right _ List.mem_cons_self

theorem Placeholder.not_onlyOwn {w : World} {x : Nat} (h : Placeholder w x)
    (hzero : (0 : Int) ∉ w.returned) :
    ¬ OnlyOwn (w.closeIfOpened x) := by
  obtain ⟨hclosed, hreturned⟩ := h.closeIfOpened
  intro hown
  apply hzero
  rw [← hreturned]
  exact hown _ hclosed

theorem Placeholder.not_always_destroy {w : World} {x : Nat} (h : Placeholder w x)
    (hzero : (0 : Int) ∉ w.returned) (ops : List Op) :
    ¬ Runs.Always step OnlyOwn w (.destroy x :: ops) := by
  rw [always_cons_iff]
  exact fun hall => h.not_onlyOwn hzero hall.2.head

theorem Placeholder.not_always_moveAssign {w : World} {x s : Nat} (h : Placeholder w x)
    (hsx : s ≠ x) (hzero : (0 : Int) ∉ w.returned) (ops : List Op) :
    ¬ Runs.Always step OnlyOwn w (.moveAssign x s :: ops) := by
  rw [always_cons_iff]
  intro hall
  apply h.not_onlyOwn hzero
  have hhead : OnlyOwn (w.moveAssign x s) := hall.2.head
  rw [World.moveAssign, if_neg hsx] at hhead
  exact hhead

/-! ### The two programs -/

def begun (table : Int → Option Nat) : World := { start with table := table }

theorem own_begun (others : List Int) (table : Int → Option Nat) : Own others (begun table) :=
  ⟨fun e he => absurd he List.not_mem_nil, fun x fd hx => by cases hx⟩

/-- The client resolves the host, and the first `socket` returns the placeholder; or there is no
address and nothing makes it leave its last loop. -/
def ClientEnv.ClosesOwn (env : ClientEnv) : Prop :=
  0 ≤ env.getaddrinfo ∧
    match env.servInfo with
    | [] => 0 ≤ env.ioctl ∧ 0 ≤ env.setsockopt
    | ai :: _ => ai.socket = 0

/-- The server does not get as far as a connection, or `socket` or the first `accept` returns the
placeholder. -/
def ServerEnv.ClosesOwn (env : ServerEnv) : Prop :=
  (∀ name port, env.argv = [name, port] → Conversions.stoi port = none) ∨
  env.socket = invalidSocket ∨ env.bind ≠ 0 ∨
    env.socket = 0 ∨ ∀ accepted ∈ env.accepts.head?, accepted.result = 0

theorem plain_talk (env : ClientEnv) : ∀ op ∈ env.talk, Plain op := by
  rw [ClientEnv.talk]
  split_ifs <;> simp [Plain]

theorem plain_behind_connect (env : ClientEnv) (ai : AddrInfo) :
    ∀ op ∈ if ai.socket = invalidSocket then [Op.destroy sock]
      else if ai.connect ≠ 0 then [Op.destroy sock] else env.talk, Plain op := by
  split_ifs
  · simp [Plain]
  · simp [Plain]
  · exact plain_talk env

/-- The first assignment to the placeholder has it closed, and that is a descriptor of the program's
own exactly if `socket` has just returned it. -/
theorem connectLoop_iff (table : Int → Option Nat) (env : ClientEnv) (ai : AddrInfo)
    (more : List AddrInfo) :
    Runs.Always step OnlyOwn ((begun table).apply (.adopt sock 0)) (env.connectLoop (ai :: more)) ↔
      ai.socket = 0 := by
  have hplace : Placeholder ((begun table).apply (.adopt sock 0)) sock := placeholder_adopt sock rfl
  have hconstruct := hplace.construct (y := temporary) (by decide) ai.socket
  have hreturned :
      (((begun table).apply (.adopt sock 0)).apply (.construct temporary ai.socket)).returned =
      [ai.socket] := construct_returned _ temporary ai.socket
  rw [ClientEnv.connectLoop, assignTemporary, List.cons_append, List.cons_append, List.cons_append,
    List.nil_append, always_cons_iff, and_iff_right (onlyOwn_of_nil hplace.closes)]
  by_cases hsocket : ai.socket = 0
  · refine iff_of_true ?_ hsocket
    have hadopt : KeepsOwn [0] (begun table) (.adopt sock 0) := Or.inr List.mem_cons_self
    have hown : Own [0] (((begun table).apply (.adopt sock 0)).apply (.construct temporary ai.socket)) :=
      ((own_begun [0] table).apply hadopt).apply trivial
    refine hown.always ?_ (along_of_plain _ _ ?_)
    · rw [hreturned, hsocket]
      exact fun fd hfd => hfd
    · rw [List.forall_mem_cons, List.forall_mem_cons]
      exact ⟨trivial, trivial, plain_behind_connect env ai⟩
  · refine iff_of_false (hconstruct.not_always_moveAssign (by decide) ?_ _) hsocket
    rw [hreturned, List.mem_singleton]
    exact Ne.symm hsocket

theorem client_iff (table : Int → Option Nat) (env : ClientEnv) :
    Runs.Always step OnlyOwn (begun table) (clientMain env) ↔ env.ClosesOwn := by
  have hplace : Placeholder ((begun table).apply (.adopt sock 0)) sock := placeholder_adopt sock rfl
  have hzero : (0 : Int) ∉ ((begun table).apply (.adopt sock 0)).returned := List.not_mem_nil
  rw [clientMain, always_cons_iff, and_iff_right (onlyOwn_of_nil rfl), ClientEnv.ClosesOwn]
  by_cases hresolved : env.getaddrinfo < 0
  · rw [if_pos hresolved]
    exact iff_of_false (hplace.not_always_destroy hzero []) (by omega)
  · rw [if_neg hresolved, and_iff_right (by omega)]
    cases env.servInfo with
    | cons ai more => exact connectLoop_iff table env ai more
    | nil =>
        rw [ClientEnv.connectLoop, ClientEnv.talk]
        split_ifs with hioctl hsetsockopt
        · exact iff_of_false (hplace.not_always_destroy hzero []) (by omega)
        · exact iff_of_false (hplace.not_always_destroy hzero []) (by omega)
        · exact iff_of_true (onlyOwn_of_nil hplace.closes) (by omega)

theorem plain_acceptLoop (buffer : Buffer) (accepted : Accepted) (accepts : List Accepted) :
    ∃ ops, acceptLoop buffer (accepted :: accepts) =
        .accept accepted.result :: .adopt temporary accepted.result :: .moveAssign newsock
          temporary :: ops ∧
      ∀ op ∈ ops, Plain op := by
  refine ⟨_, rfl, ?_⟩
  change ∀ op ∈ .destroy temporary :: _, Plain op
  rw [List.forall_mem_cons]
  refine ⟨trivial, ?_⟩
  split
  · simp [Plain]
  · split
    · exact fun op hop => absurd hop List.not_mem_nil
    · simp [Plain]
    · next hfalse =>
        rw [Conversation.result] at hfalse
        split_ifs at hfalse
        cases hfalse

def listening (table : Int → Option Nat) (socket : Int) : World :=
  ((begun table).apply (.construct sock socket)).apply (.adopt newsock 0)

theorem placeholder_listening (table : Int → Option Nat) (socket : Int) :
    Placeholder (listening table socket) newsock :=
  placeholder_adopt newsock (construct_closes _ sock socket)

theorem own_listening (table : Int → Option Nat) (socket : Int) :
    Own [0] (listening table socket) := by
  have hconstruct : KeepsOwn [0] (begun table) (.construct sock socket) := trivial
  exact ((own_begun [0] table).apply hconstruct).enter newsock (Or.inr List.mem_cons_self)

theorem acceptLoop_iff (table : Int → Option Nat) (socket : Int) (accepts : List Accepted) :
    Runs.Always step OnlyOwn (listening table socket) (acceptLoop zeros accepts) ↔
      socket = 0 ∨ ∀ accepted ∈ accepts.head?, accepted.result = 0 := by
  have hplace := placeholder_listening table socket
  cases accepts with
  | nil =>
      refine iff_of_true (onlyOwn_of_nil hplace.closes) (Or.inr fun accepted h => ?_)
      cases h
  | cons accepted accepts =>
      obtain ⟨ops, hloop, hplain⟩ := plain_acceptLoop zeros accepted accepts
      have hreturned : ((listening table socket).apply (.accept accepted.result)).returned =
          [socket, accepted.result] := by
        change ((begun table).construct sock socket).returned ++ [accepted.result] = _
        rw [construct_returned]
        rfl
      rw [hloop, always_cons_iff, and_iff_right (onlyOwn_of_nil hplace.closes)]
      simp only [List.head?_cons, Option.mem_def, Option.some.injEq, forall_eq']
      by_cases hzero : socket = 0 ∨ accepted.result = 0
      · refine iff_of_true ?_ hzero
        have hown : Own [0] ((listening table socket).apply (.accept accepted.result)) :=
          (own_listening table socket).osReturn accepted.result
        refine hown.always ?_ (.cons rfl ?_ (along_of_plain _ _ (List.forall_mem_cons.mpr ⟨trivial, hplain⟩)))
        · rw [hreturned, List.forall_mem_singleton, List.mem_cons, List.mem_singleton]
          exact hzero.imp Eq.symm Eq.symm
        · refine Or.inr (List.mem_append_right _ ?_)
          rw [hreturned]
          exact List.mem_cons_of_mem _ List.mem_cons_self
      · refine iff_of_false ?_ hzero
        rw [always_cons_iff]
        intro hall
        have htemporary : Placeholder
            (((listening table socket).apply (.accept accepted.result)).apply (.adopt temporary accepted.result))
            newsock := (hplace.accept accepted.result).adopt (by decide) accepted.result
        refine htemporary.not_always_moveAssign (by decide) ?_ ops hall.2
        change (0 : Int) ∉ ((listening table socket).apply (.accept accepted.result)).returned
        rw [hreturned, List.mem_cons, List.mem_singleton]
        exact fun h => hzero (h.imp Eq.symm Eq.symm)

theorem server_iff (table : Int → Option Nat) (env : ServerEnv) :
    Runs.Always step OnlyOwn (begun table) (serverMain env) ↔ env.ClosesOwn := by
  rw [serverMain, ServerEnv.ClosesOwn]
  split
  · next name port hargv =>
      have hargs : (∀ name port, env.argv = [name, port] → Conversions.stoi port = none) ↔
          Conversions.stoi port = none := by
        refine ⟨fun h => h name port hargv, fun h name' port' hargv' => ?_⟩
        rw [hargv] at hargv'
        cases hargv'
        exact h
      have hstops : ∀ ops, (∀ op ∈ ops, Plain op) →
          Runs.Always step OnlyOwn (begun table) (.construct sock env.socket :: ops) := fun ops hops =>
        (own_begun [] table).always (fun fd hfd => absurd hfd List.not_mem_nil)
          (along_of_plain _ _ (List.forall_mem_cons.mpr ⟨trivial, hops⟩))
      rw [hargs]
      cases hport : Conversions.stoi port with
      | none => exact iff_of_true (hstops [] fun op hop => absurd hop List.not_mem_nil) (Or.inl rfl)
      | some number =>
          dsimp only
          split_ifs with hsocket hbind
          · exact iff_of_true (hstops _ (by simp [Plain])) (Or.inr (Or.inl hsocket))
          · exact iff_of_true (hstops _ (by simp [Plain])) (Or.inr (Or.inr (Or.inl hbind)))
          · have hcloses : ((begun table).apply (.construct sock env.socket)).closes = [] :=
              construct_closes (begun table) sock env.socket
            rw [always_cons_iff, and_iff_right (onlyOwn_of_nil rfl), always_cons_iff,
              and_iff_right (onlyOwn_of_nil hcloses)]
            simp only [hsocket, hbind, false_or]
            exact acceptLoop_iff table env.socket env.accepts
  · next hargv =>
      refine iff_of_true (onlyOwn_of_nil rfl) (Or.inl fun name port h => ?_)
      exact absurd h (hargv name port)

/-- The client comes to its last loop, in which it reads lines from standard input. -/
structure ClientEnv.Reads (env : ClientEnv) : Prop where
  resolved : 0 ≤ env.getaddrinfo
  connected : ∀ ai ∈ env.servInfo.head?, ai.socket ≠ invalidSocket ∧ ai.connect = 0
  ready : 0 ≤ env.ioctl ∧ 0 ≤ env.setsockopt

theorem ClientEnv.Reads.talk {env : ClientEnv} (h : env.Reads) : env.talk = [] := by
  rw [ClientEnv.talk, if_neg (by have := h.ready.1; omega), if_neg (by have := h.ready.2; omega)]

theorem Placeholder.table_moveAssign {w : World} {x s : Nat} (h : Placeholder w x) (hsx : s ≠ x) :
    ((w.moveAssign x s).destroy s).table 0 = none := by
  obtain ⟨-, hs⟩ := descriptor_moveAssign w (Ne.symm hsx)
  change ((w.moveAssign x s).closeIfOpened s).table 0 = none
  rw [closeIfOpened_of_invalid hs, World.moveAssign, if_neg hsx, h.closeIfOpened_eq]
  change Function.update w.table (w.socketDescriptor x) none 0 = none
  rw [h.descriptor, Function.update_self]

/-- While the client reads lines, standard input is open exactly if it closes only its own
descriptors. -/
theorem stdin_iff {table : Int → Option Nat} {env : ClientEnv} (hreads : env.Reads)
    (hopen : (table 0).isSome) (hnew : ∀ ai ∈ env.servInfo.head?, (begun table).New ai.socket) :
    ((Runs.final step (begun table) (clientMain env)).table 0).isSome ↔ env.ClosesOwn := by
  have hresolved := hreads.resolved
  rw [clientMain, if_neg (by omega), ClientEnv.ClosesOwn, and_iff_right hresolved]
  cases hinfo : env.servInfo with
  | nil =>
      rw [ClientEnv.connectLoop, hreads.talk]
      exact iff_of_true hopen hreads.ready
  | cons ai more =>
      have hhead : ai ∈ env.servInfo.head? := by
        rw [hinfo]
        rfl
      obtain ⟨hvalid, hconnect⟩ := hreads.connected ai hhead
      have hplace : Placeholder ((begun table).apply (.adopt sock 0)) sock :=
        placeholder_adopt sock rfl
      have hconstruct := hplace.construct (y := temporary) (by decide) ai.socket
      rw [ClientEnv.connectLoop, if_neg hvalid, if_neg (not_not_intro hconnect), hreads.talk]
      refine iff_of_false ?_ fun hsocket => ?_
      · have hclosed := hconstruct.table_moveAssign (s := temporary) (by decide)
        change ¬ ((World.destroy (World.moveAssign _ sock temporary) temporary).table 0).isSome
        rw [hclosed]
        exact Bool.false_ne_true
      · -- an open descriptor is not returned again
        have htable : table ai.socket = none := (hnew ai hhead).resolve_left hvalid
        rw [hsocket] at htable
        rw [htable] at hopen
        cases hopen

/-- **Whose descriptors are closed.** The two programs close only what `socket` and `accept` have
returned to them exactly in the runs that do not close the placeholder, or get it returned first. In
the same runs of the client the standard input it reads lines from stays open. -/
theorem closes_own_iff (table : Int → Option Nat) :
    (∀ env : ClientEnv, Runs.Always step OnlyOwn (begun table) (clientMain env) ↔ env.ClosesOwn) ∧
      (∀ env : ServerEnv, Runs.Always step OnlyOwn (begun table) (serverMain env) ↔ env.ClosesOwn) ∧
      ∀ env : ClientEnv, env.Reads → (table 0).isSome →
        (∀ ai ∈ env.servInfo.head?, (begun table).New ai.socket) →
          (((Runs.final step (begun table) (clientMain env)).table 0).isSome ↔ env.ClosesOwn) :=
  ⟨client_iff table, server_iff table, fun _ hreads hopen hnew => stdin_iff hreads hopen hnew⟩

def standard (fd : Int) : Option Nat := if 0 ≤ fd ∧ fd < 3 then some 0 else none

def localhost : ClientEnv := ⟨0, [⟨3, 0⟩], 0, 0⟩

theorem closes_own_iff_localhost :
    ¬ Runs.Always step OnlyOwn (begun standard) (clientMain localhost) ∧
      ((Runs.final step (begun standard) (clientMain localhost)).table 0).isSome = false := by
  have howns : ¬ localhost.ClosesOwn := by
    rintro ⟨-, hsocket⟩
    exact absurd (show (3 : Int) = 0 from hsocket) (by decide)
  have hreads : localhost.Reads := by
    refine ⟨by decide, fun ai hai => ?_, by decide, by decide⟩
    obtain rfl := Option.some.inj hai
    exact ⟨by decide, rfl⟩
  obtain ⟨hclient, -, hstdin⟩ := closes_own_iff standard
  refine ⟨fun h => howns ((hclient localhost).mp h), ?_⟩
  rw [← Bool.not_eq_true]
  refine fun h => howns ((hstdin localhost hreads rfl fun ai hai => ?_).mp h)
  obtain rfl := Option.some.inj hai
  exact Or.inr rfl

/-- The client closes its standard input, which nothing has returned, and goes on to read lines from
it. -/
theorem client_closes_stdin :
    (Runs.final step (begun standard) (clientMain localhost)).closes = [(0, some 0)] ∧
      (Runs.final step (begun standard) (clientMain localhost)).returned = [3] ∧
      ¬ Runs.Always step OnlyOwn (begun standard) (clientMain localhost) := by
  refine ⟨rfl, rfl, fun h => ?_⟩
  have hzero : (0 : Int) ∈ (Runs.final step (begun standard) (clientMain localhost)).returned :=
    h.final (0, some 0) List.mem_cons_self
  exact absurd (show (0 : Int) ∈ [3] from hzero) (by decide)

end NetworkHomework.TcpEcho
