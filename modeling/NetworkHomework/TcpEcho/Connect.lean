import NetworkHomework.TcpEcho.Main

/-!
# The addresses the client tries

`getaddrinfo` delivers a list of addresses, and the client goes through it to find one that it can
connect to. Each branch of the loop's body leaves the loop, with an error too, so only the first
address is tried: `connectAny_iff` says for which lists that makes no difference.
-/

namespace NetworkHomework.TcpEcho

open SocketWrapper SocketWrapper.World

/-! ### The loop -/

/-- How the body of the loop is left: with `return EXIT_FAILURE` or with `break`. -/
inductive Leaves where
  | returns
  | breaks
deriving DecidableEq

/-- Where the loop leads: out of `main`, or behind the loop with what is then left of the list, the
address it was left at first. -/
inductive LoopEnd where
  | exitFailure
  | behind (ai : List AddrInfo)

def connectBody (w : World) (ai : AddrInfo) : World × Leaves :=
  let w := Runs.final step w (assignTemporary sock (.construct temporary ai.socket))
  if !w.opened sock then (w, .returns)
  else if ai.connect ≠ 0 then (w, .returns)
  else (w, .breaks)

def connectAny (w : World) : List AddrInfo → World × LoopEnd
  | [] => (w, .behind [])
  | ai :: more =>
      match connectBody w ai with
      | (w, .returns) => (w, .exitFailure)
      | (w, .breaks) => (w, .behind (ai :: more))

def resolved (table : Int → Option Nat) : World := (begun table).apply (.adopt sock 0)

/-! ### What the loop is for -/

/-- `socket` has a descriptor for the address, and `connect` succeeds. -/
def AddrInfo.Accepts (ai : AddrInfo) : Prop := ai.socket ≠ invalidSocket ∧ ai.connect = 0

instance (ai : AddrInfo) : Decidable ai.Accepts := inferInstanceAs (Decidable (_ ∧ _))

/-- The client gets connected to the first address that accepts, and fails only if none does. What
`socket` has returned to a connected client, but for the last, has been closed, each as often as it
was returned. -/
structure FallsBack (servInfo : List AddrInfo) (w : World) (loopEnd : LoopEnd) : Prop where
  connected : ∀ before ai after, servInfo = before ++ ai :: after →
      (∀ earlier ∈ before, ¬ earlier.Accepts) →
    ai.Accepts → loopEnd = .behind (ai :: after) ∧ w.socketDescriptor sock = ai.socket
  fails : loopEnd = .exitFailure → ∀ ai ∈ servInfo, ¬ ai.Accepts
  closed : ∀ ai after, loopEnd = .behind (ai :: after) →
    (w.returned.dropLast.filter (· ≠ invalidSocket)).Subperm (w.closes.map Prod.fst)

/-! ### One turn -/

section

variable (w : World) (result : Int)

def assigned : World := Runs.final step w (assignTemporary sock (.construct temporary result))

theorem assigned_eq :
    assigned w result = ((w.construct temporary result).moveAssign sock temporary).destroy
      temporary := rfl

theorem assigned_descriptor : (assigned w result).socketDescriptor sock = result := by
  have hne : sock ≠ temporary := by decide
  obtain ⟨hsock, htemporary⟩ := descriptor_moveAssign (w.construct temporary result) hne
  rw [assigned_eq]
  change (Function.update (World.closeIfOpened _ temporary).sockets temporary none sock).getD
    invalidSocket = result
  rw [Function.update_of_ne hne, closeIfOpened_of_invalid htemporary]
  exact hsock.trans (descriptor_construct w result temporary)

theorem assigned_returned : (assigned w result).returned = w.returned ++ [result] := by
  rw [assigned_eq]
  change (World.closeIfOpened _ temporary).returned = _
  rw [closeIfOpened_returned, World.moveAssign, if_neg (by decide)]
  change ((w.construct temporary result).closeIfOpened sock).returned = _
  rw [closeIfOpened_returned, construct_returned]

end

theorem connectBody_eq (w : World) (ai : AddrInfo) :
    connectBody w ai = (assigned w ai.socket, if ai.Accepts then .breaks else .returns) := by
  have hopened : (assigned w ai.socket).opened sock = decide (ai.socket ≠ invalidSocket) := by
    rw [opened, assigned_descriptor]
  rw [connectBody]
  change (if !(assigned w ai.socket).opened sock then
    (assigned w ai.socket, Leaves.returns) else _) = _
  rw [hopened]
  by_cases hsocket : ai.socket = invalidSocket
  · simp [AddrInfo.Accepts, hsocket]
  · by_cases hconnect : ai.connect = 0
    · simp [AddrInfo.Accepts, hsocket, hconnect, assigned]
    · simp [AddrInfo.Accepts, hsocket, hconnect, assigned]

/-! ### The loop tries one address -/

theorem connectAny_cons (w : World) (ai : AddrInfo) (more : List AddrInfo) :
    connectAny w (ai :: more) =
      (assigned w ai.socket, if ai.Accepts then .behind (ai :: more) else .exitFailure) := by
  show (match connectBody w ai with
    | (w, .returns) => (w, LoopEnd.exitFailure)
    | (w, .breaks) => (w, LoopEnd.behind (ai :: more))) = _
  rw [connectBody_eq]
  split_ifs <;> rfl

/-- The loop is the one of `clientMain`: an error ends the program, with `sock` destroyed. -/
theorem final_connectLoop (env : ClientEnv) (w : World) (servInfo : List AddrInfo) :
    Runs.final step w (env.connectLoop servInfo) =
      match connectAny w servInfo with
      | (w, .exitFailure) => w.apply (.destroy sock)
      | (w, .behind _) => Runs.final step w env.talk := by
  cases servInfo with
  | nil => rfl
  | cons ai more =>
      have hends : (if ai.socket = invalidSocket then [Op.destroy sock]
          else if ai.connect ≠ 0 then [Op.destroy sock] else env.talk) =
          if ai.Accepts then env.talk else [.destroy sock] := by
        by_cases hsocket : ai.socket = invalidSocket
        · simp [AddrInfo.Accepts, hsocket]
        · by_cases hconnect : ai.connect = 0
          · simp [AddrInfo.Accepts, hsocket, hconnect]
          · simp [AddrInfo.Accepts, hsocket, hconnect]
      rw [ClientEnv.connectLoop, hends, connectAny_cons,
        Runs.final_append (fun _ _ _ h => by cases h)]
      split_ifs <;> rfl

/-- **Falling back on another address.** The client gets connected to the first address that accepts
exactly if that is the first of the list, or there is none. -/
theorem connectAny_iff (table : Int → Option Nat) (ai : AddrInfo) (more : List AddrInfo) :
    FallsBack (ai :: more) (connectAny (resolved table) (ai :: more)).1
      (connectAny (resolved table) (ai :: more)).2 ↔
      ai.Accepts ∨ ∀ other ∈ ai :: more, ¬ other.Accepts := by
  rw [connectAny_cons]
  by_cases haccepts : ai.Accepts
  · refine iff_of_true ?_ (Or.inl haccepts)
    rw [if_pos haccepts]
    refine ⟨fun before other after hlist hbefore hother => ?_, fun hfails => ?_, fun _ _ _ => ?_⟩
    · cases before with
      | nil =>
          cases hlist
          exact ⟨rfl, assigned_descriptor _ ai.socket⟩
      | cons first before =>
          cases hlist
          exact absurd haccepts (hbefore ai List.mem_cons_self)
    · cases hfails
    · -- nothing has been created but the connected socket
      change ((assigned (resolved table) ai.socket).returned.dropLast.filter _).Subperm _
      rw [assigned_returned]
      exact List.nil_subperm
  · rw [if_neg haccepts, or_iff_right haccepts]
    refine ⟨fun h => h.fails rfl, fun hnone =>
      ⟨fun before other after hlist _ hother => ?_, fun _ => hnone, ?_⟩⟩
    · refine absurd hother (hnone other ?_)
      rw [hlist]
      exact List.mem_append_right _ List.mem_cons_self
    · intro _ _ hbehind
      cases hbehind

/-- The server listens on its IPv4 address, and the IPv6 address is the first of the list. -/
theorem connectAny_gives_up :
    (connectAny (resolved standard) [⟨3, -1⟩, ⟨4, 0⟩]).2 = .exitFailure ∧
      (connectAny (resolved standard) [⟨3, -1⟩, ⟨4, 0⟩]).1.returned = [3] ∧
      ¬ FallsBack [⟨3, -1⟩, ⟨4, 0⟩] (connectAny (resolved standard) [⟨3, -1⟩, ⟨4, 0⟩]).1
        (connectAny (resolved standard) [⟨3, -1⟩, ⟨4, 0⟩]).2 := by
  refine ⟨rfl, rfl, fun h => ?_⟩
  have hother : ¬ AddrInfo.Accepts ⟨4, 0⟩ :=
    h.fails rfl ⟨4, 0⟩ (List.mem_cons_of_mem _ List.mem_cons_self)
  exact hother (by decide)

end NetworkHomework.TcpEcho
