import NetworkHomework.Base.Runs
import NetworkHomework.FileServer.Command
import NetworkHomework.FileServer.Confinement
import NetworkHomework.FileServer.Transceiver

/-!
# The command loop of the hw4 server

`while (run)` receives a command, sends it back, answers it, and goes round. Only the branch for a
positive `recv_len` can set `run` to false, and only for the command `exit`; when the client is
gone, `recv` returns 0 or -1 at once and the loop goes round without an end. Before an `exit` the
loop can end in other ways: a call of `send` may not return, and nobody catches what
`recv_file_path` throws. `commandLoop_leaves_iff` says for which clients the loop is left.
-/

namespace NetworkHomework.FileServer

open Conversions Paths

/-! ### A turn -/

inductive Recv where
  | received (bytes : List UInt8)
  | closed
  | failed
deriving DecidableEq

/-- A tree with what can be read from its regular files; there are some that cannot be opened. -/
structure Disk where
  tree : FileTree UInt8
  content : List (Name UInt8) → Option (List UInt8)

def Disk.file (disk : Disk) (filePath : Path UInt8) : Option (List UInt8) :=
  (disk.tree.canonical filePath).bind fun place =>
    if disk.tree.kind place = some .regular then disk.content place else none

/-- What a turn of the loop meets: the result of `recv`; that of the `send` which sends the text
back, `none` if it does not return; the files; an error of the file system, if it has one for the
file that is asked for; and the results of the calls of `send` while a file is sent. A `send` that
waits for good does not return, nor does one that raises `SIGPIPE`. -/
structure Visit where
  recv : Recv
  echo : Option SendResult
  disk : Disk
  fault : Option FilesystemError
  results : List SendResult

/-- What becomes of a call: it returns, having sent some bytes, or it throws, or it waits for
good. -/
inductive Outcome where
  | returned (result : Bool) (sent : List UInt8)
  | threw (e : FilesystemError)
  | waits
deriving DecidableEq

/-- `Client::recv_file_path`, where the file system may have an error for the path. -/
def Visit.recvFilePath (v : Visit) (filename : List UInt8) :
    Except FilesystemError (Option (Path UInt8)) :=
  match v.fault with
  | some e => if filename = [] then .ok none else .error e
  | none => Client.recvFilePath v.disk.tree filename

def process (v : Visit) (c : Command) : Outcome :=
  match v.recvFilePath c.filename with
  | .error e => .threw e
  | .ok none => .returned false []
  | .ok (some fileToSend) =>
      match sendFile (v.disk.file fileToSend) c.fict (toSize c.sizeFict) v.results with
      | none => .waits
      | some (_, sent) => .returned true sent

/-- `std::string(buffer)`: a null character ends it. -/
def strBuffer (bytes : List UInt8) : List UInt8 := bytes.takeWhile (· ≠ 0)

/-- The bytes of a text that a single call of `send` takes. -/
def echoOf (text : List UInt8) : SendResult → List UInt8
  | .accepted count => text.take count
  | .failed _ => []

/-- A turn of the loop on an accepted connection: `run` behind it, and the bytes it has sent. `none`
if it does not come to its end, or if the loop has been left. -/
def loopTurn (run : Bool) (v : Visit) : Option (Bool × List UInt8) :=
  if !run then none
  else
    match v.recv with
    | .closed | .failed => some (run, [])
    | .received bytes =>
        if bytes.length > 0 then
          match v.echo with
          | none => none
          | some echo =>
              let text := strBuffer bytes
              let c := parseCommand text
              let run := if c.command = ascii "exit" then false else run
              if c.command = ascii "get" ∧ text.length > 4 then
                match process v c with
                | .returned _ sent => some (run, echoOf text echo ++ sent)
                | .threw _ | .waits => none
              else some (run, echoOf text echo)
        else some (run, [])

def runTurn (run : Bool) (v : Visit) : Option Bool := (loopTurn run v).map Prod.fst

def Leaves (visits : ℕ → Visit) : Prop := ∃ n, Runs.final runTurn true (Runs.upTo visits n) = false

/-! ### The turns that come to an end -/

def Gets (text : List UInt8) : Prop := (parseCommand text).command = ascii "get" ∧ text.length > 4

instance (text : List UInt8) : Decidable (Gets text) := inferInstanceAs (Decidable (_ ∧ _))

def Exits (v : Visit) : Prop :=
  ∃ bytes, v.recv = .received bytes ∧ (parseCommand (strBuffer bytes)).command = ascii "exit"

/-- The file that is asked for has a path: the file system answers, and there are wide characters
for it. -/
def Answered (v : Visit) (filename : List UInt8) : Prop :=
  filename = [] ∨ v.fault = none ∧ Converts v.disk.tree (.parse filename)

def Visit.fileAt (v : Visit) (filename : List UInt8) : Option (List UInt8) :=
  match v.recvFilePath filename with
  | .ok (some fileToSend) => v.disk.file fileToSend
  | .ok none | .error _ => none

/-- What a turn calls returns: the text is sent back, and if it asks for a file, that has a path,
and is sent or fails to be. -/
structure Returns (v : Visit) : Prop where
  echoed : ∀ bytes, v.recv = .received bytes → bytes ≠ [] → v.echo.isSome
  answered : ∀ bytes, v.recv = .received bytes → Gets (strBuffer bytes) →
    Answered v (parseCommand (strBuffer bytes)).filename
  sent : ∀ bytes, v.recv = .received bytes → Gets (strBuffer bytes) →
    sendFile (v.fileAt (parseCommand (strBuffer bytes)).filename)
      (parseCommand (strBuffer bytes)).fict
      (toSize (parseCommand (strBuffer bytes)).sizeFict) v.results ≠ none

theorem recvFilePath_answered {v : Visit} {filename : List UInt8} :
    Answered v filename ↔ ∃ filePath, v.recvFilePath filename = .ok filePath := by
  rw [Answered, Visit.recvFilePath]
  by_cases hnil : filename = []
  · refine iff_of_true (Or.inl hnil) ⟨none, ?_⟩
    cases v.fault with
    | some e => exact if_pos hnil
    | none =>
        subst hnil
        rfl
  · rw [or_iff_right hnil]
    cases v.fault with
    | some e => exact iff_of_false (by simp) (by simp [hnil])
    | none =>
        rw [and_iff_right rfl]
        by_cases hconverts : Converts v.disk.tree (.parse filename)
        · exact iff_of_true hconverts ⟨_, recvFilePath_of_converts hnil hconverts⟩
        · refine iff_of_false hconverts ?_
          rintro ⟨filePath, h⟩
          cases (recvFilePath_of_not_converts hnil hconverts).symm.trans h

theorem process_returned_iff {v : Visit} {c : Command} :
    (∃ result sent, process v c = .returned result sent) ↔
      Answered v c.filename ∧ sendFile (v.fileAt c.filename) c.fict (toSize c.sizeFict)
        v.results ≠ none := by
  rw [recvFilePath_answered, process, Visit.fileAt]
  cases hpath : v.recvFilePath c.filename with
  | error e => exact iff_of_false (by simp) (by simp)
  | ok filePath =>
      cases filePath with
      | none => exact iff_of_true ⟨false, [], rfl⟩ ⟨⟨none, rfl⟩, by simp [sendFile]⟩
      | some fileToSend =>
          dsimp only
          cases hsend : sendFile (v.disk.file fileToSend) c.fict (toSize c.sizeFict) v.results with
          | none => exact iff_of_false (by simp) (by simp)
          | some result => exact iff_of_true ⟨true, result.2, rfl⟩ ⟨⟨_, rfl⟩, Option.some_ne_none _⟩

theorem runTurn_of_gone {v : Visit} (hgone : v.recv = .closed ∨ v.recv = .failed) :
    ¬ Exits v ∧ Returns v ∧ runTurn true v = some true := by
  have hsent : ∀ bytes, v.recv ≠ .received bytes := by
    intro bytes hrecv
    rcases hgone with h | h
    · exact Recv.noConfusion (h.symm.trans hrecv)
    · exact Recv.noConfusion (h.symm.trans hrecv)
  have hreturns : Returns v :=
    ⟨fun bytes hrecv => absurd hrecv (hsent bytes), fun bytes hrecv => absurd hrecv (hsent bytes),
      fun bytes hrecv => absurd hrecv (hsent bytes)⟩
  refine ⟨fun ⟨bytes, hrecv, _⟩ => hsent bytes hrecv, hreturns, ?_⟩
  rcases hgone with h | h
  · simp [runTurn, loopTurn, h]
  · simp [runTurn, loopTurn, h]

theorem runTurn_received {v : Visit} {bytes : List UInt8} (hrecv : v.recv = .received bytes)
    (hne : bytes ≠ []) {echo : SendResult} (hecho : v.echo = some echo) :
    runTurn true v =
      if Gets (strBuffer bytes) then
        match process v (parseCommand (strBuffer bytes)) with
        | .returned _ _ => some true
        | .threw _ | .waits => none
      else some (decide ((parseCommand (strBuffer bytes)).command ≠ ascii "exit")) := by
  have hcommands : ascii "get" ≠ ascii "exit" := by decide
  rw [runTurn, loopTurn, if_neg (by simp), hrecv]
  dsimp only
  rw [if_pos (List.length_pos_of_ne_nil hne), hecho]
  dsimp only
  by_cases hgets : Gets (strBuffer bytes)
  · have hget : (parseCommand (strBuffer bytes)).command = ascii "get" ∧
        (strBuffer bytes).length > 4 := hgets
    rw [if_pos hgets, if_pos hget, hget.1, if_neg hcommands]
    cases process v (parseCommand (strBuffer bytes)) <;> rfl
  · have hget : ¬((parseCommand (strBuffer bytes)).command = ascii "get" ∧
      (strBuffer bytes).length > 4) :=
      hgets
    rw [if_neg hgets, if_neg hget]
    by_cases hexit : (parseCommand (strBuffer bytes)).command = ascii "exit" <;> simp [hexit]

theorem runTurn_stuck {v : Visit} {bytes : List UInt8} (hrecv : v.recv = .received bytes)
    (hne : bytes ≠ []) (hecho : v.echo = none) : runTurn true v = none := by
  rw [runTurn, loopTurn, if_neg (by simp), hrecv]
  dsimp only
  rw [if_pos (List.length_pos_of_ne_nil hne), hecho]
  rfl

theorem exits_received {v : Visit} {bytes : List UInt8} (hrecv : v.recv = .received bytes) :
    Exits v ↔ (parseCommand (strBuffer bytes)).command = ascii "exit" := by
  rw [Exits, hrecv]
  exact ⟨fun ⟨_, hsame, hexit⟩ => Recv.received.inj hsame ▸ hexit, fun hexit => ⟨bytes, rfl, hexit⟩⟩

theorem returns_received {v : Visit} {bytes : List UInt8} (hrecv : v.recv = .received bytes)
    (hne : bytes ≠ []) :
    Returns v ↔ v.echo.isSome ∧
      (Gets (strBuffer bytes) →
        ∃ result sent, process v (parseCommand (strBuffer bytes)) = .returned result sent) := by
  rw [process_returned_iff]
  constructor
  · intro h
    exact ⟨h.echoed bytes hrecv hne, fun hgets =>
      ⟨h.answered bytes hrecv hgets, h.sent bytes hrecv hgets⟩⟩
  · rintro ⟨hecho, hprocess⟩
    refine ⟨fun _ _ _ => hecho, fun bytes' h hgets => ?_, fun bytes' h hgets => ?_⟩
    · cases hrecv.symm.trans h
      exact (hprocess hgets).1
    · cases hrecv.symm.trans h
      exact (hprocess hgets).2

theorem runTurn_nothing {v : Visit} (hrecv : v.recv = .received []) :
    ¬ Exits v ∧ Returns v ∧ runTurn true v = some true := by
  have hnull : (parseCommand (strBuffer [])).command = [0] := by decide
  have hnone : ¬ Gets (strBuffer []) := by
    rw [Gets, hnull]
    decide
  refine ⟨?_, ⟨fun bytes h hbytes => ?_, fun bytes h hgets => ?_, fun bytes h hgets => ?_⟩, ?_⟩
  · rw [exits_received hrecv, hnull]
    decide
  · exact absurd (Recv.received.inj (hrecv.symm.trans h)).symm hbytes
  · exact absurd ((Recv.received.inj (hrecv.symm.trans h)).symm ▸ hgets) hnone
  · exact absurd ((Recv.received.inj (hrecv.symm.trans h)).symm ▸ hgets) hnone
  · simp [runTurn, loopTurn, hrecv]

theorem runTurn_cases (v : Visit) :
    (Exits v ∧ Returns v ∧ runTurn true v = some false) ∨
      (¬ Exits v ∧ Returns v ∧ runTurn true v = some true) ∨
      (¬ Returns v ∧ runTurn true v = none) := by
  cases hrecv : v.recv with
  | closed => exact Or.inr (Or.inl (runTurn_of_gone (Or.inl hrecv)))
  | failed => exact Or.inr (Or.inl (runTurn_of_gone (Or.inr hrecv)))
  | received bytes =>
      by_cases hne : bytes = []
      · exact Or.inr (Or.inl (runTurn_nothing (hne ▸ hrecv)))
      rw [exits_received hrecv, returns_received hrecv hne]
      cases hecho : v.echo with
      | none =>
          exact Or.inr (Or.inr ⟨fun h => Bool.false_ne_true h.1, runTurn_stuck hrecv hne hecho⟩)
      | some echo =>
          rw [runTurn_received hrecv hne hecho, Option.isSome_some, and_iff_right rfl]
          by_cases hgets : Gets (strBuffer bytes)
          · have hother : (parseCommand (strBuffer bytes)).command ≠ ascii "exit" := by
              rw [hgets.1]
              decide
            rw [if_pos hgets]
            cases hprocess : process v (parseCommand (strBuffer bytes)) with
            | returned result sent =>
                exact Or.inr (Or.inl ⟨hother, fun _ => ⟨result, sent, rfl⟩, rfl⟩)
            | threw e => exact Or.inr (Or.inr ⟨fun h => by simpa using h hgets, rfl⟩)
            | waits => exact Or.inr (Or.inr ⟨fun h => by simpa using h hgets, rfl⟩)
          · rw [if_neg hgets]
            by_cases hexit : (parseCommand (strBuffer bytes)).command = ascii "exit"
            · exact Or.inl ⟨hexit, fun h => absurd h hgets, by simp [hexit]⟩
            · exact Or.inr (Or.inl ⟨hexit, fun h => absurd h hgets, by simp [hexit]⟩)

/-! ### The end of the loop -/

theorem final_of_left (visits : List Visit) : Runs.final runTurn false visits = false :=
  Runs.final_of_still fun v _ run h => by cases h

theorem final_runTurn_iff (visits : ℕ → Visit) (n : ℕ) :
    Runs.final runTurn true (Runs.upTo visits n) = false ↔
      ∃ i < n, Exits (visits i) ∧ ∀ j ≤ i, Returns (visits j) := by
  induction n generalizing visits with
  | zero => simp [Runs.upTo, Runs.final]
  | succ n ih =>
      have hfirst : Runs.upTo visits (n + 1) =
          visits 0 :: Runs.upTo (fun i => visits (i + 1)) n := by
        rw [Runs.upTo, List.range_succ_eq_map, List.map_cons, List.map_map]
        rfl
      rw [hfirst]
      rcases runTurn_cases (visits 0) with ⟨hexit, hreturn, hturn⟩ | ⟨hexit, hreturn, hturn⟩ |
        ⟨hstuck, hturn⟩
      · simp only [Runs.final, hturn]
        refine iff_of_true (final_of_left _) ⟨0, by omega, hexit, fun j hj => ?_⟩
        obtain rfl := Nat.le_zero.mp hj
        exact hreturn
      · simp only [Runs.final, hturn]
        rw [ih]
        constructor
        · rintro ⟨i, hi, hexits, hbefore⟩
          refine ⟨i + 1, by omega, hexits, fun j hj => ?_⟩
          cases j with
          | zero => exact hreturn
          | succ j => exact hbefore j (by omega)
        · rintro ⟨i, hi, hexits, hbefore⟩
          cases i with
          | zero => exact absurd hexits hexit
          | succ i => exact ⟨i, by omega, hexits, fun j hj => hbefore (j + 1) (by omega)⟩
      · simp only [Runs.final, hturn]
        refine iff_of_false (by simp) ?_
        rintro ⟨i, hi, hexits, hbefore⟩
        exact hstuck (hbefore 0 (Nat.zero_le i))

/-- **The end of the server.** When the client is gone after `n` chunks, the loop is left exactly if
one of the chunks was the command `exit`, and all that was called for the chunks up to that one has
returned. -/
theorem commandLoop_leaves_iff {visits : ℕ → Visit} {n : ℕ}
    (hgone : ∀ i, n ≤ i → (visits i).recv = .closed ∨ (visits i).recv = .failed) :
    Leaves visits ↔ ∃ i < n, Exits (visits i) ∧ ∀ j ≤ i, Returns (visits j) := by
  simp only [Leaves, final_runTurn_iff]
  constructor
  · rintro ⟨k, i, _, hexits, hbefore⟩
    refine ⟨i, ?_, hexits, hbefore⟩
    by_contra hlate
    exact (runTurn_of_gone (hgone i (by omega))).1 hexits
  · rintro ⟨i, hi, hexits⟩
    exact ⟨n, i, hi, hexits⟩

def blank : Disk := ⟨homes, fun _ => none⟩

def exiting (filename : List UInt8) : ℕ → Visit
  | 0 => ⟨.received (ascii "get " ++ filename), some (.accepted 5), blank, none, []⟩
  | 1 => ⟨.received (ascii "exit"), some (.accepted 4), blank, none, []⟩
  | _ => ⟨.closed, none, blank, none, []⟩

theorem commandLoop_leaves_exiting : Leaves (exiting (ascii "a")) := by
  refine (@commandLoop_leaves_iff (exiting (ascii "a")) 2 fun i hi => ?_).mpr
    ⟨1, by decide, ⟨ascii "exit", rfl, by decide⟩, fun j hj => ?_⟩
  · match i, hi with
    | i + 2, _ => exact Or.inl rfl
  · match j, hj with
    | 0, _ =>
        refine (@returns_received (exiting (ascii "a") 0) (ascii "get a") rfl (by decide)).mpr
          ⟨rfl, fun _ => ⟨true, [], by decide +kernel⟩⟩
    | 1, _ =>
        refine (@returns_received (exiting (ascii "a") 1) (ascii "exit") rfl (by decide)).mpr
          ⟨rfl, fun hgets => absurd hgets (by decide)⟩

-- nobody catches what is thrown for a name that is no UTF-8
example : Runs.final runTurn true (Runs.upTo (exiting [0xe9]) 3) = true := by decide +kernel

/-- A client that closes the connection without a command leaves the server in its loop. -/
theorem commandLoop_goes_round :
    ¬ ∀ (visits : ℕ → Visit) (n : ℕ),
    (∀ i, n ≤ i → (visits i).recv = .closed ∨ (visits i).recv = .failed) →
      Leaves visits := by
  intro h
  obtain ⟨n, hn⟩ := h (fun _ => ⟨.closed, none, blank, none, []⟩) 0 fun _ _ => Or.inl rfl
  obtain ⟨i, _, ⟨bytes, hrecv, _⟩, _⟩ := (final_runTurn_iff _ n).mp hn
  cases hrecv

end NetworkHomework.FileServer
