import NetworkHomework.Qt.Transmission
import NetworkHomework.SendLoops.Raw

/-!
# The send loops on a connection that fails for good

`send_request`, `send_message` and `send_to_file` have a `bool` for the caller, who gives up when it
is false. But no failure of `send` or `write` makes it false: hw3 tries again whatever the `errno`,
and the Qt servers add the -1 to their counter. So a failure that lasts leaves the caller waiting
for good, unless the loop was over before (`permanent_failure`).
-/

namespace NetworkHomework.SendLoops

open Qt (FileSystem QString fileBlock fileBlock_eq sendToFile transmit)

/-- A function that is to send something returns `verdict` when `results` is what its calls
return. -/
def Returns {ι : Type*} (run : List ι → Option Bool) (results : ℕ → ι) (verdict : Bool) : Prop :=
  ∃ n, run (Runs.upTo results n) = some verdict

/-! ### hw3 -/

/-- What `send_request` returns, if it has after these results of `send`. -/
def sendRequest (request : List UInt8) (results : List SendResult) : Option Bool :=
  (Runs.final (sendRequestStep request) .start results).returned

def sendMessage (message : List UInt8) (results : List SendResult) : Option Bool :=
  (Runs.final (sendMessageStep message) .start results).returned

section Retrying

variable {message : List UInt8}

theorem retryingStep_stops (s : Outbound UInt8) (x y : SendResult)
    (h : retryingStep message s x = none) : retryingStep message s y = none := by
  cases hrunning : s.returned with
  | some verdict =>
      rw [retryingStep.eq_def, hrunning]
      rfl
  | none =>
      cases x with
      | failed errno =>
          rw [retryingStep_failed hrunning] at h
          cases h
      | accepted count =>
          rw [retryingStep_accepted hrunning] at h
          split_ifs at h

theorem retrying_not_false {s : Outbound UInt8} (hs : s.returned ≠ some false)
    (results : List SendResult) :
    (Runs.final (retryingStep message) s results).returned ≠ some false := by
  refine (Runs.always_of_step (I := fun s : Outbound UInt8 => s.returned ≠ some false) ?_ hs results).final
  intro s result s' hs h
  obtain ⟨_, ⟨_, _, rfl⟩ | ⟨_, rfl⟩ | ⟨_, _, _, ⟨_, rfl⟩ | ⟨_, rfl⟩⟩⟩ := retryingStep_cases h
  · exact hs
  · exact fun hfalse => by cases hfalse
  · exact fun hfalse => by cases hfalse
  · exact hs

theorem retrying_keeps (s : Outbound UInt8) (xs ys : List SendResult) (verdict : Bool)
    (h : (Runs.final (retryingStep message) s xs).returned = some verdict) :
    (Runs.final (retryingStep message) s (xs ++ ys)).returned = some verdict := by
  rw [Runs.final_append retryingStep_stops, final_returned, h]
  intro result
  rw [retryingStep.eq_def, if_pos]
  rw [h]
  rfl

theorem retrying_stuck (s : Outbound UInt8) {xs ys : List SendResult}
    (hys : ∀ y ∈ ys, ∃ errno, y = .failed errno)
    (h : (Runs.final (retryingStep message) s xs).returned = none) :
    (Runs.final (retryingStep message) s (xs ++ ys)).returned = none := by
  rw [Runs.final_append retryingStep_stops, Runs.final_of_still, h]
  intro y hy t hstep
  obtain ⟨errno, rfl⟩ := hys y hy
  rw [retryingStep_failed h] at hstep
  exact (Option.some.inj hstep).symm

theorem retrying_permanent (message : List UInt8) {r : ℕ → SendResult} {n : ℕ}
    (hr : ∀ i, n ≤ i → r i = .failed .other) :
    let run := fun results => (Runs.final (retryingStep message) .start results).returned
    ¬ Returns run r false ∧ (Returns run r true ↔ run (Runs.upTo r n) = some true) := by
  refine ⟨fun ⟨k, hk⟩ => retrying_not_false (fun h => by cases h) _ hk, ?_⟩
  refine Runs.answers_iff_of_stuck (fun xs ys y => retrying_keeps .start xs ys y) ?_ true
  intro ys hys hnone
  refine retrying_stuck .start (fun y hy => ⟨.other, ?_⟩) hnone
  obtain ⟨i, hi, rfl⟩ := hys y hy
  exact hr i hi

end Retrying

/-! ### The Qt servers -/

section SendToFile

variable (currentPath : List UInt16) (disk : FileSystem) (filename : QString) (fict size : Nat)

/-- What `send_to_file` returns, if it has after these results of `write`. -/
def sendToFileReturns (results : List Int) : Option Bool :=
  (sendToFile currentPath disk filename fict size results).map Prod.fst

variable {currentPath disk filename fict size}

theorem sendToFileReturns_none (hblock : fileBlock currentPath disk filename fict size = none)
    (results : List Int) :
    sendToFileReturns currentPath disk filename fict size results = some false := by
  rw [sendToFileReturns, sendToFile, hblock]
  rfl

theorem sendToFileReturns_some {block : List UInt8}
    (hblock : fileBlock currentPath disk filename fict size = some block) (results : List Int) :
    sendToFileReturns currentPath disk filename fict size results =
      (transmit block.zipIdx results 0 []).map fun _ => true := by
  rw [sendToFileReturns, sendToFile, hblock]
  exact Option.map_map _ _ _

theorem sendToFile_permanent {block : List UInt8}
    (hblock : fileBlock currentPath disk filename fict size = some block) {w : ℕ → Int} {n : ℕ}
    (hw : ∀ i, n ≤ i → w i = -1) :
    let run := sendToFileReturns currentPath disk filename fict size
    ¬ Returns run w false ∧ (Returns run w true ↔ run (Runs.upTo w n) = some true) := by
  have hrun := sendToFileReturns_some hblock
  refine ⟨fun ⟨k, hk⟩ => ?_, Runs.answers_iff_of_stuck ?_ ?_ true⟩
  · rw [hrun] at hk
    obtain ⟨_, _, hfalse⟩ := Option.map_eq_some_iff.mp hk
    cases hfalse
  · intro xs ys verdict h
    rw [hrun] at h ⊢
    obtain ⟨taken, htransmit, hverdict⟩ := Option.map_eq_some_iff.mp h
    exact Option.map_eq_some_iff.mpr ⟨taken, Qt.transmit_append_of_some htransmit ys, hverdict⟩
  · intro ys hys hnone
    rw [hrun] at hnone ⊢
    refine Option.map_eq_none_iff.mpr (Qt.transmit_append_of_none (Option.map_eq_none_iff.mp hnone) ?_)
    intro y hy
    obtain ⟨i, hi, rfl⟩ := hys y hy
    rw [hw i hi]
    decide

end SendToFile

/-! ### All three -/

/-- **Permanent failures.** When from some call on every `send` fails, and not for an interrupted or
blocking call, `send_request` and `send_message` never return false, and they return at all only if
the message was away before that. Nor does `send_to_file` once it has a block to send; it returns
false only for an empty name and for a file that is neither there nor open. -/
theorem permanent_failure (message : List UInt8) (r : ℕ → SendResult) (w : ℕ → Int) (n : ℕ)
    (hr : ∀ i, n ≤ i → r i = .failed .other) (hw : ∀ i, n ≤ i → w i = -1)
    (currentPath : List UInt16) (disk : FileSystem) (filename : QString) (fict size : Nat) :
    (¬ Returns (sendRequest message) r false ∧
      (Returns (sendRequest message) r true ↔ sendRequest message (Runs.upTo r n) = some true)) ∧
      (¬ Returns (sendMessage message) r false ∧
        (Returns (sendMessage message) r true ↔ sendMessage message (Runs.upTo r n) = some true)) ∧
      (Returns (sendToFileReturns currentPath disk filename fict size) w false ↔
        filename.size = 0 ∨
          ((disk (currentPath ++ [0x2f] ++ filename.data)).present = false ∧
            (disk (currentPath ++ [0x2f] ++ filename.data)).opens = false)) ∧
      (Returns (sendToFileReturns currentPath disk filename fict size) w true ↔
        sendToFileReturns currentPath disk filename fict size (Runs.upTo w n) = some true) := by
  refine ⟨retrying_permanent message hr, retrying_permanent message hr, ?_⟩
  cases hblock : fileBlock currentPath disk filename fict size with
  | none =>
      have hreturns := sendToFileReturns_none hblock
      have hrefused := hblock
      rw [fileBlock_eq] at hrefused
      dsimp only at hrefused
      split_ifs at hrefused with hcondition
      refine ⟨iff_of_true ⟨0, hreturns _⟩ hcondition, iff_of_false (fun ⟨k, hk⟩ => ?_) fun htrue =>
        ?_⟩
      · rw [hreturns] at hk
        cases hk
      · rw [hreturns] at htrue
        cases htrue
  | some block =>
      obtain ⟨hfalse, htrue⟩ := sendToFile_permanent hblock hw
      have haccepted := hblock
      rw [fileBlock_eq] at haccepted
      dsimp only at haccepted
      split_ifs at haccepted with hcondition
      exact ⟨iff_of_false hfalse hcondition, htrue⟩

/-- A byte is away before the connection fails, and the other is not. -/
theorem permanent_failure_after_one :
    ¬ Returns (sendRequest [0x68, 0x69]) (fun i =>
      if i = 0 then .accepted 1 else .failed .other) false ∧
      ¬ Returns (sendMessage [0x68, 0x69]) (fun i =>
        if i = 0 then .accepted 1 else .failed .other) false ∧
      ¬ Returns (sendToFileReturns [] Qt.tinyDisk (.lit "a") 0 0) (fun i =>
        if i = 0 then 1 else -1) true := by
  obtain ⟨⟨hrequest, _⟩, ⟨hmessage, _⟩, _, hfile⟩ := permanent_failure [0x68, 0x69]
    (fun i => if i = 0 then .accepted 1 else .failed .other) (fun i => if i = 0 then 1 else -1) 1
    (fun i hi => if_neg (by omega)) (fun i hi => if_neg (by omega)) [] Qt.tinyDisk (.lit "a") 0 0
  exact ⟨hrequest, hmessage, fun htrue => absurd (hfile.mp htrue) (by decide)⟩

/-- Every call fails from the start, and none of the three ever returns. -/
theorem failing_never_returns :
    (∀ verdict, ¬ Returns (sendRequest [0x68]) (fun _ => .failed .other) verdict) ∧
      (∀ verdict, ¬ Returns (sendMessage [0x68]) (fun _ => .failed .other) verdict) ∧
      ∀ verdict, ¬ Returns (sendToFileReturns [] Qt.tinyDisk (.lit "a") 0 0) (fun _ =>
        -1) verdict := by
  have hretrying := @retrying_permanent [0x68] (fun _ => .failed .other) 0 fun _ _ => rfl
  have hfile :=
    @sendToFile_permanent [] Qt.tinyDisk (.lit "a") 0 0 Qt.tinyBlock (by decide) (fun _ => -1) 0
    fun _ _ => rfl
  have hnever : ∀ verdict, ¬ Returns (sendRequest [0x68]) (fun _ => .failed .other) verdict := by
    intro verdict
    cases verdict with
    | false => exact hretrying.1
    | true => exact fun htrue => absurd (hretrying.2.mp htrue) (by decide)
  refine ⟨hnever, hnever, fun verdict => ?_⟩
  cases verdict with
  | false => exact hfile.1
  | true => exact fun htrue => absurd (hfile.2.mp htrue) (by decide)

end NetworkHomework.SendLoops
