import NetworkHomework.Torrent.MainLoop

/-!
# The resume file from one run to the next

The program reads `.resume_file` when it starts and writes it anew, in place, whenever the session
delivers resume data. What `libtorrent` makes of the bytes is left open but for what the program
relies on. A program that is killed while it writes leaves a part of the data, which the next one
cannot read and does not replace: `launches_iff`. Otherwise a launch finds what was saved last,
whichever torrent that was of: `resumes_last_save`.
-/

namespace NetworkHomework.Torrent

/-! ### The library -/

/-- The calls of `libtorrent` on resume data; `read_resume_data` throws where it is `none`. -/
structure Library (Params Hash : Type) where
  infoHash : Params → Hash
  readResumeData : List UInt8 → Option Params
  writeResumeDataBuf : Params → List UInt8

variable {Params Hash : Type}

/-- What is written is a bencoded dictionary: it is read back as the same torrent's, and no part of
it is one. -/
structure Library.Bencodes (lt : Library Params Hash) : Prop where
  reads : ∀ params, ∃ atp, lt.readResumeData (lt.writeResumeDataBuf params) = some atp ∧
    lt.infoHash atp = lt.infoHash params
  nonempty : ∀ params, lt.writeResumeDataBuf params ≠ []
  part : ∀ params front back, lt.writeResumeDataBuf params = front ++ back →
      front ≠ [] → back ≠ [] →
    lt.readResumeData front = none

/-- The parameters that the torrent is added with: those of the file if they are of the same
torrent. `none` if reading the file throws, which ends the program. -/
def Library.startWith [DecidableEq Hash] (lt : Library Params Hash) (magnet : Params)
    (buf : List UInt8) :
    Option Params :=
  if buf.length > 0 then do
    let atp ← lt.readResumeData buf
    some (if lt.infoHash atp = lt.infoHash magnet then atp else magnet)
  else some magnet

/-! ### What an iteration writes -/

def Alert.resumeData : Alert → List (List UInt8)
  | saveResumeData data => [data]
  | _ => []

namespace Main

/-- The data that go to the file while the alerts are dealt with, also if a later one throws. -/
def writes (m : Main) : List Alert → List (List UInt8)
  | [] => []
  | a :: alerts =>
      match m.processAlert a with
      | none => []
      | some (m, stop) => a.resumeData ++ if stop then [] else m.writes alerts

/-- The data an iteration writes: none if `SIGINT` cuts it short. -/
def iterationWrites (m : Main) (it : Iteration) : List (List UInt8) :=
  if (m.shutDown || it.interrupted) = true ∧ it.torrents = 1 then
    [] else (m.taken it).writes it.alerts

def resumeFiles (m : Main) : List (List UInt8) :=
  m.trace.flatMap fun
    | .resumeFile data => [data]
    | _ => []

theorem mem_writes {m : Main} {alerts : List Alert} {data : List UInt8}
    (h : data ∈ m.writes alerts) :
    Alert.saveResumeData data ∈ alerts := by
  induction alerts generalizing m with
  | nil => cases h
  | cons a alerts ih =>
      rw [writes] at h
      cases hprocess : m.processAlert a with
      | none =>
          rw [hprocess] at h
          cases h
      | some p =>
          obtain ⟨t, stop⟩ := p
          rw [hprocess] at h
          rcases List.mem_append.mp h with hnow | hlater
          · cases a with
            | saveResumeData data' =>
                rw [List.mem_singleton.mp hnow]
                exact List.mem_cons_self
            | _ => cases hnow
          · split_ifs at hlater
            · cases hlater
            · exact List.mem_cons_of_mem _ (ih hlater)

theorem mem_iterationWrites {m : Main} {it : Iteration} {data : List UInt8}
    (h : data ∈ m.iterationWrites it) :
    Alert.saveResumeData data ∈ it.alerts := by
  rw [iterationWrites] at h
  split_ifs at h
  · cases h
  · exact mem_writes h

theorem resumeFiles_act (m : Main) (a : Action) :
    (m.act a).resumeFiles = m.resumeFiles ++ (match a with | .resumeFile data => [data] | _ => []) := by
  rw [resumeFiles, act, List.flatMap_append, List.flatMap_singleton]
  rfl

theorem processAlert_resumeFiles {m m' : Main} {a : Alert} {stop : Bool}
    (h : m.processAlert a = some (m', stop)) :
    m'.resumeFiles = m.resumeFiles ++ a.resumeData := by
  cases a with
  | torrentFinished | torrentError =>
      obtain ⟨rfl, -⟩ := processAlert_ends rfl h
      exact resumeFiles_act m .requested
  | saveResumeData data =>
      cases h
      exact resumeFiles_act m (.resumeFile data)
  | saveResumeDataFailed =>
      cases h
      exact resumeFiles_act m .failed
  | addTorrent _ | stateUpdate | other =>
      cases h
      exact (List.append_nil _).symm

theorem processAlerts_resumeFiles {m m' : Main} {alerts : List Alert}
    (h : m.processAlerts alerts = some m') :
    m'.resumeFiles = m.resumeFiles ++ m.writes alerts := by
  induction alerts generalizing m with
  | nil =>
      cases h
      exact (List.append_nil _).symm
  | cons a alerts ih =>
      obtain ⟨⟨t, stop⟩, hfirst, hrest⟩ := Option.bind_eq_some_iff.mp h
      have hnow := processAlert_resumeFiles hfirst
      rw [writes, hfirst]
      cases stop with
      | true =>
          cases hrest
          rw [hnow]
          exact congrArg _ (List.append_nil _).symm
      | false =>
          rw [ih hrest, hnow, List.append_assoc]
          rfl

theorem iterate_resumeFiles {m m' : Main} {it : Iteration} (h : m.iterate it = some m') :
    m'.resumeFiles = m.resumeFiles ++ m.iterationWrites it := by
  have htaken : (m.taken it).resumeFiles = m.resumeFiles :=
    (resumeFiles_act m (.popped it.alerts)).trans (List.append_nil _)
  cases hended : m.ended with
  | true =>
      rw [iterate, hended] at h
      cases h
  | false =>
      rw [iterate_eq hended] at h
      rw [iterationWrites]
      split_ifs at h ⊢ with hinterrupt
      · cases h
        rw [List.append_nil, ← htaken]
        exact (resumeFiles_act (m.taken it) .requested).trans (List.append_nil _)
      · obtain ⟨t, halerts, h⟩ := Option.bind_eq_some_iff.mp h
        obtain ⟨t', htimer, h⟩ := Option.bind_eq_some_iff.mp h
        cases h
        rw [← htaken, ← processAlerts_resumeFiles halerts]
        rcases saveOnTimer_cases htimer with rfl | rfl
        · exact (resumeFiles_act t .requested).trans (List.append_nil _)
        · rfl

end Main

/-! ### One run after another -/

/-- A run of the program: the magnet link it was started with, what the torrent was added with, its
loop. -/
structure Program (Params : Type) where
  magnet : Params
  params : Params
  main : Main

/-- The file, empty also if there is none, the program if it is running, and all that was ever
written to the file to the end. -/
structure World (Params : Type) where
  file : List UInt8
  program : Option (Program Params)
  saves : List (List UInt8)

/-- The program is started, goes through an iteration, or is killed in one, behind `count` of its
writes: before the next one, or when it has opened the file for it and written `part` bytes. -/
inductive Event (Params : Type) where
  | launch (magnet : Params) (now : Int)
  | iterate (it : Iteration)
  | killed (it : Iteration) (count : Nat) (part : Option Nat)

namespace World

def start : World Params := ⟨[], none, []⟩

/-- The file behind some writes, each of which replaces it. -/
def write (w : World Params) (datas : List (List UInt8)) : World Params :=
  { w with file := datas.getLastD w.file, saves := w.saves ++ datas }

def tear (w : World Params) (data : List UInt8) (part : Nat) : World Params :=
  { w with file := data.take part }

/-- The first `count` of the writes, and as the case may be `part` bytes of the next one. -/
def cut (w : World Params) (datas : List (List UInt8)) (count : Nat) (part : Option Nat) :
    World Params :=
  match part, datas[count]? with
  | some part, some data => (w.write (datas.take count)).tear data part
  | _, _ => w.write (datas.take count)

theorem cut_of_none (w : World Params) {datas : List (List UInt8)} {count : Nat}
    (h : datas[count]? = none) (part : Option Nat) :
    w.cut datas count part = w.write (datas.take count) := by
  rw [cut.eq_def, h]
  cases part <;> rfl

theorem cut_of_some (w : World Params) {datas : List (List UInt8)} {count : Nat} {data : List UInt8}
    (h : datas[count]? = some data) (part : Nat) :
    w.cut datas count (some part) = (w.write (datas.take count)).tear data part := by
  rw [cut.eq_def, h]

def step [DecidableEq Hash] (lt : Library Params Hash) (w : World Params) :
    Event Params → Option (World Params)
  | .launch magnet now =>
      match w.program with
      | some _ => none
      | none =>
          match lt.startWith magnet w.file with
          | none => some w
          | some params => some { w with program := some ⟨magnet, params, Main.start now⟩ }
  | .iterate it =>
      w.program.map fun p =>
        let w := w.write (p.main.iterationWrites it)
        match p.main.iterate it with
        | none => { w with program := none }
        | some main =>
            { w with program := if main.ended then none else some { p with main := main } }
  | .killed it count part =>
      w.program.map fun p => { w.cut (p.main.iterationWrites it) count part with program := none }

end World

/-- The session delivers what `write_resume_data_buf` makes of some parameters. -/
def Event.Delivers (lt : Library Params Hash) : Event Params → Prop
  | .launch _ _ => True
  | .iterate it | .killed it _ _ =>
      ∀ data, Alert.saveResumeData data ∈ it.alerts → ∃ params, data = lt.writeResumeDataBuf params

/-- No kill leaves a part of the data in the file. -/
def Untorn (w : World Params) : Event Params → Prop
  | .killed it count (some part) =>
      ∀ p data, w.program = some p → (p.main.iterationWrites it)[count]? = some data →
      part = 0 ∨ data.length ≤ part
  | _ => True

/-- No kill falls between the opening of the file and the last byte of the data. -/
def Whole (w : World Params) : Event Params → Prop
  | .killed it count (some _) =>
      ∀ p, w.program = some p → (p.main.iterationWrites it)[count]? = none
  | _ => True

/-- What is in the file is what was written to its end, if there is anything. -/
def Readable (lt : Library Params Hash) (w : World Params) : Prop :=
  w.file = [] ∨ ∃ params, w.file = lt.writeResumeDataBuf params

def Launches [DecidableEq Hash] (lt : Library Params Hash) (w : World Params) : Prop :=
  ∀ magnet, (lt.startWith magnet w.file).isSome

theorem Readable.write {lt : Library Params Hash} {w : World Params} (h : Readable lt w)
    {datas : List (List UInt8)}
    (hdatas : ∀ data ∈ datas, ∃ params, data = lt.writeResumeDataBuf params) :
    Readable lt (w.write datas) := by
  rcases List.eq_nil_or_concat datas with rfl | ⟨front, data, rfl⟩
  · exact h
  · obtain ⟨params, hparams⟩ := hdatas data (by simp)
    refine Or.inr ⟨params, ?_⟩
    show (front.concat data).getLastD w.file = _
    rw [List.concat_eq_append, List.getLastD_concat, hparams]

section Launching

variable [DecidableEq Hash] {lt : Library Params Hash}

theorem startWith_nil (magnet : Params) : lt.startWith magnet [] = some magnet :=
  if_neg (Nat.lt_irrefl 0)

theorem startWith_eq (magnet : Params) {buf : List UInt8} (hbuf : buf ≠ []) :
    lt.startWith magnet buf =
      (lt.readResumeData buf).map fun atp => if lt.infoHash atp = lt.infoHash magnet then
        atp else magnet := by
  rw [Library.startWith, if_pos (List.length_pos_iff.mpr hbuf)]
  cases lt.readResumeData buf <;> rfl

theorem Readable.launches (hlt : lt.Bencodes) {w : World Params} (h : Readable lt w) :
    Launches lt w := by
  intro magnet
  rcases h with hnone | ⟨params, hfile⟩
  · rw [hnone, startWith_nil]
    rfl
  · obtain ⟨atp, hread, _⟩ := hlt.reads params
    rw [startWith_eq magnet (hfile ▸ hlt.nonempty params), hfile, hread]
    rfl

/-- A part of the data in the file, and no program can be started with it. -/
theorem torn_not_launches (hlt : lt.Bencodes) {w : World Params} {params : Params} {part : Nat}
    (hpart : part ≠ 0) (hlength : part < (lt.writeResumeDataBuf params).length)
    (hfile : w.file = (lt.writeResumeDataBuf params).take part) : ¬ Launches lt w := by
  intro h
  have hfront : (lt.writeResumeDataBuf params).take part ≠ [] := by
    apply List.ne_nil_of_length_pos
    rw [List.length_take]
    omega
  have hback : (lt.writeResumeDataBuf params).drop part ≠ [] := by
    apply List.ne_nil_of_length_pos
    rw [List.length_drop]
    omega
  have hread := hlt.part params _ _ (List.take_append_drop part _).symm hfront hback
  have hlaunch := h params
  rw [hfile, startWith_eq params hfront, hread] at hlaunch
  cases hlaunch

theorem Readable.step (hlt : lt.Bencodes) {w w' : World Params} (h : Readable lt w)
    {e : Event Params} (hdelivers : e.Delivers lt) (hstep : w.step lt e = some w') :
    (Untorn w e ∧ Readable lt w') ∨ (¬ Untorn w e ∧ ¬ Launches lt w') := by
  cases e with
  | launch magnet now =>
      refine Or.inl ⟨trivial, ?_⟩
      rw [World.step] at hstep
      cases hprogram : w.program with
      | some p =>
          rw [hprogram] at hstep
          cases hstep
      | none =>
          rw [hprogram] at hstep
          cases hstart : lt.startWith magnet w.file with
          | none =>
              rw [hstart] at hstep
              cases hstep
              exact h
          | some params =>
              rw [hstart] at hstep
              cases hstep
              exact h
  | iterate it =>
      obtain ⟨p, _, rfl⟩ := Option.map_eq_some_iff.mp hstep
      have hwritten : Readable lt (w.write (p.main.iterationWrites it)) :=
        h.write fun data hdata => hdelivers data (Main.mem_iterationWrites hdata)
      refine Or.inl ⟨trivial, ?_⟩
      dsimp only
      split
      · exact hwritten
      · exact hwritten
  | killed it count part =>
      obtain ⟨p, hprogram, rfl⟩ := Option.map_eq_some_iff.mp hstep
      have hwritten : Readable lt (w.write ((p.main.iterationWrites it).take count)) :=
        h.write fun data hdata =>
          hdelivers data (Main.mem_iterationWrites (List.mem_of_mem_take hdata))
      cases part with
      | none => exact Or.inl ⟨trivial, hwritten⟩
      | some part =>
          cases hnext : (p.main.iterationWrites it)[count]? with
          | none =>
              rw [World.cut_of_none w hnext]
              refine Or.inl ⟨fun p' data hp' hdata => ?_, hwritten⟩
              obtain rfl := Option.some.inj (hprogram.symm.trans hp')
              cases hnext.symm.trans hdata
          | some data =>
              obtain ⟨params, rfl⟩ :=
                hdelivers data (Main.mem_iterationWrites (List.mem_of_getElem? hnext))
              have huntorn : Untorn w (.killed it count (some part)) ↔
                  part = 0 ∨ (lt.writeResumeDataBuf params).length ≤ part := by
                constructor
                · exact fun h => h p _ hprogram hnext
                · intro h p' data hp' hdata
                  obtain rfl := Option.some.inj (hprogram.symm.trans hp')
                  obtain rfl := Option.some.inj (hnext.symm.trans hdata)
                  exact h
              rw [huntorn, World.cut_of_some w hnext]
              by_cases hzero : part = 0
              · exact Or.inl ⟨Or.inl hzero, Or.inl (by rw [hzero]; rfl)⟩
              · by_cases hall : (lt.writeResumeDataBuf params).length ≤ part
                · exact Or.inl ⟨Or.inr hall, Or.inr ⟨params, List.take_of_length_le hall⟩⟩
                · refine Or.inr ⟨not_or.mpr ⟨hzero, hall⟩, ?_⟩
                  exact torn_not_launches hlt hzero (Nat.lt_of_not_le hall) rfl

theorem startWith_none {w : World Params} (h : ¬ Launches lt w) (magnet : Params) :
    lt.startWith magnet w.file = none := by
  have hfile : w.file ≠ [] := by
    intro hnil
    apply h
    intro other
    rw [hnil, startWith_nil]
    rfl
  have hread : lt.readResumeData w.file = none := by
    by_contra hsome
    obtain ⟨atp, hatp⟩ := Option.ne_none_iff_exists'.mp hsome
    apply h
    intro other
    rw [startWith_eq other hfile, hatp]
    rfl
  rw [startWith_eq magnet hfile, hread]
  rfl

/-- Where no program can be started, none ever is, and the file stays as it is. -/
theorem stuck {w : World Params} (hprogram : w.program = none) (h : ¬ Launches lt w)
    (events : List (Event Params)) :
    Runs.final (World.step lt) w events = w := by
  have hfile := startWith_none h
  apply Runs.final_of_still
  intro e _ w' hstep
  cases e with
  | launch magnet now =>
      rw [World.step, hprogram, hfile magnet] at hstep
      exact (Option.some.inj hstep).symm
  | iterate it =>
      rw [World.step, hprogram] at hstep
      cases hstep
  | killed it count part =>
      rw [World.step, hprogram] at hstep
      cases hstep

/-- **Starting again.** Over any number of runs and kills the program can always be started again
exactly if no kill leaves a part of the data in the file; and where it cannot be started and does
not run, nothing it does will change that. -/
theorem launches_iff (lt : Library Params Hash) (hlt : lt.Bencodes) (events : List (Event Params))
    (hevents : ∀ e ∈ events, e.Delivers lt) :
    (Runs.Always (World.step lt) (Launches lt) .start events ↔
      Runs.Along (World.step lt) Untorn .start events) ∧
      ∀ w : World Params, w.program = none → ¬ Launches lt w →
        ∀ more, Runs.final (World.step lt) w more = w := by
  have hstart : Readable lt (World.start : World Params) := Or.inl rfl
  refine ⟨?_, fun w hprogram h more => stuck hprogram h more⟩
  exact Runs.always_iff_along_of (fun _ h => Readable.launches hlt h)
    (fun _ _ _ h hdelivers hstep => Readable.step hlt h hdelivers hstep) hstart
      (Runs.along_of_forall _ hevents)

end Launching

def bare : Library UInt8 UInt8 where
  infoHash := id
  readResumeData bytes :=
    match bytes.drop 14 with
    | [hash, 0x65] => some hash
    | _ => none
  -- `d9:info-hash1:` and `e` behind the hash
  writeResumeDataBuf hash :=
    [0x64, 0x39, 0x3a, 0x69, 0x6e, 0x66, 0x6f, 0x2d, 0x68, 0x61, 0x73, 0x68, 0x31, 0x3a, hash, 0x65]

theorem bare_bencodes : bare.Bencodes where
  reads hash := ⟨hash, rfl, rfl⟩
  nonempty hash := List.cons_ne_nil _ _
  part hash front back hsplit _ hback := by
    have hlength : 16 = front.length + back.length := by
      rw [← List.length_append, ← hsplit]
      rfl
    have hpos := List.length_pos_iff.mpr hback
    have hdrop : (front.drop 14).length ≤ 1 := by
      rw [List.length_drop]
      omega
    show (match front.drop 14 with | [hash, 0x65] => some hash | _ => none) = none
    split
    · next h =>
        rw [h, List.length_cons] at hdrop
        exact absurd hdrop (Nat.not_succ_le_self 1)
    · rfl

def savedAndKilled : List (Event UInt8) :=
  [.launch 7 0, .iterate ⟨[.addTorrent (some 1)], false, 1, 0, 0⟩,
    .killed ⟨[.saveResumeData (bare.writeResumeDataBuf 7)], false, 1, 0, 0⟩ 1 none, .launch 7 0]

theorem savedAndKilled_delivers : ∀ e ∈ savedAndKilled, e.Delivers bare := by
  intro e he
  rcases List.mem_cons.mp he with rfl | he
  · trivial
  rcases List.mem_cons.mp he with rfl | he
  · intro data hdata
    cases List.mem_singleton.mp hdata
  rcases List.mem_cons.mp he with rfl | he
  · intro data hdata
    cases List.mem_singleton.mp hdata
    exact ⟨7, rfl⟩
  · cases List.mem_singleton.mp he
    trivial

theorem launches_iff_saved : Runs.Always (World.step bare) (Launches bare) .start savedAndKilled :=
  (launches_iff bare bare_bencodes savedAndKilled savedAndKilled_delivers).1.mpr
    fun _ _ => ⟨trivial, fun _ _ => ⟨trivial, fun _ _ => ⟨trivial, fun _ _ => ⟨trivial, trivial⟩⟩⟩⟩

/-! ### What a launch finds -/

section Kept

variable {lt : Library Params Hash}

/-- A program has the torrent that it was started for, and what its loop has written was saved
last. -/
def Program.Own (lt : Library Params Hash) (saves : List (List UInt8)) (p : Program Params) :
    Prop :=
  lt.infoHash p.params = lt.infoHash p.magnet ∧ p.main.resumeFiles <:+ saves

/-- The file is what was saved last, and the program that runs is as it should be. -/
structure Kept (lt : Library Params Hash) (w : World Params) : Prop where
  file : w.file = w.saves.getLastD []
  saves : ∀ data ∈ w.saves, ∃ params, data = lt.writeResumeDataBuf params
  program : ∀ p, w.program = some p → p.Own lt w.saves

theorem getLastD_append (saves datas : List (List UInt8)) :
    (saves ++ datas).getLastD [] = datas.getLastD (saves.getLastD []) := by
  simp only [List.getLastD_eq_getLast?, List.getLast?_append, Option.getD_or]

theorem Kept.write {w : World Params} (h : Kept lt w) {datas : List (List UInt8)}
    (hdatas : ∀ data ∈ datas, ∃ params, data = lt.writeResumeDataBuf params)
    {program : Option (Program Params)}
    (hprogram : ∀ p, program = some p → p.Own lt (w.saves ++ datas)) :
    Kept lt { w.write datas with program := program } where
  file := by
    show datas.getLastD w.file = (w.saves ++ datas).getLastD []
    rw [getLastD_append, h.file]
  saves := List.forall_mem_append.mpr ⟨h.saves, hdatas⟩
  program := hprogram

end Kept

section Resuming

variable [DecidableEq Hash] {lt : Library Params Hash}

theorem startWith_infoHash {magnet params : Params} {buf : List UInt8}
    (h : lt.startWith magnet buf = some params) :
    lt.infoHash params = lt.infoHash magnet := by
  by_cases hbuf : buf = []
  · rw [hbuf, startWith_nil] at h
    rw [Option.some.inj h]
  · rw [startWith_eq magnet hbuf] at h
    obtain ⟨atp, _, rfl⟩ := Option.map_eq_some_iff.mp h
    split_ifs with hsame
    · exact hsame
    · rfl

theorem Kept.step {w w' : World Params} (h : Kept lt w) {e : Event Params}
    (hok : Whole w e ∧ e.Delivers lt) (hstep : w.step lt e = some w') : Kept lt w' := by
  obtain ⟨hwhole, hdelivers⟩ := hok
  cases e with
  | launch magnet now =>
      rw [World.step] at hstep
      split at hstep
      · cases hstep
      · split at hstep
        · cases hstep
          exact h
        · next params hstart =>
            cases hstep
            refine ⟨h.file, h.saves, fun p hp => ?_⟩
            obtain rfl := Option.some.inj hp
            exact ⟨startWith_infoHash hstart, List.nil_suffix⟩
  | iterate it =>
      obtain ⟨p, hprogram, rfl⟩ := Option.map_eq_some_iff.mp hstep
      have hdatas : ∀ data ∈ p.main.iterationWrites it, ∃ params,
          data = lt.writeResumeDataBuf params :=
        fun data hdata => hdelivers data (Main.mem_iterationWrites hdata)
      cases hiterate : p.main.iterate it with
      | none => exact h.write hdatas fun p' hp' => by cases hp'
      | some main =>
          apply h.write hdatas
          intro p' hp'
          split_ifs at hp'
          obtain rfl := Option.some.inj hp'
          obtain ⟨hown, earlier, hearlier⟩ := h.program p hprogram
          refine ⟨hown, earlier, ?_⟩
          show earlier ++ main.resumeFiles = w.saves ++ p.main.iterationWrites it
          rw [Main.iterate_resumeFiles hiterate, ← List.append_assoc, hearlier]
  | killed it count part =>
      obtain ⟨p, hprogram, rfl⟩ := Option.map_eq_some_iff.mp hstep
      have hcut : w.cut (p.main.iterationWrites it) count part =
          w.write ((p.main.iterationWrites it).take count) := by
        cases part with
        | none => rfl
        | some part => exact World.cut_of_none w (hwhole p hprogram) _
      rw [hcut]
      refine h.write (fun data hdata => ?_) fun p' hp' => by cases hp'
      exact hdelivers data (Main.mem_iterationWrites (List.mem_of_mem_take hdata))

/-- **What is resumed.** As long as no kill falls into a write, a launch goes on from what any run
has saved last if that is of its torrent, and begins anew otherwise; and no run adds another torrent
than it was started for, or has its saves overtaken by another's. -/
theorem resumes_last_save (lt : Library Params Hash) (hlt : lt.Bencodes)
    (events : List (Event Params)) (hevents : ∀ e ∈ events, e.Delivers lt)
    (hwhole : Runs.Along (World.step lt) Whole .start events) :
    Runs.Always (World.step lt)
      (fun w =>
        (∀ magnet, lt.startWith magnet w.file =
          match w.saves.getLast? with
          | none => some magnet
          | some data =>
              (lt.readResumeData data).map fun atp => if lt.infoHash atp = lt.infoHash magnet then
                atp else magnet) ∧
        ∀ p, w.program = some p → p.Own lt w.saves)
      .start events := by
  have hstart : Kept lt (World.start : World Params) :=
    ⟨rfl, fun _ h => absurd h List.not_mem_nil, fun _ h => by cases h⟩
  have hok := hwhole.and (Runs.along_of_forall _ hevents)
  refine (Runs.always_of_along (fun _ _ _ h hok hstep => h.step hok hstep) hstart hok).mono
    fun w h => ⟨fun magnet => ?_, h.program⟩
  rw [h.file]
  cases hlast : w.saves.getLast? with
  | none =>
      rw [List.getLast?_eq_none_iff.mp hlast]
      exact startWith_nil magnet
  | some data =>
      obtain ⟨params, hdata⟩ := h.saves data (List.mem_of_getLast? hlast)
      rw [List.getLastD_eq_getLast?, hlast]
      exact startWith_eq magnet (hdata ▸ hlt.nonempty params)

end Resuming

theorem resumes_last_save_saved :
    bare.startWith 7 (Runs.final (World.step bare) .start savedAndKilled).file = some 7 ∧
      (Runs.final (World.step bare) .start savedAndKilled).saves = [bare.writeResumeDataBuf 7] :=
  ⟨((resumes_last_save bare bare_bencodes savedAndKilled savedAndKilled_delivers
    fun _ _ => ⟨trivial, fun _ _ => ⟨trivial, fun _ _ => ⟨trivial, fun _ _ => ⟨trivial, trivial⟩⟩⟩⟩).final.1 7).trans
      (by decide +kernel), by decide +kernel⟩

end NetworkHomework.Torrent
