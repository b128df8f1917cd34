import NetworkHomework.Base.Conversions
import NetworkHomework.Base.Loop

/-!
# `read_port`

The console clients read a port with `operator>>` and then skip what is left of the line. The loop
that does looks for a line feed only: when the extraction has failed, or no line feed is left, `get`
returns `EOF` on every turn, and the loop is not left. `readPort_ends_iff` says for which input it
is.
-/

namespace NetworkHomework.Text

open Conversions

/-- `std::cin`: what there is left to read, and the state. -/
structure IStream where
  rest : List UInt8
  eofbit : Bool
  failbit : Bool
deriving DecidableEq

namespace IStream

def good (cin : IStream) : Bool := !cin.eofbit && !cin.failbit

/-- `get()`; `none` is `EOF`. -/
def get (cin : IStream) : Option UInt8 × IStream :=
  if cin.good then
    match cin.rest with
    | [] => (none, { cin with eofbit := true, failbit := true })
    | c :: rest => (some c, { cin with rest := rest })
  else (none, { cin with failbit := true })

/-- What `operator>>` does before it extracts: it skips white space. -/
def sentry (cin : IStream) : IStream :=
  if cin.good then
    let rest := cin.rest.dropWhile isSpace
    ⟨rest, rest.isEmpty, rest.isEmpty⟩
  else { cin with failbit := true }

/-- `operator>>` for a `std::string`. -/
def extractString (host : List UInt8) (cin : IStream) : List UInt8 × IStream :=
  let cin := cin.sentry
  if cin.good then
    let more := cin.rest.dropWhile (! isSpace ·)
    (cin.rest.takeWhile (! isSpace ·), ⟨more, more.isEmpty, false⟩)
  else (host, cin)

/-- The sign of a numeral, and what is behind it. -/
def takeSign : List UInt8 → List UInt8 × List UInt8
  | 0x2b :: rest => ([0x2b], rest)
  | 0x2d :: rest => ([0x2d], rest)
  | rest => ([], rest)

/-- `operator>>` for a `uint16_t`. A number that does not fit gives the largest one and a failure;
behind a minus sign the number is negated modulo `2 ^ 16`. -/
def extractUInt16 (port : UInt16) (cin : IStream) : UInt16 × IStream :=
  let cin := cin.sentry
  if cin.good then
    let (sign, rest) := takeSign cin.rest
    let digits := rest.takeWhile isDigit
    let more := rest.dropWhile isDigit
    if digits = [] then (0, ⟨more, more.isEmpty, true⟩)
    else if decimal digits < 2 ^ 16 then
      let value := UInt16.ofNat (decimal digits)
      (if sign = [0x2d] then - value else value, ⟨more, more.isEmpty, false⟩)
    else (0xffff, ⟨more, more.isEmpty, true⟩)
  else (port, cin)

end IStream

/-- A turn of `while (std::cin.get() != '\n') ;`. -/
def skipTurn (cin : IStream) : Turn IStream :=
  let (c, cin) := cin.get
  if c = some 0x0a then .leave cin else .again cin

def readHost (cin : IStream) : List UInt8 × IStream := cin.extractString []

/-- `read_port`, with at most `fuel` turns of its loop. -/
def readPort (fuel : Nat) (cin : IStream) : Option (UInt16 × IStream) :=
  let (port, cin) := cin.extractUInt16 0
  (turns skipTurn fuel cin).map fun cin => (port, cin)

/-- What `main` asks for first, with `content` on the standard input. -/
def readAddress (fuel : Nat) (content : List UInt8) : Option (List UInt8 × UInt16 × IStream) :=
  let (host, cin) := readHost ⟨content, false, false⟩
  (readPort fuel cin).map fun (port, cin) => (host, port, cin)

/-! ### The loop -/

theorem skipTurn_of_not_good {cin : IStream} (hgood : cin.good = false) :
    skipTurn cin = .again { cin with failbit := true } := by
  rw [skipTurn, IStream.get, hgood]
  rfl

theorem not_ends_of_not_good {cin : IStream} (hgood : cin.good = false) : ¬ Ends skipTurn cin := by
  refine not_ends_of_invariant (fun s hs => ⟨_, skipTurn_of_not_good hs, ?_⟩) hgood
  rw [IStream.good, Bool.not_true, Bool.and_false]

theorem ends_skipTurn_iff (cin : IStream) :
    Ends skipTurn cin ↔ cin.good = true ∧ 0x0a ∈ cin.rest := by
  cases hgood : cin.good with
  | false => exact iff_of_false (not_ends_of_not_good hgood) (fun h => Bool.false_ne_true h.1)
  | true =>
      obtain ⟨rest, eofbit, failbit⟩ := cin
      induction rest with
      | nil =>
          have hend : skipTurn ⟨[], eofbit, failbit⟩ = .again ⟨[], true, true⟩ := by
            rw [skipTurn, IStream.get, hgood]
            rfl
          rw [ends_iff_of_again hend]
          exact iff_of_false (not_ends_of_not_good rfl) (fun h => List.not_mem_nil h.2)
      | cons c rest ih =>
          by_cases hc : c = 0x0a
          · subst hc
            have hleave : skipTurn ⟨0x0a :: rest, eofbit, failbit⟩ =
                .leave ⟨rest, eofbit, failbit⟩ := by
              rw [skipTurn, IStream.get, hgood]
              rfl
            exact iff_of_true (ends_of_leave hleave) ⟨rfl, List.mem_cons_self⟩
          · have hagain : skipTurn ⟨c :: rest, eofbit, failbit⟩ =
                .again ⟨rest, eofbit, failbit⟩ := by
              rw [skipTurn, IStream.get, hgood]
              exact if_neg (fun h => hc (Option.some.inj h))
            rw [ends_iff_of_again hagain, ih hgood, List.mem_cons]
            exact and_congr_right' ⟨Or.inr, fun h => h.resolve_left (Ne.symm hc)⟩

/-! ### The extraction -/

/-- The input that `read_port` reads a port from: blanks, a sign perhaps, the digits of a number
that fits, and somewhere behind them the end of the line. -/
structure PortLine where
  blanks : List UInt8
  sign : List UInt8
  digits : List UInt8
  more : List UInt8
  blanks_space : ∀ c ∈ blanks, isSpace c = true
  sign_mem : sign = [] ∨ sign = [0x2b] ∨ sign = [0x2d]
  digits_ne_nil : digits ≠ []
  digits_digit : ∀ c ∈ digits, isDigit c = true
  more_head : ∀ c ∈ more.head?, isDigit c = false
  fits : decimal digits < 2 ^ 16
  line_feed : 0x0a ∈ more

namespace PortLine

def content (l : PortLine) : List UInt8 := l.blanks ++ (l.sign ++ (l.digits ++ l.more))

def port (l : PortLine) : UInt16 :=
  if l.sign = [0x2d] then - UInt16.ofNat (decimal l.digits) else UInt16.ofNat (decimal l.digits)

end PortLine

theorem sentry_of_good {cin : IStream} (hgood : cin.good = true) :
    cin.sentry =
      ⟨cin.rest.dropWhile isSpace, (cin.rest.dropWhile isSpace).isEmpty,
        (cin.rest.dropWhile isSpace).isEmpty⟩ :=
  if_pos hgood

theorem sentry_good_iff (cin : IStream) :
    cin.sentry.good = true ↔ cin.good = true ∧ cin.rest.dropWhile isSpace ≠ [] := by
  cases hgood : cin.good with
  | false =>
      rw [IStream.sentry, hgood, if_neg Bool.false_ne_true, IStream.good, Bool.not_true,
        Bool.and_false]
      exact iff_of_false Bool.false_ne_true (fun h => Bool.false_ne_true h.1)
  | true =>
      rw [sentry_of_good hgood, IStream.good, Bool.and_self, Bool.not_eq_true',
        List.isEmpty_eq_false_iff]
      exact ⟨fun h => ⟨rfl, h⟩, fun h => h.2⟩

theorem takeSign_append (s : List UInt8) :
    (IStream.takeSign s).1 ++ (IStream.takeSign s).2 = s := by
  unfold IStream.takeSign
  split <;> rfl

theorem takeSign_mem (s : List UInt8) :
    (IStream.takeSign s).1 = [] ∨ (IStream.takeSign s).1 = [0x2b] ∨
    (IStream.takeSign s).1 = [0x2d] := by
  unfold IStream.takeSign
  split
  · exact Or.inr (Or.inl rfl)
  · exact Or.inr (Or.inr rfl)
  · exact Or.inl rfl

namespace PortLine

theorem content_ne_nil (l : PortLine) : l.content ≠ [] := by
  have hfeed : 0x0a ∈ l.content := by simp [content, l.line_feed]
  exact List.ne_nil_of_mem hfeed

theorem digits_eq_cons (l : PortLine) : ∃ d ds, l.digits = d :: ds ∧ isDigit d = true := by
  have hdigits := l.digits_digit
  cases hcons : l.digits with
  | nil => exact absurd hcons l.digits_ne_nil
  | cons d ds =>
      rw [hcons] at hdigits
      exact ⟨d, ds, rfl, hdigits d List.mem_cons_self⟩

theorem content_dropWhile (l : PortLine) :
    l.content.dropWhile isSpace = l.sign ++ (l.digits ++ l.more) := by
  rw [content, List.dropWhile_append_of_pos l.blanks_space]
  rcases l.sign_mem with hsign | hsign | hsign
  · obtain ⟨d, ds, hcons, hd⟩ := l.digits_eq_cons
    rw [hsign, hcons]
    exact List.dropWhile_cons_of_neg (by rw [isSpace_of_isDigit hd]; decide)
  · rw [hsign]
    exact List.dropWhile_cons_of_neg (by decide)
  · rw [hsign]
    exact List.dropWhile_cons_of_neg (by decide)

theorem takeSign_eq (l : PortLine) :
    IStream.takeSign (l.sign ++ (l.digits ++ l.more)) = (l.sign, l.digits ++ l.more) := by
  rcases l.sign_mem with hsign | hsign | hsign
  · obtain ⟨d, ds, hcons, hd⟩ := l.digits_eq_cons
    obtain ⟨hminus, hplus⟩ := not_sign_of_isDigit hd
    rw [hsign, hcons]
    unfold IStream.takeSign
    split
    · rename_i h
      exact absurd (List.cons.inj h).1 hplus
    · rename_i h
      exact absurd (List.cons.inj h).1 hminus
    · rfl
  · rw [hsign]
    rfl
  · rw [hsign]
    rfl

theorem digits_eq (l : PortLine) :
    (l.digits ++ l.more).takeWhile isDigit = l.digits ∧
    (l.digits ++ l.more).dropWhile isDigit = l.more := by
  rw [List.takeWhile_append_of_pos l.digits_digit, List.dropWhile_append_of_pos l.digits_digit]
  have hhead := l.more_head
  cases hmore : l.more with
  | nil => exact ⟨List.append_nil _, rfl⟩
  | cons c more =>
      rw [hmore] at hhead
      have hc : ¬ isDigit c = true := by simp [hhead c rfl]
      rw [List.takeWhile_cons_of_neg hc, List.dropWhile_cons_of_neg hc, List.append_nil]
      exact ⟨rfl, rfl⟩

theorem extract (l : PortLine) (port : UInt16) :
    IStream.extractUInt16 port ⟨l.content, false, false⟩ = (l.port, ⟨l.more, false, false⟩) := by
  have hsentry : IStream.sentry ⟨l.content, false, false⟩ =
      ⟨l.sign ++ (l.digits ++ l.more), false, false⟩ := by
    have hne : (l.sign ++ (l.digits ++ l.more)).isEmpty = false := by
      obtain ⟨d, ds, hcons, _⟩ := l.digits_eq_cons
      simp [hcons]
    rw [sentry_of_good rfl]
    dsimp only
    rw [l.content_dropWhile, hne]
  have hmore : l.more.isEmpty = false := by
    rw [List.isEmpty_eq_false_iff]
    exact List.ne_nil_of_mem l.line_feed
  rw [IStream.extractUInt16, hsentry]
  dsimp only
  rw [IStream.good, if_pos (by rfl), l.takeSign_eq]
  dsimp only
  rw [l.digits_eq.1, l.digits_eq.2, if_neg l.digits_ne_nil, if_pos l.fits, hmore, PortLine.port]

end PortLine

/-- An extraction that leaves the stream good, before the end of a line, has read the port of a
line. -/
theorem exists_portLine {port : UInt16} {cin : IStream}
    (hgood : (cin.extractUInt16 port).2.good = true)
    (hfeed : 0x0a ∈ (cin.extractUInt16 port).2.rest) :
    cin.good = true ∧ ∃ l : PortLine, l.content = cin.rest := by
  rw [IStream.extractUInt16] at hgood hfeed
  dsimp only at hgood hfeed
  by_cases hsentry : cin.sentry.good = true
  · obtain ⟨hcin, hne⟩ := (sentry_good_iff cin).mp hsentry
    have hrest : cin.sentry.rest = cin.rest.dropWhile isSpace := by rw [sentry_of_good hcin]
    rw [if_pos hsentry, hrest] at hgood hfeed
    have happend := takeSign_append (cin.rest.dropWhile isSpace)
    have hmem := takeSign_mem (cin.rest.dropWhile isSpace)
    cases hsigned : IStream.takeSign (cin.rest.dropWhile isSpace) with
    | mk sign rest =>
        rw [hsigned] at hgood hfeed happend hmem
        dsimp only at hgood hfeed happend hmem
        by_cases hdigits : rest.takeWhile isDigit = []
        · rw [if_pos hdigits] at hgood
          simp [IStream.good] at hgood
        · rw [if_neg hdigits] at hgood hfeed
          by_cases hfits : decimal (rest.takeWhile isDigit) < 2 ^ 16
          · rw [if_pos hfits] at hgood hfeed
            refine ⟨hcin, ⟨⟨cin.rest.takeWhile isSpace, sign, rest.takeWhile isDigit, rest.dropWhile isDigit,
              fun c hc => List.mem_takeWhile_imp hc, hmem, hdigits, fun c hc =>
                List.mem_takeWhile_imp hc,
              fun c hc => ?_, hfits, hfeed⟩, ?_⟩⟩
            · have hhead := List.head?_dropWhile_not isDigit rest
              rw [Option.mem_def.mp hc] at hhead
              simpa using hhead
            · rw [PortLine.content, List.takeWhile_append_dropWhile, happend,
                List.takeWhile_append_dropWhile]
          · rw [if_neg hfits] at hgood
            simp [IStream.good] at hgood
  · rw [if_neg hsentry] at hgood
    exact absurd hgood hsentry

/-! ### The end of the line -/

theorem ends_extract_iff (cin : IStream) (port : UInt16) :
    Ends skipTurn (cin.extractUInt16 port).2 ↔ cin.good = true ∧
    ∃ l : PortLine, l.content = cin.rest := by
  rw [ends_skipTurn_iff]
  constructor
  · intro ⟨hgood, hfeed⟩
    exact exists_portLine hgood hfeed
  · intro ⟨hgood, l, hcontent⟩
    have hcin : cin = ⟨l.content, false, false⟩ := by
      obtain ⟨rest, eofbit, failbit⟩ := cin
      simp only [IStream.good, Bool.and_eq_true, Bool.not_eq_true'] at hgood
      rw [hcontent, hgood.1, hgood.2]
    rw [hcin, l.extract]
    exact ⟨rfl, l.line_feed⟩

theorem readPort_isSome (fuel : Nat) (cin : IStream) :
    (readPort fuel cin).isSome = (turns skipTurn fuel (cin.extractUInt16 0).2).isSome := by
  rw [readPort, Option.isSome_map]

/-- **Termination of `read_port`.** It returns exactly if the stream it reads from is good, and what
is left on it is the number of a port and, somewhere behind it, the end of the line. -/
theorem readPort_ends_iff (cin : IStream) :
    (∃ fuel, (readPort fuel cin).isSome) ↔ cin.good = true ∧
    ∃ l : PortLine, l.content = cin.rest := by
  simp only [readPort_isSome]
  exact ends_extract_iff cin 0

theorem readAddress_isSome (fuel : Nat) (content : List UInt8) :
    (readAddress fuel content).isSome =
      (turns skipTurn fuel ((readHost ⟨content, false, false⟩).2.extractUInt16 0).2).isSome := by
  rw [readAddress, Option.isSome_map, readPort_isSome]

/-- No digits, a number that does not fit, no line feed behind the number, and nothing at all. -/
theorem readAddress_hangs :
    (¬ ∃ fuel, (readAddress fuel [0x68, 0x0a, 0x78, 0x0a]).isSome) ∧
      (¬ ∃ fuel, (readAddress fuel [0x68, 0x0a, 0x37, 0x30, 0x30, 0x30, 0x30, 0x0a]).isSome) ∧
        (¬ ∃ fuel, (readAddress fuel [0x68, 0x0a, 0x38, 0x30]).isSome) ∧
          ¬ ∃ fuel, (readAddress fuel []).isSome := by
  simp only [readAddress_isSome]
  refine ⟨fun h => ?_, fun h => ?_, fun h => ?_, fun h => ?_⟩
  · exact absurd ((ends_skipTurn_iff _).mp h) (by decide)
  · exact absurd ((ends_skipTurn_iff _).mp h) (by decide)
  · exact absurd ((ends_skipTurn_iff _).mp h) (by decide)
  · exact absurd ((ends_skipTurn_iff _).mp h) (by decide)

/-! ### From the start of the program -/

theorem readHost_stream (content : List UInt8) :
    (readHost ⟨content, false, false⟩).2 =
      ⟨(content.dropWhile isSpace).dropWhile (! isSpace ·),
        ((content.dropWhile isSpace).dropWhile (! isSpace ·)).isEmpty,
        (content.dropWhile isSpace).isEmpty⟩ := by
  rw [readHost, IStream.extractString, sentry_of_good rfl]
  cases content.dropWhile isSpace with
  | nil => rfl
  | cons c rest => rfl

theorem PortLine.blanks_ne_nil_iff (l : PortLine) :
    l.blanks ≠ [] ↔ ∀ c ∈ l.content.head?, isSpace c = true := by
  constructor
  · intro hne c hc
    obtain ⟨b, blanks, hblanks⟩ := List.exists_cons_of_ne_nil hne
    rw [content, hblanks] at hc
    cases hc
    exact l.blanks_space c (by rw [hblanks]; exact List.mem_cons_self)
  · intro hhead hnil
    obtain ⟨c, hc⟩ := Option.isSome_iff_exists.mp (List.isSome_head?.mpr l.content_ne_nil)
    have hfront := List.head?_dropWhile_not isSpace l.content
    have hcontent : l.content = l.sign ++ (l.digits ++ l.more) := by
      rw [content, hnil, List.nil_append]
    rw [l.content_dropWhile, ← hcontent, hc] at hfront
    simp [hhead c hc] at hfront

/-- What has to stand on the standard input of a client that gets as far as its socket. -/
theorem readAddress_ends_iff (content : List UInt8) :
    (∃ fuel, (readAddress fuel content).isSome) ↔
      ∃ blanks host, ∃ l : PortLine, content = blanks ++ host ++ l.content ∧
      (∀ c ∈ blanks, isSpace c = true) ∧
        host ≠ [] ∧ (∀ c ∈ host, isSpace c = false) ∧ l.blanks ≠ [] := by
  have hends := ends_extract_iff (readHost ⟨content, false, false⟩).2 0
  simp only [readAddress_isSome]
  refine hends.trans ?_
  rw [readHost_stream]
  constructor
  · intro ⟨_, l, hcontent⟩
    obtain ⟨blanks, host, hsplit, hblanks, hne, hhost, hhead⟩ :=
      Numerals.exists_word_of_rest hcontent.symm l.content_ne_nil
    exact ⟨blanks, host, l, hsplit, hblanks, hne, hhost, l.blanks_ne_nil_iff.mpr hhead⟩
  · intro ⟨blanks, host, l, hcontent, hblanks, hne, hhost, hblank⟩
    obtain ⟨hskipped, -, hmore⟩ :=
      Numerals.word_behind_blanks hne hhost hblanks (l.blanks_ne_nil_iff.mp hblank)
    have hleft : l.content.isEmpty = false := List.isEmpty_eq_false_iff.mpr l.content_ne_nil
    have hword : (host ++ l.content).isEmpty = false := by
      rw [List.isEmpty_eq_false_iff]
      exact List.append_ne_nil_of_left_ne_nil hne _
    rw [hcontent, hskipped, hmore, hleft, hword]
    exact ⟨rfl, l, rfl⟩

end NetworkHomework.Text
