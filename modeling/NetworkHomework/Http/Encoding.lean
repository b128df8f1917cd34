import NetworkHomework.Http.Provider

/-!
# Percent encoding

The value of a parameter is encoded twice on its way: `encode_query_param` when the query is put
together, `encode_url` when the request line is written. The server decodes once. `encode_url`
leaves `%` alone, so decoding once is enough (`decodeUrl_encodeUrl`), and every value comes through
(`decodeUrl_wire`).
-/

namespace NetworkHomework.Http

open Conversions

/-! ### Hexadecimal digits -/

def hexDigit (n : Nat) : UInt8 := UInt8.ofNat (if n < 10 then 0x30 + n else 0x37 + n)

/-- `is_hex`, with the value of the digit. -/
def isHex (c : UInt8) : Option Nat :=
  if 0x30 ≤ c ∧ c ≤ 0x39 then some (c.toNat - 0x30)
  else if 0x41 ≤ c ∧ c ≤ 0x46 then some (c.toNat - 0x41 + 10)
  else if 0x61 ≤ c ∧ c ≤ 0x66 then some (c.toNat - 0x61 + 10)
  else none

/-- The loop of `from_hex_to_i`; behind the last character there is a terminator. -/
def hexLoop (val : Nat) : Nat → List UInt8 → Option Nat
  | 0, _ => some val
  | _ + 1, [] => none
  | cnt + 1, c :: s => if c = 0 then none else (isHex c).bind fun v => hexLoop (val * 16 + v) cnt s

/-- `from_hex_to_i` on what stands from its position on. -/
def fromHexToI (s : List UInt8) (cnt : Nat) : Option Nat := if s = [] then none else hexLoop 0 cnt s

def toUtf8 (code : Nat) : List UInt8 :=
  let continuation (shift : Nat) : UInt8 := UInt8.ofNat (0x80 ||| (code >>> shift &&& 0x3f))
  if code < 0x80 then [UInt8.ofNat (code &&& 0x7f)]
  else if code < 0x800 then [UInt8.ofNat (0xc0 ||| (code >>> 6 &&& 0x1f)), continuation 0]
  else if code < 0xd800 then [UInt8.ofNat (0xe0 ||| (code >>> 12 &&& 0xf)), continuation 6,
    continuation 0]
  else if code < 0xe000 then []
  else if code < 0x10000 then [UInt8.ofNat (0xe0 ||| (code >>> 12 &&& 0xf)), continuation 6,
    continuation 0]
  else if code < 0x110000 then
    [UInt8.ofNat (0xf0 ||| (code >>> 18 &&& 0x7)), continuation 12, continuation 6, continuation 0]
  else []

theorem isHex_hexDigit {n : Nat} (hn : n < 16) : isHex (hexDigit n) = some n := by
  have hall : ∀ n < 16, isHex (hexDigit n) = some n := by decide
  exact hall n hn

theorem hexDigit_ne_zero {n : Nat} (hn : n < 16) : hexDigit n ≠ 0 := by
  have hall : ∀ n < 16, hexDigit n ≠ 0 := by decide
  exact hall n hn

theorem hexLoop_hexDigit (val : Nat) {n : Nat} (hn : n < 16) (cnt : Nat) (s : List UInt8) :
    hexLoop val (cnt + 1) (hexDigit n :: s) = hexLoop (val * 16 + n) cnt s := by
  rw [hexLoop, if_neg (hexDigit_ne_zero hn), isHex_hexDigit hn, Option.bind_some]

/-! ### The encoders -/

def percent (c : UInt8) : List UInt8 := [0x25, hexDigit (c.toNat / 16), hexDigit (c.toNat % 16)]

def isAlnum (c : UInt8) : Bool :=
  isDigit c || (0x41 ≤ c && c ≤ 0x5a) || (0x61 ≤ c && c ≤ 0x7a)

/-- What `encode_query_param` leaves as it is: letters, digits and `-_.!~*'()`. -/
def isUnreserved (c : UInt8) : Bool :=
  isAlnum c || [(0x2d : UInt8), 0x5f, 0x2e, 0x21, 0x7e, 0x2a, 0x27, 0x28, 0x29].contains c

def encodeQueryParam (value : List UInt8) : List UInt8 :=
  value.flatMap fun c => if isUnreserved c then [c] else percent c

/-- The `switch` of `encode_url`. -/
def urlEscape (c : UInt8) : List UInt8 :=
  if c = 0x20 then ascii "%20"
  else if c = 0x2b then ascii "%2B"
  else if c = 0x0d then ascii "%0D"
  else if c = 0x0a then ascii "%0A"
  else if c = 0x27 then ascii "%27"
  else if c = 0x2c then ascii "%2C"
  else if c = 0x3b then ascii "%3B"
  else if 0x80 ≤ c then percent c
  else [c]

/-- `encode_url`, which stops at a terminator. -/
def encodeUrl : List UInt8 → List UInt8
  | [] => []
  | c :: s => if c = 0 then [] else urlEscape c ++ encodeUrl s

/-- What `encode_url` escapes: blanks, plus signs, line ends, three punctuation marks, and what is
not ASCII. -/
def isEscaped (c : UInt8) : Bool :=
  [(0x20 : UInt8), 0x2b, 0x0d, 0x0a, 0x27, 0x2c, 0x3b].contains c || 0x80 ≤ c

theorem urlEscape_eq (c : UInt8) : urlEscape c = if isEscaped c then percent c else [c] := by
  by_cases hlist : c ∈ [(0x20 : UInt8), 0x2b, 0x0d, 0x0a, 0x27, 0x2c, 0x3b]
  · have hcontains : isEscaped c = true := by
      rw [isEscaped, List.contains_iff_mem.mpr hlist, Bool.true_or]
    rw [if_pos hcontains]
    simp only [List.mem_cons, List.not_mem_nil, or_false] at hlist
    rcases hlist with rfl | rfl | rfl | rfl | rfl | rfl | rfl <;> rfl
  · have hcontains : [(0x20 : UInt8), 0x2b, 0x0d, 0x0a, 0x27, 0x2c, 0x3b].contains c = false := by
      simpa using hlist
    simp only [List.mem_cons, List.not_mem_nil, or_false, not_or] at hlist
    obtain ⟨h₁, h₂, h₃, h₄, h₅, h₆, h₇⟩ := hlist
    rw [urlEscape, if_neg h₁, if_neg h₂, if_neg h₃, if_neg h₄, if_neg h₅, if_neg h₆,
      if_neg h₇, isEscaped,
      hcontains, Bool.false_or]
    simp only [decide_eq_true_eq]

theorem encodeUrl_cons {c : UInt8} (hc : c ≠ 0) (s : List UInt8) :
    encodeUrl (c :: s) = urlEscape c ++ encodeUrl s := by rw [encodeUrl, if_neg hc]

theorem encodeUrl_append {s : List UInt8} (hs : 0 ∉ s) (t : List UInt8) :
    encodeUrl (s ++ t) = encodeUrl s ++ encodeUrl t := by
  induction s with
  | nil => rfl
  | cons c s ih =>
      have hc : c ≠ 0 := fun h => hs (h ▸ List.mem_cons_self)
      rw [List.cons_append, encodeUrl_cons hc, encodeUrl_cons hc, ih fun h =>
        hs (List.mem_cons_of_mem c h),
        List.append_assoc]

/-! ### The decoder -/

/-- What a turn of `decode_url` appends, at a character with `s` behind it, and by how much more
than one it moves on. -/
def decodeTurn (plus : Bool) (c : UInt8) (s : List UInt8) : List UInt8 × Nat :=
  if c = 0x25 ∧ s ≠ [] then
    if s.head? = some 0x75 then
      match fromHexToI s.tail 4 with
      | some val => (toUtf8 val, 5)
      | none => ([c], 0)
    else
      match fromHexToI s 2 with
      | some val => ([UInt8.ofNat val], 2)
      | none => ([c], 0)
  else if plus ∧ c = 0x2b then ([0x20], 0)
  else ([c], 0)

/-- The loop of `decode_url`, with so many characters still to pass over. -/
def decodeLoop (plus : Bool) : Nat → List UInt8 → List UInt8
  | _, [] => []
  | skip + 1, _ :: s => decodeLoop plus skip s
  | 0, c :: s => (decodeTurn plus c s).1 ++ decodeLoop plus (decodeTurn plus c s).2 s

/-- `decode_url`; `plus` is `convert_plus_to_space`. -/
def decodeUrl (plus : Bool) (s : List UInt8) : List UInt8 := decodeLoop plus 0 s

theorem decodeLoop_skip (plus : Bool) (skip : Nat) (s : List UInt8) :
    decodeLoop plus skip s = decodeUrl plus (s.drop skip) := by
  induction skip generalizing s with
  | zero => rfl
  | succ skip ih =>
      cases s with
      | nil =>
          rw [List.drop_nil]
          rfl
      | cons c s => exact ih s

theorem decodeUrl_cons (plus : Bool) (c : UInt8) (s : List UInt8) :
    decodeUrl plus (c :: s) =
      (decodeTurn plus c s).1 ++ decodeUrl plus (s.drop (decodeTurn plus c s).2) := by
  rw [← decodeLoop_skip]
  rfl

theorem decodeTurn_other {plus : Bool} {c : UInt8} (hpercent : c ≠ 0x25)
    (hplus : plus = false ∨ c ≠ 0x2b) (s : List UInt8) : decodeTurn plus c s = ([c], 0) := by
  have hnot : ¬ (plus = true ∧ c = 0x2b) := by
    rintro ⟨hconvert, hc⟩
    rcases hplus with hkeep | hne
    · exact Bool.false_ne_true (hkeep.symm.trans hconvert)
    · exact hne hc
  rw [decodeTurn, if_neg fun h => hpercent h.1, if_neg hnot]

theorem decodeUrl_other {plus : Bool} {c : UInt8} (hpercent : c ≠ 0x25)
    (hplus : plus = false ∨ c ≠ 0x2b) (s : List UInt8) :
    decodeUrl plus (c :: s) = c :: decodeUrl plus s := by
  rw [decodeUrl_cons, decodeTurn_other hpercent hplus]
  rfl

theorem decodeUrl_percent (plus : Bool) (c : UInt8) (s : List UInt8) :
    decodeUrl plus (percent c ++ s) = c :: decodeUrl plus s := by
  have hlt := c.toNat_lt
  have hhigh : c.toNat / 16 < 16 := by omega
  have hlow : c.toNat % 16 < 16 := by omega
  have hu : hexDigit (c.toNat / 16) ≠ 0x75 := by
    have hall : ∀ n < 16, hexDigit n ≠ 0x75 := by decide
    exact hall _ hhigh
  have hval : fromHexToI (hexDigit (c.toNat / 16) :: hexDigit (c.toNat % 16) :: s) 2 =
      some c.toNat := by
    have hsum : (0 * 16 + c.toNat / 16) * 16 + c.toNat % 16 = c.toNat := by omega
    rw [fromHexToI, if_neg (List.cons_ne_nil _ _), hexLoop_hexDigit _ hhigh,
      hexLoop_hexDigit _ hlow, hsum,
      hexLoop]
  have hturn : decodeTurn plus 0x25 (hexDigit (c.toNat / 16) :: hexDigit (c.toNat % 16) :: s) =
      ([c], 2) := by
    rw [decodeTurn, if_pos ⟨rfl, List.cons_ne_nil _ _⟩, if_neg (by simpa using hu), hval]
    simp
  change decodeUrl plus (0x25 :: hexDigit (c.toNat / 16) :: hexDigit (c.toNat % 16) :: s) = _
  rw [decodeUrl_cons, hturn]
  rfl

/-! ### Decoding once is enough -/

theorem isEscaped_ne {c d : UInt8} (hc : isEscaped c = true) (hd : isEscaped d = false) :
    c ≠ d := by
  rintro rfl
  exact Bool.false_ne_true (hd.symm.trans hc)

theorem isHex_of_isEscaped {c : UInt8} (hc : isEscaped c = true) : isHex c = none := by
  rw [isEscaped, Bool.or_eq_true, List.contains_iff_mem, decide_eq_true_eq] at hc
  rcases hc with hlist | hlarge
  · simp only [List.mem_cons, List.not_mem_nil, or_false] at hlist
    rcases hlist with rfl | rfl | rfl | rfl | rfl | rfl | rfl <;> rfl
  · rw [UInt8.le_iff_toNat_le] at hlarge
    have hdigit : ¬ (0x30 ≤ c ∧ c ≤ 0x39) := by
      simp only [UInt8.le_iff_toNat_le, not_and]
      simp at hlarge ⊢
      omega
    have hupper : ¬ (0x41 ≤ c ∧ c ≤ 0x46) := by
      simp only [UInt8.le_iff_toNat_le, not_and]
      simp at hlarge ⊢
      omega
    have hlower : ¬ (0x61 ≤ c ∧ c ≤ 0x66) := by
      simp only [UInt8.le_iff_toNat_le, not_and]
      simp at hlarge ⊢
      omega
    rw [isHex, if_neg hdigit, if_neg hupper, if_neg hlower]

theorem encodeUrl_of_isEscaped {c : UInt8} (hzero : c ≠ 0) (hc : isEscaped c = true)
    (s : List UInt8) :
    encodeUrl (c :: s) = percent c ++ encodeUrl s := by
  rw [encodeUrl_cons hzero, urlEscape_eq, if_pos hc]

theorem encodeUrl_of_not_isEscaped {c : UInt8} (hzero : c ≠ 0) (hc : isEscaped c = false)
    (s : List UInt8) :
    encodeUrl (c :: s) = c :: encodeUrl s := by
  rw [encodeUrl_cons hzero, urlEscape_eq, if_neg (by rw [hc]; exact Bool.false_ne_true)]
  rfl

theorem hexLoop_encodeUrl (val cnt : Nat) (s : List UInt8) :
    hexLoop val cnt (encodeUrl s) = hexLoop val cnt s := by
  induction cnt generalizing val s with
  | zero => rw [hexLoop, hexLoop]
  | succ cnt ih =>
      cases s with
      | nil => rfl
      | cons c s =>
          by_cases hzero : c = 0
          · rw [encodeUrl, if_pos hzero, hexLoop, hexLoop, if_pos hzero]
          · cases hc : isEscaped c with
            | true =>
                have hpercent : isHex 0x25 = none := by decide
                rw [encodeUrl_of_isEscaped hzero hc]
                change hexLoop val (cnt + 1) (0x25 :: _) = _
                rw [hexLoop, hexLoop, hpercent, isHex_of_isEscaped hc, if_neg hzero]
                rfl
            | false =>
                rw [encodeUrl_of_not_isEscaped hzero hc, hexLoop, hexLoop, if_neg hzero,
                  if_neg hzero]
                exact congrArg _ (funext fun v => ih _ _)

theorem drop_encodeUrl {val cnt v : Nat} {s : List UInt8} (h : hexLoop val cnt s = some v) :
    (encodeUrl s).drop cnt = encodeUrl (s.drop cnt) := by
  induction cnt generalizing val s with
  | zero => rfl
  | succ cnt ih =>
      cases s with
      | nil => rfl
      | cons c s =>
          rw [hexLoop] at h
          split_ifs at h with hzero
          obtain ⟨digit, hdigit, h⟩ := Option.bind_eq_some_iff.mp h
          have hplain : isEscaped c = false := by
            by_contra hescaped
            rw [isHex_of_isEscaped (Bool.eq_true_of_not_eq_false hescaped)] at hdigit
            cases hdigit
          rw [encodeUrl_of_not_isEscaped hzero hplain]
          exact ih h

theorem encodeUrl_eq_nil_iff {s : List UInt8} (hs : 0 ∉ s) : encodeUrl s = [] ↔ s = [] := by
  cases s with
  | nil => exact iff_of_true rfl rfl
  | cons c s =>
      have hzero : c ≠ 0 := fun h => hs (h ▸ List.mem_cons_self)
      refine iff_of_false (fun h => ?_) (List.cons_ne_nil c s)
      cases hc : isEscaped c with
      | true => exact List.cons_ne_nil _ _ ((encodeUrl_of_isEscaped hzero hc s).symm.trans h)
      | false => exact List.cons_ne_nil _ _ ((encodeUrl_of_not_isEscaped hzero hc s).symm.trans h)

theorem fromHexToI_encodeUrl {s : List UInt8} (hs : 0 ∉ s) (cnt : Nat) :
    fromHexToI (encodeUrl s) cnt = fromHexToI s cnt := by
  rw [fromHexToI, fromHexToI, hexLoop_encodeUrl]
  simp only [encodeUrl_eq_nil_iff hs]

theorem head_encodeUrl {c : UInt8} (hc : isEscaped c = false) (hpercent : c ≠ 0x25) {s : List UInt8}
    (hs : 0 ∉ s) : (encodeUrl s).head? = some c ↔ s.head? = some c := by
  cases s with
  | nil => exact Iff.rfl
  | cons d s =>
      have hzero : d ≠ 0 := fun h => hs (h ▸ List.mem_cons_self)
      cases hd : isEscaped d with
      | true =>
          rw [encodeUrl_of_isEscaped hzero hd]
          refine iff_of_false (fun h => ?_) fun h => ?_
          · exact hpercent (Option.some.inj h).symm
          · exact isEscaped_ne hd hc (Option.some.inj h)
      | false =>
          rw [encodeUrl_of_not_isEscaped hzero hd]
          exact Iff.rfl

theorem decodeTurn_encodeUrl (plus : Bool) (c : UInt8) {s : List UInt8} (hs : 0 ∉ s) :
    decodeTurn plus c (encodeUrl s) = decodeTurn plus c s ∧
      (encodeUrl s).drop (decodeTurn plus c s).2 = encodeUrl (s.drop (decodeTurn plus c s).2) := by
  have hu : isEscaped 0x75 = false := by decide
  have hhead := head_encodeUrl hu (by decide) hs
  have hnil : c = 0x25 ∧ encodeUrl s ≠ [] ↔ c = 0x25 ∧ s ≠ [] :=
    and_congr_right fun _ => not_congr (encodeUrl_eq_nil_iff hs)
  rw [decodeTurn, decodeTurn, fromHexToI_encodeUrl hs]
  by_cases hpercent : c = 0x25 ∧ s ≠ []
  · rw [if_pos (hnil.mpr hpercent), if_pos hpercent]
    by_cases hunicode : s.head? = some 0x75
    · rw [if_pos (hhead.mpr hunicode), if_pos hunicode]
      obtain ⟨t, rfl⟩ : ∃ t, s = 0x75 :: t := ⟨s.tail, (List.cons_head?_tail hunicode).symm⟩
      have ht : 0 ∉ t := fun h => hs (List.mem_cons_of_mem _ h)
      rw [encodeUrl_of_not_isEscaped (by decide) hu, List.tail_cons, List.tail_cons,
        fromHexToI_encodeUrl ht]
      cases hval : fromHexToI t 4 with
      | none => exact ⟨rfl, (encodeUrl_of_not_isEscaped (by decide) hu t).symm⟩
      | some val =>
          rw [fromHexToI] at hval
          split_ifs at hval
          exact ⟨rfl, drop_encodeUrl hval⟩
    · rw [if_neg (fun h => hunicode (hhead.mp h)), if_neg hunicode]
      cases hval : fromHexToI s 2 with
      | none => exact ⟨rfl, rfl⟩
      | some val =>
          rw [fromHexToI] at hval
          split_ifs at hval
          exact ⟨rfl, drop_encodeUrl hval⟩
  · rw [if_neg fun h => hpercent (hnil.mp h), if_neg hpercent]
    split_ifs <;> exact ⟨rfl, rfl⟩

/-- **`encode_url` is transparent.** Decoding what it makes of a text is decoding the text. -/
theorem decodeUrl_encodeUrl {plus : Bool} {s : List UInt8} (hs : 0 ∉ s)
    (hplus : plus = false ∨ 0x2b ∉ s) :
    decodeUrl plus (encodeUrl s) = decodeUrl plus s := by
  induction hn : s.length using Nat.strong_induction_on generalizing s with
  | _ n ih =>
      cases s with
      | nil => rfl
      | cons c s =>
          have hzero : c ≠ 0 := fun h => hs (h ▸ List.mem_cons_self)
          have hs' : 0 ∉ s := fun h => hs (List.mem_cons_of_mem c h)
          rw [List.length_cons] at hn
          have hrest : ∀ k, decodeUrl plus (encodeUrl (s.drop k)) = decodeUrl plus (s.drop k) := by
            intro k
            have hlength := List.length_drop (l := s) (i := k)
            refine ih _ (by omega) (fun h => hs' (List.mem_of_mem_drop h))
              (hplus.imp_right fun h h' => ?_) rfl
            exact h (List.mem_cons_of_mem c (List.mem_of_mem_drop h'))
          cases hc : isEscaped c with
          | true =>
              have hpercent : c ≠ 0x25 := isEscaped_ne hc (by decide)
              have hc' : plus = false ∨ c ≠ 0x2b := hplus.imp_right fun h h' =>
                  h (h' ▸ List.mem_cons_self)
              rw [encodeUrl_of_isEscaped hzero hc, decodeUrl_percent, decodeUrl_other hpercent hc']
              exact congrArg (c :: ·) (hrest 0)
          | false =>
              obtain ⟨hturn, hdrop⟩ := decodeTurn_encodeUrl plus c hs'
              rw [encodeUrl_of_not_isEscaped hzero hc, decodeUrl_cons, decodeUrl_cons, hturn,
                hdrop, hrest]

/-! ### A value on the wire -/

/-- What a value of a parameter looks like in the request line. -/
def wire (value : List UInt8) : List UInt8 := encodeUrl (encodeQueryParam value)

/-- The characters that a value on the wire can have. -/
def isWire (c : UInt8) : Bool := (isUnreserved c && c != 0x27) || c == 0x25

theorem isWire_hexDigit {n : Nat} (hn : n < 16) :
    isUnreserved (hexDigit n) = true ∧ isWire (hexDigit n) = true := by
  have hall : ∀ n < 16, isUnreserved (hexDigit n) = true ∧ isWire (hexDigit n) = true := by decide
  exact hall n hn

theorem mem_percent {c d : UInt8} (hd : d ∈ percent c) : d = 0x25 ∨ ∃ n < 16, d = hexDigit n := by
  have hlt := c.toNat_lt
  simp only [percent, List.mem_cons, List.not_mem_nil, or_false] at hd
  rcases hd with rfl | rfl | rfl
  · exact Or.inl rfl
  · exact Or.inr ⟨c.toNat / 16, by omega, rfl⟩
  · exact Or.inr ⟨c.toNat % 16, by omega, rfl⟩

theorem mem_encodeQueryParam {value : List UInt8} {c : UInt8} (hc : c ∈ encodeQueryParam value) :
    isUnreserved c = true ∨ c = 0x25 := by
  obtain ⟨d, _, hc⟩ := List.mem_flatMap.mp hc
  split_ifs at hc with hd
  · obtain rfl := List.mem_singleton.mp hc
    exact Or.inl hd
  · rcases mem_percent hc with rfl | ⟨n, hn, rfl⟩
    · exact Or.inr rfl
    · exact Or.inl (isWire_hexDigit hn).1

theorem mem_encodeUrl {s : List UInt8} {c : UInt8} (hc : c ∈ encodeUrl s) :
    (c ∈ s ∧ isEscaped c = false) ∨ c = 0x25 ∨ ∃ n < 16, c = hexDigit n := by
  induction s with
  | nil => cases hc
  | cons d s ih =>
      rw [encodeUrl] at hc
      split_ifs at hc with hzero
      · cases hc
      · rw [urlEscape_eq] at hc
        rcases List.mem_append.mp hc with hfirst | hrest
        · split_ifs at hfirst with hd
          · exact Or.inr (mem_percent hfirst)
          · obtain rfl := List.mem_singleton.mp hfirst
            exact Or.inl ⟨List.mem_cons_self, Bool.eq_false_of_not_eq_true hd⟩
        · exact (ih hrest).imp_left fun ⟨hmem, hplain⟩ => ⟨List.mem_cons_of_mem d hmem, hplain⟩

theorem isWire_of_mem {value : List UInt8} {c : UInt8} (hc : c ∈ wire value) : isWire c = true := by
  rcases mem_encodeUrl hc with ⟨hmem, hplain⟩ | rfl | ⟨n, hn, rfl⟩
  · rcases mem_encodeQueryParam hmem with hunreserved | rfl
    · have hquote : c ≠ 0x27 := by
        rintro rfl
        exact absurd hplain (by decide)
      rw [isWire, hunreserved, Bool.true_and, bne_iff_ne.mpr hquote, Bool.true_or]
    · rfl
  · rfl
  · exact (isWire_hexDigit hn).2

theorem not_mem_wire {d : UInt8} (hd : isWire d = false) (value : List UInt8) : d ∉ wire value :=
  fun h =>
  Bool.false_ne_true (hd.symm.trans (isWire_of_mem h))

theorem not_mem_encodeQueryParam {d : UInt8} (hd : isUnreserved d = false) (hpercent : d ≠ 0x25)
    (value : List UInt8) : d ∉ encodeQueryParam value := by
  intro h
  rcases mem_encodeQueryParam h with hunreserved | rfl
  · exact Bool.false_ne_true (hd.symm.trans hunreserved)
  · exact hpercent rfl

theorem decodeUrl_encodeQueryParam (plus : Bool) (value : List UInt8) :
    decodeUrl plus (encodeQueryParam value) = value := by
  induction value with
  | nil => rfl
  | cons c value ih =>
      rw [encodeQueryParam, List.flatMap_cons]
      split_ifs with hc
      · have hne : ∀ d, isUnreserved d = false → c ≠ d := by
          rintro d hd rfl
          exact Bool.false_ne_true (hd.symm.trans hc)
        change decodeUrl plus (c :: encodeQueryParam value) = _
        rw [decodeUrl_other (hne _ (by decide)) (Or.inr (hne _ (by decide))), ih]
      · rw [decodeUrl_percent]
        exact congrArg (c :: ·) ih

theorem decodeUrl_wire (plus : Bool) (value : List UInt8) :
    decodeUrl plus (wire value) = value := by
  have hzero : 0 ∉ encodeQueryParam value := not_mem_encodeQueryParam (by decide) (by decide) value
  have hplus : 0x2b ∉ encodeQueryParam value :=
    not_mem_encodeQueryParam (by decide) (by decide) value
  rw [wire, decodeUrl_encodeUrl hzero (Or.inr hplus), decodeUrl_encodeQueryParam]

theorem wire_injective : Function.Injective wire := by
  intro value value' h
  rw [← decodeUrl_wire false value, h, decodeUrl_wire]

end NetworkHomework.Http
