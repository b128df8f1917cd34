import NetworkHomework.Http.Headers

/-!
# Chunks

In a chunked content each piece stands behind its size in hexadecimal digits, and the headers of a
trailer may stand behind the last one. `read_content_chunked` takes it apart, and notices when an
end is missing: what has come of a chunk is handed out, what has come of its size never passes for
another piece (`readChunk_chunk`, `readChunk_cut`).
-/

namespace NetworkHomework.Http

open Conversions

/-! ### Sizes -/

def charset (n : Nat) : UInt8 := UInt8.ofNat (if n < 10 then 0x30 + n else 0x57 + n)

/-- The loop of `from_i_to_hex`, with what it has put together. -/
def fromIToHexLoop (n : Nat) (ret : List UInt8) : List UInt8 :=
  if n / 16 > 0 then fromIToHexLoop (n / 16) (charset (n % 16) :: ret) else charset (n % 16) :: ret
termination_by n
decreasing_by omega

def fromIToHex (n : Nat) : List UInt8 := fromIToHexLoop n []

def isHexDigit (c : UInt8) : Bool := (isHex c).isSome

def hexValue (digits : List UInt8) : Nat := digits.foldl (fun m c => 16 * m + (isHex c).getD 0) 0

def ulongMax : Nat := 2 ^ 64 - 1

def takeSign : List UInt8 → Bool × List UInt8
  | 0x2d :: rest => (true, rest)
  | 0x2b :: rest => (false, rest)
  | rest => (false, rest)

/-- Takes an `0x` off, if a digit stands behind it. -/
def drop0x : List UInt8 → List UInt8
  | 0x30 :: x :: c :: rest =>
      if (x = 0x78 ∨ x = 0x58) ∧ isHexDigit c = true then c :: rest else 0x30 :: x :: c :: rest
  | rest => rest

/-- `std::strtoul` in base sixteen, which skips white space, a sign and an `0x` and stops behind the
digits; `none` if there are none. -/
def strtoul16 (s : List UInt8) : Option Nat :=
  let (negative, s) := takeSign ((cString s).dropWhile isSpace)
  let digits := (drop0x s).takeWhile isHexDigit
  if digits = [] then none
  else if hexValue digits > ulongMax then some ulongMax
  else some (if negative then (2 ^ 64 - hexValue digits) % 2 ^ 64 else hexValue digits)

theorem isHex_charset {n : Nat} (hn : n < 16) : isHex (charset n) = some n := by
  have hall : ∀ n < 16, isHex (charset n) = some n := by decide
  exact hall n hn

theorem fromIToHexLoop_append (n : Nat) (ret : List UInt8) :
    fromIToHexLoop n ret = fromIToHex n ++ ret := by
  induction n using Nat.strong_induction_on generalizing ret with
  | _ n ih =>
      rw [fromIToHex, fromIToHexLoop.eq_def n ret, fromIToHexLoop.eq_def n []]
      split_ifs with hmore
      · rw [ih _ (by omega), ih _ (by omega) [charset (n % 16)], List.append_assoc]
        rfl
      · rfl

theorem fromIToHex_digits {n : Nat} (hn : 0 < n / 16) :
    fromIToHex n = fromIToHex (n / 16) ++ [charset (n % 16)] := by
  rw [← fromIToHexLoop_append (n / 16), fromIToHex, fromIToHexLoop, if_pos hn]

theorem fromIToHex_digit {n : Nat} (hn : n < 16) : fromIToHex n = [charset n] := by
  have hlast : ¬ n / 16 > 0 := by omega
  rw [fromIToHex, fromIToHexLoop, if_neg hlast, Nat.mod_eq_of_lt hn]

theorem hexValue_concat (digits : List UInt8) (c : UInt8) :
    hexValue (digits ++ [c]) = 16 * hexValue digits + (isHex c).getD 0 := by
  rw [hexValue, List.foldl_append]
  rfl

/-- The digits of a number, as far as they have come: all of them make the number, and some of them
a smaller one, which is zero only if the number is. -/
theorem fromIToHex_front {n : Nat} {digits : List UInt8} (hdigits : digits <+: fromIToHex n) :
    (∀ c ∈ digits, isHexDigit c = true) ∧ hexValue digits ≤ n ∧
    (digits ≠ [] → 0 < n → 0 < hexValue digits) ∧
      (digits = fromIToHex n → hexValue digits = n) := by
  induction n using Nat.strong_induction_on generalizing digits with
  | _ n ih =>
      have hmod : n % 16 < 16 := Nat.mod_lt _ (by decide)
      by_cases hmore : 0 < n / 16
      · rw [fromIToHex_digits hmore] at hdigits ⊢
        rcases List.prefix_concat_iff.mp hdigits with rfl | hfront
        · obtain ⟨hhex, _, _, hall⟩ :=
            ih (n / 16) (by omega) (List.prefix_refl (fromIToHex (n / 16)))
          rw [hexValue_concat, hall rfl, isHex_charset hmod, Option.getD_some]
          refine ⟨fun c hc => ?_, by omega, fun _ hn => by omega, fun _ => by omega⟩
          rcases List.mem_append.mp hc with hc | hc
          · exact hhex c hc
          · rw [List.mem_singleton.mp hc, isHexDigit, isHex_charset hmod]
            rfl
        · obtain ⟨hhex, hle, hpos, _⟩ := ih (n / 16) (by omega) hfront
          refine ⟨hhex, by omega, fun hne _ => hpos hne hmore, fun heq => ?_⟩
          have hlength := hfront.length_le
          rw [heq, List.length_append, List.length_singleton] at hlength
          omega
      · have hn : n < 16 := by omega
        rw [fromIToHex_digit hn] at hdigits ⊢
        rw [← List.nil_append [charset n]] at hdigits
        rcases List.prefix_concat_iff.mp hdigits with rfl | hnone
        · have hvalue : hexValue ([] ++ [charset n]) = n := by
            rw [hexValue_concat, isHex_charset hn]
            exact Nat.zero_add n
          rw [hvalue]
          refine ⟨fun c hc => ?_, Nat.le_refl n, fun _ hn => hn, fun _ => rfl⟩
          rw [List.mem_singleton.mp hc, isHexDigit, isHex_charset hn]
          rfl
        · obtain rfl := List.prefix_nil.mp hnone
          exact ⟨fun c hc => absurd hc List.not_mem_nil, Nat.zero_le n, fun hne => absurd rfl hne,
            fun heq => absurd heq.symm (List.cons_ne_nil _ _)⟩

theorem isHexDigit_plain {c : UInt8} (hc : isHexDigit c = true) :
    c ≠ 0 ∧ c ≠ 0x0a ∧ c ≠ 0x2b ∧ c ≠ 0x2d ∧ c ≠ 0x58 ∧ c ≠ 0x78 ∧ isSpace c = false := by
  have hlow : 0x30 ≤ c := by
    rw [isHexDigit, isHex] at hc
    split_ifs at hc with hdigit hupper hlower
    · exact hdigit.1
    · exact UInt8.le_trans (by decide) hupper.1
    · exact UInt8.le_trans (by decide) hlower.1
    · cases hc
  have hne : ∀ d, isHexDigit d = false → c ≠ d := fun d hd h => by
    rw [h, hd] at hc
    cases hc
  have hblank : ¬ c ≤ 0x0d := fun h => absurd (UInt8.le_trans hlow h) (by decide)
  refine ⟨hne _ rfl, hne _ rfl, hne _ rfl, hne _ rfl, hne _ rfl, hne _ rfl, ?_⟩
  rw [isSpace, beq_false_of_ne (hne 0x20 rfl), decide_eq_false hblank, Bool.and_false, Bool.or_self]

theorem mem_crlf {c : UInt8} (hc : c ∈ crlf) :
    c ≠ 0 ∧ c ≠ 0x58 ∧ c ≠ 0x78 ∧ isHexDigit c = false := by
  rcases List.mem_cons.mp hc with rfl | hc
  · exact ⟨by decide, by decide, by decide, rfl⟩
  · obtain rfl := List.mem_singleton.mp hc
    exact ⟨by decide, by decide, by decide, rfl⟩

theorem takeSign_of_ne {c : UInt8} {s : List UInt8} (hminus : c ≠ 0x2d) (hplus : c ≠ 0x2b) :
    takeSign (c :: s) = (false, c :: s) := by
  rw [takeSign.eq_def]
  split
  · rename_i h
    exact absurd (List.cons.inj h).1 hminus
  · rename_i h
    exact absurd (List.cons.inj h).1 hplus
  · rfl

theorem drop0x_of_not_mem {s : List UInt8} (hupper : 0x58 ∉ s) (hlower : 0x78 ∉ s) :
    drop0x s = s := by
  rw [drop0x.eq_def]
  split
  · rename_i x c rest
    refine if_neg fun hx => ?_
    rcases hx.1 with rfl | rfl
    · exact hlower (List.mem_cons_of_mem _ List.mem_cons_self)
    · exact hupper (List.mem_cons_of_mem _ List.mem_cons_self)
  · rfl

/-- The size that stands at the front of a line, of which the end may be missing. -/
theorem strtoul16_digits {digits tail : List UInt8} (hne : digits ≠ [])
    (hdigits : ∀ c ∈ digits, isHexDigit c = true) (htail : tail <+: crlf)
    (hle : hexValue digits ≤ ulongMax) :
    strtoul16 (digits ++ tail) = some (hexValue digits) := by
  have hplain : ∀ c ∈ digits ++ tail, c ≠ 0 ∧ c ≠ 0x58 ∧ c ≠ 0x78 := fun c hc => by
    rcases List.mem_append.mp hc with hc | hc
    · obtain ⟨hzero, _, _, _, hupper, hlower, _⟩ := isHexDigit_plain (hdigits c hc)
      exact ⟨hzero, hupper, hlower⟩
    · obtain ⟨hzero, hupper, hlower, _⟩ := mem_crlf (htail.subset hc)
      exact ⟨hzero, hupper, hlower⟩
  have hdrop : drop0x (digits ++ tail) = digits ++ tail :=
    drop0x_of_not_mem (fun hc => (hplain _ hc).2.1 rfl) fun hc => (hplain _ hc).2.2 rfl
  have htake : (digits ++ tail).takeWhile isHexDigit = digits := by
    have hend : tail.takeWhile isHexDigit = [] := by
      refine List.takeWhile_eq_nil_iff.mpr fun hpos => ?_
      rw [(mem_crlf (htail.subset (List.get_mem tail ⟨0, hpos⟩))).2.2.2]
      exact Bool.false_ne_true
    rw [List.takeWhile_append_of_pos hdigits, hend, List.append_nil]
  have hsign : takeSign ((cString (digits ++ tail)).dropWhile isSpace) =
      (false, digits ++ tail) := by
    rw [cString_eq_self fun c hc => (hplain c hc).1]
    obtain ⟨c, rest, rfl⟩ := List.exists_cons_of_ne_nil hne
    obtain ⟨_, _, hplus, hminus, _, _, hspace⟩ := isHexDigit_plain (hdigits c List.mem_cons_self)
    rw [List.cons_append, List.dropWhile_cons_of_neg (by rw [hspace]; exact Bool.false_ne_true)]
    exact takeSign_of_ne hminus hplus
  rw [strtoul16, hsign]
  dsimp only
  rw [hdrop, htake, if_neg hne, if_neg (Nat.not_lt.mpr hle)]
  rfl

/-! ### The reader -/

/-- One turn of the loop of `read_content_chunked`, from the `getline` of a size on: what the
receiver gets, and whether the loop goes on and where, unless it returns false. -/
def readChunk (s : SocketStream) : List (List UInt8) × Option (Bool × SocketStream) :=
  match s.getline with
  | none => ([], none)
  | some (line, s) =>
      match strtoul16 line with
      | none => ([], none)
      | some chunkLen =>
          if chunkLen = ulongMax then ([], none)
          else if chunkLen = 0 then ([], some (false, s))
          else
            match s.readContentWithLength chunkLen with
            | (pieces, false, _) => (pieces, none)
            | (pieces, true, s) =>
                match s.getline with
                | none => (pieces, none)
                | some (line, s) => (pieces, if cString line ≠ crlf then none else some (true, s))

theorem readChunk_lt {s s' : SocketStream} {pieces : List (List UInt8)} {goesOn : Bool}
    (h : readChunk s = (pieces, some (goesOn, s'))) : s'.pending.length < s.pending.length := by
  rw [readChunk] at h
  split at h
  · cases h
  · rename_i s₁ hline
    have hless := SocketStream.getline_lt hline
    split at h
    · cases h
    · rename_i chunkLen _
      split_ifs at h with hmax hzero
      · cases h
      · cases h
        exact hless
      · obtain ⟨pieces', s₂, hread, _, _, hrest, _⟩ := s₁.readContentWithLength_spec chunkLen
        rw [hread] at h
        cases hall : decide (chunkLen ≤ s₁.pending.length) with
        | false =>
            rw [hall] at h
            cases h
        | true =>
            rw [hall] at h
            dsimp only at h
            split at h
            · cases h
            · rename_i hblank
              split_ifs at h
              · cases h
              · cases h
                have hless' := SocketStream.getline_lt hblank
                have hdrop := congrArg List.length hrest
                rw [List.length_drop] at hdrop
                omega

/-- The loop of `read_content_chunked`, with where it is left. -/
def chunkLoop (s : SocketStream) : List (List UInt8) × Option SocketStream :=
  match hread : readChunk s with
  | (pieces, none) => (pieces, none)
  | (pieces, some (false, s')) => (pieces, some s')
  | (pieces, some (true, s')) =>
      have := readChunk_lt hread
      let more := chunkLoop s'
      (pieces ++ more.1, more.2)
termination_by s.pending.length

/-- The headers behind the last chunk, with where they end, unless `read_content_chunked` returns
false. -/
def readTrailer (s : SocketStream) (headers : Headers) : Headers × Option SocketStream :=
  match hline : s.getline with
  | none => (headers, none)
  | some (line, s') =>
      have := SocketStream.getline_lt hline
      if cString line = crlf then (headers, some s')
      else if line.length > headerMaxLength then (headers, none)
      else readTrailer s' (addHeader headers (line.take (line.length - 2)))
termination_by s.pending.length

/-- `read_content_chunked`: what the receiver gets, the headers with those of the trailer, and where
it stops if it returns true. -/
def readContentChunked (s : SocketStream) (headers : Headers) :
    List (List UInt8) × Headers × Option SocketStream :=
  match chunkLoop s with
  | (pieces, none) => (pieces, headers, none)
  | (pieces, some s) => (pieces, readTrailer s headers)

theorem chunkLoop_failed {s : SocketStream} {pieces : List (List UInt8)}
    (h : readChunk s = (pieces, none)) :
    chunkLoop s = (pieces, none) := by
  rw [chunkLoop]
  split
  · rename_i hread
    cases h.symm.trans hread
    rfl
  · rename_i hread
    cases h.symm.trans hread
  · rename_i hread
    cases h.symm.trans hread

theorem chunkLoop_ended {s s' : SocketStream} {pieces : List (List UInt8)}
    (h : readChunk s = (pieces, some (false, s'))) : chunkLoop s = (pieces, some s') := by
  rw [chunkLoop]
  split
  · rename_i hread
    cases h.symm.trans hread
  · rename_i hread
    cases h.symm.trans hread
    rfl
  · rename_i hread
    cases h.symm.trans hread

theorem chunkLoop_more {s s' : SocketStream} {pieces : List (List UInt8)}
    (h : readChunk s = (pieces, some (true, s'))) :
    chunkLoop s = (pieces ++ (chunkLoop s').1, (chunkLoop s').2) := by
  rw [chunkLoop]
  split
  · rename_i hread
    cases h.symm.trans hread
  · rename_i hread
    cases h.symm.trans hread
  · rename_i hread
    cases h.symm.trans hread
    rfl

theorem readTrailer_line {s s' : SocketStream} {line : List UInt8}
    (hline : s.getline = some (line, s')) (headers : Headers) :
    readTrailer s headers =
      if cString line = crlf then (headers, some s')
      else if line.length > headerMaxLength then (headers, none)
      else readTrailer s' (addHeader headers (line.take (line.length - 2))) := by
  rw [readTrailer]
  split
  · rename_i h
    cases hline.symm.trans h
  · rename_i h
    cases hline.symm.trans h
    rfl

theorem readTrailer_none {s : SocketStream} (hline : s.getline = none) (headers : Headers) :
    readTrailer s headers = (headers, none) := by
  rw [readTrailer]
  split
  · rfl
  · rename_i h
    cases hline.symm.trans h

/-! ### Chunks that are read -/

def chunk (payload : List UInt8) : List UInt8 :=
  fromIToHex payload.length ++ crlf ++ payload ++ crlf

def doneMarker : List UInt8 := ascii "0" ++ crlf

theorem cut_cases {cut front rest : List UInt8} (h : cut <+: front ++ rest) :
    (cut <+: front ∧ cut ≠ front) ∨ ∃ more, more <+: rest ∧ cut = front ++ more := by
  rcases List.prefix_or_prefix_of_prefix h (List.prefix_append front rest) with hcut | ⟨more, rfl⟩
  · by_cases hall : cut = front
    · exact Or.inr ⟨[], List.nil_prefix, by rw [hall, List.append_nil]⟩
    · exact Or.inl ⟨hcut, hall⟩
  · exact Or.inr ⟨more, (List.prefix_append_right_inj front).mp h, rfl⟩

theorem cut_line {cut line : List UInt8} (hline : 0x0a ∉ line) (hcut : cut <+: line ++ crlf)
    (hne : cut ≠ line ++ crlf) :
    0x0a ∉ cut ∧ ∃ tail, tail <+: crlf ∧ ((cut <+: line ∧ tail = []) ∨ cut = line ++ tail) := by
  have hsplit : line ++ crlf = (line ++ [0x0d]) ++ [0x0a] := by
    rw [List.append_assoc]
    rfl
  rw [hsplit] at hcut hne
  have hfront : cut <+: line ++ [0x0d] := (List.prefix_concat_iff.mp hcut).resolve_left hne
  refine ⟨fun hmem => ?_, ?_⟩
  · rcases List.mem_append.mp (hfront.subset hmem) with h | h
    · exact hline h
    · exact absurd (List.mem_singleton.mp h) (by decide)
  · rcases cut_cases hfront with ⟨hinside, _⟩ | ⟨tail, htail, rfl⟩
    · exact ⟨[], List.nil_prefix, Or.inl ⟨hinside, rfl⟩⟩
    · exact ⟨tail, htail.trans (List.prefix_append [0x0d] [0x0a]), Or.inr rfl⟩

theorem cString_ne_crlf {line : List UInt8} (hline : 0x0a ∉ line) : cString line ≠ crlf := by
  intro h
  have hmem : 0x0a ∈ cString line := by
    rw [h]
    exact List.mem_cons_of_mem _ List.mem_cons_self
  exact hline ((List.takeWhile_prefix _).subset hmem)

theorem not_mem_fromIToHex (n : Nat) : 0x0a ∉ fromIToHex n := fun h =>
  (isHexDigit_plain ((fromIToHex_front (List.prefix_refl (fromIToHex n))).1 _ h)).2.1 rfl

theorem fromIToHex_ne_nil (n : Nat) : fromIToHex n ≠ [] := by
  rw [fromIToHex, fromIToHexLoop]
  split_ifs
  · rw [fromIToHexLoop_append]
    exact List.append_ne_nil_of_right_ne_nil _ (List.cons_ne_nil _ _)
  · exact List.cons_ne_nil _ _

theorem strtoul16_size {n : Nat} (hmax : n < ulongMax) :
    strtoul16 (fromIToHex n ++ crlf) = some n := by
  obtain ⟨hhex, hle, _, hvalue⟩ := fromIToHex_front (List.prefix_refl (fromIToHex n))
  rw [strtoul16_digits (fromIToHex_ne_nil n) hhex (List.prefix_refl crlf) (by omega), hvalue rfl]

section

variable {s s₁ : SocketStream} {line : List UInt8} {chunkLen : Nat}
    (hline : s.getline = some (line, s₁))
  (hsize : strtoul16 line = some chunkLen)

include hline hsize

theorem readChunk_zero (hzero : chunkLen = 0) : readChunk s = ([], some (false, s₁)) := by
  have hmax : chunkLen ≠ ulongMax := by
    rw [hzero]
    decide
  rw [readChunk, hline]
  dsimp only
  rw [hsize]
  dsimp only
  rw [if_neg hmax, if_pos hzero]

variable (hpos : 0 < chunkLen) (hmax : chunkLen < ulongMax)

include hpos hmax

theorem readChunk_short (hshort : s₁.pending.length < chunkLen) :
    ∃ pieces, readChunk s = (pieces, none) ∧ pieces.flatten = s₁.pending := by
  obtain ⟨pieces, s₂, hread, hflatten, _⟩ := s₁.readContentWithLength_spec chunkLen
  rw [decide_eq_false (Nat.not_le.mpr hshort)] at hread
  rw [List.take_of_length_le (Nat.le_of_lt hshort)] at hflatten
  refine ⟨pieces, ?_, hflatten⟩
  rw [readChunk, hline]
  dsimp only
  rw [hsize]
  dsimp only
  rw [if_neg (Nat.ne_of_lt hmax), if_neg (Nat.ne_of_gt hpos), hread]

theorem readChunk_enough {payload rest : List UInt8} (hpending : s₁.pending = payload ++ rest)
    (hlength : payload.length = chunkLen) :
    ∃ (pieces : List (List UInt8)) (s₂ : SocketStream), pieces.flatten = payload ∧
    s₂.pending = rest ∧ readChunk s =
      match s₂.getline with
      | none => (pieces, none)
      | some (line, s) => (pieces, if cString line ≠ crlf then none else some (true, s)) := by
  obtain ⟨pieces, s₂, hread, hflatten, _, hrest, _⟩ :=
    SocketStream.readContentWithLength_of_pending hpending
  refine ⟨pieces, s₂, hflatten, hrest, ?_⟩
  rw [readChunk, hline]
  dsimp only
  rw [hsize]
  dsimp only
  rw [if_neg (Nat.ne_of_lt hmax), if_neg (Nat.ne_of_gt hpos), ← hlength, hread]

end

theorem readChunk_chunk {d rest : List UInt8} (hd : d ≠ []) (hmax : d.length < ulongMax)
    {s : SocketStream} (hpending : s.pending = chunk d ++ rest) :
    ∃ pieces s', readChunk s = (pieces, some (true, s')) ∧ pieces.flatten = d ∧
    s'.pending = rest := by
  have hpending' : s.pending = fromIToHex d.length ++ crlf ++ (d ++ (crlf ++ rest)) := by
    rw [hpending, chunk]
    simp only [List.append_assoc]
  obtain ⟨s₁, hline, hrest, _⟩ := getline_crlf (not_mem_fromIToHex _) hpending'
  obtain ⟨pieces, s₂, hflatten, hrest', hread⟩ :=
    readChunk_enough hline (strtoul16_size hmax) (List.length_pos_iff.mpr hd) hmax hrest rfl
  obtain ⟨s₃, hblank, hrest'', _⟩ := @getline_crlf s₂ [] rest List.not_mem_nil hrest'
  rw [hblank] at hread
  exact ⟨pieces, s₃, hread, hflatten, hrest''⟩

theorem readChunk_cut {d : List UInt8} (hd : d ≠ []) (hmax : d.length < ulongMax) {s : SocketStream}
    (hcut : s.pending <+: chunk d) (hne : s.pending ≠ chunk d) :
    ∃ pieces, readChunk s = (pieces, none) ∧ pieces.flatten <+: d := by
  have hnone : s.getline = none → ∃ pieces, readChunk s = (pieces, none) ∧ pieces.flatten <+: d := fun h =>
    ⟨[], by rw [readChunk, h], List.nil_prefix⟩
  have hpos := List.length_pos_iff.mpr hd
  rw [chunk, List.append_assoc] at hcut hne
  rcases cut_cases hcut with ⟨hinside, hless⟩ | ⟨more, hmore, hpending⟩
  · -- the size itself is cut: what stands there is a size all the same, but nothing stands behind it
    obtain ⟨hunended, tail, htail, hparts⟩ := cut_line (not_mem_fromIToHex _) hinside hless
    rcases SocketStream.getline_unended hunended with h | ⟨s₁, hline, hsome, hrest⟩
    · exact hnone h
    obtain ⟨digits, hdigits, hdigits', hpending⟩ :
        ∃ digits, digits <+: fromIToHex d.length ∧ digits ≠ [] ∧ s.pending = digits ++ tail := by
      rcases hparts with ⟨hfront, rfl⟩ | hwhole
      · exact ⟨s.pending, hfront, hsome, (List.append_nil _).symm⟩
      · exact ⟨_, List.prefix_refl _, fromIToHex_ne_nil _, hwhole⟩
    obtain ⟨hhex', hle, hnonzero, _⟩ := fromIToHex_front hdigits
    have hsize := strtoul16_digits hdigits' hhex' htail (by omega)
    rw [← hpending] at hsize
    have hvalue' := hnonzero hdigits' hpos
    obtain ⟨pieces, hread, hflatten⟩ := readChunk_short hline hsize hvalue' (by omega)
      (by rw [hrest]; exact hvalue')
    rw [hrest] at hflatten
    exact ⟨pieces, hread, by rw [hflatten]; exact List.nil_prefix⟩
  · obtain ⟨s₁, hline, hrest, _⟩ := getline_crlf (not_mem_fromIToHex _) hpending
    have hsize := strtoul16_size hmax
    rcases cut_cases hmore with ⟨hpayload, hless⟩ | ⟨tail, htail, rfl⟩
    · have hshort : more.length < d.length :=
        Nat.lt_of_le_of_ne hpayload.length_le fun h => hless (hpayload.eq_of_length h)
      obtain ⟨pieces, hread, hflatten⟩ :=
        readChunk_short hline hsize hpos hmax (by rw [hrest]; exact hshort)
      exact ⟨pieces, hread, by rw [hflatten, hrest]; exact hpayload⟩
    · have hless : tail ≠ [] ++ crlf := fun h => hne (by rw [hpending, h]; rfl)
      obtain ⟨hunended, _⟩ := cut_line List.not_mem_nil htail hless
      obtain ⟨pieces, s₂, hflatten, hrest', hread⟩ :=
        readChunk_enough hline hsize hpos hmax hrest rfl
      refine ⟨pieces, ?_, by rw [hflatten]⟩
      rw [← hrest'] at hunended
      rcases SocketStream.getline_unended hunended with h | ⟨s₃, hblank, _⟩
      · rw [hread, h]
      · rw [hread, hblank]
        dsimp only
        rw [if_pos (cString_ne_crlf hunended)]

theorem readChunk_done {rest : List UInt8} {s : SocketStream}
    (hpending : s.pending = doneMarker ++ rest) :
    ∃ s', readChunk s = ([], some (false, s')) ∧ s'.pending = rest := by
  obtain ⟨s', hline, hrest, _⟩ := getline_crlf (by decide) hpending
  exact ⟨s', readChunk_zero hline (by decide +kernel) rfl, hrest⟩

theorem readChunk_done_cut {s : SocketStream} (hcut : s.pending <+: doneMarker)
    (hne : s.pending ≠ doneMarker) :
    readChunk s = ([], none) ∨ ∃ s', readChunk s = ([], some (false, s')) ∧ s'.pending = [] := by
  obtain ⟨hunended, tail, htail, hparts⟩ := cut_line (by decide) hcut hne
  rcases SocketStream.getline_unended hunended with h | ⟨s', hline, hsome, hrest⟩
  · exact Or.inl (by rw [readChunk, h])
  · refine Or.inr ⟨s', readChunk_zero hline ?_ rfl, hrest⟩
    have hzero : ascii "0" = fromIToHex 0 := by decide +kernel
    obtain ⟨hhex, hle, _, hvalue⟩ := fromIToHex_front (List.prefix_refl (fromIToHex 0))
    have hwhole : s.pending = fromIToHex 0 ++ tail := by
      rcases hparts with ⟨hfront, rfl⟩ | hwhole
      · have hone : ascii "0" = [] ++ [0x30] := by decide
        rw [hone] at hfront
        rw [List.append_nil, ← hzero, hone]
        exact (List.prefix_concat_iff.mp hfront).resolve_right fun h => hsome (List.prefix_nil.mp h)
      · rw [hwhole, hzero]
    rw [hwhole, strtoul16_digits (fromIToHex_ne_nil 0) hhex htail (Nat.le_trans hle (Nat.zero_le _)), hvalue rfl]

/-! ### The trailer -/

def fieldLine (kv : List UInt8 × List UInt8) : List UInt8 := kv.1 ++ ascii ": " ++ kv.2 ++ crlf

theorem PlainHeader.field {p : List UInt8 × List UInt8} (h : PlainHeader p) :
    fieldLine p = headerLine p := by
  rw [fieldLine, headerLine, cString_eq_self fun c hc => (h.key c hc).1, cString_eq_self fun c hc =>
    (h.value c hc).1]

theorem readTrailer_unended {s : SocketStream} (hunended : 0x0a ∉ s.pending) (headers : Headers) :
    (readTrailer s headers).2 = none := by
  rcases SocketStream.getline_unended hunended with h | ⟨s', hline, _, hrest⟩
  · rw [readTrailer_none h]
  · rw [readTrailer_line hline, if_neg (cString_ne_crlf hunended)]
    split_ifs
    · rfl
    · have hnothing : 0x0a ∉ s'.pending := by
        rw [hrest]
        exact List.not_mem_nil
      rcases SocketStream.getline_unended hnothing with h | ⟨_, _, hsome, _⟩
      · rw [readTrailer_none h]
      · exact absurd hrest hsome

theorem readTrailer_field {p : List UInt8 × List UInt8} (hp : PlainHeader p) {s : SocketStream}
    {rest : List UInt8} (hpending : s.pending = fieldLine p ++ rest) (headers : Headers) :
    ∃ s', readTrailer s headers = readTrailer s' (headers.emplace p) ∧ s'.pending = rest := by
  rw [hp.field, hp.line] at hpending
  obtain ⟨s', hline, hrest, _⟩ := getline_crlf hp.one_line hpending
  refine ⟨s', ?_, hrest⟩
  have hplain : ∀ c ∈ p.1 ++ 0x3a :: 0x20 :: p.2 ++ crlf, c ≠ 0 := by
    intro c hc
    simp only [List.mem_append, List.mem_cons] at hc
    rcases hc with (hc | rfl | rfl | hc) | hc
    · exact (hp.key c hc).1
    · decide
    · decide
    · exact (hp.value c hc).1
    · exact (mem_crlf hc).1
  have hlength : (p.1 ++ 0x3a :: 0x20 :: p.2 ++ crlf).length = p.1.length + p.2.length + 4 := by
    simp only [List.length_append, List.length_cons, crlf, List.length_nil]
    omega
  have hlong : p.1 ++ 0x3a :: 0x20 :: p.2 ++ crlf ≠ crlf := fun h => by
    rw [h] at hlength
    change 2 = _ at hlength
    omega
  have htake : (p.1 ++ 0x3a :: 0x20 :: p.2 ++ crlf).length - 2 =
      (p.1 ++ 0x3a :: 0x20 :: p.2).length := by
    rw [List.length_append]
    rfl
  rw [readTrailer_line hline, cString_eq_self hplain, if_neg hlong,
    if_neg (by rw [hlength]; exact Nat.not_lt.mpr hp.short), htake, List.take_left,
    addHeader, hp.parse]

section

variable {pairs : List (List UInt8 × List UInt8)} (hplain : ∀ p ∈ pairs, PlainHeader p)

include hplain

theorem readTrailer_whole {s : SocketStream} {rest : List UInt8}
    (hpending : s.pending = pairs.flatMap fieldLine ++ crlf ++ rest) (headers : Headers) :
    ∃ s', readTrailer s headers = (headers.emplaceAll pairs, some s') ∧ s'.pending = rest := by
  induction pairs generalizing s headers with
  | nil =>
      obtain ⟨s', hline, hrest, _⟩ := getline_crlf List.not_mem_nil hpending
      refine ⟨s', ?_, hrest⟩
      rw [readTrailer_line hline]
      exact if_pos (by decide)
  | cons p pairs ih =>
      obtain ⟨hp, hplain⟩ := List.forall_mem_cons.mp hplain
      rw [List.flatMap_cons, List.append_assoc, List.append_assoc] at hpending
      obtain ⟨s', hread, hrest⟩ := readTrailer_field hp hpending headers
      rw [hread]
      exact ih hplain (by rw [hrest, List.append_assoc]) (headers.emplace p)

theorem readTrailer_cut {s : SocketStream} (hcut : s.pending <+: pairs.flatMap fieldLine ++ crlf)
    (hne : s.pending ≠ pairs.flatMap fieldLine ++ crlf) (headers : Headers) :
    (readTrailer s headers).2 = none := by
  induction pairs generalizing s headers with
  | nil => exact readTrailer_unended (cut_line List.not_mem_nil hcut hne).1 headers
  | cons p pairs ih =>
      obtain ⟨hp, hplain⟩ := List.forall_mem_cons.mp hplain
      rw [List.flatMap_cons, List.append_assoc] at hcut hne
      rcases cut_cases hcut with ⟨hinside, hless⟩ | ⟨more, hmore, hpending⟩
      · rw [hp.field, hp.line] at hinside hless
        exact readTrailer_unended (cut_line hp.one_line hinside hless).1 headers
      · obtain ⟨s', hread, hrest⟩ := readTrailer_field hp hpending headers
        rw [hread]
        refine ih hplain (by rw [hrest]; exact hmore) ?_ (headers.emplace p)
        rw [hrest]
        exact fun h => hne (by rw [hpending, h])

end

end NetworkHomework.Http
