import NetworkHomework.Http.Stream

/-!
# Headers

Headers are a multimap in which the case of a name does not count. `readHeaders_writeHeaders`:
headers that are written on one side are the headers that are read on the other, in whatever
segments they come, and what is written behind them is left to be read.
-/

namespace NetworkHomework.Http

open Conversions

def toLower (c : UInt8) : UInt8 := if 0x41 ≤ c ∧ c ≤ 0x5a then c + 0x20 else c

/-- The order `ci` of the library. -/
def foldCase (s : List UInt8) : List Nat := s.map fun c => (toLower c).toNat

abbrev Headers := Multimap foldCase (List UInt8)

/-- What `c_str` shows of a string. -/
def cString (s : List UInt8) : List UInt8 := s.takeWhile (· ≠ 0)

/-- `get_header_value`, with its default. -/
def headerValue (headers : Headers) (key default : List UInt8) : List UInt8 :=
  ((headers.get key).map cString).getD default

def hasHeader (headers : Headers) (key : List UInt8) : Bool := (headers.get key).isSome

/-- A line of `write_headers`. -/
def headerLine (p : List UInt8 × List UInt8) : List UInt8 :=
  cString p.1 ++ ascii ": " ++ cString p.2 ++ crlf

def writeHeaders (headers : Headers) : List UInt8 := headers.pairs.flatMap headerLine ++ crlf

def dropTrailing (line : List UInt8) : List UInt8 := (line.reverse.dropWhile isSpaceOrTab).reverse

/-- `parse_header` on a line without its end; `none` where it returns false. -/
def parseHeader (line : List UInt8) : Option (List UInt8 × List UInt8) :=
  let line := dropTrailing line
  let key := line.takeWhile (· ≠ 0x3a)
  match line.dropWhile (· ≠ 0x3a) with
  | [] => none
  | _ :: rest =>
      let value := rest.dropWhile isSpaceOrTab
      if value = [] then none
      else if foldCase key = foldCase (ascii "Location") then some (key, value)
      else some (key, decodeUrl false value)

def addHeader (headers : Headers) (line : List UInt8) : Headers :=
  match parseHeader line with
  | none => headers
  | some p => headers.emplace p

def headerMaxLength : Nat := 8192

/-- `read_headers` behind the headers read so far, with what it returns and where it stops; a line
that does not end as it should is skipped. -/
def readHeaders (s : SocketStream) (headers : Headers) : Headers × Bool × SocketStream :=
  match hline : s.getline with
  | none => (headers, false, s.drained)
  | some (line, s') =>
      have := SocketStream.getline_lt hline
      if line.drop (line.length - 2) ≠ crlf then readHeaders s' headers
      else if line.length = 2 then (headers, true, s')
      else if line.length > headerMaxLength then (headers, false, s')
      else readHeaders s' (addHeader headers (line.take (line.length - 2)))
termination_by s.pending.length

/-! ### A header that comes through -/

structure PlainHeader (p : List UInt8 × List UInt8) : Prop where
  key : ∀ c ∈ p.1, c ≠ 0 ∧ c ≠ 0x3a ∧ c ≠ 0x0a
  nonempty : p.2 ≠ []
  value : ∀ c ∈ p.2, c ≠ 0 ∧ c ≠ 0x25 ∧ c ≠ 0x0a
  front : ∀ c ∈ p.2.head?, isSpaceOrTab c = false
  back : ∀ c ∈ p.2.getLast?, isSpaceOrTab c = false
  short : p.1.length + p.2.length + 4 ≤ headerMaxLength

def checkHeader (p : List UInt8 × List UInt8) : Bool :=
  (p.1.all fun c => c != 0 && c != 0x3a && c != 0x0a) && !p.2.isEmpty &&
    (p.2.all fun c => c != 0 && c != 0x25 && c != 0x0a) &&
      (p.2.head?.all fun c => !isSpaceOrTab c) &&
    (p.2.reverse.head?.all fun c => !isSpaceOrTab c) && p.1.length + p.2.length + 4 ≤
      headerMaxLength

theorem checkHeader_iff {p : List UInt8 × List UInt8} : checkHeader p = true ↔ PlainHeader p := by
  simp only [checkHeader, Bool.and_eq_true, List.all_eq_true, bne_iff_ne, Bool.not_eq_true',
    Option.all_eq_true,
    List.isEmpty_eq_false_iff, List.head?_reverse, decide_eq_true_eq, ne_eq, and_assoc]
  exact ⟨fun ⟨h₁, h₂, h₃, h₄, h₅, h₆⟩ => ⟨h₁, h₂, h₃, fun c hc => h₄ c hc, fun c hc => h₅ c hc, h₆⟩,
    fun ⟨h₁, h₂, h₃, h₄, h₅, h₆⟩ => ⟨h₁, h₂, h₃, fun c hc => h₄ c hc, fun c hc => h₅ c hc, h₆⟩⟩

instance (p : List UInt8 × List UInt8) : Decidable (PlainHeader p) :=
  decidable_of_iff _ checkHeader_iff

theorem cString_eq_self {s : List UInt8} (hs : ∀ c ∈ s, c ≠ 0) : cString s = s :=
  List.takeWhile_eq_self_iff.mpr fun c hc => by simpa using hs c hc

theorem decodeUrl_of_no_percent {s : List UInt8} (hs : ∀ c ∈ s, c ≠ 0x25) :
    decodeUrl false s = s := by
  induction s with
  | nil => rfl
  | cons c s ih =>
      obtain ⟨hc, hs⟩ := List.forall_mem_cons.mp hs
      rw [decodeUrl_other hc (Or.inl rfl), ih hs]

theorem dropTrailing_append {line value : List UInt8} (hne : value ≠ [])
    (hback : ∀ c ∈ value.getLast?, isSpaceOrTab c = false) :
    dropTrailing (line ++ value) = line ++ value := by
  obtain ⟨front, c, rfl⟩ : ∃ front c, value = front ++ [c] :=
    ⟨value.dropLast, value.getLast hne, (List.dropLast_append_getLast hne).symm⟩
  have hc : isSpaceOrTab c = false := hback c List.getLast?_concat
  have hreverse : (line ++ (front ++ [c])).reverse = c :: (line ++ front).reverse := by simp
  rw [dropTrailing, hreverse, List.dropWhile_cons_of_neg (by rw [hc]; exact Bool.false_ne_true),
    ← hreverse,
    List.reverse_reverse]

theorem PlainHeader.line {p : List UInt8 × List UInt8} (h : PlainHeader p) :
    headerLine p = p.1 ++ 0x3a :: 0x20 :: p.2 ++ crlf := by
  have hseparator : ascii ": " = [0x3a, 0x20] := by decide
  rw [headerLine, cString_eq_self fun c hc => (h.key c hc).1, cString_eq_self fun c hc =>
    (h.value c hc).1,
    hseparator, List.append_assoc p.1]
  rfl

theorem PlainHeader.one_line {p : List UInt8 × List UInt8} (h : PlainHeader p) :
    0x0a ∉ p.1 ++ 0x3a :: 0x20 :: p.2 := by
  intro hmem
  rcases List.mem_append.mp hmem with hmem | hmem
  · exact (h.key _ hmem).2.2 rfl
  · rcases List.mem_cons.mp hmem with hmem | hmem
    · exact absurd hmem (by decide)
    · rcases List.mem_cons.mp hmem with hmem | hmem
      · exact absurd hmem (by decide)
      · exact (h.value _ hmem).2.2 rfl

theorem PlainHeader.parse {p : List UInt8 × List UInt8} (h : PlainHeader p) :
    parseHeader (p.1 ++ 0x3a :: 0x20 :: p.2) = some p := by
  have hkey : ∀ c ∈ p.1, decide (c ≠ 0x3a) = true := fun c hc => decide_eq_true (h.key c hc).2.1
  have htrailing : dropTrailing (p.1 ++ 0x3a :: 0x20 :: p.2) = p.1 ++ 0x3a :: 0x20 :: p.2 := by
    have hline := @dropTrailing_append (p.1 ++ [0x3a, 0x20]) p.2 h.nonempty h.back
    rwa [List.append_assoc] at hline
  have htake : (p.1 ++ 0x3a :: 0x20 :: p.2).takeWhile (· ≠ 0x3a) = p.1 := by
    rw [List.takeWhile_append_of_pos hkey, List.takeWhile_cons_of_neg (by simp), List.append_nil]
  have hdrop : (p.1 ++ 0x3a :: 0x20 :: p.2).dropWhile (· ≠ 0x3a) = 0x3a :: 0x20 :: p.2 := by
    rw [List.dropWhile_append_of_pos hkey, List.dropWhile_cons_of_neg (by simp)]
  have hvalue : (0x20 :: p.2).dropWhile isSpaceOrTab = p.2 := by
    rw [List.dropWhile_cons_of_pos (by decide)]
    obtain ⟨c, value, hp⟩ := List.exists_cons_of_ne_nil h.nonempty
    have hc : isSpaceOrTab c = false := h.front c (by rw [hp]; rfl)
    rw [hp, List.dropWhile_cons_of_neg (by rw [hc]; exact Bool.false_ne_true)]
  rw [parseHeader, htrailing]
  dsimp only
  rw [htake, hdrop]
  dsimp only
  rw [hvalue, if_neg h.nonempty, decodeUrl_of_no_percent fun c hc => (h.value c hc).2.1]
  exact ite_self _

/-! ### Reading what was written -/

theorem readHeaders_line {s s' : SocketStream} {line : List UInt8}
    (hline : s.getline = some (line, s')) (headers : Headers) :
    readHeaders s headers =
      if line.drop (line.length - 2) ≠ crlf then readHeaders s' headers
      else if line.length = 2 then (headers, true, s')
      else if line.length > headerMaxLength then (headers, false, s')
      else readHeaders s' (addHeader headers (line.take (line.length - 2))) := by
  rw [readHeaders]
  split
  · rename_i h
    cases hline.symm.trans h
  · rename_i h
    cases hline.symm.trans h
    rfl

theorem getline_crlf {s : SocketStream} {line rest : List UInt8} (hline : 0x0a ∉ line)
    (hpending : s.pending = line ++ crlf ++ rest) :
    ∃ s', s.getline = some (line ++ crlf, s') ∧ s'.pending = rest ∧ s'.closed = s.closed := by
  have hnone : 0x0a ∉ line ++ [0x0d] := by
    intro h
    rcases List.mem_append.mp h with h | h
    · exact hline h
    · exact absurd (List.mem_singleton.mp h) (by decide)
  have hpending' : s.pending = (line ++ [0x0d]) ++ 0x0a :: rest := by
    rw [hpending, List.append_assoc, List.append_assoc]
    rfl
  obtain ⟨s', hgetline, hrest⟩ := SocketStream.getline_of_pending hnone hpending'
  refine ⟨s', ?_, hrest⟩
  rw [hgetline, List.append_assoc]
  rfl

theorem readHeaders_of_pending {pairs : List (List UInt8 × List UInt8)}
    (hplain : ∀ p ∈ pairs, PlainHeader p) {s : SocketStream} {rest : List UInt8}
    (hpending : s.pending = pairs.flatMap headerLine ++ crlf ++ rest) (headers : Headers) :
    ∃ s', readHeaders s headers = (headers.emplaceAll pairs, true, s') ∧ s'.pending = rest ∧
      s'.closed = s.closed := by
  have hlength : ∀ line : List UInt8, (line ++ crlf).length - 2 = line.length := by
    intro line
    rw [List.length_append]
    exact Nat.add_sub_cancel _ _
  induction pairs generalizing s headers with
  | nil =>
      obtain ⟨s', hline, hrest⟩ := getline_crlf List.not_mem_nil hpending
      refine ⟨s', ?_, hrest⟩
      rw [readHeaders_line hline, hlength, List.drop_left, if_neg (not_not_intro rfl)]
      exact if_pos (by decide)
  | cons p pairs ih =>
      obtain ⟨hp, hplain⟩ := List.forall_mem_cons.mp hplain
      rw [List.flatMap_cons, hp.line, List.append_assoc, List.append_assoc] at hpending
      rw [← List.append_assoc (pairs.flatMap headerLine), ← List.append_assoc] at hpending
      obtain ⟨s', hline, hrest, hclosed⟩ :=
        getline_crlf hp.one_line (by rw [hpending, List.append_assoc])
      have hlong : (p.1 ++ 0x3a :: 0x20 :: p.2 ++ crlf).length ≠ 2 ∧
          ¬ (p.1 ++ 0x3a :: 0x20 :: p.2 ++ crlf).length > headerMaxLength := by
        have hshort := hp.short
        simp only [List.length_append, List.length_cons, crlf, List.length_nil]
        omega
      obtain ⟨s'', hread, hrest', hclosed'⟩ := ih hplain hrest (headers.emplace p)
      refine ⟨s'', ?_, hrest', hclosed'.trans hclosed⟩
      rw [readHeaders_line hline, hlength, List.drop_left, if_neg (not_not_intro rfl),
        if_neg hlong.1,
        if_neg hlong.2, List.take_left, addHeader, hp.parse]
      exact hread

theorem readHeaders_failed {s : SocketStream} (hline : s.getline = none) (headers : Headers) :
    readHeaders s headers = (headers, false, s.drained) := by
  rw [readHeaders]
  split
  · rfl
  · rename_i h
    cases hline.symm.trans h

theorem readHeaders_append {s s' : SocketStream} {headers headers' : Headers}
    (hread : readHeaders s headers = (headers', true, s')) (more : List Segment) :
    readHeaders (s.append more) headers = (headers', true, s'.append more) := by
  induction hn : s.pending.length using Nat.strong_induction_on generalizing s headers with
  | _ n ih =>
      by_cases hline : 0x0a ∈ s.pending
      · have hmore := SocketStream.getline_append hline more
        cases hgot : s.getline with
        | none =>
            rw [readHeaders_failed hgot] at hread
            cases hread
        | some r =>
            obtain ⟨line, s''⟩ := r
            have hless := SocketStream.getline_lt hgot
            rw [hgot, Option.map_some] at hmore
            dsimp only at hmore
            rw [hn] at hless
            rw [readHeaders_line hgot] at hread
            rw [readHeaders_line hmore]
            split_ifs at hread ⊢ with hskip hblank hlong
            · exact ih _ hless hread rfl
            · cases hread
              rfl
            · cases hread
            · exact ih _ hless hread rfl
      · -- a last line that does not end is skipped, and then nothing comes
        rcases SocketStream.getline_unended hline with hnone | ⟨s'', hgot, _, hempty⟩
        · rw [readHeaders_failed hnone] at hread
          cases hread
        · have hskip : s.pending.drop (s.pending.length - 2) ≠ crlf := by
            intro h
            have hcrlf : 0x0a ∈ crlf := by decide
            exact hline (List.mem_of_mem_drop (h ▸ hcrlf))
          have hnone : s''.getline = none := by
            rcases @SocketStream.getline_unended s'' (by rw [hempty]; exact List.not_mem_nil) with
              h | ⟨_, _, hne, _⟩
            · exact h
            · exact absurd hempty hne
          rw [readHeaders_line hgot, if_pos hskip, readHeaders_failed hnone] at hread
          cases hread

theorem readHeaders_keeps {P : SocketStream → Prop}
    (hkeep : ∀ (s s' : SocketStream) bytes, P s → s.read 1 = (some bytes, s') → P s')
    {s s' : SocketStream} {headers headers' : Headers} (hs : P s)
    (hread : readHeaders s headers = (headers', true, s')) : P s' := by
  induction hn : s.pending.length using Nat.strong_induction_on generalizing s headers with
  | _ n ih =>
      cases hgot : s.getline with
      | none =>
          rw [readHeaders_failed hgot] at hread
          cases hread
      | some r =>
          obtain ⟨line, s''⟩ := r
          have hless := SocketStream.getline_lt hgot
          have hs'' := SocketStream.getline_keeps hkeep hs hgot
          rw [hn] at hless
          rw [readHeaders_line hgot] at hread
          split_ifs at hread with hskip hblank hlong
          · exact ih _ hless hs'' hread rfl
          · cases hread
            exact hs''
          · cases hread
          · exact ih _ hless hs'' hread rfl

/-- **Headers.** Whatever headers are written, they are the headers that are read, and what comes
behind them is still to be read. -/
theorem readHeaders_writeHeaders (headers : Headers) (hplain : ∀ p ∈ headers.pairs, PlainHeader p)
    (s : SocketStream) (rest : List UInt8) (hpending : s.pending = writeHeaders headers ++ rest) :
    ∃ s', readHeaders s Multimap.empty = (headers, true, s') ∧ s'.pending = rest ∧
    s'.closed = s.closed := by
  obtain ⟨s', hread, hrest⟩ := readHeaders_of_pending hplain hpending Multimap.empty
  rw [Multimap.emplaceAll_pairs] at hread
  exact ⟨s', hread, hrest⟩

def someHeaders : Headers :=
  Multimap.empty.emplaceAll [(ascii "Host", ascii "localhost"), (ascii "accept", ascii "*/*")]

theorem readHeaders_writeHeaders_some :
    ∃ s', readHeaders (SocketStream.trickle (writeHeaders someHeaders ++ ascii "body"))
      Multimap.empty =
        (someHeaders, true, s') ∧ s'.pending = ascii "body" := by
  have hplain : ∀ p ∈ someHeaders.pairs, PlainHeader p := by decide +kernel
  obtain ⟨s', hread, hrest, _⟩ := readHeaders_writeHeaders someHeaders hplain _ (ascii "body")
    (SocketStream.trickle_pending _)
  exact ⟨s', hread, hrest⟩

end NetworkHomework.Http
