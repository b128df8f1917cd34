import NetworkHomework.Base.Multimap
import NetworkHomework.Http.Encoding

/-!
# The request line

The client puts its parameters behind the path and writes the request line; the server takes the
line apart again. `parseRequestLine_requestLine`: whatever the values are, the parameters arrive,
each pair once.
-/

namespace NetworkHomework.Http

open Conversions

/-! ### Splitting -/

/-- `split`: the pieces between the delimiters, trimmed, unless nothing is left of them. -/
def split (d : UInt8) (s : List UInt8) : List (List UInt8) :=
  ((s.splitOn d).map trim).filter (· ≠ [])

theorem trim_eq_self {piece : List UInt8} (h : ∀ c ∈ piece, isSpaceOrTab c = false) :
    trim piece = piece := by
  have hdrop : ∀ s : List UInt8, (∀ c ∈ s, isSpaceOrTab c = false) →
      s.dropWhile isSpaceOrTab = s := by
    intro s hs
    cases s with
    | nil => rfl
    | cons c s =>
        rw [List.dropWhile_cons_of_neg (by rw [hs c List.mem_cons_self]; exact Bool.false_ne_true)]
  rw [trim, hdrop _ h, hdrop _ fun c hc => h c (List.mem_reverse.mp hc), List.reverse_reverse]

theorem split_intercalate {d : UInt8} {pieces : List (List UInt8)}
    (hpieces : ∀ piece ∈ pieces, d ∉ piece ∧ ∀ c ∈ piece, isSpaceOrTab c = false) :
    split d ([d].intercalate pieces) = pieces.filter (· ≠ []) := by
  by_cases hnone : pieces = []
  · subst hnone
    rfl
  · have htrim : pieces.map trim = pieces := by
      conv_rhs => rw [← List.map_id pieces]
      exact List.map_congr_left fun piece hpiece => trim_eq_self (hpieces piece hpiece).2
    rw [split, List.splitOn_intercalate d (fun piece hpiece => (hpieces piece hpiece).1) hnone,
      htrim]

/-! ### Parameters -/

/-- The order of `std::string`. -/
def byteOrder (s : List UInt8) : List Nat := s.map UInt8.toNat

/-- The `Params` of the library, a `multimap`. -/
abbrev ParamMap := Multimap byteOrder (List UInt8)

/-- A parameter in the query; its name is not encoded. -/
def queryPiece (p : List UInt8 × List UInt8) : List UInt8 := p.1 ++ 0x3d :: encodeQueryParam p.2

def paramsToQueryStr (params : ParamMap) : List UInt8 :=
  [0x26].intercalate (params.pairs.map queryPiece)

/-- `[^?]+\\?.*`, where the dot stands for anything but a line end. -/
def hasQuery (path : List UInt8) : Bool :=
  path.takeWhile (· ≠ 0x3f) ≠ [] &&
    match path.dropWhile (· ≠ 0x3f) with
    | [] => false
    | _ :: rest => rest.all fun c => c ≠ 0x0a && c ≠ 0x0d

def appendQueryParams (path : List UInt8) (params : ParamMap) : List UInt8 :=
  path ++ (if hasQuery path then 0x26 else 0x3f) :: paramsToQueryStr params

/-- The path that `Get` asks for; the one with parameters goes through `c_str`. -/
def targetPath (path : List UInt8) (params : ParamMap) : List UInt8 :=
  if params.pairs = [] then path else (appendQueryParams path params).takeWhile (· ≠ 0)

/-- What `parse_query_text` takes from a piece: the first part is the name, the last of the others
the value. -/
def parsePair (kv : List UInt8) : List UInt8 × List UInt8 :=
  (split 0x3d kv).foldl (fun p part => if p.1 = [] then (part, p.2) else (p.1, part)) ([], [])

/-- The callback of `parse_query_text`, over the pieces seen so far and the parameters. -/
def addPiece (s : List (List UInt8) × ParamMap) (kv : List UInt8) : List (List UInt8) × ParamMap :=
  if kv ∈ s.1 then s
  else if (parsePair kv).1 = [] then (kv :: s.1, s.2)
  else (kv :: s.1, s.2.emplace (decodeUrl true (parsePair kv).1, decodeUrl true (parsePair kv).2))

def parseQueryText (s : List UInt8) (params : ParamMap) : ParamMap :=
  ((split 0x26 s).foldl addPiece ([], params)).2

/-! ### Requests -/

structure Request where
  method : List UInt8
  target : List UInt8
  version : List UInt8
  path : List UInt8
  params : ParamMap
deriving DecidableEq

def methods : List (List UInt8) :=
  [ascii "GET", ascii "HEAD", ascii "POST", ascii "PUT", ascii "DELETE", ascii "CONNECT",
    ascii "OPTIONS",
    ascii "TRACE", ascii "PATCH", ascii "PRI"]

def crlf : List UInt8 := [0x0d, 0x0a]

/-- The path and the parameters of a target; `none` if it has more than one query. -/
def parseTarget (target : List UInt8) : Option (List UInt8 × ParamMap) :=
  match split 0x3f target with
  | [] => some ([], Multimap.empty)
  | [path] => some (decodeUrl false path, Multimap.empty)
  | [path, query] => some (decodeUrl false path, parseQueryText query Multimap.empty)
  | _ => none

/-- `Server::parse_request_line`, `none` where it returns false. -/
def parseRequestLine (s : List UInt8) : Option Request :=
  let s := s.takeWhile (· ≠ 0)
  if s.drop (s.length - 2) ≠ crlf then none
  else
    match split 0x20 (s.take (s.length - 2)) with
    | [method, target, version] =>
        if method ∉ methods then none
        else if version ≠ ascii "HTTP/1.1" ∧ version ≠ ascii "HTTP/1.0" then none
        else
          let target := target.takeWhile (· ≠ 0x23)
          (parseTarget target).map fun p => ⟨method, target, version, p.1, p.2⟩
    | _ => none

/-- The method that `parse_request_line` leaves in the request, whatever it returns. -/
def requestMethod (s : List UInt8) : List UInt8 :=
  let s := s.takeWhile (· ≠ 0)
  if s.drop (s.length - 2) ≠ crlf then [] else (split 0x20 (s.take (s.length - 2))).headD []

def requestLine (method path : List UInt8) : List UInt8 :=
  method ++ 0x20 :: (encodeUrl path ++ 0x20 :: (ascii "HTTP/1.1" ++ crlf))

/-! ### A query on the wire -/

/-- A parameter as it arrives, when its name needs no encoding. -/
def wirePiece (p : List UInt8 × List UInt8) : List UInt8 := wire p.1 ++ 0x3d :: wire p.2

/-- A name that the client can send as it is. -/
def Plain (key : List UInt8) : Prop := key ≠ [] ∧ encodeQueryParam key = key

instance (key : List UInt8) : Decidable (Plain key) := inferInstanceAs (Decidable (_ ∧ _))

theorem wire_ne_nil {value : List UInt8} (h : value ≠ []) : wire value ≠ [] := fun hnil =>
  h (wire_injective hnil)

theorem wire_not_space {value : List UInt8} {c : UInt8} (hc : c ∈ wire value) :
    isSpaceOrTab c = false := by
  have hspace : c ≠ 0x20 := fun h => not_mem_wire (by decide) value (h ▸ hc)
  have htab : c ≠ 0x09 := fun h => not_mem_wire (by decide) value (h ▸ hc)
  rw [isSpaceOrTab, beq_eq_false_iff_ne.mpr hspace, beq_eq_false_iff_ne.mpr htab]
  rfl

theorem mem_wirePiece {p : List UInt8 × List UInt8} {c : UInt8} (hc : c ∈ wirePiece p) :
    isWire c = true ∨ c = 0x3d := by
  rcases List.mem_append.mp hc with hname | hrest
  · exact Or.inl (isWire_of_mem hname)
  · rcases List.mem_cons.mp hrest with rfl | hvalue
    · exact Or.inr rfl
    · exact Or.inl (isWire_of_mem hvalue)

theorem not_mem_wirePiece {d : UInt8} (hd : isWire d = false) (hne : d ≠ 0x3d)
    (p : List UInt8 × List UInt8) :
    d ∉ wirePiece p := by
  intro h
  rcases mem_wirePiece h with hwire | heq
  · exact Bool.false_ne_true (hd.symm.trans hwire)
  · exact hne heq

theorem wirePiece_not_space {p : List UInt8 × List UInt8} {c : UInt8} (hc : c ∈ wirePiece p) :
    isSpaceOrTab c = false := by
  have hspace : c ≠ 0x20 := fun h => not_mem_wirePiece (by decide) (by decide) p (h ▸ hc)
  have htab : c ≠ 0x09 := fun h => not_mem_wirePiece (by decide) (by decide) p (h ▸ hc)
  rw [isSpaceOrTab, beq_eq_false_iff_ne.mpr hspace, beq_eq_false_iff_ne.mpr htab]
  rfl

theorem parsePair_wirePiece {p : List UInt8 × List UInt8} (hname : p.1 ≠ []) :
    parsePair (wirePiece p) = (wire p.1, wire p.2) := by
  have hparts : ∀ part ∈ [wire p.1, wire p.2], 0x3d ∉ part ∧
      ∀ c ∈ part, isSpaceOrTab c = false := by
    intro part hpart
    obtain ⟨value, rfl⟩ : ∃ value, part = wire value := by
      rcases List.mem_pair.mp hpart with rfl | rfl
      · exact ⟨p.1, rfl⟩
      · exact ⟨p.2, rfl⟩
    exact ⟨not_mem_wire (by decide) value, fun c hc => wire_not_space hc⟩
  have hsplit : split 0x3d (wirePiece p) = [wire p.1, wire p.2].filter (· ≠ []) := by
    rw [← split_intercalate hparts]
    simp [wirePiece, List.intercalate]
  have hfirst := wire_ne_nil hname
  rw [parsePair, hsplit, List.filter_cons_of_pos (by simpa using hfirst)]
  by_cases hvalue : wire p.2 = []
  · rw [List.filter_cons_of_neg (by simp [hvalue]), List.filter_nil, List.foldl_cons, if_pos rfl,
      List.foldl_nil,
      hvalue]
  · rw [List.filter_cons_of_pos (by simpa using hvalue), List.filter_nil,
      List.foldl_cons, if_pos rfl,
      List.foldl_cons, if_neg hfirst, List.foldl_nil]

theorem wirePiece_injective : Function.Injective wirePiece := by
  intro p q h
  have hcut : ∀ value value' rest rest' : List UInt8, wire value ++ 0x3d :: rest = wire value' ++
      0x3d :: rest' →
      wire value = wire value' ∧ rest = rest' := by
    intro value value' rest rest' h
    have htake : ∀ value rest : List UInt8,
        (wire value ++ 0x3d :: rest).takeWhile (· ≠ 0x3d) = wire value := by
      intro value rest
      rw [List.takeWhile_append_of_pos, List.takeWhile_cons_of_neg (by simp), List.append_nil]
      intro c hc
      simpa using fun heq => not_mem_wire (by decide) value (heq ▸ hc)
    have hfirst : wire value = wire value' := by rw [← htake value rest, h, htake]
    rw [hfirst] at h
    exact ⟨hfirst, List.cons_injective (List.append_cancel_left h)⟩
  obtain ⟨hname, hvalue⟩ := hcut _ _ _ _ h
  exact Prod.ext (wire_injective hname) (wire_injective hvalue)

theorem addPiece_wirePiece {p : List UInt8 × List UInt8} (hname : p.1 ≠ [])
    (seen : List (List UInt8 × List UInt8)) (params : ParamMap) :
    addPiece (seen.map wirePiece, params) (wirePiece p) =
      if p ∈ seen then (seen.map wirePiece, params) else ((p :: seen).map wirePiece,
        params.emplace p) := by
  have hmem : wirePiece p ∈ seen.map wirePiece ↔ p ∈ seen :=
    List.mem_map_of_injective wirePiece_injective
  rw [addPiece, parsePair_wirePiece hname, decodeUrl_wire, decodeUrl_wire]
  by_cases hseen : p ∈ seen
  · rw [if_pos (hmem.mpr hseen), if_pos hseen]
  · rw [if_neg fun h => hseen (hmem.mp h), if_neg hseen, if_neg (wire_ne_nil hname)]
    rfl

theorem foldl_addPiece {pairs : List (List UInt8 × List UInt8)} (hnames : ∀ p ∈ pairs, p.1 ≠ [])
    (seen : List (List UInt8 × List UInt8)) (params : ParamMap)
    (hsorted : (params.pairs ++ pairs).Pairwise fun p q => byteOrder p.1 ≤ byteOrder q.1) :
    ((pairs.map wirePiece).foldl addPiece (seen.map wirePiece, params)).2.pairs =
      params.pairs ++ (pairs.filter (· ∉ seen)).eraseDups := by
  induction pairs generalizing seen params with
  | nil => simp
  | cons p pairs ih =>
      obtain ⟨hname, hnames⟩ := List.forall_mem_cons.mp hnames
      rw [List.map_cons, List.foldl_cons, addPiece_wirePiece hname]
      by_cases hseen : p ∈ seen
      · have hsorted' : (params.pairs ++ pairs).Pairwise fun p q => byteOrder p.1 ≤ byteOrder q.1 :=
          hsorted.sublist ((List.sublist_cons_self p pairs).append_left _)
        rw [if_pos hseen, ih hnames seen params hsorted',
          List.filter_cons_of_neg (by simpa using hseen)]
      · have hlast : (params.emplace p).pairs = params.pairs ++ [p] :=
          Multimap.emplace_last fun q hq =>
            (List.pairwise_append.mp hsorted).2.2 q hq p List.mem_cons_self
        have hrest := ih hnames (p :: seen) (params.emplace p) (by rwa [hlast, List.append_assoc])
        have hfilter : (pairs.filter (· ∉ seen)).filter (fun q => !q == p) =
            pairs.filter (· ∉ p :: seen) := by
          rw [List.filter_filter]
          refine List.filter_congr fun q _ => ?_
          by_cases hq : q = p
          · simp [hq]
          · simp [hq]
        rw [if_neg hseen, List.filter_cons_of_pos (by simpa using hseen),
          List.eraseDups_cons, hfilter]
        exact hrest.trans (by rw [hlast, List.append_assoc]; rfl)

/-! ### A target on the wire -/

structure PlainPath (path : List UInt8) : Prop where
  nonempty : path ≠ []
  chars : ∀ c ∈ path, c ≠ 0 ∧ c ≠ 0x3f ∧ c ≠ 0x23 ∧ c ≠ 0x09

def wireQuery (pairs : List (List UInt8 × List UInt8)) : List UInt8 :=
  [0x26].intercalate (pairs.map wirePiece)

def wireTarget (path : List UInt8) (pairs : List (List UInt8 × List UInt8)) : List UInt8 :=
  if pairs = [] then encodeUrl path else encodeUrl path ++ 0x3f :: wireQuery pairs

theorem encodeUrl_takeWhile (s : List UInt8) : encodeUrl (s.takeWhile (· ≠ 0)) = encodeUrl s := by
  induction s with
  | nil => rfl
  | cons c s ih =>
      by_cases hc : c = 0
      · rw [List.takeWhile_cons_of_neg (by simpa using hc), encodeUrl, encodeUrl, if_pos hc]
      · rw [List.takeWhile_cons_of_pos (by simpa using hc), encodeUrl_cons hc,
          encodeUrl_cons hc, ih]

theorem encodeUrl_intercalate {d : UInt8} (hd : d ≠ 0) (hplain : isEscaped d = false)
    {pieces : List (List UInt8)} (hpieces : ∀ piece ∈ pieces, 0 ∉ piece) :
    encodeUrl ([d].intercalate pieces) = [d].intercalate (pieces.map encodeUrl) := by
  induction pieces with
  | nil => rfl
  | cons piece pieces ih =>
      obtain ⟨hfirst, hrest⟩ := List.forall_mem_cons.mp hpieces
      cases pieces with
      | nil => rw [List.map_singleton, List.intercalate_singleton, List.intercalate_singleton]
      | cons next pieces =>
          have hd' : 0 ∉ [d] := fun h => hd (List.mem_singleton.mp h).symm
          rw [List.map_cons, List.map_cons, List.intercalate_cons_cons, List.intercalate_cons_cons,
            List.append_assoc, encodeUrl_append hfirst, encodeUrl_append hd', ih hrest,
            encodeUrl_of_not_isEscaped hd hplain, List.map_cons, List.append_assoc]
          rfl

theorem encodeUrl_queryPiece {p : List UInt8 × List UInt8} (hname : Plain p.1) :
    0 ∉ queryPiece p ∧ encodeUrl (queryPiece p) = wirePiece p := by
  have hzero : ∀ value, 0 ∉ encodeQueryParam value :=
    not_mem_encodeQueryParam (by decide) (by decide)
  have hname' : encodeUrl p.1 = wire p.1 := by rw [wire, hname.2]
  have hzero' : 0 ∉ p.1 := by
    rw [← hname.2]
    exact hzero p.1
  have heq : isEscaped 0x3d = false := by decide
  constructor
  · intro h
    rcases List.mem_append.mp h with hfirst | hrest
    · exact hzero' hfirst
    · rcases List.mem_cons.mp hrest with hsign | hvalue
      · exact absurd hsign (by decide)
      · exact hzero p.2 hvalue
  · rw [queryPiece, encodeUrl_append hzero', encodeUrl_of_not_isEscaped (by decide) heq, hname']
    rfl

theorem encodeUrl_targetPath {path : List UInt8} (hpath : PlainPath path) {params : ParamMap}
    (hnames : ∀ p ∈ params.pairs, Plain p.1) :
    encodeUrl (targetPath path params) = wireTarget path params.pairs := by
  have hzero : 0 ∉ path := fun h => (hpath.chars 0 h).1 rfl
  have hmark : isEscaped 0x3f = false := by decide
  have hdelimiter : isEscaped 0x26 = false := by decide
  have hquery : hasQuery path = false := by
    have hnone : path.dropWhile (· ≠ 0x3f) = [] :=
      List.dropWhile_eq_nil_iff.mpr fun c hc => by simpa using (hpath.chars c hc).2.1
    rw [hasQuery, hnone, Bool.and_false]
  rw [targetPath, wireTarget]
  split_ifs with hnone
  · rfl
  · have hpieces : ∀ piece ∈ params.pairs.map queryPiece, 0 ∉ piece := by
      intro piece hpiece
      obtain ⟨p, hp, rfl⟩ := List.mem_map.mp hpiece
      exact (encodeUrl_queryPiece (hnames p hp)).1
    have hwire : (params.pairs.map queryPiece).map encodeUrl = params.pairs.map wirePiece := by
      rw [List.map_map]
      exact List.map_congr_left fun p hp => (encodeUrl_queryPiece (hnames p hp)).2
    rw [encodeUrl_takeWhile, appendQueryParams, hquery, encodeUrl_append hzero,
      if_neg Bool.false_ne_true, encodeUrl_of_not_isEscaped (by decide) hmark, paramsToQueryStr,
      encodeUrl_intercalate (by decide) hdelimiter hpieces, hwire, wireQuery]

theorem mem_wireQuery {pairs : List (List UInt8 × List UInt8)} {c : UInt8}
    (hc : c ∈ wireQuery pairs) :
    isWire c = true ∨ c = 0x3d ∨ c = 0x26 := by
  induction pairs with
  | nil => cases hc
  | cons p pairs ih =>
      rw [wireQuery, List.map_cons] at hc
      cases pairs with
      | nil =>
          rw [List.map_nil, List.intercalate_singleton] at hc
          exact (mem_wirePiece hc).imp_right Or.inl
      | cons q pairs =>
          rw [List.map_cons, List.intercalate_cons_cons] at hc
          rcases List.mem_append.mp hc with hc | hc
          · rcases List.mem_append.mp hc with hc | hc
            · exact (mem_wirePiece hc).imp_right Or.inl
            · exact Or.inr (Or.inr (List.mem_singleton.mp hc))
          · exact ih hc

theorem not_mem_wireTarget {path : List UInt8} (hpath : PlainPath path)
    (pairs : List (List UInt8 × List UInt8)) {d : UInt8}
    (hd : d ∈ [(0 : UInt8), 0x20, 0x09, 0x0d, 0x0a, 0x23]) :
    d ∉ wireTarget path pairs := by
  have hd' : isWire d = false ∧ d ≠ 0x3d ∧ d ≠ 0x26 ∧ d ≠ 0x3f := by
    simp only [List.mem_cons, List.not_mem_nil, or_false] at hd
    rcases hd with rfl | rfl | rfl | rfl | rfl | rfl <;> decide
  have hfirst : d ∉ encodeUrl path := by
    intro h
    rcases mem_encodeUrl h with ⟨hmem, hplain⟩ | rfl | ⟨n, hn, rfl⟩
    · obtain ⟨hzero, _, hfragment, htab⟩ := hpath.chars d hmem
      simp only [List.mem_cons, List.not_mem_nil, or_false] at hd
      rcases hd with rfl | rfl | rfl | rfl | rfl | rfl
      · exact hzero rfl
      · exact absurd hplain (by decide)
      · exact htab rfl
      · exact absurd hplain (by decide)
      · exact absurd hplain (by decide)
      · exact hfragment rfl
    · exact absurd hd (by decide)
    · exact Bool.false_ne_true (hd'.1.symm.trans (isWire_hexDigit hn).2)
  rw [wireTarget]
  split_ifs with hnone
  · exact hfirst
  · intro h
    rcases List.mem_append.mp h with h | h
    · exact hfirst h
    · rcases List.mem_cons.mp h with h | h
      · exact hd'.2.2.2 h
      · rcases mem_wireQuery h with hwire | heq | hand
        · exact Bool.false_ne_true (hd'.1.symm.trans hwire)
        · exact hd'.2.1 heq
        · exact hd'.2.2.1 hand

theorem wireQuery_ne_nil {pairs : List (List UInt8 × List UInt8)} (hpairs : pairs ≠ []) :
    wireQuery pairs ≠ [] := by
  obtain ⟨p, pairs, rfl⟩ := List.exists_cons_of_ne_nil hpairs
  have hfirst : wirePiece p ≠ [] := List.append_ne_nil_of_right_ne_nil _ (List.cons_ne_nil _ _)
  rw [wireQuery, List.map_cons]
  cases pairs with
  | nil => rwa [List.map_nil, List.intercalate_singleton]
  | cons q pairs =>
      rw [List.map_cons, List.intercalate_cons_cons]
      exact List.append_ne_nil_of_left_ne_nil (List.append_ne_nil_of_left_ne_nil hfirst _) _

theorem parseQueryText_wireQuery {params : ParamMap} (hnames : ∀ p ∈ params.pairs, p.1 ≠ []) :
    parseQueryText (wireQuery params.pairs) Multimap.empty = params.distinct := by
  have hpieces : ∀ piece ∈ params.pairs.map wirePiece, 0x26 ∉ piece ∧
      ∀ c ∈ piece, isSpaceOrTab c = false := by
    intro piece hpiece
    obtain ⟨p, _, rfl⟩ := List.mem_map.mp hpiece
    exact ⟨not_mem_wirePiece (by decide) (by decide) p, fun c hc => wirePiece_not_space hc⟩
  have hnonempty : (params.pairs.map wirePiece).filter (· ≠ []) = params.pairs.map wirePiece := by
    refine List.filter_eq_self.mpr fun piece hpiece => ?_
    obtain ⟨p, _, rfl⟩ := List.mem_map.mp hpiece
    simp [wirePiece]
  have hfold := foldl_addPiece hnames [] Multimap.empty params.sorted
  have hall : params.pairs.filter (· ∉ []) = params.pairs := List.filter_eq_self.mpr fun _ _ => rfl
  rw [hall] at hfold
  rw [parseQueryText, wireQuery, split_intercalate hpieces, hnonempty]
  exact Multimap.ext hfold

theorem parseTarget_wireTarget {path : List UInt8} (hpath : PlainPath path) {params : ParamMap}
    (hnames : ∀ p ∈ params.pairs, Plain p.1) :
    parseTarget (wireTarget path params.pairs) = some (decodeUrl false path, params.distinct) := by
  have hspace : ∀ c ∈ wireTarget path params.pairs, isSpaceOrTab c = false := by
    intro c hc
    have hblank : c ≠ 0x20 := fun h => not_mem_wireTarget hpath params.pairs (by decide) (h ▸ hc)
    have htab : c ≠ 0x09 := fun h => not_mem_wireTarget hpath params.pairs (by decide) (h ▸ hc)
    rw [isSpaceOrTab, beq_eq_false_iff_ne.mpr hblank, beq_eq_false_iff_ne.mpr htab]
    rfl
  have hzero : 0 ∉ path := fun h => (hpath.chars 0 h).1 rfl
  have hmark : 0x3f ∉ encodeUrl path := by
    intro h
    rcases mem_encodeUrl h with ⟨hmem, _⟩ | h | ⟨n, hn, h⟩
    · exact (hpath.chars _ hmem).2.1 rfl
    · exact absurd h (by decide)
    · exact absurd (isWire_hexDigit hn).2 (by rw [← h]; decide)
  have hfirst : encodeUrl path ≠ [] := fun h => hpath.nonempty ((encodeUrl_eq_nil_iff hzero).mp h)
  have hdecoded : decodeUrl false (encodeUrl path) = decodeUrl false path :=
    decodeUrl_encodeUrl hzero (Or.inl rfl)
  rw [wireTarget] at hspace ⊢
  split_ifs at hspace ⊢ with hnone
  · have hsplit : split 0x3f (encodeUrl path) = [encodeUrl path] := by
      have hpieces : ∀ piece ∈ [encodeUrl path], 0x3f ∉ piece ∧
          ∀ c ∈ piece, isSpaceOrTab c = false := by
        intro piece hpiece
        obtain rfl := List.mem_singleton.mp hpiece
        exact ⟨hmark, hspace⟩
      have h := split_intercalate hpieces
      rwa [List.intercalate_singleton, List.filter_cons_of_pos (by simpa using hfirst),
        List.filter_nil] at h
    have hempty : params.distinct = Multimap.empty := Multimap.ext (congrArg List.eraseDups hnone)
    rw [parseTarget, hsplit, ← hdecoded, hempty]
  · have hmark' : 0x3f ∉ wireQuery params.pairs := by
      intro h
      rcases mem_wireQuery h with hwire | h | h
      · exact absurd hwire (by decide)
      · exact absurd h (by decide)
      · exact absurd h (by decide)
    have hsplit : split 0x3f (encodeUrl path ++ 0x3f :: wireQuery params.pairs) =
        [encodeUrl path, wireQuery params.pairs] := by
      have hpieces : ∀ piece ∈ [encodeUrl path, wireQuery params.pairs],
          0x3f ∉ piece ∧ ∀ c ∈ piece, isSpaceOrTab c = false := by
        intro piece hpiece
        rcases List.mem_pair.mp hpiece with rfl | rfl
        · exact ⟨hmark, fun c hc => hspace c (List.mem_append_left _ hc)⟩
        · exact ⟨hmark', fun c hc => hspace c (List.mem_append_right _ (List.mem_cons_of_mem _ hc))⟩
      have h := split_intercalate hpieces
      rw [List.filter_cons_of_pos (by simpa using hfirst),
        List.filter_cons_of_pos (by simpa using wireQuery_ne_nil hnone), List.filter_nil,
        List.intercalate_cons_cons, List.intercalate_singleton, List.append_assoc] at h
      exact h
    rw [parseTarget, hsplit, ← hdecoded, ← parseQueryText_wireQuery fun p hp => (hnames p hp).1]

/-! ### The line -/

theorem methods_plain {method : List UInt8} (hmethod : method ∈ methods) :
    method ≠ [] ∧ 0 ∉ method ∧ 0x20 ∉ method ∧ 0x0a ∉ method ∧
    ∀ c ∈ method, isSpaceOrTab c = false := by
  simp only [methods, List.mem_cons, List.not_mem_nil, or_false] at hmethod
  rcases hmethod with rfl | rfl | rfl | rfl | rfl | rfl | rfl | rfl | rfl | rfl <;> decide +kernel

theorem parseRequestLine_words {method target : List UInt8} (hmethod : method ∈ methods)
    (hnone : target ≠ [])
    (htarget : ∀ d ∈ [(0 : UInt8), 0x20, 0x09, 0x0d, 0x0a, 0x23], d ∉ target) :
    parseRequestLine (method ++ 0x20 :: (target ++ 0x20 :: (ascii "HTTP/1.1" ++ crlf))) =
      (parseTarget target).map fun p => ⟨method, target, ascii "HTTP/1.1", p.1, p.2⟩ := by
  obtain ⟨hmethod₁, hmethod₂, hmethod₃, _, hmethod₄⟩ := methods_plain hmethod
  have hversion : ascii "HTTP/1.1" ≠ [] ∧ 0 ∉ ascii "HTTP/1.1" ∧ 0x20 ∉ ascii "HTTP/1.1" ∧
      ∀ c ∈ ascii "HTTP/1.1", isSpaceOrTab c = false := by decide +kernel
  obtain ⟨hversion₁, hversion₂, hversion₃, hversion₄⟩ := hversion
  have hspace : ∀ c ∈ target, isSpaceOrTab c = false := by
    intro c hc
    have hblank : c ≠ 0x20 := fun h => htarget _ (by decide) (h ▸ hc)
    have htab : c ≠ 0x09 := fun h => htarget _ (by decide) (h ▸ hc)
    rw [isSpaceOrTab, beq_eq_false_iff_ne.mpr hblank, beq_eq_false_iff_ne.mpr htab]
    rfl
  obtain ⟨words, hwords⟩ : ∃ words, words = [0x20].intercalate [method, target, ascii "HTTP/1.1"] :=
    ⟨_, rfl⟩
  have hline : method ++ 0x20 :: (target ++ 0x20 :: (ascii "HTTP/1.1" ++ crlf)) =
      words ++ crlf := by
    rw [hwords, List.intercalate_cons_cons, List.intercalate_cons_cons, List.intercalate_singleton]
    simp only [List.append_assoc, List.cons_append, List.nil_append]
  have hsplit : split 0x20 words = [method, target, ascii "HTTP/1.1"] := by
    have hpieces : ∀ piece ∈ [method, target, ascii "HTTP/1.1"],
        0x20 ∉ piece ∧ ∀ c ∈ piece, isSpaceOrTab c = false := by
      intro piece hpiece
      simp only [List.mem_cons, List.not_mem_nil, or_false] at hpiece
      rcases hpiece with rfl | rfl | rfl
      · exact ⟨hmethod₃, hmethod₄⟩
      · exact ⟨htarget _ (by decide), hspace⟩
      · exact ⟨hversion₃, hversion₄⟩
    rw [hwords, split_intercalate hpieces, List.filter_cons_of_pos (by simpa using hmethod₁),
      List.filter_cons_of_pos (by simpa using hnone),
      List.filter_cons_of_pos (by simpa using hversion₁),
      List.filter_nil]
  have hzero : ∀ c ∈ words ++ crlf, c ≠ 0 := by
    rw [← hline]
    intro c hc
    rintro rfl
    rcases List.mem_append.mp hc with h | h
    · exact hmethod₂ h
    · rcases List.mem_cons.mp h with h | h
      · exact absurd h (by decide)
      · rcases List.mem_append.mp h with h | h
        · exact htarget _ (by decide) h
        · exact absurd h (by decide)
  have htake : (words ++ crlf).takeWhile (· ≠ 0) = words ++ crlf :=
    List.takeWhile_eq_self_iff.mpr fun c hc => by simpa using hzero c hc
  have hlength : (words ++ crlf).length - 2 = words.length := by
    rw [List.length_append]
    exact Nat.add_sub_cancel _ _
  have hfragment : target.takeWhile (· ≠ 0x23) = target :=
    List.takeWhile_eq_self_iff.mpr fun c hc => by
      have hne : c ≠ 0x23 := fun h => htarget _ (by decide) (h ▸ hc)
      simpa using hne
  rw [hline, parseRequestLine, htake]
  dsimp only
  rw [hlength, List.drop_left, List.take_left, hsplit, if_neg (by simp)]
  dsimp only
  rw [if_neg (by simpa using hmethod), if_neg (by simp), hfragment]

theorem wireTarget_ne_nil {path : List UInt8} (hpath : PlainPath path)
    (pairs : List (List UInt8 × List UInt8)) :
    wireTarget path pairs ≠ [] := by
  have hzero : 0 ∉ path := fun h => (hpath.chars 0 h).1 rfl
  have hfirst : encodeUrl path ≠ [] := fun h => hpath.nonempty ((encodeUrl_eq_nil_iff hzero).mp h)
  rw [wireTarget]
  split_ifs
  · exact hfirst
  · exact List.append_ne_nil_of_left_ne_nil hfirst _

/-- **The request line.** Whatever the values of the parameters are, the server finds the method,
the path and the parameters that the client was given, of equal pairs one. -/
theorem parseRequestLine_requestLine (method path : List UInt8) (params : ParamMap)
    (hmethod : method ∈ methods) (hpath : PlainPath path) (hnames : ∀ p ∈ params.pairs, Plain p.1) :
    parseRequestLine (requestLine method (targetPath path params)) =
      some ⟨method, wireTarget path params.pairs, ascii "HTTP/1.1", decodeUrl false path,
        params.distinct⟩ := by
  rw [requestLine, encodeUrl_targetPath hpath hnames, parseRequestLine_words hmethod
    (wireTarget_ne_nil hpath _) fun d hd => not_mem_wireTarget hpath _ hd,
    parseTarget_wireTarget hpath hnames]
  rfl

def someParams : ParamMap :=
  Multimap.empty.emplaceAll [(ascii "size", ascii "+1"), (ascii "filename", ascii "a b&c=%"),
    (ascii "size", ascii "+1")]

theorem parseRequestLine_requestLine_some :
    (parseRequestLine (requestLine (ascii "GET") (targetPath (ascii "/get") someParams))).map
      (·.params.pairs) =
      some [(ascii "filename", ascii "a b&c=%"), (ascii "size", ascii "+1")] := by
  have hpath : PlainPath (ascii "/get") := ⟨by decide, by decide +kernel⟩
  have hnames : ∀ p ∈ someParams.pairs, Plain p.1 := by decide +kernel
  rw [parseRequestLine_requestLine (ascii "GET") (ascii "/get") someParams (by decide) hpath hnames]
  decide +kernel

end NetworkHomework.Http
