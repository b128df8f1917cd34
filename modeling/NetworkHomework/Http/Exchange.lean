import NetworkHomework.Http.Client
import NetworkHomework.Http.Response

/-!
# An exchange

What the client reads is what the handler has answered to what the client has asked: the request is
read as it was meant, and the response as it was made, however the two are cut on the way
(`get_exchange`). For `/get` the file at the client is the portion asked for of the file at the
server (`get_download`).
-/

namespace NetworkHomework.Http

open Conversions Numerals

/-! ### The client's side of a request -/

/-- A `Get` that the server can take as it is: its path and its names need no encoding, its headers
fit in a line each, and it asks for no ranges. -/
structure Get where
  host : List UInt8
  path : List UInt8
  params : ParamMap
  headers : Headers
  plainPath : PlainPath path
  plainNames : ∀ p ∈ params.pairs, Plain p.1
  plainHeaders : ∀ p ∈ (requestHeaders host headers).pairs, PlainHeader p
  noRange : headers.get (ascii "Range") = none
  noExpect : headers.get (ascii "Expect") = none
  short : (requestLine (ascii "GET") (targetPath path params)).length ≤ requestUriMaxLength

namespace Get

def written (get : Get) : List UInt8 := writeRequest get.host get.path get.params get.headers

def answer (get : Get) (lookup : Lookup) : Response :=
  routing lookup (decodeUrl false get.path) get.params.distinct

end Get

theorem get_setDefault_of_ne {headers : Headers} {key value k : List UInt8}
    (hne : foldCase key ≠ foldCase k) :
    (setDefault headers key value).get k = headers.get k := by
  rw [setDefault]
  split_ifs
  · rfl
  · exact Multimap.get_emplace_of_ne hne

theorem get_requestHeaders {host : List UInt8} {headers : Headers} {k : List UInt8}
    (hk : foldCase k ∉ [foldCase (ascii "Connection"), foldCase (ascii "Host"), foldCase (ascii "Accept"),
      foldCase (ascii "User-Agent")]) : (requestHeaders host headers).get k = headers.get k := by
  simp only [List.mem_cons, List.not_mem_nil, or_false, not_or] at hk
  obtain ⟨h₁, h₂, h₃, h₄⟩ := hk
  rw [requestHeaders, get_setDefault_of_ne (Ne.symm h₄), get_setDefault_of_ne (Ne.symm h₃),
    get_setDefault_of_ne (Ne.symm h₂), get_setDefault_of_ne (Ne.symm h₁)]

theorem requestLine_ends {method path : List UInt8} (params : ParamMap) (hmethod : method ∈ methods)
    (hpath : PlainPath path) (hnames : ∀ p ∈ params.pairs, Plain p.1) :
    ∃ line, requestLine method (targetPath path params) = line ++ crlf ∧ 0x0a ∉ line := by
  refine ⟨method ++ 0x20 :: (wireTarget path params.pairs ++ 0x20 :: ascii "HTTP/1.1"), ?_, ?_⟩
  · rw [requestLine, encodeUrl_targetPath hpath hnames]
    simp only [List.append_assoc, List.cons_append]
  · intro h
    rcases List.mem_append.mp h with h | h
    · exact (methods_plain hmethod).2.2.2.1 h
    · rcases List.mem_cons.mp h with h | h
      · exact absurd h (by decide)
      · rcases List.mem_append.mp h with h | h
        · exact not_mem_wireTarget hpath params.pairs (by decide) h
        · exact absurd h (by decide)

namespace Get

variable (get : Get)

def closes : Bool :=
  headerValue (requestHeaders get.host get.headers) (ascii "Connection") [] = ascii "close"

def response (lookup : Lookup) (last : Bool) (cs : List Conditions) :
    List UInt8 :=
  writeResponse (ascii "GET") (last || get.closes) (get.answer lookup) cs

/-- However the request is cut, the server reads the line and the headers that were written. -/
theorem read_written {s : SocketStream} {rest : List UInt8}
    (hpending : s.pending = get.written ++ rest) :
    ∃ s' s'', s.getline = some (requestLine (ascii "GET") (targetPath get.path get.params), s') ∧
      readHeaders s' Multimap.empty = (requestHeaders get.host get.headers, true, s'') ∧
      0x0a ∈ s.pending ∧ s''.pending = rest ∧ s''.closed = s.closed := by
  have hget : ascii "GET" ∈ methods := by decide
  obtain ⟨line, hline, hend⟩ := requestLine_ends get.params hget get.plainPath get.plainNames
  have hpending' : s.pending = line ++ crlf ++
      (writeHeaders (requestHeaders get.host get.headers) ++ rest) := by
    rw [hpending, written, writeRequest, hline, List.append_assoc]
  obtain ⟨s', hgetline, hrest, hclosed⟩ := getline_crlf hend hpending'
  rw [← hline] at hgetline
  obtain ⟨s'', hheaders, hrest', hclosed'⟩ :=
    readHeaders_of_pending get.plainHeaders hrest Multimap.empty
  rw [Multimap.emplaceAll_pairs] at hheaders
  have hbyte : 0x0a ∈ crlf := by decide
  refine ⟨s', s'', hgetline, hheaders, ?_, hrest', hclosed'.trans hclosed⟩
  rw [hpending']
  exact List.mem_append_left _ (List.mem_append_right _ hbyte)

/-- The handlers see the path and the parameters that were asked for. -/
theorem processRequest_of_read (lookup : Lookup)
    (elsewhere : Request → Headers → SocketStream → Served) {socket : Nat}
      (hsocket : socket < fdSetsize)
    (last : Bool) (cs : List Conditions) {s s' s'' : SocketStream}
    (hgetline : s.getline = some (requestLine (ascii "GET") (targetPath get.path get.params), s'))
    (hheaders : readHeaders s' Multimap.empty = (requestHeaders get.host get.headers, true, s'')) :
    processRequest lookup elsewhere socket last cs s =
      some ⟨get.response lookup last cs, writtenWhole (get.answer lookup) cs, get.closes, s''⟩ := by
  have hget : ascii "GET" ∈ methods := by decide
  have hparse : parseRequestLine (requestLine (ascii "GET") (targetPath get.path get.params)) =
      some ⟨ascii "GET", wireTarget get.path get.params.pairs, ascii "HTTP/1.1",
        decodeUrl false get.path,
        get.params.distinct⟩ := by
    rw [requestLine, encodeUrl_targetPath get.plainPath get.plainNames, parseRequestLine_words hget
      (wireTarget_ne_nil get.plainPath _) fun d hd => not_mem_wireTarget get.plainPath _ hd,
      parseTarget_wireTarget get.plainPath get.plainNames]
    rfl
  have hrange : (requestHeaders get.host get.headers).get (ascii "Range") = none :=
    (get_requestHeaders (by decide +kernel)).trans get.noRange
  have hexpect : (requestHeaders get.host get.headers).get (ascii "Expect") = none :=
    (get_requestHeaders (by decide +kernel)).trans get.noExpect
  have hhere : ¬ (ascii "GET" ≠ ascii "GET" ∨
      hasHeader (requestHeaders get.host get.headers) (ascii "Range") = true ∨
      headerValue (requestHeaders get.host get.headers) (ascii "Expect") [] =
        ascii "100-continue") := by
    rw [hasHeader, headerValue, hrange, hexpect]
    decide
  have hversion : ascii "HTTP/1.1" ≠ ascii "HTTP/1.0" := by decide
  rw [processRequest, hgetline]
  dsimp only
  rw [if_neg (Nat.not_le.mpr hsocket), if_neg (Nat.not_lt.mpr get.short), hparse]
  dsimp only
  rw [hheaders]
  dsimp only
  rw [if_neg (by decide), if_neg hhere, endsWith, decide_eq_false hversion, Bool.false_and,
    Bool.or_false]
  rfl

end Get

/-! ### The server's side of a response -/

def Response.content (res : Response) : List UInt8 :=
  if res.body ≠ [] then res.body else (res.provider.map (·.stored)).getD []

/-- A response as a handler makes it: it leaves the length and the encoding of its content to the
library, and a provider has what it says, and not nothing. -/
structure Response.Sound (res : Response) : Prop where
  plain : ∀ p ∈ res.headers.pairs, PlainHeader p
  noLength : res.headers.get (ascii "Content-Length") = none
  noEncoding : res.headers.get (ascii "Content-Encoding") = none
  noTransfer : res.headers.get (ascii "Transfer-Encoding") = none
  body : res.body.length < 2 ^ 64
  provider : ∀ provider ∈ res.provider,
    provider.stored.length = provider.lenghtF ∧ 0 < provider.lenghtF ∧ provider.lenghtF < 2 ^ 63

theorem get_connectionHeader {close : Bool} {headers : Headers} {k : List UInt8}
    (hconnection : foldCase (ascii "Connection") ≠ foldCase k)
    (hkeep : foldCase (ascii "Keep-Alive") ≠ foldCase k) :
    (connectionHeader close headers).get k = headers.get k := by
  rw [connectionHeader]
  split_ifs
  · exact Multimap.get_emplace_of_ne hconnection
  · exact Multimap.get_emplace_of_ne hkeep

theorem get_typeHeader {res : Response} {headers : Headers} {k : List UInt8}
    (htype : foldCase (ascii "Content-Type") ≠ foldCase k) :
    (typeHeader res headers).get k = headers.get k := by
  rw [typeHeader]
  split_ifs
  · exact Multimap.get_emplace_of_ne htype
  · rfl

theorem get_behind {close : Bool} {res : Response} {headers : Headers} {k : List UInt8}
    (hk : foldCase k ∉ [foldCase (ascii "Connection"), foldCase (ascii "Keep-Alive"),
      foldCase (ascii "Content-Type")]) :
    (typeHeader res (connectionHeader close headers)).get k = headers.get k := by
  simp only [List.mem_cons, List.not_mem_nil, or_false, not_or] at hk
  obtain ⟨hconnection, hkeep, htype⟩ := hk
  rw [get_typeHeader (Ne.symm htype), get_connectionHeader (Ne.symm hconnection) (Ne.symm hkeep)]

theorem get_rangesHeader {method : List UInt8} {headers : Headers} {k : List UInt8}
    (hranges : foldCase (ascii "Accept-Ranges") ≠ foldCase k) :
    (rangesHeader method headers).get k = headers.get k := by
  rw [rangesHeader]
  split_ifs
  · exact Multimap.get_emplace_of_ne hranges
  · rfl

theorem get_responseHeaders {method : List UInt8} {close : Bool} {res : Response} {k : List UInt8}
    (hk : foldCase k ∉ [foldCase (ascii "Connection"), foldCase (ascii "Keep-Alive"),
      foldCase (ascii "Content-Type")]) (hlength : foldCase (ascii "Content-Length") ≠ foldCase k)
    (hranges : foldCase (ascii "Accept-Ranges") ≠ foldCase k) :
    (responseHeaders method close res).get k = res.headers.get k := by
  have happly : (applyRanges res).get k = res.headers.get k := by
    rw [applyRanges]
    split_ifs
    · exact Multimap.get_emplace_of_ne hlength
    · rfl
    · exact Multimap.get_emplace_of_ne hlength
  rw [responseHeaders, get_rangesHeader hranges, lengthHeader]
  split_ifs
  · exact (Multimap.get_emplace_of_ne hlength).trans ((get_behind hk).trans happly)
  · exact (get_behind hk).trans happly

theorem Response.Sound.contentLength {res : Response} (h : res.Sound) (hbody : res.body = []) :
    res.content.length = res.contentLength := by
  rw [Response.content, if_neg (not_not_intro hbody), Response.contentLength]
  cases hprovider : res.provider with
  | none => rfl
  | some provider => exact (h.provider provider hprovider).1

theorem Response.Sound.length_header {res : Response} (h : res.Sound) (method : List UInt8)
    (close : Bool) :
    (responseHeaders method close res).get (ascii "Content-Length") =
      some (toString res.content.length) := by
  have hk : foldCase (ascii "Content-Length") ∉
      [foldCase (ascii "Connection"), foldCase (ascii "Keep-Alive"),
      foldCase (ascii "Content-Type")] := by decide +kernel
  have hranges : ∀ n, (res.headers.emplace (ascii "Content-Length", toString n)).get
      (ascii "Content-Length") =
      some (toString n) := fun n => Multimap.get_emplace_of_none h.noLength rfl
  rw [responseHeaders, get_rangesHeader (by decide +kernel), lengthHeader]
  by_cases hbody : res.body = []
  · by_cases hpos : res.contentLength > 0
    · have happly : applyRanges res =
          res.headers.emplace (ascii "Content-Length", toString res.contentLength) := by
        rw [applyRanges, if_pos hbody, if_pos hpos]
      rw [if_neg fun hnot => Nat.ne_of_gt hpos hnot.2.2.1, get_behind hk, happly, hranges,
        h.contentLength hbody]
    · have happly : applyRanges res = res.headers := by rw [applyRanges, if_pos hbody, if_neg hpos]
      have hzero : res.contentLength = 0 := by omega
      have hprovider : res.provider = none := by
        cases hprovider : res.provider with
        | none => rfl
        | some provider =>
            have hpositive := (h.provider provider hprovider).2.1
            rw [Response.contentLength, hprovider] at hpos
            exact absurd hpositive hpos
      have hmissing : (typeHeader res (connectionHeader close res.headers)).get
          (ascii "Content-Length") = none :=
        (get_behind hk).trans h.noLength
      rw [happly, if_pos ⟨by rw [hasHeader, hmissing]; exact Bool.false_ne_true, hbody, hzero, hprovider⟩,
        h.contentLength hbody, hzero]
      exact Multimap.get_emplace_of_none hmissing rfl
  · have happly : applyRanges res = res.headers.emplace (ascii "Content-Length",
      toString res.body.length) := by
      rw [applyRanges, if_neg hbody]
    rw [if_neg fun hnot => hbody hnot.2.1, get_behind hk, happly, hranges, Response.content,
      if_pos hbody]

/-! ### Every header fits -/

theorem toString_not_space {n : Nat} {c : UInt8} (hc : c ∈ toString n) :
    isSpaceOrTab c = false := by
  have hdigits : ∀ d < 10, isSpaceOrTab (UInt8.ofNat (0x30 + d)) = false := by decide
  obtain ⟨d, hd, rfl⟩ := mem_numeral hc
  exact hdigits d hd

theorem plain_length {n : Nat} (hn : n < 2 ^ 64) :
    PlainHeader (ascii "Content-Length", toString n) where
  key := by
    have hname : ∀ c ∈ ascii "Content-Length", c ≠ 0 ∧ c ≠ 0x3a ∧ c ≠ 0x0a := by decide +kernel
    exact hname
  nonempty := numeral_ne_nil n
  value := by
    intro c hc
    have hdigits : ∀ d < 10, UInt8.ofNat (0x30 + d) ≠ 0 ∧ UInt8.ofNat (0x30 + d) ≠ 0x25 ∧
        UInt8.ofNat (0x30 + d) ≠ 0x0a := by decide
    obtain ⟨d, hd, rfl⟩ := mem_numeral hc
    exact hdigits d hd
  front := fun _ hc => toString_not_space (List.mem_of_mem_head? hc)
  back := fun _ hc => toString_not_space (List.mem_of_mem_getLast? hc)
  short := by
    have hlength : (toString n).length ≤ 20 := by
      rw [toString, numeral, List.length_map]
      exact (Nat.length_toDigits_le_iff (by decide) (by decide)).mpr (Nat.lt_trans hn (by decide))
    have hname : (ascii "Content-Length").length = 14 := by decide
    have hmax : headerMaxLength = 8192 := rfl
    dsimp only
    omega

theorem plain_emplace {headers : Headers} (h : ∀ p ∈ headers.pairs, PlainHeader p)
    {p : List UInt8 × List UInt8} (hp : PlainHeader p) :
    ∀ q ∈ (headers.emplace p).pairs, PlainHeader q := by
  intro q hq
  rcases Multimap.mem_emplace.mp hq with rfl | hq
  · exact hp
  · exact h q hq

theorem Response.Sound.lengths {res : Response} (h : res.Sound) :
    res.contentLength < 2 ^ 64 ∧ res.content.length < 2 ^ 64 := by
  have hlength : res.contentLength < 2 ^ 64 := by
    rw [Response.contentLength]
    cases hprovider : res.provider with
    | none => exact Nat.two_pow_pos 64
    | some provider => exact Nat.lt_trans (h.provider provider hprovider).2.2 (by decide)
  refine ⟨hlength, ?_⟩
  by_cases hbody : res.body = []
  · rwa [h.contentLength hbody]
  · rw [Response.content, if_pos hbody]
    exact h.body

theorem Response.Sound.plain_headers {res : Response} (h : res.Sound) (method : List UInt8)
    (close : Bool) :
    ∀ p ∈ (responseHeaders method close res).pairs, PlainHeader p := by
  have happly : ∀ p ∈ (applyRanges res).pairs, PlainHeader p := by
    rw [applyRanges]
    split_ifs
    · exact plain_emplace h.plain (plain_length h.lengths.1)
    · exact h.plain
    · exact plain_emplace h.plain (plain_length h.body)
  have hconnection : ∀ p ∈ (connectionHeader close (applyRanges res)).pairs, PlainHeader p := by
    rw [connectionHeader]
    split_ifs
    · exact plain_emplace happly (by decide +kernel)
    · exact plain_emplace happly (by decide +kernel)
  have htype : ∀ p ∈ (typeHeader res (connectionHeader close (applyRanges res))).pairs,
      PlainHeader p := by
    rw [typeHeader]
    split_ifs
    · exact plain_emplace hconnection (by decide +kernel)
    · exact hconnection
  have hlength :
      ∀ p ∈ (lengthHeader res (typeHeader res (connectionHeader close (applyRanges res)))).pairs,
      PlainHeader p := by
    rw [lengthHeader]
    split_ifs
    · exact plain_emplace htype (by decide +kernel)
    · exact htype
  rw [responseHeaders, rangesHeader]
  split_ifs
  · exact plain_emplace hlength (by decide +kernel)
  · exact hlength

/-! ### What is written behind the headers -/

theorem writtenBody_eq {res : Response} (h : res.Sound) {cs : List Conditions}
    (hcs : ∀ c ∈ cs, c.Going) (henough : res.content.length ≤ cs.length) :
    writtenBody res cs = res.content := by
  rw [writtenBody]
  by_cases hbody : res.body = []
  · rw [if_neg (not_not_intro hbody)]
    rw [Response.content, if_neg (not_not_intro hbody)] at henough ⊢
    cases hprovider : res.provider with
    | none => rfl
    | some provider =>
        obtain ⟨hstored, hpos, hlt⟩ := h.provider provider hprovider
        rw [hprovider, Option.map_some, Option.getD_some, hstored] at henough
        obtain ⟨_, hsinks⟩ := writeContent_sinks provider (Nat.zero_le provider.lenghtF) hcs
          (by omega : provider.lenghtF - 0 ≤ cs.length)
        have hmod : provider.lenghtF % 2 ^ 64 = provider.lenghtF := Nat.mod_eq_of_lt (by omega)
        dsimp only
        rw [writeContentWithProvider, if_pos hpos, writeRanges, hmod, hsinks, List.drop_zero,
          Nat.sub_zero,
          ← hstored, List.take_length]
        rfl
  · rw [if_pos hbody, Response.content, if_pos hbody]

theorem writtenWhole_eq {res : Response} (h : res.Sound) {cs : List Conditions}
    (hcs : ∀ c ∈ cs, c.Going) (henough : res.content.length ≤ cs.length) :
    writtenWhole res cs = true := by
  rw [writtenWhole]
  split_ifs with hbody
  · rfl
  · rw [Response.content, if_neg hbody] at henough
    cases hprovider : res.provider with
    | none => rfl
    | some provider =>
        obtain ⟨hstored, hpos, hlt⟩ := h.provider provider hprovider
        rw [hprovider, Option.map_some, Option.getD_some, hstored] at henough
        obtain ⟨hresult, _⟩ := writeContent_sinks provider (Nat.zero_le provider.lenghtF) hcs
          (by omega : provider.lenghtF - 0 ≤ cs.length)
        have hmod : provider.lenghtF % 2 ^ 64 = provider.lenghtF := Nat.mod_eq_of_lt (by omega)
        dsimp only
        rw [writeContentWithProvider, if_pos hpos, writeRanges, hmod, hresult]
        rfl

/-! ### The client's side of a response -/

theorem strtoull_toString {n : Nat} (hn : n < 2 ^ 64) : strtoull (toString n) = n := by
  obtain ⟨c, cs, hnumeral, hspace, ⟨hminus, hplus⟩, htake, hvalue⟩ := numeral_read n
  rw [toString, hnumeral, strtoull, List.dropWhile_cons_of_neg (by simp [hspace])]
  split
  next negative rest hsign =>
    split at hsign
    · next heq => exact absurd (List.cons.inj heq).1 hminus
    · next heq => exact absurd (List.cons.inj heq).1 hplus
    · cases hsign
      rw [htake, hvalue]
      dsimp only
      rw [if_neg (by omega), if_neg Bool.false_ne_true]

theorem matchResponseLine_statusLine (status : Status) :
    matchResponseLine (statusLine status) = some (ascii "HTTP/1.1", status.code,
      status.message) := by
  cases status <;> decide +kernel

theorem statusLine_ends (status : Status) :
    ∃ line, statusLine status = line ++ crlf ∧ 0x0a ∉ line := by
  refine ⟨ascii "HTTP/1.1 " ++ toString status.code ++ ascii " " ++ status.message, rfl, ?_⟩
  cases status <;> decide +kernel

theorem Status.code_final (status : Status) : status.code ≠ 100 ∧ status.code ≠ 204 := by
  cases status <;> decide

theorem readResponseLine_final {s s' : SocketStream} {line : List UInt8}
    (hline : s.getline = some (line, s')) {response : List UInt8 × Nat × List UInt8}
    (hmatch : matchResponseLine line = some response) (hfinal : response.2.1 ≠ 100) :
    readResponseLine s = some (response, s') := by
  rw [readResponseLine]
  split
  · rename_i h
    cases hline.symm.trans h
  · rename_i h
    cases hline.symm.trans h
    rw [hmatch]
    exact if_neg hfinal

theorem readContent_of_pending {headers : Headers}
    (hencoding : headers.get (ascii "Content-Encoding") = none)
    (htransfer : headers.get (ascii "Transfer-Encoding") = none) {content : List UInt8}
    (hlength : headers.get (ascii "Content-Length") = some (toString content.length))
    (hcontent : content.length < 2 ^ 64) {s : SocketStream} {rest : List UInt8}
    (hpending : s.pending = content ++ rest) :
    ∃ chunks, readContent s headers = (chunks, headers, true) ∧ chunks.flatten = content := by
  obtain ⟨chunks, s', hread, hflatten, _⟩ := SocketStream.readContentWithLength_of_pending hpending
  have hplain : ¬ (headerValue headers (ascii "Content-Encoding") [] = ascii "gzip" ∨
      headerValue headers (ascii "Content-Encoding") [] = ascii "deflate" ∨
      hasBr (headerValue headers (ascii "Content-Encoding") []) = true) := by
    rw [headerValue, hencoding]
    decide +kernel
  have hwhole : foldCase (headerValue headers (ascii "Transfer-Encoding") []) ≠ foldCase
      (ascii "chunked") := by
    rw [headerValue, htransfer]
    decide +kernel
  refine ⟨chunks, ?_, hflatten⟩
  rw [readContent]
  dsimp only
  rw [if_neg hplain, if_neg hwhole, hlength]
  dsimp only
  rw [strtoull_toString hcontent, hread]

/-- However the response is cut, the client reads it as it was made. -/
theorem readResponse_written {res : Response} (h : res.Sound) (method : List UInt8) (close : Bool)
    {cs : List Conditions} (hcs : ∀ c ∈ cs, c.Going) (henough : res.content.length ≤ cs.length)
    {s : SocketStream} {rest : List UInt8}
    (hpending : s.pending = writeResponse method close res cs ++ rest) :
    ∃ chunks, readResponse s =
        some ⟨ascii "HTTP/1.1", res.status.code, res.status.message,
          responseHeaders method close res, chunks⟩ ∧
      chunks.flatten = res.content := by
  obtain ⟨line, hstatus, hend⟩ := statusLine_ends res.status
  rw [writeResponse, writtenBody_eq h hcs henough, List.append_assoc, List.append_assoc,
    hstatus] at hpending
  obtain ⟨s', hline, hrest, _⟩ := getline_crlf hend hpending
  rw [← hstatus] at hline
  have hresponse :=
    readResponseLine_final hline (matchResponseLine_statusLine res.status) res.status.code_final.1
  rw [writeHeaders] at hrest
  obtain ⟨s'', hheaders, hcontent, _⟩ :=
    readHeaders_of_pending (h.plain_headers method close) hrest Multimap.empty
  rw [Multimap.emplaceAll_pairs] at hheaders
  have hencoding : (responseHeaders method close res).get (ascii "Content-Encoding") = none :=
    (get_responseHeaders (by decide +kernel) (by decide +kernel) (by decide +kernel)).trans
      h.noEncoding
  have htransfer : (responseHeaders method close res).get (ascii "Transfer-Encoding") = none :=
    (get_responseHeaders (by decide +kernel) (by decide +kernel) (by decide +kernel)).trans
      h.noTransfer
  obtain ⟨chunks, hread, hflatten⟩ :=
    readContent_of_pending hencoding htransfer (h.length_header method close)
    h.lengths.2 hcontent
  refine ⟨chunks, ?_, hflatten⟩
  rw [readResponse, hresponse]
  dsimp only
  rw [hheaders]
  dsimp only
  rw [if_neg (by decide), if_neg res.status.code_final.2, hread]
  rfl

/-! ### The handlers -/

theorem bare_sound (status : Status) : (Response.bare status).Sound where
  plain := fun _ hp => absurd hp List.not_mem_nil
  noLength := rfl
  noEncoding := rfl
  noTransfer := rfl
  body := Nat.two_pow_pos 64
  provider := fun _ hprovider => by cases hprovider

theorem one_header_sound {p : List UInt8 × List UInt8} (hp : PlainHeader p)
    (hlength : foldCase p.1 ≠ foldCase (ascii "Content-Length"))
    (hencoding : foldCase p.1 ≠ foldCase (ascii "Content-Encoding"))
    (htransfer : foldCase p.1 ≠ foldCase (ascii "Transfer-Encoding")) (status : Status)
    (body : List UInt8) (hbody : body.length < 2 ^ 64) {provider : Option Provider}
    (hprovider : ∀ p ∈ provider, p.stored.length = p.lenghtF ∧ 0 < p.lenghtF ∧ p.lenghtF < 2 ^ 63) :
    Response.Sound ⟨status, Multimap.empty.emplace p, body, provider⟩ where
  plain := plain_emplace (fun _ hp => absurd hp List.not_mem_nil) hp
  noLength := Multimap.get_emplace_of_ne hlength
  noEncoding := Multimap.get_emplace_of_ne hencoding
  noTransfer := Multimap.get_emplace_of_ne htransfer
  body := hbody
  provider := hprovider

theorem threw_sound {what : List UInt8}
    (hplain : ∀ p ∈ (Response.threw what).headers.pairs, PlainHeader p) :
    (Response.threw what).Sound := by
  have hname : ∀ key ∈ [ascii "Content-Length", ascii "Content-Encoding",
      ascii "Transfer-Encoding"], foldCase (ascii "EXCEPTION_WHAT") ≠ foldCase key := by
    decide +kernel
  exact one_header_sound (hplain _ (Multimap.mem_emplace.mpr (Or.inl rfl))) (hname _ (by simp))
    (hname _ (by simp)) (hname _ (by simp)) _ [] (Nat.two_pow_pos 64) fun _ h => by cases h

theorem getResponse_sound (lookup : Lookup) (params : ParamMap)
    (hplain : ∀ p ∈ (getResponse lookup params).headers.pairs, PlainHeader p)
    (hpos : ∀ provider ∈ (getResponse lookup params).provider, 0 < provider.lenghtF) :
    (getResponse lookup params).Sound := by
  rw [getResponse] at hplain hpos ⊢
  cases hread : params.pairs.foldlM Params.read ⟨[0], 0, 0⟩ with
  | none =>
      rw [hread] at hplain
      exact threw_sound hplain
  | some p =>
      rw [hread] at hplain hpos
      dsimp only at hplain hpos ⊢
      cases hlookup : lookup p.filename with
      | error what =>
          rw [hlookup] at hplain
          exact threw_sound hplain
      | ok found =>
          rw [hlookup] at hpos
          dsimp only at hpos ⊢
          cases hslice : found.bind fun file => slice file p with
          | none => exact bare_sound .notFound
          | some provider =>
              rw [hslice] at hpos
              obtain ⟨file, _, hfile⟩ := Option.bind_eq_some_iff.mp hslice
              obtain ⟨_, _, hstored, hlength⟩ := slice_some hfile
              refine one_header_sound (by decide +kernel) (by decide +kernel) (by decide +kernel)
                (by decide +kernel) _ [] (Nat.two_pow_pos 64) ?_
              rintro _ ⟨⟩
              exact ⟨by rw [hstored, hlength, portion_length], hpos provider rfl,
                slice_bounds hfile⟩

theorem routing_sound (lookup : Lookup) (path : List UInt8) (params : ParamMap)
    (hplain : ∀ p ∈ (routing lookup path params).headers.pairs, PlainHeader p)
    (hpos : ∀ provider ∈ (routing lookup path params).provider, 0 < provider.lenghtF) :
    (routing lookup path params).Sound := by
  rw [routing] at hplain hpos ⊢
  split_ifs at hplain hpos ⊢
  · exact one_header_sound (by decide +kernel) (by decide +kernel) (by decide +kernel)
      (by decide +kernel) _ _ (by decide +kernel) fun _ h => by cases h
  · exact one_header_sound (by decide +kernel) (by decide +kernel) (by decide +kernel)
      (by decide +kernel) _ _ (by decide +kernel) fun _ h => by cases h
  · exact getResponse_sound lookup params hplain hpos
  · exact bare_sound .notFound

/-! ### Both sides -/

namespace Get

def Answered (get : Get) (lookup : Lookup) (response : List UInt8) :
    Prop :=
  ∀ (t : SocketStream) (rest : List UInt8), t.pending = response ++ rest →
    ∃ reply, readResponse t = some reply ∧ reply.status = (get.answer lookup).status.code ∧
      reply.chunks.flatten = (get.answer lookup).content

/-- Nothing keeps the server from the answer: a portion of a file is not empty, the text of an
exception makes a plain header, the descriptor can be selected, and what is written goes through
until it is all gone. -/
structure Undisturbed (get : Get) (lookup : Lookup) (socket : Nat)
    (cs : List Conditions) : Prop where
  nonempty : ∀ provider ∈ (get.answer lookup).provider, 0 < provider.lenghtF
  plain : ∀ p ∈ (get.answer lookup).headers.pairs, PlainHeader p
  selectable : socket < fdSetsize
  going : ∀ c ∈ cs, c.Going
  enough : (get.answer lookup).content.length ≤ cs.length

variable {get : Get} {lookup : Lookup} {socket : Nat}
    {cs : List Conditions}

theorem Undisturbed.answered (h : get.Undisturbed lookup socket cs) (last : Bool) :
    get.Answered lookup (get.response lookup last cs) ∧
    writtenWhole (get.answer lookup) cs = true := by
  have hsound := routing_sound lookup _ _ h.plain h.nonempty
  refine ⟨fun t rest ht => ?_, writtenWhole_eq hsound h.going h.enough⟩
  obtain ⟨chunks, hread, hflatten⟩ := readResponse_written hsound _ _ h.going h.enough ht
  exact ⟨_, hread, rfl, hflatten⟩

theorem Undisturbed.exchange (h : get.Undisturbed lookup socket cs)
    (elsewhere : Request → Headers → SocketStream → Served) (last : Bool) {s : SocketStream}
    {rest : List UInt8} (hs : s.pending = get.written ++ rest) :
    ∃ served, processRequest lookup elsewhere socket last cs s = some served ∧
      get.Answered lookup served.written := by
  obtain ⟨s', s'', hgetline, hheaders, _⟩ := get.read_written hs
  exact ⟨_, get.processRequest_of_read lookup elsewhere h.selectable last cs hgetline hheaders,
    (h.answered last).1⟩

end Get

section

variable (get : Get) (lookup : Lookup)
  (elsewhere : Request → Headers → SocketStream → Served) (socket : Nat) (last : Bool)
  (cs : List Conditions)

/-- **An exchange.** For every path, parameters and headers of a `Get` with an undisturbed answer,
however request and response are cut on their way, the client sees the status and the content that
the handler has answered to what was asked. -/
theorem get_exchange (hanswer : get.Undisturbed lookup socket cs) (s : SocketStream)
    (hs : s.pending = get.written) :
    ∃ served, processRequest lookup elsewhere socket last cs s = some served ∧
      ∀ (t : SocketStream) (rest : List UInt8), t.pending = served.written ++ rest →
        ∃ reply, readResponse t = some reply ∧ reply.status = (get.answer lookup).status.code ∧
          reply.chunks.flatten = (get.answer lookup).content :=
  hanswer.exchange elsewhere last (hs.trans (List.append_nil _).symm)

/-- The handler of `/get`, as the other modules know it. -/
theorem getResponse_of_some {params : ParamMap} {provider : Provider}
    (hget : getHandler lookup.fileAt params.pairs = some provider) :
    (getResponse lookup params).status = .ok ∧
    (getResponse lookup params).provider = some provider ∧
      (getResponse lookup params).body = [] := by
  obtain ⟨p, hread, hbehind⟩ := Option.bind_eq_some_iff.mp hget
  obtain ⟨file, hfile, hslice⟩ := Option.bind_eq_some_iff.mp hbehind
  rw [getResponse, hread]
  dsimp only
  rw [lookup.fileAt_some.mp hfile]
  dsimp only
  rw [Option.bind_some, hslice]
  exact ⟨rfl, rfl, rfl⟩

theorem getResponse_of_none {params : ParamMap}
    (hget : getHandler lookup.fileAt params.pairs = none) :
    (getResponse lookup params).status ≠ .ok ∧ (getResponse lookup params).provider = none ∧
      (getResponse lookup params).body = [] := by
  rw [getResponse]
  cases hread : params.pairs.foldlM Params.read ⟨[0], 0, 0⟩ with
  | none => exact ⟨(by decide : Status.internalServerError ≠ .ok), rfl, rfl⟩
  | some p =>
      have hbehind : ((lookup.fileAt p.filename).bind fun file => slice file p) = none := by
        rw [getHandler, hread] at hget
        exact hget
      dsimp only
      cases hlookup : lookup p.filename with
      | error what => exact ⟨(by decide : Status.internalServerError ≠ .ok), rfl, rfl⟩
      | ok found =>
          rw [Lookup.fileAt, hlookup] at hbehind
          dsimp only at hbehind ⊢
          rw [hbehind]
          exact ⟨(by decide : Status.notFound ≠ .ok), rfl, rfl⟩

theorem getHandler_file {params : List (List UInt8 × List UInt8)} {provider : Provider}
    (hget : getHandler lookup.fileAt params = some provider) :
    ∃ file, lookup (requestedName params) = .ok (some file) := by
  obtain ⟨p, hread, hbehind⟩ := Option.bind_eq_some_iff.mp hget
  obtain ⟨file, hfile, _⟩ := Option.bind_eq_some_iff.mp hbehind
  have hname : p.filename = requestedName params := (read_params hread).1
  exact ⟨file, by rw [← hname, lookup.fileAt_some.mp hfile]⟩

/-- **The download.** The file that the client writes is the portion it has asked for of the file
that the server has, if this is shorter than its array; where the server has no such file, the
client writes an empty one. -/
theorem get_download (hpath : decodeUrl false get.path = ascii "/get")
    (hundisturbed : get.Undisturbed lookup socket cs) (s : SocketStream)
    (hs : s.pending = get.written) (body : Cells UInt8 bodySize) :
    ∃ served, processRequest lookup elsewhere socket last cs s = some served ∧
      ∀ t : SocketStream, t.pending = served.written → ∃ reply, readResponse t = some reply ∧
        match getHandler lookup.fileAt get.params.distinct.pairs with
        | none => reply.status ≠ 200 ∧ download body reply.chunks = some []
        | some _ => reply.status = 200 ∧
            ∃ file, lookup (requestedName get.params.distinct.pairs) = .ok (some file) ∧
              let clip := requestedClip get.params.distinct.pairs
              download body reply.chunks =
                if (portion file.content clip.1 clip.2).length < 10000 then
                  some (portion file.content clip.1 clip.2) else none := by
  have hanswer : get.answer lookup = getResponse lookup get.params.distinct := by
    have hroot : ascii "/get" ≠ ascii "/" := by decide
    have hexit : ascii "/get" ≠ ascii "/exit" := by decide
    rw [Get.answer, routing, hpath, if_neg hroot, if_neg hexit, if_pos rfl]
  obtain ⟨served, hprocess, hread⟩ :=
    hundisturbed.exchange elsewhere last (hs.trans (List.append_nil _).symm)
  refine ⟨served, hprocess, fun t ht => ?_⟩
  obtain ⟨reply, hreply, hcode, hflatten⟩ := hread t [] (ht.trans (List.append_nil _).symm)
  refine ⟨reply, hreply, ?_⟩
  cases hget : getHandler lookup.fileAt get.params.distinct.pairs with
  | none =>
      obtain ⟨hstatus, hprovider, hbody⟩ := getResponse_of_none lookup hget
      rw [← hanswer] at hstatus hprovider hbody
      have hcontent : (get.answer lookup).content = [] := by
        rw [Response.content, if_neg (not_not_intro hbody), hprovider]
        rfl
      refine ⟨?_, ?_⟩
      · rw [hcode]
        cases hnot : (get.answer lookup).status with
        | ok => exact absurd hnot hstatus
        | badRequest => decide
        | notFound => decide
        | uriTooLong => decide
        | internalServerError => decide
      · rw [download_eq, hflatten, hcontent, if_pos (by decide)]
  | some provider =>
      obtain ⟨hstatus, hprovider, hbody⟩ := getResponse_of_some lookup hget
      rw [← hanswer] at hstatus hprovider hbody
      obtain ⟨file, hfile⟩ := getHandler_file lookup hget
      have hcontent : (get.answer lookup).content = provider.stored := by
        rw [Response.content, if_neg (not_not_intro hbody), hprovider]
        rfl
      refine ⟨by rw [hcode, hstatus]; rfl, file, hfile, ?_⟩
      dsimp only
      rw [download_eq, hflatten, hcontent,
        (getHandler_some hget (lookup.fileAt_some.mpr hfile)).2.2.1]
      rfl

end

def getHello : Get where
  host := ascii "localhost:8080"
  path := ascii "/get"
  params := Multimap.empty.emplace (ascii "filename", ascii "hello")
  headers := Multimap.empty
  plainPath := ⟨by decide, by decide +kernel⟩
  plainNames := by decide +kernel
  plainHeaders := by decide +kernel
  noRange := rfl
  noExpect := rfl
  short := by decide +kernel

def unserved (_ : Request) (_ : Headers) (s : SocketStream) : Served := ⟨[], false, false, s⟩

theorem getHello_answer :
    ((getHello.answer fun _ => .ok (some hello)).provider.map (·.lenghtF)) = some 5 ∧
      (getHello.answer fun _ => .ok (some hello)).content = ascii "hello" := by decide +kernel

theorem getHello_undisturbed :
    getHello.Undisturbed (fun _ => .ok (some hello)) 5 (List.replicate 5 smooth) where
  nonempty := by
    intro provider h
    have hprovider := getHello_answer.1
    rw [Option.mem_def.mp h] at hprovider
    have hfive : provider.lenghtF = 5 := Option.some.inj hprovider
    omega
  plain := by decide +kernel
  selectable := by decide
  going := fun _ hc => List.eq_of_mem_replicate hc ▸ smooth_going
  enough := by
    rw [getHello_answer.2]
    decide

theorem get_exchange_hello :
    ∃ served, processRequest (fun _ => .ok (some hello)) unserved 5 false (List.replicate 5 smooth)
        (.trickle getHello.written) = some served ∧
      ∃ reply, readResponse (.trickle served.written) = some reply ∧
        reply.chunks.flatten = ascii "hello" := by
  obtain ⟨served, hprocess, hread⟩ := get_exchange getHello (fun _ => .ok (some hello)) unserved 5
    false (List.replicate 5 smooth) getHello_undisturbed _ (SocketStream.trickle_pending _)
  obtain ⟨reply, hreply, _, hflatten⟩ := hread (.trickle served.written) []
    ((SocketStream.trickle_pending _).trans (List.append_nil _).symm)
  exact ⟨served, hprocess, reply, hreply, hflatten.trans getHello_answer.2⟩

theorem get_download_hello :
    ∃ served, processRequest (fun _ => .ok (some hello)) unserved 5 false (List.replicate 5 smooth)
        (.trickle getHello.written) = some served ∧
      ∃ reply, readResponse (.trickle served.written) = some reply ∧ reply.status = 200 ∧
        download zeroedBody reply.chunks = some (ascii "hello") := by
  obtain ⟨served, hprocess, hread⟩ := get_download getHello (fun _ => .ok (some hello)) unserved 5
    false (List.replicate 5 smooth) (by decide +kernel) getHello_undisturbed _
    (SocketStream.trickle_pending _) zeroedBody
  obtain ⟨reply, hreply, hfile⟩ := hread (.trickle served.written) (SocketStream.trickle_pending _)
  refine ⟨served, hprocess, reply, hreply, ?_⟩
  have hsome : (getHandler (Lookup.fileAt fun _ => .ok (some hello))
      getHello.params.distinct.pairs).isSome := by decide +kernel
  obtain ⟨provider, hget⟩ := Option.isSome_iff_exists.mp hsome
  rw [hget] at hfile
  obtain ⟨hstatus, file, hlookup, hdownload⟩ := hfile
  obtain rfl := Option.some.inj (Except.ok.inj hlookup)
  have hportion : requestedClip getHello.params.distinct.pairs = (0, 0) := by decide +kernel
  rw [hportion] at hdownload
  exact ⟨hstatus, hdownload.trans (by decide +kernel)⟩

end NetworkHomework.Http
