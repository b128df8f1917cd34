import NetworkHomework.Http.Chunks
import NetworkHomework.Http.Slice

/-!
# Requests and responses

What the client writes for a `Get`, what the server reads and answers, and how the client reads the
answer. The server has three handlers, for `/`, `/exit` and `/get`. Requests that are not a `GET`,
that have a `Range` header or that expect to be told to continue are answered elsewhere.
-/

namespace NetworkHomework.Http

open Conversions Numerals

def toString (n : Nat) : List UInt8 := numeral UInt8.ofNat n

/-! ### The client's request -/

/-- `write_request` adds a header of its own where the caller has not set one. -/
def setDefault (headers : Headers) (key value : List UInt8) : Headers :=
  if hasHeader headers key then headers else headers.emplace (key, value)

def requestHeaders (host : List UInt8) (headers : Headers) : Headers :=
  let headers := setDefault headers (ascii "Connection") (ascii "close")
  let headers := setDefault headers (ascii "Host") host
  let headers := setDefault headers (ascii "Accept") (ascii "*/*")
  setDefault headers (ascii "User-Agent") (ascii "cpp-httplib/0.12.2")

def writeRequest (host path : List UInt8) (params : ParamMap) (headers : Headers) : List UInt8 :=
  requestLine (ascii "GET") (targetPath path params) ++ writeHeaders (requestHeaders host headers)

/-! ### The server's answer -/

/-- The statuses that this server answers with. -/
inductive Status where
  | ok
  | badRequest
  | notFound
  | uriTooLong
  | internalServerError
deriving DecidableEq

def Status.code : Status → Nat
  | .ok => 200
  | .badRequest => 400
  | .notFound => 404
  | .uriTooLong => 414
  | .internalServerError => 500

def Status.message : Status → List UInt8
  | .ok => ascii "OK"
  | .badRequest => ascii "Bad Request"
  | .notFound => ascii "Not Found"
  | .uriTooLong => ascii "URI Too Long"
  | .internalServerError => ascii "Internal Server Error"

structure Response where
  status : Status
  headers : Headers
  body : List UInt8
  provider : Option Provider

def Response.bare (status : Status) : Response := ⟨status, Multimap.empty, [], none⟩

def Response.contentLength (res : Response) : Nat := (res.provider.map (·.lenghtF)).getD 0

/-- `set_content`, on a response without headers. -/
def setContent (text contentType : List UInt8) : Response :=
  ⟨.ok, Multimap.empty.emplace (ascii "Content-Type", contentType), text, none⟩

/-- `recv_file_path` and the tests behind it: the text of the exception that they throw, or the
regular file, if there is one. -/
abbrev Lookup := List UInt8 → Except (List UInt8) (Option RegularFile)

def Lookup.fileAt (lookup : Lookup) (filename : List UInt8) : Option RegularFile :=
  match lookup filename with
  | .error _ => none
  | .ok file => file

theorem Lookup.fileAt_some (lookup : Lookup) {filename : List UInt8} {file : RegularFile} :
    lookup.fileAt filename = some file ↔ lookup filename = .ok (some file) := by
  rw [fileAt]
  cases lookup filename with
  | error what => exact iff_of_false (fun h => by cases h) fun h => by cases h
  | ok found => exact ⟨congrArg Except.ok, Except.ok.inj⟩

/-- The text of an exception, as `process_request` makes a header of it. -/
def exceptionWhat (what : List UInt8) : List UInt8 :=
  (cString what).flatMap fun
    | 0x0d => ascii "\\r"
    | 0x0a => ascii "\\n"
    | c => [c]

def Response.threw (what : List UInt8) : Response :=
  ⟨.internalServerError,
    Multimap.empty.emplace (ascii "EXCEPTION_WHAT", exceptionWhat what), [], none⟩

/-- What the handler of `/get` makes of the parameters. A number that `std::stoi` does not like is
an exception as well. The terminator that the handler stores behind the portion, for an unclipped
request behind its array (`stores_inside_iff`), is taken to do no harm. -/
def getResponse (lookup : Lookup) (params : ParamMap) : Response :=
  match params.pairs.foldlM Params.read ⟨[0], 0, 0⟩ with
  | none => .threw (ascii "stoi")
  | some p =>
      match lookup p.filename with
      | .error what => .threw what
      | .ok file =>
          match file.bind fun file => slice file p with
          | none => .bare .notFound
          | some provider =>
              ⟨.ok, Multimap.empty.emplace (ascii "Content-Type", ascii "application/octet-stream"),
                [], some provider⟩

def routing (lookup : Lookup) (path : List UInt8) (params : ParamMap) : Response :=
  if path = ascii "/" then setContent (ascii "Hello World!") (ascii "text/plain")
  else if path = ascii "/exit" then setContent (ascii "exit") (ascii "text/plain")
  else if path = ascii "/get" then getResponse lookup params
  else .bare .notFound

/-- `apply_ranges` for a request without ranges. -/
def applyRanges (res : Response) : Headers :=
  if res.body = [] then
    if res.contentLength > 0 then res.headers.emplace (ascii "Content-Length",
      toString res.contentLength)
    else res.headers
  else res.headers.emplace (ascii "Content-Length", toString res.body.length)

/-! The headers that `write_response_core` adds, one after the other. -/

def connectionHeader (close : Bool) (headers : Headers) : Headers :=
  if close then headers.emplace (ascii "Connection", ascii "close")
  else headers.emplace (ascii "Keep-Alive", ascii "timeout=5, max=5")

def typeHeader (res : Response) (headers : Headers) : Headers :=
  if ¬ hasHeader headers (ascii "Content-Type") ∧ (res.body ≠ [] ∨ res.contentLength > 0 ∨ res.provider.isSome) then
    headers.emplace (ascii "Content-Type", ascii "text/plain")
  else headers

def lengthHeader (res : Response) (headers : Headers) : Headers :=
  if ¬ hasHeader headers (ascii "Content-Length") ∧ res.body = [] ∧ res.contentLength = 0 ∧ res.provider = none then
    headers.emplace (ascii "Content-Length", ascii "0")
  else headers

def rangesHeader (method : List UInt8) (headers : Headers) : Headers :=
  if ¬ hasHeader headers (ascii "Accept-Ranges") ∧ method = ascii "HEAD" then
    headers.emplace (ascii "Accept-Ranges", ascii "bytes")
  else headers

def responseHeaders (method : List UInt8) (close : Bool) (res : Response) : Headers :=
  rangesHeader method (lengthHeader res (typeHeader res (connectionHeader close (applyRanges res))))

def statusLine (status : Status) : List UInt8 :=
  ascii "HTTP/1.1 " ++ toString status.code ++ ascii " " ++ status.message ++ crlf

def writtenBody (res : Response) (cs : List Conditions) : List UInt8 :=
  if res.body ≠ [] then res.body
  else
    match res.provider with
    | none => []
    | some provider =>
        (writeContentWithProvider provider.lenghtF [] cs).calls.flatMap provider.sinks

/-- Whether `write_response_core` returns true. -/
def writtenWhole (res : Response) (cs : List Conditions) : Bool :=
  if res.body ≠ [] then true
  else
    match res.provider with
    | none => true
    | some provider => (writeContentWithProvider provider.lenghtF [] cs).result = some true

/-- What `write_response_core` writes, where its first write goes through. What it writes here to a
`HEAD` is an error, and has no body. -/
def writeResponse (method : List UInt8) (close : Bool) (res : Response) (cs : List Conditions) :
    List UInt8 :=
  statusLine res.status ++ writeHeaders (responseHeaders method close res) ++ writtenBody res cs

def requestUriMaxLength : Nat := 8192

/-- `FD_SETSIZE`: a descriptor from here on cannot be selected. -/
def fdSetsize : Nat := 1024

/-- A call of `process_request` that a request has come for: what it has written, what it returns,
what it has made of `connection_closed`, and where it has stopped reading. -/
structure Served where
  written : List UInt8
  ret : Bool
  connectionClosed : Bool
  behind : SocketStream

/-- Whether the connection ends with a request. -/
def endsWith (request : Request) (headers : Headers) : Bool :=
  headerValue headers (ascii "Connection") [] = ascii "close" ||
    (request.version = ascii "HTTP/1.0" && headerValue headers (ascii "Connection") [] ≠ ascii "Keep-Alive")

section

variable (lookup : Lookup)

/-- `process_request` on a descriptor, and on the last request of its connection if `last`, with
what becomes of a request that is answered elsewhere; `none` if no request comes. -/
def processRequest (elsewhere : Request → Headers → SocketStream → Served) (socket : Nat)
    (last : Bool) (cs : List Conditions) (s : SocketStream) : Option Served :=
  match s.getline with
  | none => none
  | some (line, s) =>
      if socket ≥ fdSetsize then
        some ⟨writeResponse [] last (.bare .internalServerError) cs, true, false,
          (readHeaders s Multimap.empty).2.2⟩
      else if line.length > requestUriMaxLength then
        some ⟨writeResponse [] last (.bare .uriTooLong) cs, true, false,
          (readHeaders s Multimap.empty).2.2⟩
      else
        match parseRequestLine line with
        | none =>
            some ⟨writeResponse (requestMethod line) last (.bare .badRequest) cs, true, false, s⟩
        | some request =>
            let (headers, whole, s) := readHeaders s Multimap.empty
            let close := last || headerValue headers (ascii "Connection") [] = ascii "close"
            if !whole then
              some ⟨writeResponse request.method close (.bare .badRequest) cs, true, false, s⟩
            else if request.method ≠ ascii "GET" ∨ hasHeader headers (ascii "Range") ∨
                headerValue headers (ascii "Expect") [] = ascii "100-continue" then
              some (elsewhere request headers s)
            else
              let res := routing lookup request.path request.params
              some ⟨writeResponse request.method close res cs, writtenWhole res cs,
                endsWith request headers, s⟩

end

/-! ### What the client reads -/

/-- `\r?\n` at the end of a line, taken off. -/
def dropLineEnd (s : List UInt8) : Option (List UInt8) :=
  match s.reverse with
  | 0x0a :: 0x0d :: rest => some rest.reverse
  | 0x0a :: rest => some rest.reverse
  | _ => none

/-- The regular expression of a response line, with the version, the status and the reason it
captures. -/
def matchResponseLine (line : List UInt8) : Option (List UInt8 × Nat × List UInt8) :=
  (dropLineEnd (cString line)).bind fun text =>
    let version := text.take 8
    let digits := (text.drop 9).take 3
    if (version = ascii "HTTP/1.0" ∨ version = ascii "HTTP/1.1") ∧ (text.drop 8).take 1 = [0x20] ∧
        digits.length = 3 ∧ digits.all isDigit then
      match text.drop 12 with
      | [] => some (version, decimal digits, [])
      | 0x20 :: reason =>
          if reason.all fun c => c ≠ 0x0a && c ≠ 0x0d then
            some (version, decimal digits, reason) else none
      | _ => none
    else none

/-- `read_response_line`, which ignores a `100 Continue` and the line behind it. -/
def readResponseLine (s : SocketStream) : Option ((List UInt8 × Nat × List UInt8) × SocketStream) :=
  match hline : s.getline with
  | none => none
  | some (line, s') =>
      match matchResponseLine line with
      | none => none
      | some response =>
          if response.2.1 = 100 then
            match hblank : s'.getline with
            | none => none
            | some (_, s'') =>
                have := SocketStream.getline_lt hline
                have := SocketStream.getline_lt hblank
                readResponseLine s''
          else some (response, s')
termination_by s.pending.length

/-- `std::strtoull` in base ten, which skips white space, takes a sign and stops behind the
digits. -/
def strtoull (s : List UInt8) : Nat :=
  let s := s.dropWhile isSpace
  let (negative, s) :=
    match s with
    | 0x2d :: rest => (true, rest)
    | 0x2b :: rest => (false, rest)
    | rest => (false, rest)
  let value := decimal (s.takeWhile isDigit)
  if value ≥ 2 ^ 64 then 2 ^ 64 - 1 else if negative then (2 ^ 64 - value) % 2 ^ 64 else value

/-- `read_content_without_length`: everything up to the close. -/
def readContentWithoutLength (s : SocketStream) : List (List UInt8) × Bool :=
  match hread : s.read SocketStream.recvBufsiz with
  | (none, _) => ([], false)
  | (some [], _) => ([], true)
  | (some (c :: bytes), s') =>
      have := SocketStream.read_lt (by decide) hread (List.cons_ne_nil c bytes)
      let more := readContentWithoutLength s'
      ((c :: bytes) :: more.1, more.2)
termination_by s.pending.length

/-- Whether `encoding.find("br")` finds something. -/
def hasBr (encoding : List UInt8) : Bool := encoding.tails.any (·.take 2 = ascii "br")

/-- `read_content`: what the receiver gets, the headers with those of a trailer, and whether that is
all. Compressed contents are refused, as the library is built without the decompressors. -/
def readContent (s : SocketStream) (headers : Headers) : List (List UInt8) × Headers × Bool :=
  let encoding := headerValue headers (ascii "Content-Encoding") []
  if encoding = ascii "gzip" ∨ encoding = ascii "deflate" ∨ hasBr encoding then ([], headers, false)
  else if foldCase (headerValue headers (ascii "Transfer-Encoding") []) = foldCase (ascii "chunked") then
    let content := readContentChunked s headers
    (content.1, content.2.1, content.2.2.isSome)
  else
    match headers.get (ascii "Content-Length") with
    | none =>
        let content := readContentWithoutLength s
        (content.1, headers, content.2)
    | some value =>
        let content := s.readContentWithLength (strtoull value)
        (content.1, headers, content.2.1)

/-- What the client knows at the end of `process_request`. -/
structure Reply where
  version : List UInt8
  status : Nat
  reason : List UInt8
  headers : Headers
  chunks : List (List UInt8)

/-- The reading half of `process_request` of the client, for a `GET`; `none` where it returns
false. -/
def readResponse (s : SocketStream) : Option Reply :=
  match readResponseLine s with
  | none => none
  | some ((version, status, reason), s) =>
      let (headers, whole, s) := readHeaders s Multimap.empty
      if !whole then none
      else if status = 204 then some ⟨version, status, reason, headers, []⟩
      else
        let content := readContent s headers
        if content.2.2 then some ⟨version, status, reason, content.2.1, content.1⟩ else none

end NetworkHomework.Http
