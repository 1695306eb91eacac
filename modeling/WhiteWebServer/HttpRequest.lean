import WhiteWebServer.Buffer
import Mathlib.Data.Finmap

/-!
# `HttpRequest`: the request parser

The class as `http_request.h` and `http_request.cpp` compute it. The parser
works on the read buffer in place: `ParseLine` turns the CR LF that ends a
line into NULs, and the line parsers cut the line into C strings with more
NULs. A function that reads a C string fails (`Fault.outOfBounds`) when no NUL
ends it inside the storage of the buffer.

jsoncpp is not part of the repository; what the parser uses of it is the
parameter `JsonCpp`. Header maps are finite maps without an order;
`makeProxyRequests` takes the order in which the `std::unordered_map` is
iterated.
-/

namespace WhiteWebServer

/-- `Json::Value` and `Json::Reader`, as far as the parser uses them. -/
structure JsonCpp (J : Type) where
  null : J
  clear : J → Except Fault J
  /-- `value[key] = string` -/
  setMember : J → Bytes → Bytes → Except Fault J
  /-- `reader.parse(document, root)`: the answer and the root afterwards. -/
  parse : Bytes → J → Except Fault (Bool × J)

inductive ParseState where
  | requestLine
  | headers
  | body
  | finish
deriving DecidableEq, Repr

inductive HttpCode where
  | noRequest
  | getRequest
  | badRequest
  | noResource
  | forbiddenRequest
  | fileRequest
  | internalError
  | closedConnection
  | movedPermanently
deriving DecidableEq, Repr

inductive LineStatus where
  | lineOk
  | lineBad
  | lineOpen
deriving DecidableEq, Repr

abbrev HeaderMap := Finmap fun _ : Bytes => Bytes

structure HttpRequest (J : Type) where
  state : ParseState
  method : Bytes
  path : Bytes
  version : Bytes
  body : Bytes
  header : HeaderMap
  post : J
deriving DecidableEq

/-- `header_[key]`: the value, and the map with `key` bound to it (to the empty
string when it was not bound). -/
def HeaderMap.access (m : HeaderMap) (key : Bytes) : Bytes × HeaderMap :=
  match m.lookup key with
  | some v => (v, m)
  | none => ([], m.insert key [])

def strToupper (s : Bytes) : Bytes := s.map toupper

def contentLength : Bytes := ascii "CONTENT-LENGTH"
def contentType : Bytes := ascii "CONTENT-TYPE"
def host : Bytes := ascii "HOST"

namespace HttpRequest

variable {J : Type}

/-! ## Construction and queries -/

/-- `Init()`: every field is reset, `post_` by `Json::Value::clear`. -/
def init (js : JsonCpp J) (q : HttpRequest J) : Except Fault (HttpRequest J) :=
  match js.clear q.post with
  | .error e => .error e
  | .ok post => .ok { state := .requestLine, method := [], path := [], version := ascii "1.1",
                      body := [], header := ∅, post := post }

/-- The constructor: `post_` is null, then `Init()`. -/
def new (js : JsonCpp J) : Except Fault (HttpRequest J) :=
  init js { state := .requestLine, method := [], path := [], version := [], body := [],
            header := ∅, post := js.null }

def isFinish (q : HttpRequest J) : Bool := q.state == .finish

def isKeepAlive (q : HttpRequest J) : Bool :=
  match q.header.lookup (ascii "CONNECTION") with
  | none => q.version == ascii "1.1"
  | some v => strcasecmpEq v (ascii "KEEP-ALIVE")

/-! ## Form bodies -/

def charAt (str : Bytes) (i : Int) : Except Fault Byte :=
  if i = str.length then .ok NUL
  else if 0 ≤ i then
    match str[i.toNat]? with
    | some b => .ok b
    | none => .error .outOfBounds
  else .error .outOfBounds

/-- A `char` as an `int`. -/
def charInt (b : Byte) : Int := if b < 128 then b.toNat else b.toNat - 256

def hexToDec (ch : Byte) : Int :=
  let ch := charInt (toupper ch)
  if 48 ≤ ch ∧ ch ≤ 57 then ch - 48 else ch - 65 + 10

/-- The loop of `ConvertPercentEncoding` at index `i`; each turn advances `i`, so
`fuel` from `end - begin` on is enough. -/
def convertLoop (str : Bytes) (last : Int) : Nat → Int → Bytes → Except Fault Bytes
  | 0, i, ret => if i < last then .error .diverges else .ok ret
  | fuel + 1, i, ret =>
      if i < last then do
        let c ← charAt str i
        if c = 43 then convertLoop str last fuel (i + 1) (ret ++ [SP])
        else if c = 37 then do
          let hi ← charAt str (i + 1)
          let lo ← charAt str (i + 2)
          let hexChar := hexToDec hi * 16 + hexToDec lo
          convertLoop str last fuel (i + 2 + 1) (ret ++ [UInt8.ofNat (hexChar % 256).toNat])
        else convertLoop str last fuel (i + 1) (ret ++ [c])
      else .ok ret

def convertPercentEncoding (str : Bytes) (first last : Int) : Except Fault Bytes :=
  convertLoop str last (last - first).toNat first []

/-- `std::string::npos` -/
def npos : Nat := 2 ^ 64 - 1

/-- `str.find(c, pos)` -/
def find (str : Bytes) (c : Byte) (pos : Nat) : Nat :=
  match (str.drop pos).findIdx? (· == c) with
  | some i => pos + i
  | none => npos

/-- One `key=value` segment from `first` to `last` put into `post`. -/
def postSegment (js : JsonCpp J) (body : Bytes) (post : J) (first last : Int) :
    Except Fault J := do
  let splitPos := toInt (find body 61 (toSize first))
  let key ← convertPercentEncoding body first splitPos
  let value ← convertPercentEncoding body (splitPos + 1) last
  js.setMember post key value

/-- The segments of a form body from `first` on. Positions are kept in `int`. -/
def postLoop (js : JsonCpp J) (body : Bytes) : Nat → Int → J → Except Fault J
  | 0, _, _ => .error .diverges
  | fuel + 1, first, post =>
      let last := toInt (find body 38 (toSize first))
      if toSize last ≠ npos then do
        let post ← postSegment js body post first last
        postLoop js body fuel (last + 1) post
      else postSegment js body post first (toInt body.length)

/-- `ParsePost()`. The content type is looked up with `operator[]`. -/
def parsePost (js : JsonCpp J) (q : HttpRequest J) : Except Fault (HttpRequest J) := do
  let (ct, header) := q.header.access contentType
  let q := { q with header := header }
  if strncasecmpEq ct (ascii "application/x-www-form-urlencoded") 33 then do
    let post ← postLoop js q.body (q.body.length + 1) 0 q.post
    return { q with post := post }
  else if strncasecmpEq ct (ascii "application/json") 16 then do
    let (_, post) ← js.parse q.body q.post
    return { q with post := post }
  else return q

/-! ## One line -/

/-- The method names the server takes, in any letter case. -/
def methodOf (method : Bytes) : Option Bytes :=
  if strcasecmpEq method (ascii "GET") then some (ascii "GET")
  else if strcasecmpEq method (ascii "POST") then some (ascii "POST")
  else none

def versionOf (version : Bytes) : Option Bytes :=
  if strcasecmpEq version (ascii "HTTP/1.1") then some (ascii "1.1")
  else if strcasecmpEq version (ascii "HTTP/1.0") then some (ascii "1.0")
  else none

/-- `strncasecmp(url, scheme, n) == 0` and then the rest from the `/` after the
domain on; `none` is the null pointer of a domain with no `/` behind it. -/
def skipDomain (url scheme : Bytes) : Option Bytes :=
  if strncasecmpEq url scheme scheme.length then strchr (url.drop scheme.length) slash
  else some url

/-- The path a request target names, `none` when it names none. The second
`strncasecmp` reads `url` without a test for null. -/
def pathOf (url : Bytes) : Except Fault (Option Bytes) :=
  match skipDomain url (ascii "http://") with
  | none => .error .nullPointer
  | some url =>
      match skipDomain url (ascii "https://") with
      | none => .ok none
      | some url => .ok (if url.head? = some slash then some url else none)

def blanks : Bytes := [SP, TAB]
def separators : Bytes := [colon, SP, TAB]

/-- `ParseRequestLine` on the C string at the read position: whether the line is
accepted, the request afterwards (a rejected line may have set the method and
the version), and the offsets at which a NUL was written. -/
def parseRequestLine (q : HttpRequest J) (line : Bytes) :
    Except Fault (Bool × HttpRequest J × List Nat) :=
  match strpbrk line blanks with
  | none => .ok (false, q, [])
  | some i =>
      match methodOf (line.take i) with
      | none => .ok (false, q, [i])
      | some method =>
          let q := { q with method := method }
          let start := i + 1 + strspn (line.drop (i + 1)) blanks
          let url := line.drop start
          match strpbrk url blanks with
          | none => .ok (false, q, [i])
          | some j =>
              let version := url.drop (j + 1)
              match versionOf (version.drop (strspn version blanks)) with
              | none => .ok (false, q, [i, start + j])
              | some version =>
                  let q := { q with version := version }
                  match pathOf (url.take j) with
                  | .error e => .error e
                  | .ok none => .ok (false, q, [i, start + j])
                  | .ok (some path) =>
                      .ok (true, { q with path := path, state := .headers }, [i, start + j])

/-- `ParseHeader` on the C string at the read position, answering as
`parseRequestLine` does. The empty line ends the headers. -/
def parseHeader (q : HttpRequest J) (line : Bytes) : Bool × HttpRequest J × List Nat :=
  if line = [] then
    (true, { q with state := if contentLength ∈ q.header then .body else .finish }, [])
  else
    match strpbrk line separators with
    | none => (false, q, [])
    | some i =>
        let value := line.drop (i + 1)
        let value := value.drop (strspn value separators)
        (true, { q with header := q.header.insert (strToupper (line.take i)) value }, [i])

/-- `ParseBody` on `readable` unread bytes that start the C string `text`. -/
def parseBody (js : JsonCpp J) (q : HttpRequest J) (readable : Nat) (text : Bytes) :
    Except Fault (Bool × HttpRequest J) := do
  let (length, header) := q.header.access contentLength
  let q := { q with header := header }
  let n ← stoi length
  if toSize n ≤ readable then do
    let q ← parsePost js { q with body := text }
    return (true, { q with state := .finish })
  else return (false, q)

/-! ## The buffer -/

/-- The `for` loop of `ParseLine` over the bytes from index `i` on, `prev` being
the byte before them: the answer and the indices at which a NUL is written. -/
def scanLine (prev : Byte) (i lineLen : Nat) : Bytes → LineStatus × Nat × List Nat
  | [] => (.lineOpen, 0, [])
  | c :: rest =>
      if c = CR then
        match rest with
        | [] => (.lineOpen, 0, [])
        | d :: _ =>
            if d = LF then (.lineOk, lineLen + 1 + 1, [i, i + 1])
            else scanLine c (i + 1) (lineLen + 1) rest
      else if c = LF then
        if prev = CR then (.lineOk, lineLen + 1 + 1, [i, i - 1]) else (.lineBad, 0, [])
      else scanLine c (i + 1) (lineLen + 1) rest

/-- NULs written into the storage. -/
def putNuls (b : Buffer) (indices : List Nat) : Buffer :=
  { b with bufferContainer := indices.foldl (fun l i => l.set i NUL) b.bufferContainer }

/-- The C string at the read position. -/
def readCstring (b : Buffer) : Except Fault Bytes := cstring (b.bufferContainer.drop b.readIdx)

/-- `ParseLine`. In the body everything readable is one line. -/
def parseLine (q : HttpRequest J) (b : Buffer) : LineStatus × Nat × Buffer :=
  if q.state = .body then (.lineOk, b.readableBytes, b)
  else
    let (status, len, nuls) := scanLine (b.guardByte.getD NUL) b.readIdx 0 b.readable
    (status, len, putNuls b nuls)

/-- One accepted or rejected line, by the state of the parser: whether it was
accepted, the request, and the buffer with the line cut up. -/
def parseStateLine (q : HttpRequest J) (b : Buffer) (line : Bytes) :
    Except Fault (Bool × HttpRequest J × Buffer) :=
  match q.state with
  | .requestLine =>
      match parseRequestLine q line with
      | .error e => .error e
      | .ok (ok, q, nuls) => .ok (ok, q, putNuls b (nuls.map (b.readIdx + ·)))
  | .headers =>
      let (ok, q, nuls) := parseHeader q line
      .ok (ok, q, putNuls b (nuls.map (b.readIdx + ·)))
  | _ => .ok (true, q, b)

/-- The `while` loop of `Parse`. `readCstring` is the read of the log line, which
is at debug level and on; a rejected line stays in the buffer. -/
def parseLoop (js : JsonCpp J) : Nat → HttpRequest J → Buffer →
    Except Fault (HttpCode × HttpRequest J × Buffer)
  | fuel, q, b =>
      if b.readableBytes = 0 then
        .ok (if q.state = .finish then .getRequest else .noRequest, q, b)
      else
        match fuel with
        | 0 => .error .diverges
        | fuel + 1 =>
            match parseLine q b with
            | (.lineOk, len, b) =>
                match readCstring b with
                | .error e => .error e
                | .ok line =>
                    if q.state = .body then
                      match parseBody js q b.readableBytes line with
                      | .error e => .error e
                      | .ok (false, q) => .ok (.noRequest, q, b)
                      | .ok (true, q) => parseLoop js fuel q (b.retrieve len)
                    else
                      match parseStateLine q b line with
                      | .error e => .error e
                      | .ok (false, q, b) => .ok (.badRequest, { q with state := .finish }, b)
                      | .ok (true, q, b) => parseLoop js fuel q (b.retrieve len)
            | (_, _, b) => .ok (.noRequest, q, b)

/-- `Parse`. A turn of the loop that does not return retrieves its line, so one
turn for each readable byte is enough. -/
def parse (js : JsonCpp J) (q : HttpRequest J) (b : Buffer) :
    Except Fault (HttpCode × HttpRequest J × Buffer) :=
  if b.readableBytes = 0 then .ok (.noRequest, q, b)
  else parseLoop js (b.readableBytes + 1) q b

/-! ## Forwarding -/

/-- `AddCustomHeader` -/
def addCustomHeader (b : Buffer) (headerFields value : Bytes) : Buffer :=
  b.append (headerFields ++ ascii ": " ++ value ++ crlf)

/-- `MakeProxyRequests` for an iteration of `header_` in the order `entries`.
`header_["HOST"]` binds `HOST` when the client sent none. -/
def makeProxyRequests (q : HttpRequest J) (entries : List (Bytes × Bytes)) (b : Buffer)
    (originIp : Bytes) : HttpRequest J × Buffer :=
  let b := b.append (q.method ++ ascii " " ++ q.path ++ ascii " HTTP/" ++ q.version ++ crlf)
  let b := entries.foldl (fun b e => addCustomHeader b e.1 e.2) b
  let b := addCustomHeader b (ascii "X-Forwarded-For") originIp
  let (hostValue, header) := q.header.access host
  let b := addCustomHeader b (ascii "X-Forwarded-Host") hostValue
  let b := addCustomHeader b (ascii "X-Forwarded-Proto") (ascii "http")
  let b := addCustomHeader b (ascii "Forwarded")
    (ascii "for=" ++ originIp ++ ascii ";host=" ++ hostValue ++ ascii ";proto=http")
  let b := addCustomHeader b (ascii "via") (ascii "WhiteWebServer_Proxy")
  let b := b.append crlf
  ({ q with header := header }, if q.body = [] then b else b.append q.body)

end HttpRequest

end WhiteWebServer
