import WhiteWebServer.HttpResponse

/-!
# `HttpConn`: one connection

The class as `http_conn.h` and `http_conn.cpp` compute it. A pointer in the
write vectors is the object it points into and the offset there. The members
the constructor leaves alone have whatever was in memory (`Junk`). System calls
are lists of the results they return.
-/

namespace WhiteWebServer

/-- Where an `iov_base` points. -/
inductive Pointer where
  | writeBuff (index : Nat)  -- into the storage of `write_buff_`
  | file (offset : Nat)      -- into the mapped file
  | wild
deriving DecidableEq, Repr

def Pointer.add : Pointer → Nat → Pointer
  | .writeBuff index, n => .writeBuff (index + n)
  | .file offset, n => .file (offset + n)
  | .wild, _ => .wild

structure IoVec where
  base : Pointer
  len : Nat
deriving DecidableEq, Repr

inductive ProcessState where
  | finish
  | pending
  | fail
deriving DecidableEq, Repr

inductive ProxyProcessState where
  | pendingReadFromClient
  | pendingWriteToProxyServer
  | pendingReadFromProxyServer
  | pendingWriteToClient
  | finish
  | fail
deriving DecidableEq, Repr

/-- A client address, the four bytes of `sin_addr`. -/
structure SockAddr where
  a : Byte
  b : Byte
  c : Byte
  d : Byte
deriving DecidableEq, Repr

def inetNtoa (addr : SockAddr) : Bytes := dottedQuad addr.a addr.b addr.c addr.d

/-- What the constructor leaves in the members it does not set. -/
structure Junk where
  proxyFd : Int
  proxyProcessState : ProxyProcessState
  iovCnt : Int
  iov₀ : IoVec
  iov₁ : IoVec
  fileStat : FileStat

structure HttpConn (J : Type) where
  fd : Int
  proxyFd : Int
  address : SockAddr
  proxyProcessState : ProxyProcessState
  isClose : Bool
  iovCnt : Int
  iov₀ : IoVec
  iov₁ : IoVec
  readBuff : Buffer
  writeBuff : Buffer
  request : HttpRequest J
  response : HttpResponse
  indexFile : Option (List Bytes)

namespace HttpConn

variable {J : Type}

/-! ## Construction, opening and closing -/

def new (js : JsonCpp J) (junk : Junk) : Except Fault (HttpConn J) := do
  let readBuff ← Buffer.new 2048
  let writeBuff ← Buffer.new 2048
  let request ← HttpRequest.new js
  return { fd := -1, proxyFd := junk.proxyFd, address := ⟨0, 0, 0, 0⟩,
           proxyProcessState := junk.proxyProcessState, isClose := true, iovCnt := junk.iovCnt,
           iov₀ := junk.iov₀, iov₁ := junk.iov₁, readBuff := readBuff, writeBuff := writeBuff,
           request := request, response := .new junk.fileStat, indexFile := none }

/-- `Init`. The request keeps the state it has. -/
def init (c : HttpConn J) (fd : Int) (addr : SockAddr) (proxyFd : Int)
    (indexFile : Option (List Bytes)) : HttpConn J :=
  { c with address := addr, fd := fd, proxyFd := proxyFd,
           proxyProcessState := .pendingReadFromClient, writeBuff := c.writeBuff.clear,
           readBuff := c.readBuff.clear, isClose := false, indexFile := indexFile }

/-- `Close`, which closes both descriptors. -/
def close (js : JsonCpp J) (c : HttpConn J) : Except Fault (HttpConn J) :=
  let c := { c with response := c.response.close }
  if c.isClose then .ok c
  else
    match c.request.init js with
    | .error e => .error e
    | .ok request => .ok { c with isClose := true, request := request }

def isConnected (c : HttpConn J) : Bool := !c.isClose

def isKeepAlive (c : HttpConn J) : Bool := c.request.isKeepAlive

def resetProxyFd (c : HttpConn J) (newProxyFd : Int) : HttpConn J := { c with proxyFd := newProxyFd }

/-! ## Reading and writing -/

/-- `ReadFromFd`: the `readv` calls that return bytes; the one that ends the loop
returns nothing and changes nothing. -/
def readFromFd (c : HttpConn J) (reads : List Bytes) : HttpConn J :=
  { c with readBuff := reads.foldl (fun b data => b.readFromFd (.ok data)) c.readBuff }

/-- `PendingWriteBytes`: a `std::size_t` returned as an `int`. -/
def pendingWriteBytes (c : HttpConn J) : Int := toInt ((c.iov₀.len + c.iov₁.len) % 2 ^ 64 : Nat)

/-- The vectors after `writev` accepted `len` bytes. -/
def advance (c : HttpConn J) (len : Nat) : HttpConn J :=
  if len > c.iov₀.len then
    let n := len - c.iov₀.len
    let c := { c with iov₁ := { base := c.iov₁.base.add n, len := c.iov₁.len - n } }
    if c.iov₀.len ≠ 0 then
      { c with writeBuff := c.writeBuff.clear, iov₀ := { c.iov₀ with len := 0 } }
    else c
  else
    { c with iov₀ := { base := c.iov₀.base.add len, len := c.iov₀.len - len },
             writeBuff := c.writeBuff.retrieve len }

/-- How `WriteToFd` ends: the value it returns, and the `errno` it stores unless
it leaves the loop without storing one. -/
structure WriteEnd where
  ret : Int
  error : Option Errno
deriving DecidableEq, Repr

/-- The loop of `WriteToFd` on the positive results of `writev` and the one that
ends it: an error, or no byte at all with the `errno` of some earlier call. -/
def writeLoop (last : WriteEnd) : List Nat → Int → HttpConn J → WriteEnd × HttpConn J
  | [], _, c => (last, c)
  | len :: counts, total, c =>
      if (c.iov₀.len + c.iov₁.len) % 2 ^ 64 = 0 then ({ ret := total + len, error := none }, c)
      else writeLoop last counts (total + len) (c.advance len)

def writeToFd (last : WriteEnd) (counts : List Nat) (c : HttpConn J) : WriteEnd × HttpConn J :=
  writeLoop last counts 0 c

/-- `len` bytes from a pointer on, when they are inside one object. -/
def bytesAt (c : HttpConn J) (v : IoVec) : Option Bytes :=
  if v.len = 0 then some []
  else
    match v.base with
    | .writeBuff i =>
        if i + v.len ≤ c.writeBuff.bufferContainer.length then
          some ((c.writeBuff.bufferContainer.drop i).take v.len)
        else none
    | .file i => c.response.fileAddress.bind fun file =>
        if i + v.len ≤ file.length then some ((file.drop i).take v.len) else none
    | .wild => none

/-- The bytes `writev(fd, iov_, iov_cnt_)` offers to the socket. -/
def offered (c : HttpConn J) : Option Bytes :=
  if c.iovCnt = 2 then do
    let head ← c.bytesAt c.iov₀
    let file ← c.bytesAt c.iov₁
    return head ++ file
  else c.bytesAt c.iov₀

/-! ## Processing -/

/-- The write vector in front of everything readable in `write_buff_`. -/
def pointAtWriteBuff (c : HttpConn J) : HttpConn J :=
  { c with iov₀ := { base := .writeBuff c.writeBuff.readIdx, len := c.writeBuff.readableBytes },
           iovCnt := 1 }

/-- The head of `Process`: a finished request is reset before the next one is
parsed. -/
def nextRequest (js : JsonCpp J) (q : HttpRequest J) : Except Fault (HttpRequest J) :=
  if q.isFinish then q.init js else .ok q

/-- The answer to a request, with `response_code_` first set to `code`. -/
def respond (fs : FileSystem) (webRoot : Bytes) (code : Int) (c : HttpConn J) :
    Except Fault (HttpConn J) := do
  let response ← c.response.init webRoot c.request.path c.indexFile c.request.version
    c.request.isKeepAlive code
  let (response, writeBuff) ← response.makeResponse fs c.writeBuff
  return { c with response := response, writeBuff := writeBuff }

/-- `Process` -/
def process (js : JsonCpp J) (fs : FileSystem) (webRoot : Bytes) (c : HttpConn J) :
    Except Fault (ProcessState × HttpConn J) := do
  let request ← nextRequest js c.request
  let c := { c with request := request }
  if c.readBuff.readableBytes = 0 then return (.pending, c)
  let (code, request, readBuff) ← request.parse js c.readBuff
  let c := { c with request := request, readBuff := readBuff }
  if code = .noRequest then return (.pending, c)
  let c ← respond fs webRoot (if code = .getRequest then 200 else 400) c
  let c := c.pointAtWriteBuff
  let c := if c.response.hasFile then
      { c with iov₁ := { base := .file 0, len := toSize c.response.fileSize }, iovCnt := 2 }
    else c
  return (.finish, c)

/-- `ProcessProxy`, `entries` being the order in which the headers of the parsed
request are iterated. -/
def processProxy (js : JsonCpp J) (fs : FileSystem) (webRoot : Bytes)
    (entries : HeaderMap → List (Bytes × Bytes)) (c : HttpConn J) :
    Except Fault (ProxyProcessState × HttpConn J) :=
  match c.proxyProcessState with
  | .pendingReadFromClient => do
      let request ← nextRequest js c.request
      let (code, request, readBuff) ← request.parse js c.readBuff
      let c := { c with request := request, readBuff := readBuff }
      match code with
      | .movedPermanently | .getRequest =>
          let (request, writeBuff) := request.makeProxyRequests (entries request.header)
            c.writeBuff (inetNtoa c.address)
          let c := { c with request := request, writeBuff := writeBuff }.pointAtWriteBuff
          return (.pendingWriteToProxyServer,
            { c with proxyProcessState := .pendingReadFromProxyServer })
      | .badRequest =>
          let c ← respond fs webRoot 400 c
          return (.pendingWriteToClient,
            { c.pointAtWriteBuff with proxyProcessState := .pendingReadFromClient })
      | _ => return (.pendingWriteToClient, c)
  | .pendingReadFromProxyServer =>
      let c := { c with writeBuff := c.readBuff, readBuff := c.writeBuff }.pointAtWriteBuff
      .ok (.pendingWriteToClient, { c with proxyProcessState := .pendingReadFromClient })
  | _ => .ok (.pendingWriteToClient, c)

/-! ## What `Read` leaves of the read buffer -/

theorem readFromFd_holds {g : Byte} {u : Bytes} {n : Nat} {b : Buffer} (h : b.Holds g u n)
    (reads : List Bytes) :
    ∃ m, (reads.foldl (fun b data => b.readFromFd (.ok data)) b).Holds g (u ++ reads.flatten) m := by
  induction reads generalizing b u n with
  | nil => exact ⟨n, by rwa [List.flatten_nil, List.append_nil]⟩
  | cons data reads ih =>
      obtain ⟨m, h'⟩ := h.readFromFd data
      rw [List.flatten_cons, ← List.append_assoc]
      exact ih h'

/-! ## What `Process` leaves of the request and the read buffer -/

section process

variable {js : JsonCpp J} {fs : FileSystem} {webRoot : Bytes} {c : HttpConn J}
  {q q' : HttpRequest J} {b : Buffer}

theorem process_of_empty (hq : nextRequest js c.request = .ok q)
    (hb : c.readBuff.readableBytes = 0) :
    process js fs webRoot c = .ok (.pending, { c with request := q }) := by
  simp only [process, hq, hb, bind, Except.bind, pure, Except.pure, if_true]

theorem process_of_noRequest (hq : nextRequest js c.request = .ok q)
    (hb : c.readBuff.readableBytes ≠ 0)
    (hparse : q.parse js c.readBuff = .ok (.noRequest, q', b)) :
    process js fs webRoot c = .ok (.pending, { c with request := q', readBuff := b }) := by
  simp only [process, hq, hparse, bind, Except.bind, pure, Except.pure, if_neg hb, if_true]

theorem respond_total {code : Int} (hroot : webRoot ≠ []) (hpath : c.request.path ≠ [])
    (hindex : c.indexFile ≠ none) :
    ∃ r b, respond fs webRoot code c = .ok { c with response := r, writeBuff := b } := by
  obtain ⟨r, hr, hrpath, hrindex⟩ : ∃ r, c.response.init webRoot c.request.path c.indexFile
      c.request.version c.request.isKeepAlive code = .ok r ∧ r.path = c.request.path ∧
      r.indexFile = c.indexFile := by
    unfold HttpResponse.init
    rw [if_neg hroot]
    exact ⟨_, rfl, rfl, rfl⟩
  obtain ⟨r', b', hmake⟩ := HttpResponse.makeResponse_total fs r c.writeBuff
    (by rw [hrpath]; exact hpath) (by rw [hrindex]; exact hindex)
  refine ⟨r', b', ?_⟩
  simp only [respond, hr, hmake, bind, Except.bind, pure, Except.pure]

theorem process_of_getRequest (hq : nextRequest js c.request = .ok q)
    (hb : c.readBuff.readableBytes ≠ 0)
    (hparse : q.parse js c.readBuff = .ok (.getRequest, q', b)) (hroot : webRoot ≠ [])
    (hpath : q'.path ≠ []) (hindex : c.indexFile ≠ none) :
    ∃ c', process js fs webRoot c = .ok (.finish, c') ∧ c'.request = q' ∧ c'.readBuff = b ∧
      c'.indexFile = c.indexFile := by
  obtain ⟨r, wb, hrespond⟩ := @respond_total J fs webRoot { c with request := q', readBuff := b }
    200 hroot hpath hindex
  simp only [process, hq, hparse, bind, Except.bind, pure, Except.pure, if_neg hb, if_true,
    reduceCtorEq, if_false, hrespond]
  refine ⟨_, rfl, ?_⟩
  split <;> exact ⟨rfl, rfl, rfl⟩

end process

/-! ## What keeps the descriptors -/

section descriptors

variable {js : JsonCpp J} {fs : FileSystem} {webRoot : Bytes} {c c' : HttpConn J}

/-- The connection has kept its descriptors. -/
structure SameEnds (c c' : HttpConn J) : Prop where
  fd : c'.fd = c.fd
  proxyFd : c'.proxyFd = c.proxyFd
  isClose : c'.isClose = c.isClose

theorem respond_eq {code : Int} (h : respond fs webRoot code c = .ok c') :
    ∃ r b, c' = { c with response := r, writeBuff := b } := by
  unfold respond at h
  cases hinit : c.response.init webRoot c.request.path c.indexFile c.request.version
      c.request.isKeepAlive code with
  | error e => simp [hinit, bind, Except.bind] at h
  | ok r =>
      cases hmake : r.makeResponse fs c.writeBuff with
      | error e => simp [hinit, hmake, bind, Except.bind] at h
      | ok p =>
          simp only [hinit, hmake, bind, Except.bind, pure, Except.pure, Except.ok.injEq] at h
          exact ⟨p.1, p.2, h.symm⟩

/-- `Process` keeps the descriptors. -/
theorem process_same {result : ProcessState} (h : process js fs webRoot c = .ok (result, c')) :
    SameEnds c c' := by
  unfold process at h
  cases hq : nextRequest js c.request with
  | error e => simp [hq, bind, Except.bind] at h
  | ok q =>
      by_cases hb : c.readBuff.readableBytes = 0
      · simp only [hq, bind, Except.bind, pure, Except.pure, if_pos hb, Except.ok.injEq,
          Prod.mk.injEq] at h
        obtain ⟨-, rfl⟩ := h
        exact ⟨rfl, rfl, rfl⟩
      · cases hparse : q.parse js c.readBuff with
        | error e => simp [hq, hparse, bind, Except.bind, hb] at h
        | ok p =>
            obtain ⟨code, q', b⟩ := p
            simp only [hq, hparse, bind, Except.bind, pure, Except.pure, if_neg hb] at h
            by_cases hcode : code = .noRequest
            · simp only [if_pos hcode, Except.ok.injEq, Prod.mk.injEq] at h
              obtain ⟨-, rfl⟩ := h
              exact ⟨rfl, rfl, rfl⟩
            · rw [if_neg hcode] at h
              cases hrespond : respond fs webRoot (if code = .getRequest then 200 else 400)
                  { c with request := q', readBuff := b } with
              | error e => simp [hrespond] at h
              | ok c₁ =>
                  obtain ⟨r, wb, rfl⟩ := respond_eq hrespond
                  simp only [hrespond, Except.ok.injEq, Prod.mk.injEq] at h
                  obtain ⟨-, rfl⟩ := h
                  split <;> exact ⟨rfl, rfl, rfl⟩

/-- What `ProcessProxy` keeps, and the two turns of its state. -/
structure ProxyTurn (c : HttpConn J) (result : ProxyProcessState) (c' : HttpConn J) : Prop where
  same : SameEnds c c'
  fromClient : c.proxyProcessState = .pendingReadFromClient →
    (result = .pendingWriteToProxyServer ∧ c'.proxyProcessState = .pendingReadFromProxyServer) ∨
      (result = .pendingWriteToClient ∧ c'.proxyProcessState = .pendingReadFromClient)
  fromProxy : c.proxyProcessState = .pendingReadFromProxyServer →
    result = .pendingWriteToClient ∧ c'.proxyProcessState = .pendingReadFromClient

theorem processProxy_turn {entries : HeaderMap → List (Bytes × Bytes)}
    {result : ProxyProcessState} (h : processProxy js fs webRoot entries c = .ok (result, c')) :
    ProxyTurn c result c' := by
  unfold processProxy at h
  cases hstate : c.proxyProcessState with
  | pendingReadFromClient =>
      simp only [hstate] at h
      cases hq : nextRequest js c.request with
      | error e => simp [hq, bind, Except.bind] at h
      | ok q =>
          cases hparse : q.parse js c.readBuff with
          | error e => simp [hq, hparse, bind, Except.bind] at h
          | ok p =>
              obtain ⟨code, q', b⟩ := p
              simp only [hq, hparse, bind, Except.bind, pure, Except.pure] at h
              cases code with
              | getRequest =>
                  simp only [Except.ok.injEq, Prod.mk.injEq] at h
                  obtain ⟨rfl, rfl⟩ := h
                  exact ⟨⟨rfl, rfl, rfl⟩, fun _ => Or.inl ⟨rfl, rfl⟩, fun h => by rw [hstate] at h; cases h⟩
              | movedPermanently =>
                  simp only [Except.ok.injEq, Prod.mk.injEq] at h
                  obtain ⟨rfl, rfl⟩ := h
                  exact ⟨⟨rfl, rfl, rfl⟩, fun _ => Or.inl ⟨rfl, rfl⟩, fun h => by rw [hstate] at h; cases h⟩
              | badRequest =>
                  cases hrespond : respond fs webRoot 400
                      { c with request := q', readBuff := b,
                               proxyProcessState := .pendingReadFromClient } with
                  | error e => simp [hrespond] at h
                  | ok c₁ =>
                      obtain ⟨r, wb, rfl⟩ := respond_eq hrespond
                      simp only [hrespond, Except.ok.injEq, Prod.mk.injEq] at h
                      obtain ⟨rfl, rfl⟩ := h
                      exact ⟨⟨rfl, rfl, rfl⟩, fun _ => Or.inr ⟨rfl, rfl⟩, fun h => by rw [hstate] at h; cases h⟩
              | _ =>
                  simp only [Except.ok.injEq, Prod.mk.injEq] at h
                  obtain ⟨rfl, rfl⟩ := h
                  exact ⟨⟨rfl, rfl, rfl⟩, fun _ => Or.inr ⟨rfl, rfl⟩, fun h => by rw [hstate] at h; cases h⟩
  | pendingReadFromProxyServer =>
      simp only [hstate, Except.ok.injEq, Prod.mk.injEq] at h
      obtain ⟨rfl, rfl⟩ := h
      exact ⟨⟨rfl, rfl, rfl⟩, (fun h => by rw [hstate] at h; cases h), fun _ => ⟨rfl, rfl⟩⟩
  | _ =>
      simp only [hstate, Except.ok.injEq, Prod.mk.injEq] at h
      obtain ⟨rfl, rfl⟩ := h
      exact ⟨⟨rfl, rfl, rfl⟩, (fun h => by rw [hstate] at h; cases h),
        fun h => by rw [hstate] at h; cases h⟩

theorem writeLoop_same (last : WriteEnd) :
    ∀ (counts : List Nat) (total : Int) (c : HttpConn J),
      SameEnds c (writeLoop last counts total c).2 ∧
        (writeLoop last counts total c).2.proxyProcessState = c.proxyProcessState := by
  intro counts
  induction counts with
  | nil =>
      intro total c
      exact ⟨⟨rfl, rfl, rfl⟩, rfl⟩
  | cons len counts ih =>
      intro total c
      rw [writeLoop]
      by_cases hzero : (c.iov₀.len + c.iov₁.len) % 2 ^ 64 = 0
      · rw [if_pos hzero]
        exact ⟨⟨rfl, rfl, rfl⟩, rfl⟩
      · rw [if_neg hzero]
        have hadvance : SameEnds c (c.advance len) ∧
            (c.advance len).proxyProcessState = c.proxyProcessState := by
          unfold advance
          dsimp only
          split
          · split <;> exact ⟨⟨rfl, rfl, rfl⟩, rfl⟩
          · exact ⟨⟨rfl, rfl, rfl⟩, rfl⟩
        obtain ⟨hsame, hstate⟩ := ih (total + len) (c.advance len)
        exact ⟨⟨hsame.fd.trans hadvance.1.fd, hsame.proxyFd.trans hadvance.1.proxyFd,
          hsame.isClose.trans hadvance.1.isClose⟩, hstate.trans hadvance.2⟩

/-- The constructor leaves the rest as memory has it. -/
theorem new_closed {junk : Junk} (h : new js junk = .ok c) :
    c.isClose = true ∧ c.proxyFd = junk.proxyFd ∧ c.iov₀ = junk.iov₀ ∧ c.iov₁ = junk.iov₁ := by
  unfold new at h
  cases hbuff : Buffer.new 2048 with
  | error e => simp [hbuff, bind, Except.bind] at h
  | ok buff =>
      cases hrequest : HttpRequest.new js with
      | error e => simp [hbuff, hrequest, bind, Except.bind] at h
      | ok request =>
          simp only [hbuff, hrequest, bind, Except.bind, pure, Except.pure, Except.ok.injEq] at h
          subst h
          exact ⟨rfl, rfl, rfl, rfl⟩

theorem close_kept (h : close js c = .ok c') :
    c'.isClose = true ∧ c'.fd = c.fd ∧ c'.proxyFd = c.proxyFd := by
  unfold close at h
  cases hclose : c.isClose with
  | true =>
      simp only [hclose, if_true, Except.ok.injEq] at h
      subst h
      exact ⟨rfl, rfl, rfl⟩
  | false =>
      cases hinit : c.request.init js with
      | error e => simp [hinit, hclose] at h
      | ok q =>
          simp only [hinit, hclose, Bool.false_eq_true, if_false, Except.ok.injEq] at h
          subst h
          exact ⟨rfl, rfl, rfl⟩

end descriptors

end HttpConn

end WhiteWebServer
