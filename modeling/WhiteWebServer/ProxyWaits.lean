import WhiteWebServer.ConnRuns
import WhiteWebServer.HttpServer
import WhiteWebServer.StaticTokens

/-!
# Proxy mode: what a connection sends to its client

One connection in proxy mode under any order of calls, with what has been read from
either side since its last request was forwarded. §1 the text of a 400 response; §2 the
answers of `ProcessProxy`; §3 the runs; §4 what is sent back, and that an unfinished
request should only wait.
-/

namespace WhiteWebServer

open Outcome

/-! ## §1  The 400 response -/

namespace HttpResponse

variable {fs : FileSystem} {r r' : HttpResponse} {b b' : Buffer} {g : Byte} {u : Bytes} {n : Nat}

def headerText (headerFields value : Bytes) : Bytes := headerFields ++ ascii ": " ++ value ++ crlf

/-- What `MakeResponse` writes for a rejected request. -/
def badRequestText (version : Bytes) : Bytes :=
  ascii "HTTP/" ++ version ++ ascii " " ++ toString 400 ++ ascii " " ++ ascii "Bad Request" ++ crlf ++
    headerText (ascii "Content-type") (ascii "text/html") ++
    (if version = ascii "1.1" then headerText (ascii "Cache-Control") (ascii "max-age=31536000")
      else []) ++
    headerText (ascii "Server") (ascii "WhiteWebServer") ++
    headerText (ascii "Content-Length")
      (decimal (errorBody 400 (ascii "Cannot open specific file")).length ++ crlf) ++
    errorBody 400 (ascii "Cannot open specific file")

theorem addCustomHeader_holds (h : b.Holds g u n) (key value : Bytes) :
    ∃ m, (HttpRequest.addCustomHeader b key value).Holds g (u ++ headerText key value) m :=
  h.append _

theorem addStateLine_badRequest (h : b.Holds g u n) (hcode : r.responseCode = 400) :
    (r.addStateLine b).1 = r ∧ ∃ m, (r.addStateLine b).2.Holds g
      (u ++ (ascii "HTTP/" ++ r.version ++ ascii " " ++ toString 400 ++ ascii " " ++
        ascii "Bad Request" ++ crlf)) m := by
  have hlookup : kCodeStatus.lookup r.responseCode = some (ascii "Bad Request") := by
    rw [hcode]
    rfl
  unfold addStateLine
  rw [hlookup]
  dsimp only
  rw [hcode]
  exact ⟨rfl, h.append _⟩

theorem addHeader_badRequest (h : b.Holds g u n) (hcode : r.responseCode = 400) :
    (r.addHeader b).1 = r ∧ ∃ m, (r.addHeader b).2.Holds g
      (u ++ headerText (ascii "Content-type") (ascii "text/html") ++
        (if r.version = ascii "1.1" then
          headerText (ascii "Cache-Control") (ascii "max-age=31536000") else []) ++
        headerText (ascii "Server") (ascii "WhiteWebServer")) m := by
  have hconnection : addConnection r b = (r, b) := by
    unfold addConnection
    rw [if_neg (by rw [hcode]; decide), if_neg (by rw [hcode]; decide)]
  have htype : r.getFileType = ascii "text/html" := by
    unfold getFileType
    rw [if_pos (by rw [hcode]; decide)]
  unfold addHeader
  rw [hconnection]
  dsimp only
  rw [htype]
  obtain ⟨m₁, h₁⟩ := addCustomHeader_holds h (ascii "Content-type") (ascii "text/html")
  refine ⟨rfl, ?_⟩
  split
  · obtain ⟨m₂, h₂⟩ := addCustomHeader_holds h₁ (ascii "Cache-Control") (ascii "max-age=31536000")
    exact addCustomHeader_holds h₂ _ _
  · rw [List.append_nil]
    exact addCustomHeader_holds h₁ _ _

theorem makeResponse_badRequest (h : b.Holds g u n) (hcode : r.responseCode = 400)
    (hmake : makeResponse fs r b = .ok (r', b')) :
    ∃ m, b'.Holds g (u ++ badRequestText r.version) m := by
  have hserves : ¬ servesFile r.responseCode = true := by
    rw [hcode]
    decide
  obtain ⟨hstate, m₁, h₁⟩ := addStateLine_badRequest h hcode
  obtain ⟨hheader, m₂, h₂⟩ := addHeader_badRequest h₁ hcode
  have heq : (r', b') = addContent fs (addHeader (r.addStateLine b).1 (r.addStateLine b).2).1
      (addHeader (r.addStateLine b).1 (r.addStateLine b).2).2 := by
    unfold makeResponse at hmake
    rw [if_neg hserves] at hmake
    exact (Except.ok.inj hmake).symm
  rw [hstate, hheader, addContent, if_neg hserves] at heq
  obtain ⟨-, rfl⟩ := Prod.mk.inj heq
  unfold generateErrorContent
  rw [hcode]
  obtain ⟨m₃, h₃⟩ := addCustomHeader_holds h₂ (ascii "Content-Length")
    (decimal (errorBody 400 (ascii "Cannot open specific file")).length ++ crlf)
  obtain ⟨m₄, h₄⟩ := h₃.append (errorBody 400 (ascii "Cannot open specific file"))
  refine ⟨m₄, ?_⟩
  simpa only [badRequestText, List.append_assoc] using h₄

end HttpResponse

/-! ## §2  The answers of `ProcessProxy` -/

namespace HttpRequest

variable {J : Type} {js : JsonCpp J} {q q' : HttpRequest J} {b b' : Buffer}

theorem turn_verdict {code : HttpCode} (h : turn js q b = .answers code q' b') :
    code = .noRequest ∨ code = .badRequest := by
  unfold turn at h
  split at h
  · split at h
    · cases h
    · split at h
      · split at h
        · cases h
        · obtain ⟨rfl, -, -⟩ := Turn.answers.inj h
          exact Or.inl rfl
        · cases h
      · split at h
        · cases h
        · obtain ⟨rfl, -, -⟩ := Turn.answers.inj h
          exact Or.inr rfl
        · cases h
  · obtain ⟨rfl, -, -⟩ := Turn.answers.inj h
    exact Or.inl rfl

theorem parseLoop_verdict {code : HttpCode} : ∀ {fuel : Nat} {q : HttpRequest J} {b : Buffer},
    parseLoop js fuel q b = .ok (code, q', b') →
      code = .noRequest ∨ code = .badRequest ∨ code = .getRequest ∧ b'.readableBytes = 0 := by
  intro fuel
  induction fuel with
  | zero =>
      intro q b h
      rw [parseLoop] at h
      split at h
      · rename_i hb
        obtain ⟨rfl, -, rfl⟩ : _ = code ∧ _ = q' ∧ _ = b' := by simpa using h
        split
        · exact Or.inr (Or.inr ⟨rfl, hb⟩)
        · exact Or.inl rfl
      · cases h
  | succ fuel ih =>
      intro q b h
      by_cases hb : b.readableBytes = 0
      · rw [parseLoop, if_pos hb] at h
        obtain ⟨rfl, -, rfl⟩ : _ = code ∧ _ = q' ∧ _ = b' := by simpa using h
        split
        · exact Or.inr (Or.inr ⟨rfl, hb⟩)
        · exact Or.inl rfl
      · rw [parseLoop_succ js fuel q hb] at h
        cases hturn : turn js q b with
        | answers code₁ q₁ b₁ =>
            rw [hturn] at h
            obtain ⟨rfl, -, -⟩ : code₁ = code ∧ q₁ = q' ∧ b₁ = b' := by simpa using h
            exact (turn_verdict hturn).imp_right Or.inl
        | raises e => simp [hturn] at h
        | goesOn q₁ b₁ =>
            rw [hturn] at h
            exact ih h

/-- `Parse` accepts a request only when it has read everything. -/
theorem parse_verdict {code : HttpCode} (h : parse js q b = .ok (code, q', b')) :
    code = .noRequest ∨ code = .badRequest ∨ code = .getRequest ∧ b'.readableBytes = 0 := by
  unfold parse at h
  split at h
  · obtain ⟨rfl, -, -⟩ : _ = code ∧ _ = q' ∧ _ = b' := by simpa using h
    exact Or.inl rfl
  · exact parseLoop_verdict h

end HttpRequest

namespace HttpConn

variable {J : Type} {js : JsonCpp J} {fs : FileSystem} {webRoot : Bytes}
  {entries : HeaderMap → List (Bytes × Bytes)} {c c' : HttpConn J} {q q' : HttpRequest J} {b : Buffer}

/-- `Parse`, as `ProcessProxy` and `Process` call it, gives this verdict. -/
def Verdict (js : JsonCpp J) (c : HttpConn J) (code : HttpCode) (q' : HttpRequest J) (b : Buffer) :
    Prop :=
  ∃ q, nextRequest js c.request = .ok q ∧ q.parse js c.readBuff = .ok (code, q', b)

/-- What a call of `ProcessProxy` on a connection in one of its two states comes to. -/
inductive ProxyAnswer (js : JsonCpp J) (fs : FileSystem) (webRoot : Bytes)
    (entries : HeaderMap → List (Bytes × Bytes)) (c : HttpConn J) :
    ProxyProcessState → HttpConn J → Prop
  | waits {q' : HttpRequest J} {b : Buffer} (hstate : c.proxyProcessState = .pendingReadFromClient)
      (hparse : Verdict js c .noRequest q' b) :
      ProxyAnswer js fs webRoot entries c .pendingWriteToClient
        { c with request := q', readBuff := b }
  | rejects {q' : HttpRequest J} {b : Buffer} {c' : HttpConn J}
      (hstate : c.proxyProcessState = .pendingReadFromClient)
      (hparse : Verdict js c .badRequest q' b)
      (hrespond : respond fs webRoot 400 { c with request := q', readBuff := b } = .ok c') :
      ProxyAnswer js fs webRoot entries c .pendingWriteToClient
        { c'.pointAtWriteBuff with proxyProcessState := .pendingReadFromClient }
  | forwards {q' q'' : HttpRequest J} {b wb : Buffer}
      (hstate : c.proxyProcessState = .pendingReadFromClient)
      (hparse : Verdict js c .getRequest q' b) (hb : b.readableBytes = 0)
      (hmake : q'.makeProxyRequests (entries q'.header) c.writeBuff (inetNtoa c.address) = (q'', wb)) :
      ProxyAnswer js fs webRoot entries c .pendingWriteToProxyServer
        { { c with request := q'', readBuff := b, writeBuff := wb }.pointAtWriteBuff with
          proxyProcessState := .pendingReadFromProxyServer }
  | relays (hstate : c.proxyProcessState = .pendingReadFromProxyServer) :
      ProxyAnswer js fs webRoot entries c .pendingWriteToClient
        { { c with writeBuff := c.readBuff, readBuff := c.writeBuff }.pointAtWriteBuff with
          proxyProcessState := .pendingReadFromClient }

/-- The state of a connected `HttpConn` in proxy mode. -/
def InExchange (c : HttpConn J) : Prop :=
  c.proxyProcessState = .pendingReadFromClient ∨ c.proxyProcessState = .pendingReadFromProxyServer

theorem processProxy_answer {result : ProxyProcessState} (hstate : InExchange c)
    (h : c.processProxy js fs webRoot entries = .ok (result, c')) :
    ProxyAnswer js fs webRoot entries c result c' := by
  unfold processProxy at h
  split at h
  · rename_i hclient
    obtain ⟨q, hq, h⟩ := bind_eq_ok.mp h
    obtain ⟨⟨code, q', b⟩, hparse, h⟩ := bind_eq_ok.mp h
    have hverdict : Verdict js c code q' b := ⟨q, hq, hparse⟩
    rcases HttpRequest.parse_verdict hparse with rfl | rfl | ⟨rfl, hb⟩
    · obtain ⟨rfl, rfl⟩ := Prod.mk.inj (Except.ok.inj h)
      exact ProxyAnswer.waits hclient hverdict
    · obtain ⟨c₁, hrespond, h⟩ := bind_eq_ok.mp h
      obtain ⟨rfl, rfl⟩ := Prod.mk.inj (Except.ok.inj h)
      exact ProxyAnswer.rejects hclient hverdict hrespond
    · obtain ⟨rfl, rfl⟩ := Prod.mk.inj (Except.ok.inj h)
      exact ProxyAnswer.forwards hclient hverdict hb rfl
  · rename_i hproxy
    obtain ⟨rfl, rfl⟩ := Prod.mk.inj (Except.ok.inj h)
    exact ProxyAnswer.relays hproxy
  · rename_i hclient hproxy
    rcases hstate with hstate | hstate
    · exact absurd hstate hclient
    · exact absurd hstate hproxy

/-- An unfinished request. -/
theorem processProxy_waits (hstate : c.proxyProcessState = .pendingReadFromClient)
    (hparse : Verdict js c .noRequest q' b) :
    c.processProxy js fs webRoot entries =
      .ok (.pendingWriteToClient, { c with request := q', readBuff := b }) := by
  obtain ⟨q, hq, hparse⟩ := hparse
  unfold processProxy
  rw [hstate]
  simp only [hq, hparse, bind, Except.bind, pure, Except.pure]

theorem processProxy_relays (hstate : c.proxyProcessState = .pendingReadFromProxyServer) :
    c.processProxy js fs webRoot entries =
      .ok (.pendingWriteToClient,
        { { c with writeBuff := c.readBuff, readBuff := c.writeBuff }.pointAtWriteBuff with
          proxyProcessState := .pendingReadFromClient }) := by
  unfold processProxy
  rw [hstate]

/-! ## §3  Runs in proxy mode -/

/-- What the server calls on a connection in proxy mode. -/
inductive ProxyCall
  | init (fd : Int) (addr : SockAddr) (proxyFd : Int) (indexFile : Option (List Bytes))
  /-- `Read`, and `ReadResponseFromProxy` -/
  | read (inProxy : Bool) (reads : List Bytes)
  /-- `Write`, and `SendRequestToProxy` -/
  | write (last : WriteEnd) (counts : List Nat)
  | processProxy (fs : FileSystem) (entries : HeaderMap → List (Bytes × Bytes))
  | resetProxyFd (newProxyFd : Int)
  | close

def ProxyCall.call : ProxyCall → ConnCall
  | .init fd addr proxyFd indexFile => .init fd addr proxyFd indexFile
  | .read _ reads => .readFromFd reads
  | .write last counts => .writeToFd last counts
  | .processProxy fs entries => .processProxy fs entries
  | .resetProxyFd newProxyFd => .resetProxyFd newProxyFd
  | .close => .close

/-- A connection, and what was read since its last request was forwarded: from the
backend or not, and which bytes. -/
structure Proxied (J : Type) where
  conn : HttpConn J
  since : List (Bool × Bytes)

def readsAfter (c c' : HttpConn J) (since : List (Bool × Bytes)) : ProxyCall → List (Bool × Bytes)
  | .init .. => []
  | .read inProxy reads => since ++ [(inProxy, reads.flatten)]
  | .processProxy .. =>
      if c.proxyProcessState = .pendingReadFromClient ∧
        c'.proxyProcessState = .pendingReadFromProxyServer then [] else since
  | _ => since

def proxied (js : JsonCpp J) (webRoot : Bytes) (c₀ : HttpConn J) :
    Machine (Proxied J) ProxyCall Unit where
  init := { conn := c₀, since := [] }
  step p call := match connStep js webRoot p.conn call.call with
    | .error _ => none
    | .ok c => some ({ conn := c, since := readsAfter p.conn c p.since call }, ())

/-- A connection as some order of calls in proxy mode leaves it. -/
def ProxyReached (js : JsonCpp J) (webRoot : Bytes) (p : Proxied J) : Prop :=
  ∃ junk c₀, HttpConn.new js junk = .ok c₀ ∧
    ∃ ls os, (proxied js webRoot c₀).run ls = some (p, os)

def bytesOf (since : List (Bool × Bytes)) : Bytes := since.flatMap Prod.snd

def fromBackend (since : List (Bool × Bytes)) : Bytes := bytesOf (since.filter (·.1))

def fromClient (since : List (Bool × Bytes)) : Bytes := bytesOf (since.filter (!·.1))

theorem length_bytesOf (since : List (Bool × Bytes)) :
    (bytesOf since).length = (fromBackend since).length + (fromClient since).length := by
  unfold fromBackend fromClient bytesOf
  induction since with
  | nil => rfl
  | cons r since ih =>
      rcases r with ⟨inProxy, data⟩
      cases inProxy
      · simp [ih]
        omega
      · simp [ih]
        omega

/-- Nothing of the client: then it is all of the backend. -/
theorem bytesOf_eq_fromBackend {since : List (Bool × Bytes)} (h : fromClient since = []) :
    bytesOf since = fromBackend since := by
  unfold fromBackend fromClient bytesOf at *
  induction since with
  | nil => rfl
  | cons r since ih =>
      rcases r with ⟨inProxy, data⟩
      cases inProxy
      · simp only [Bool.not_false, List.filter_cons_of_pos, List.flatMap_cons,
          List.append_eq_nil_iff] at h
        simp [h.1, ih h.2]
      · simp only [Bool.not_true, Bool.false_eq_true, not_false_eq_true,
          List.filter_cons_of_neg] at h
        simp [ih h]

/-- While it waits for the backend the read buffer holds what was read since. -/
structure Tracked (p : Proxied J) : Prop where
  stored : BuffersStored p.conn
  turn : p.conn.isClose = false → InExchange p.conn
  reads : p.conn.isClose = false → p.conn.proxyProcessState = .pendingReadFromProxyServer →
    p.conn.readBuff.readable = bytesOf p.since

theorem readFromFd_readable (hb : c.readBuff.Stored) (reads : List Bytes) :
    (c.readFromFd reads).readBuff.readable = c.readBuff.readable ++ reads.flatten := by
  obtain ⟨g, u, n, h⟩ := hb
  obtain ⟨m, h'⟩ := readFromFd_holds h reads
  rw [h.readable]
  exact h'.readable

theorem new_tracked {junk : Junk} (h : HttpConn.new js junk = .ok c) :
    Tracked { conn := c, since := [] } := by
  obtain ⟨hclosed, -⟩ := new_closed h
  refine ⟨new_buffersStored h, fun hopen => ?_, fun hopen => ?_⟩
  · exact absurd (hclosed.symm.trans hopen) (by decide)
  · exact absurd (hclosed.symm.trans hopen) (by decide)

theorem processProxy_tracked {p : Proxied J} {result : ProxyProcessState} (hp : Tracked p)
    (h : p.conn.processProxy js fs webRoot entries = .ok (result, c')) :
    Tracked { conn := c', since := readsAfter p.conn c' p.since (.processProxy fs entries) } := by
  have hstored := processProxy_buffersStored hp.stored h
  have hsame : c'.isClose = p.conn.isClose := (processProxy_turn h).same.isClose
  by_cases hopen : p.conn.isClose = false
  · cases processProxy_answer (hp.turn hopen) h with
    | waits hstate hparse =>
        refine ⟨hstored, fun _ => Or.inl hstate, fun _ hproxy => ?_⟩
        exact absurd (hstate.symm.trans hproxy) (by decide)
    | rejects hstate hparse hrespond =>
        exact ⟨hstored, fun _ => Or.inl rfl, fun _ hproxy => by cases hproxy⟩
    | forwards hstate hparse hb hmake =>
        refine ⟨hstored, fun _ => Or.inr rfl, fun _ _ => ?_⟩
        -- the request was accepted, so nothing is left to read
        obtain ⟨g, u, n, hholds⟩ := hstored.readBuff
        have hu : u = [] := List.length_eq_zero_iff.mp (hholds.readableBytes ▸ hb)
        rw [readsAfter, if_pos ⟨hstate, rfl⟩]
        exact hholds.readable.trans hu
    | relays hstate =>
        exact ⟨hstored, fun _ => Or.inl rfl, fun _ hproxy => by cases hproxy⟩
  · have hclosed : c'.isClose ≠ false := by rwa [hsame]
    exact ⟨hstored, fun hopen' => absurd hopen' hclosed, fun hopen' => absurd hopen' hclosed⟩

theorem proxied_tracked {p : Proxied J} {call : ProxyCall} (hp : Tracked p)
    (h : connStep js webRoot p.conn call.call = .ok c') :
    Tracked { conn := c', since := readsAfter p.conn c' p.since call } := by
  have hstored := connStep_buffersStored hp.stored h
  cases call with
  | init fd addr proxyFd indexFile =>
      obtain rfl := Except.ok.inj h
      exact ⟨hstored, fun _ => Or.inl rfl, fun _ hproxy => by cases hproxy⟩
  | read inProxy reads =>
      obtain rfl := Except.ok.inj h
      refine ⟨hstored, hp.turn, fun hopen hproxy => ?_⟩
      change (p.conn.readFromFd reads).readBuff.readable = bytesOf (p.since ++ [(inProxy, _)])
      rw [readFromFd_readable hp.stored.readBuff, hp.reads hopen hproxy, bytesOf, bytesOf,
        List.flatMap_append, List.flatMap_singleton]
  | write last counts =>
      obtain rfl := Except.ok.inj h
      obtain ⟨hsame, hstate⟩ := writeLoop_same last counts 0 p.conn
      refine ⟨hstored, fun hopen => ?_, fun hopen hproxy => ?_⟩
      · have hturn := hp.turn (hsame.isClose ▸ hopen)
        exact hturn.imp hstate.trans hstate.trans
      · rw [(writeToFd_kept last counts p.conn).2]
        exact hp.reads (hsame.isClose ▸ hopen) (hstate.symm.trans hproxy)
  | processProxy fs entries =>
      obtain ⟨r, hprocess, rfl⟩ := map_eq_ok h
      exact processProxy_tracked hp hprocess
  | resetProxyFd newProxyFd =>
      obtain rfl := Except.ok.inj h
      exact ⟨hstored, hp.turn, hp.reads⟩
  | close =>
      have hclosed : c'.isClose ≠ false := by
        rw [(close_kept h).1]
        decide
      exact ⟨hstored, fun hopen => absurd hopen hclosed, fun hopen => absurd hopen hclosed⟩

theorem ProxyReached.tracked {p : Proxied J} (h : ProxyReached js webRoot p) : Tracked p := by
  obtain ⟨junk, c₀, hc₀, ls, os, hrun⟩ := h
  refine Machine.run_invariant (new_tracked hc₀) ?_ hrun
  intro p call p' o hp hcall
  rw [proxied] at hcall
  dsimp only at hcall
  cases hstep : connStep js webRoot p.conn call.call with
  | error e => simp [hstep] at hcall
  | ok c =>
      simp only [hstep, Option.some.injEq, Prod.mk.injEq] at hcall
      obtain ⟨rfl, -⟩ := hcall
      exact proxied_tracked hp hstep

/-! ## §4  What is sent back -/

/-- The call has put the 400 response to a rejected request into `write_buff_`. -/
def Rejected (js : JsonCpp J) (c c' : HttpConn J) : Prop :=
  c.proxyProcessState = .pendingReadFromClient ∧ ∃ q' b, Verdict js c .badRequest q' b ∧
    c'.writeBuff.readable = c.writeBuff.readable ++ HttpResponse.badRequestText q'.version

/-- `write_buff_` holds what the backend has sent since the request was forwarded. -/
def Relayed (since : List (Bool × Bytes)) (c' : HttpConn J) : Prop :=
  c'.writeBuff.readable = fromBackend since ∧ fromBackend since ≠ []

theorem respond_badRequest (h : respond fs webRoot 400 c = .ok c') (hb : c.writeBuff.Stored) :
    c'.writeBuff.readable =
      c.writeBuff.readable ++ HttpResponse.badRequestText c.request.version := by
  obtain ⟨g, u, n, hholds⟩ := hb
  obtain ⟨r, hinit, h⟩ := bind_eq_ok.mp h
  obtain ⟨⟨r', b'⟩, hmake, h⟩ := bind_eq_ok.mp h
  obtain rfl := Except.ok.inj h
  obtain ⟨hcode, hversion⟩ : r.responseCode = 400 ∧ r.version = c.request.version := by
    unfold HttpResponse.init at hinit
    split at hinit
    · cases hinit
    · obtain rfl := Except.ok.inj hinit
      exact ⟨rfl, rfl⟩
  obtain ⟨m, hwritten⟩ := HttpResponse.makeResponse_badRequest hholds hcode hmake
  rw [hwritten.readable, hholds.readable, hversion]

/-- What was read is an answer of the backend, and of the backend only. -/
def OfBackend (p : Proxied J) : Prop :=
  p.conn.proxyProcessState = .pendingReadFromProxyServer →
    fromClient p.since = [] ∧ fromBackend p.since ≠ []

/-- What was read from the client is not the mere beginning of a request. -/
def NotUnfinished (js : JsonCpp J) (c : HttpConn J) : Prop :=
  c.proxyProcessState = .pendingReadFromClient → ∀ q' b, ¬ Verdict js c .noRequest q' b

end HttpConn

namespace HttpServer

open HttpConn

variable {J : Type} {cfg : ServerConfig J} {p : Proxied J} {w : TaskWorld} {fd : Int}
  {s : HttpServer J}

/-- A call of `ProcessProxy`, and of `OnProcessProxy` around it, sends the client a 400
response or the backend's answer, and only waits for the rest of an unfinished request. -/
structure OnlyWaits (cfg : ServerConfig J) (w : TaskWorld) (fd : Int) (s : HttpServer J)
    (p : Proxied J) : Prop where
  answers : ∀ client, p.conn.processProxy cfg.js w.fs cfg.webRoot w.entries =
      .ok (.pendingWriteToClient, client) →
    Rejected cfg.js p.conn client ∨ Relayed p.since client
  waits : ∀ q' b, p.conn.proxyProcessState = .pendingReadFromClient →
    Verdict cfg.js p.conn .noRequest q' b →
    ∃ s' client, s.onProcessProxy cfg w fd p.conn = some s' ∧ s'.users fd = some client ∧
      client.writeBuff = p.conn.writeBuff ∧
      client.proxyProcessState = p.conn.proxyProcessState ∧ client.iov₀ = p.conn.iov₀ ∧
      client.iov₁ = p.conn.iov₁ ∧ client.iovCnt = p.conn.iovCnt ∧
      s'.epoll = Function.update s.epoll p.conn.fd (some { events := connEventIn, enabled := true })

/-- An unfinished request does not wait: the client is watched for writing. -/
theorem not_onlyWaits {q' : HttpRequest J} {b : Buffer}
    (hstate : p.conn.proxyProcessState = .pendingReadFromClient)
    (hparse : Verdict cfg.js p.conn .noRequest q' b) : ¬ OnlyWaits cfg w fd s p := by
  intro h
  obtain ⟨s', client, hprocess, -, -, -, -, -, -, hepoll⟩ := h.waits q' b hstate hparse
  unfold onProcessProxy at hprocess
  rw [processProxy_waits hstate hparse] at hprocess
  obtain rfl := Option.some.inj hprocess
  have hwatched := congrFun hepoll p.conn.fd
  rw [watch_epoll_self, Function.update_self] at hwatched
  exact absurd (Registration.mk.inj (Option.some.inj hwatched)).1 (by decide)

/-- `ProcessProxy` answers with a 400 response or with the backend's answer, and waits
otherwise, exactly where it does not have to wait and the backend alone has spoken. -/
theorem unfinished_waits_iff (h : ProxyReached cfg.js cfg.webRoot p) (hopen : p.conn.isClose = false)
    (w : TaskWorld) (fd : Int) (s : HttpServer J) :
    OnlyWaits cfg w fd s p ↔ NotUnfinished cfg.js p.conn ∧ OfBackend p := by
  have htracked := h.tracked
  constructor
  · intro hwaits
    refine ⟨fun hstate q' b hparse => not_onlyWaits hstate hparse hwaits, fun hstate => ?_⟩
    rcases hwaits.answers _ (processProxy_relays hstate) with ⟨hclient, -⟩ | ⟨heq, hne⟩
    · exact absurd (hclient.symm.trans hstate) (by decide)
    · refine ⟨?_, hne⟩
      have hreads : bytesOf p.since = fromBackend p.since :=
        (htracked.reads hopen hstate).symm.trans heq
      have hlength := length_bytesOf p.since
      rw [hreads] at hlength
      exact List.length_eq_zero_iff.mp (by omega)
  · rintro ⟨hwhole, hbackend⟩
    constructor
    case waits =>
      intro q' b hstate hparse
      exact absurd hparse (hwhole hstate q' b)
    case answers =>
      intro client hprocess
      cases processProxy_answer (htracked.turn hopen) hprocess with
      | waits hstate hparse => exact absurd hparse (hwhole hstate _ _)
      | rejects hstate hparse hrespond =>
          have htext := respond_badRequest hrespond htracked.stored.writeBuff
          exact Or.inl ⟨hstate, _, _, hparse, htext⟩
      | relays hstate =>
          obtain ⟨hclient, hne⟩ := hbackend hstate
          exact Or.inr ⟨(htracked.reads hopen hstate).trans (bytesOf_eq_fromBackend hclient), hne⟩

/-! ### Two connections -/

/-- The part of a connection that decides whether it waits. -/
structure Exchanged where
  state : ProxyProcessState
  isClose : Bool
  unfinished : Bool
  since : List (Bool × Bytes)
  deriving DecidableEq

/-- A run of a new connection. -/
def exchange (calls : List ProxyCall) : Option Exchanged := do
  let c₀ ← (HttpConn.new (emptySite true).js zeroed).toOption
  let r ← (proxied (emptySite true).js (emptySite true).webRoot c₀).run calls
  let verdict := (nextRequest (emptySite true).js r.1.conn.request).bind fun q =>
    q.parse (emptySite true).js r.1.conn.readBuff
  return { state := r.1.conn.proxyProcessState, isClose := r.1.conn.isClose,
           unfinished := match verdict with
             | .ok (code, _, _) => code == .noRequest
             | .error _ => false,
           since := r.1.since }

theorem exchange_reached {calls : List ProxyCall} {e : Exchanged} (h : exchange calls = some e) :
    ∃ p : Proxied (Option HeaderMap),
      ProxyReached (emptySite true).js (emptySite true).webRoot p ∧
      p.conn.proxyProcessState = e.state ∧ p.conn.isClose = e.isClose ∧ p.since = e.since ∧
      (e.unfinished = true → ∃ q' b, Verdict (emptySite true).js p.conn .noRequest q' b) := by
  unfold exchange at h
  obtain ⟨c₀, hc₀, h⟩ := Option.bind_eq_some_iff.mp h
  obtain ⟨⟨p, os⟩, hrun, h⟩ := Option.bind_eq_some_iff.mp h
  have hnew : HttpConn.new (emptySite true).js zeroed = .ok c₀ := by
    cases hc : HttpConn.new (emptySite true).js zeroed with
    | error e => simp [hc, Except.toOption] at hc₀
    | ok c =>
        rw [hc] at hc₀
        rw [Option.some.inj hc₀]
  obtain rfl := Option.some.inj h
  refine ⟨p, ⟨zeroed, c₀, hnew, calls, os, hrun⟩, rfl, rfl, rfl, fun hunfinished => ?_⟩
  dsimp only at hunfinished
  split at hunfinished
  · rename_i code q' b hverdict
    obtain ⟨q, hq, hparse⟩ := bind_eq_ok.mp hverdict
    obtain rfl : code = .noRequest := by simpa using hunfinished
    exact ⟨q', b, q, hq, hparse⟩
  · cases hunfinished

/-- A request, what the backend answers to it, and the answer read in one piece. -/
def oneExchange : List ProxyCall :=
  [.init 5 ⟨10, 0, 0, 7⟩ 6 (some []), .read false [ascii "GET / HTTP/1.1\r\n\r\n"],
    .processProxy noFiles (fun _ => []), .write ⟨-1, some .eagain⟩ [159],
    .read true [ascii "HTTP/1.1 204 No Content\r\n\r\n"]]

theorem unfinished_waits_exchange :
    ∃ p : Proxied (Option HeaderMap),
      ProxyReached (emptySite true).js (emptySite true).webRoot p ∧ p.conn.isClose = false ∧
        OnlyWaits (emptySite true) (busyAfter [] 0) 5 HttpServer.new p := by
  obtain ⟨p, hp, hstate, hopen, hsince, -⟩ := exchange_reached
    (show exchange oneExchange = some ⟨.pendingReadFromProxyServer, false, false,
      [(true, ascii "HTTP/1.1 204 No Content\r\n\r\n")]⟩ by decide +kernel)
  refine ⟨p, hp, hopen, (unfinished_waits_iff hp hopen _ _ _).mpr ⟨fun hclient => ?_, fun _ => ?_⟩⟩
  · exact absurd (hclient.symm.trans hstate) (by decide)
  · rw [hsince]
    decide +kernel

/-- The first bytes of a request: the client is watched for writing. -/
theorem unfinished_does_not_wait :
    ∃ p : Proxied (Option HeaderMap),
      ProxyReached (emptySite true).js (emptySite true).webRoot p ∧ p.conn.isClose = false ∧
        ¬ OnlyWaits (emptySite true) (busyAfter [] 0) 5 HttpServer.new p := by
  obtain ⟨p, hp, hstate, hopen, -, hunfinished⟩ := exchange_reached
    (show exchange [.init 5 ⟨10, 0, 0, 7⟩ 6 (some []), .read false [ascii "GET / HTT"]] =
      some ⟨.pendingReadFromClient, false, true, [(false, ascii "GET / HTT")]⟩ by decide +kernel)
  obtain ⟨q', b, hparse⟩ := hunfinished rfl
  exact ⟨p, hp, hopen, not_onlyWaits hstate hparse⟩

end HttpServer

end WhiteWebServer
