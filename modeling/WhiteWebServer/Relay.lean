import WhiteWebServer.Ownership
import WhiteWebServer.ProxyWaits
import WhiteWebServer.Transmission

/-!
# Proxy mode: one connection and its backend

What the client of one proxied connection is sent for each of its requests. The server
is that of `HttpServer`, taking one event of the connection after the other; beside it
stand the backend, which answers each forwarded request with some bytes that arrive in
any pieces, and a record of what has been written to the client. §1 the runs; §2 what
an event comes to; §3 the modes of a connection; §4 the steps; §5 the answers, and a
response in two pieces.
-/

namespace WhiteWebServer

open HttpConn

/-! ## §1  Runs -/

/-- A read of the client: what the backend sends for it, where it was forwarded, and what
has been written to the client since. -/
structure Exchange where
  response : Option Bytes
  written : Bytes
  deriving DecidableEq

namespace Exchange

/-- What the client is to be sent. Without the backend that is nothing, for an unfinished
request, or the server's own 400 response. -/
def Answers (e : Exchange) (text : Bytes) : Prop :=
  match e.response with
  | some response => text = response
  | none => text = [] ∨ ∃ version, text = HttpResponse.badRequestText version

def Whole (e : Exchange) : Prop := e.Answers e.written

end Exchange

/-- The server, how many requests were forwarded, how much of what the backend sends was
read and how much has arrived behind it, and the exchanges, the last one first. -/
structure Relay (J : Type) where
  server : HttpServer J
  requests : Nat
  read : Nat
  unread : Nat
  exchanges : List Exchange

inductive RelayStep
  /-- more of what the backend sends arrives -/
  | arrive (len : Nat)
  | read (inProxy : Bool) (reads : List Bytes) (fs : FileSystem)
      (entries : HeaderMap → List (Bytes × Bytes))
  | write (inProxy : Bool) (call : WriteCall)

namespace HttpServer

variable {J : Type}

/-- The event is reported and handled, and its task is run. -/
def serves (cfg : ServerConfig J) (d : Int) (events : EpollEvents) (w : TaskWorld)
    (s : HttpServer J) : Option (HttpServer J) :=
  ((server cfg).exec s [.deliver d events, .handle [], .run 0 w]).map Prod.fst

/-- A read up to EAGAIN. -/
def reading (reads : List Bytes) (fs : FileSystem) (entries : HeaderMap → List (Bytes × Bytes)) :
    TaskWorld :=
  { reads := reads, readRet := -1, readError := .eagain, counts := [],
    last := ⟨-1, some .eagain⟩, fs := fs, entries := entries }

def writing (call : WriteCall) : TaskWorld :=
  { reads := [], readRet := -1, readError := .eagain, counts := call.counts, last := call.last,
    fs := noFiles, entries := fun _ => [] }

end HttpServer

namespace Relay

open HttpServer

variable {J : Type}

/-- What the backend sends for its first `n` requests. -/
def sent (responses : Nat → Bytes) (n : Nat) : Bytes := (List.range n).flatMap responses

/-- What has arrived and is not read. -/
def available (responses : Nat → Bytes) (r : Relay J) : Bytes :=
  ((sent responses r.requests).drop r.read).take r.unread

/-- The connection waits for its backend now and did not before. -/
def hasForwarded (c c' : HttpConn J) : Bool :=
  c.proxyProcessState == .pendingReadFromClient &&
    c'.proxyProcessState == .pendingReadFromProxyServer

def noteWritten (bytes : Bytes) : List Exchange → List Exchange
  | [] => []
  | e :: past => { e with written := e.written ++ bytes } :: past

/-- The client has been read. -/
def noteRead (responses : Nat → Bytes) (s : HttpServer J) (c c' : HttpConn J) (r : Relay J) :
    Relay J :=
  if hasForwarded c c' then
    { server := s, requests := r.requests + 1, read := r.read, unread := r.unread,
      exchanges := ⟨some (responses r.requests), []⟩ :: r.exchanges }
  else { r with server := s, exchanges := ⟨none, []⟩ :: r.exchanges }

def readClient (cfg : ServerConfig J) (fd : Int) (responses : Nat → Bytes) (w : TaskWorld)
    (r : Relay J) : Option (Relay J) := do
  let client ← r.server.users fd
  let s ← r.server.serves cfg fd EPOLLIN w
  let client' ← s.users fd
  some (r.noteRead responses s client client')

/-- Epoll reports the backend's descriptor when something has arrived, and all of it is
read. -/
def readBackend (cfg : ServerConfig J) (fd : Int) (responses : Nat → Bytes) (w : TaskWorld)
    (r : Relay J) : Option (Relay J) := do
  let client ← r.server.users fd
  if w.reads.flatten = r.available responses ∧ r.available responses ≠ [] then do
    let s ← r.server.serves cfg client.proxyFd EPOLLIN w
    some { r with server := s, read := r.read + r.unread, unread := 0 }
  else none

def step (cfg : ServerConfig J) (fd : Int) (responses : Nat → Bytes) (r : Relay J) :
    RelayStep → Option (Relay J)
  | .arrive len =>
      if r.read + r.unread + len ≤ (sent responses r.requests).length then
        some { r with unread := r.unread + len }
      else none
  | .read false reads fs entries => r.readClient cfg fd responses (reading reads fs entries)
  | .read true reads fs entries => r.readBackend cfg fd responses (reading reads fs entries)
  | .write inProxy call => do
      let client ← r.server.users fd
      let bytes ← handedOver call.counts client
      if EndsCall (client.writeToFd call.last call.counts).2 call.last then do
        let s ← r.server.serves cfg (if inProxy then client.proxyFd else fd) EPOLLOUT (writing call)
        some { r with server := s,
                      exchanges := if inProxy then r.exchanges else noteWritten bytes r.exchanges }
      else none

end Relay

namespace Relay

open HttpServer

variable {J : Type} {cfg : ServerConfig J} {fd d : Int} {responses : Nat → Bytes}
  {r r' : Relay J} {s s' s₀ : HttpServer J}

theorem serves_exec {events : EpollEvents} {w : TaskWorld}
    (h : s.serves cfg d events w = some s') :
    ∃ moves os, (HttpServer.server cfg).exec s moves = some (s', os) := by
  obtain ⟨⟨s₁, os⟩, hexec, rfl⟩ := Option.map_eq_some_iff.mp h
  exact ⟨_, os, hexec⟩

theorem noteRead_server (s : HttpServer J) (c c' : HttpConn J) :
    (r.noteRead responses s c c').server = s := by
  unfold noteRead
  split <;> rfl

/-- What a step can be. -/
inductive Stepped (cfg : ServerConfig J) (fd : Int) (responses : Nat → Bytes) (r : Relay J) :
    RelayStep → Relay J → Prop
  | arrives {len : Nat} (hlen : r.read + r.unread + len ≤ (sent responses r.requests).length) :
      Stepped cfg fd responses r (.arrive len) { r with unread := r.unread + len }
  | readsClient {reads : List Bytes} {fs : FileSystem}
      {entries : HeaderMap → List (Bytes × Bytes)} {client client' : HttpConn J}
      {s : HttpServer J} (huser : r.server.users fd = some client)
      (hserves : r.server.serves cfg fd EPOLLIN (reading reads fs entries) = some s)
      (huser' : s.users fd = some client') :
      Stepped cfg fd responses r (.read false reads fs entries)
        (r.noteRead responses s client client')
  | readsBackend {reads : List Bytes} {fs : FileSystem}
      {entries : HeaderMap → List (Bytes × Bytes)} {client : HttpConn J} {s : HttpServer J}
      (huser : r.server.users fd = some client) (hreads : reads.flatten = r.available responses)
      (havailable : r.available responses ≠ [])
      (hserves : r.server.serves cfg client.proxyFd EPOLLIN (reading reads fs entries) = some s) :
      Stepped cfg fd responses r (.read true reads fs entries)
        { r with server := s, read := r.read + r.unread, unread := 0 }
  | writes {inProxy : Bool} {call : WriteCall} {client : HttpConn J} {bytes : Bytes}
      {s : HttpServer J} (huser : r.server.users fd = some client)
      (hbytes : handedOver call.counts client = some bytes)
      (hends : EndsCall (client.writeToFd call.last call.counts).2 call.last)
      (hserves : r.server.serves cfg (if inProxy then client.proxyFd else fd) EPOLLOUT
        (writing call) = some s) :
      Stepped cfg fd responses r (.write inProxy call)
        { r with server := s,
                 exchanges := if inProxy then r.exchanges else noteWritten bytes r.exchanges }

/-- A step is some steps of the server. -/
theorem Stepped.exec {step : RelayStep} (h : Stepped cfg fd responses r step r') :
    ∃ moves os, (HttpServer.server cfg).exec r.server moves = some (r'.server, os) := by
  cases h with
  | arrives _ => exact ⟨[], [], rfl⟩
  | readsClient _ hserves _ =>
      rw [noteRead_server]
      exact serves_exec hserves
  | readsBackend _ _ _ hserves => exact serves_exec hserves
  | writes _ _ _ hserves => exact serves_exec hserves

end Relay

/-! ## §2  What an event comes to -/

namespace HttpServer

variable {J : Type} {cfg : ServerConfig J} {s s' : HttpServer J} {fd d user : Int}
  {client client' : HttpConn J}

/-- The event of `d` has been taken. -/
structure Served (d : Int) (events : EpollEvents) (s s₁ : HttpServer J) : Prop where
  reported : ∃ reg, s.epoll d = some reg ∧ reg.enabled = true ∧ reg.Reports events ∧
    s₁.epoll = Function.update s.epoll d
      (some { reg with enabled := !reg.events.epolloneshot })
  same : s₁ = { s with epoll := s₁.epoll, timer := s₁.timer }

/-- A connection with nothing reported and no task. -/
structure Serving (fd p : Int) (client : HttpConn J) (s : HttpServer J) : Prop where
  user : s.users fd = some client
  isOpen : client.isClose = false
  ends : client.fd = fd ∧ client.proxyFd = p
  stored : BuffersStored client
  mapped : s.proxyFdMap p = some fd
  unmapped : s.proxyFdMap fd = none
  quiet : s.delivered = [] ∧ s.tasks = []

theorem Serving.apart {p : Int} (h : Serving fd p client s) : p ≠ fd := by
  rintro rfl
  have hmapped := h.mapped
  rw [h.unmapped] at hmapped
  cases hmapped

theorem Serving.setUser {p : Int} (h : Serving fd p client s) (hsame : SameEnds client client')
    (hstored : BuffersStored client') : Serving fd p client' (s.setUser fd client') :=
  ⟨Function.update_self .., hsame.isClose.trans h.isOpen,
    ⟨hsame.fd.trans h.ends.1, hsame.proxyFd.trans h.ends.2⟩, hstored, h.mapped, h.unmapped, h.quiet⟩

theorem Serving.watch {p : Int} (h : Serving fd p client s) (d : Int) (events : EpollEvents) :
    Serving fd p client (s.watch d events) :=
  ⟨h.user, h.isOpen, h.ends, h.stored, h.mapped, h.unmapped, h.quiet⟩

theorem Serving.extentTime {p : Int} (h : Serving fd p client s) (cfg : ServerConfig J)
    (c : HttpConn J) : Serving fd p client (s.extentTime cfg c) := by
  rw [extentTime_eq]
  exact ⟨h.user, h.isOpen, h.ends, h.stored, h.mapped, h.unmapped, h.quiet⟩

theorem Serving.served {p : Int} {events : EpollEvents} {s₁ : HttpServer J}
    (h : Serving fd p client s) (hserved : Served d events s s₁) : Serving fd p client s₁ := by
  rw [hserved.same]
  exact ⟨h.user, h.isOpen, h.ends, h.stored, h.mapped, h.unmapped, h.quiet⟩

theorem Served.extentTime {events : EpollEvents} {s₁ : HttpServer J}
    (h : Served d events s s₁) (cfg : ServerConfig J) (c : HttpConn J) :
    Served d events s (s₁.extentTime cfg c) := by
  rw [extentTime_eq]
  refine ⟨h.reported, ?_⟩
  rw [h.same]

theorem server_exec_cons {step : ServerStep} {steps : List ServerStep} {os : List Unit}
    (h : (server cfg).exec s (step :: steps) = some (s', os)) :
    ∃ s₁ os', serverStep cfg s step = some s₁ ∧ (server cfg).exec s₁ steps = some (s', os') := by
  obtain ⟨s₁, o, os', hstep, hrest, -⟩ := Machine.exec_cons_eq_some.mp h
  exact ⟨s₁, os', server_step.mp hstep, hrest⟩

theorem deliver_served {p : Int} {events : EpollEvents} {s₁ : HttpServer J}
    (h : Serving fd p client s) (hdeliver : s.deliver d events = some s₁) :
    ∃ s₂, Served d events s s₂ ∧ s₁ = { s₂ with delivered := [(d, events)] } := by
  unfold deliver at hdeliver
  cases hreg : s.epoll d with
  | none => simp [hreg] at hdeliver
  | some reg =>
      simp only [hreg] at hdeliver
      obtain ⟨⟨henabled, hreports, -⟩, heq⟩ := Option.ite_none_right_eq_some.mp hdeliver
      rw [h.quiet.1] at heq
      cases heq
      exact ⟨{ s with epoll := _ }, ⟨⟨reg, hreg, henabled, hreports, rfl⟩, rfl⟩, rfl⟩

theorem dealTask_queues {p : Int} (inProxy : Bool) {kind : TaskKind}
    (h : Serving fd p client s) (hset : cfg.isSetProxy = true)
    (hd : d = (if inProxy then p else fd)) (hdeal : s.dealTask cfg kind d = some s') :
    s' = { s.extentTime cfg client with tasks := [⟨kind, fd, inProxy⟩] } := by
  unfold dealTask at hdeal
  rw [if_pos hset] at hdeal
  have hmap : s.proxyFdMap d = if inProxy then some fd else none := by
    rw [hd]
    cases inProxy with
    | true => exact h.mapped
    | false => exact h.unmapped
  rw [hmap] at hdeal
  cases inProxy with
  | true =>
      simp only [if_true, userAt_of_user h.user, bind, Option.bind, Option.some.injEq] at hdeal
      rw [← hdeal, extentTime_eq, h.quiet.2]
      rfl
  | false =>
      rw [if_neg (by decide)] at hd
      simp only [Bool.false_eq_true, if_false, hd, userAt_of_user h.user, bind, Option.bind,
        Option.some.injEq] at hdeal
      rw [← hdeal, extentTime_eq, h.quiet.2]
      rfl

theorem handle_queues {p : Int} (inProxy : Bool) {events : EpollEvents}
    (h : Serving fd p client s) (hset : cfg.isSetProxy = true)
    (hd : d = (if inProxy then p else fd)) (hhup : events.hangsUp = false)
    (hin : events.epollin = true ∨ events.epollout = true)
    (hhandle : { s with delivered := [(d, events)] }.handle cfg [] = some s') :
    s' = { s.extentTime cfg client with
      tasks := [⟨if events.epollin then .onRead else .onWrite, fd, inProxy⟩] } := by
  have hquiet : { s with delivered := [] } = s := by
    rw [← h.quiet.1]
  unfold handle at hhandle
  simp only [hhup, Bool.false_eq_true, if_false, hquiet] at hhandle
  by_cases hepollin : events.epollin = true
  · rw [if_pos hepollin] at hhandle
    rw [if_pos hepollin]
    exact dealTask_queues inProxy h hset hd hhandle
  · rw [if_neg hepollin, if_pos (hin.resolve_left hepollin)] at hhandle
    rw [if_neg hepollin]
    exact dealTask_queues inProxy h hset hd hhandle

theorem serves_task {p : Int} (inProxy : Bool) {events : EpollEvents} {w : TaskWorld}
    (h : Serving fd p client s) (hset : cfg.isSetProxy = true)
    (hd : d = (if inProxy then p else fd)) (hhup : events.hangsUp = false)
    (hin : events.epollin = true ∨ events.epollout = true)
    (hserves : s.serves cfg d events w = some s') :
    ∃ s₁, Served d events s s₁ ∧
      (if events.epollin then s₁.onRead cfg w fd else s₁.onWrite cfg w fd inProxy) = some s' := by
  obtain ⟨⟨s₃, os⟩, hexec, rfl⟩ := Option.map_eq_some_iff.mp hserves
  obtain ⟨s₁, os₁, hdeliver, hexec⟩ := server_exec_cons hexec
  obtain ⟨s₂, os₂, hhandle, hexec⟩ := server_exec_cons hexec
  obtain ⟨s₄, os₃, hrun, hexec⟩ := server_exec_cons hexec
  obtain ⟨rfl, -⟩ := Prod.mk.inj (Option.some.inj hexec)
  obtain ⟨s₁, hserved, rfl⟩ := deliver_served h hdeliver
  obtain rfl := handle_queues inProxy (h.served hserved) hset hd hhup hin hhandle
  have h₁ := (h.served hserved).extentTime cfg client
  have hquiet : { s₁.extentTime cfg client with tasks := [] } = s₁.extentTime cfg client := by
    rw [← h₁.quiet.2]
  refine ⟨s₁.extentTime cfg client, hserved.extentTime cfg client, ?_⟩
  rw [← hquiet, ← hrun]
  cases hepollin : events.epollin with
  | true => rfl
  | false => rfl

/-- A descriptor of a connection is read. -/
theorem serves_reads {p : Int} (inProxy : Bool) {w : TaskWorld} (h : Serving fd p client s)
    (hset : cfg.isSetProxy = true) (hd : d = (if inProxy then p else fd))
    (hgoes : ¬ (w.readRet ≤ 0 ∧ w.readError ≠ .eagain))
    (hserves : s.serves cfg d EPOLLIN w = some s') :
    ∃ s₁ result client', Served d EPOLLIN s s₁ ∧ Serving fd p client s₁ ∧
      (client.readFromFd w.reads).processProxy cfg.js w.fs cfg.webRoot w.entries =
        .ok (result, client') ∧
      s₁.onProcessProxy cfg w fd (client.readFromFd w.reads) = some s' := by
  obtain ⟨s₁, hserved, hread⟩ := serves_task inProxy h hset hd rfl (Or.inl rfl) hserves
  have h₁ := h.served hserved
  rw [if_pos (by decide)] at hread
  unfold onRead at hread
  rw [userAt_of_user h₁.user, Option.bind_eq_bind, Option.bind_some] at hread
  dsimp only at hread
  rw [if_neg hgoes, if_pos hset] at hread
  have hprocess := hread
  unfold onProcessProxy at hprocess
  cases hresult : (client.readFromFd w.reads).processProxy cfg.js w.fs cfg.webRoot w.entries with
  | error e => simp [hresult] at hprocess
  | ok r => exact ⟨s₁, r.1, r.2, hserved, h₁, rfl, hread⟩

/-- A descriptor of a connection is written to. -/
theorem serves_writes {p : Int} (inProxy : Bool) {w : TaskWorld} (h : Serving fd p client s)
    (hset : cfg.isSetProxy = true) (hd : d = (if inProxy then p else fd))
    (hserves : s.serves cfg d EPOLLOUT w = some s') :
    ∃ s₁, Served d EPOLLOUT s s₁ ∧ Serving fd p client s₁ ∧
      (s₁.setUser fd (client.writeToFd w.last w.counts).2).onWritten cfg fd inProxy
        (client.writeToFd w.last w.counts).1 (client.writeToFd w.last w.counts).2 = some s' := by
  obtain ⟨s₁, hserved, hwrite⟩ := serves_task inProxy h hset hd rfl (Or.inr rfl) hserves
  have h₁ := h.served hserved
  rw [if_neg (by decide), onWrite_of_user h₁.user rfl] at hwrite
  exact ⟨s₁, hserved, h₁, hwrite⟩

end HttpServer

/-! ## §3  Modes -/

namespace HttpConn

variable {J : Type} {client client' : HttpConn J} {rest : Bytes}

/-- `rest` is what a write offers. -/
structure Offers (client : HttpConn J) (rest : Bytes) : Prop where
  buffer : client.writeBuff.readable = rest
  file : client.iov₁.len = 0
  header : client.iov₀.len = rest.length
  remaining : rest ≠ [] → Remaining client [] rest []

/-- The vector is in front of what is readable in `write_buff_`. -/
theorem Offers.of_buffer (hb : client.writeBuff.Stored) (hfile : client.iov₁.len = 0)
    (hheader : client.iov₀ = ⟨.writeBuff client.writeBuff.readIdx, client.writeBuff.readableBytes⟩)
    (hcnt : client.iovCnt = 1) : Offers client client.writeBuff.readable := by
  obtain ⟨g, u, n, hholds⟩ := hb
  have hlen : client.iov₀.len = client.writeBuff.readable.length := by
    rw [hheader, hholds.readable]
    exact hholds.readableBytes
  refine ⟨rfl, hfile, hlen, fun _ => ⟨⟨g, n, ?_⟩, ⟨hlen, fun _ => ?_⟩, Or.inl ⟨hcnt, hfile, rfl⟩⟩⟩
  · rw [hholds.readable]
    exact hholds
  · rw [hheader]

theorem Offers.offered (h : Offers client []) : client.offered = some [] := by
  have h₀ : client.bytesAt client.iov₀ = some [] := if_pos h.header
  have h₁ : client.bytesAt client.iov₁ = some [] := if_pos h.file
  unfold HttpConn.offered
  rw [h₀, h₁]
  split <;> rfl

/-- What a write that ends with EAGAIN, or when nothing is left, leaves. -/
structure Wrote (write : WriteEnd) (client : HttpConn J) (rest : Bytes) : Prop where
  offers : Offers client rest
  pending : client.pendingWriteBytes = 0 ↔ rest = []
  busy : rest ≠ [] → write.ret < 0 ∧ write.error = some .eagain

theorem Offers.write {call : WriteCall} {bytes : Bytes} (h : Offers client rest)
    (hsize : client.iov₀.len + client.iov₁.len < 2 ^ 32)
    (hbytes : handedOver call.counts client = some bytes)
    (hends : EndsCall (client.writeToFd call.last call.counts).2 call.last) :
    ∃ rest', rest = bytes ++ rest' ∧ Wrote (client.writeToFd call.last call.counts).1
      (client.writeToFd call.last call.counts).2 rest' := by
  have hpending : ∀ {rest' : Bytes}, Offers (client.writeToFd call.last call.counts).2 rest' →
      rest'.length < 2 ^ 32 →
      ((client.writeToFd call.last call.counts).2.pendingWriteBytes = 0 ↔ rest' = []) := by
    intro rest' h' hlen
    rw [pendingWriteBytes_eq_zero (by rw [h'.header, h'.file, Nat.add_zero]) hlen]
    exact List.length_eq_zero_iff
  rw [h.header, h.file, Nat.add_zero] at hsize
  by_cases hrest : rest = []
  · subst hrest
    -- nothing is offered, so nothing can be accepted
    cases hcounts : call.counts with
    | cons len counts =>
        rw [hcounts, handedOver, h.offered] at hbytes
        dsimp only at hbytes
        rw [if_neg (by simp only [List.length_nil]; omega)] at hbytes
        cases hbytes
    | nil =>
        rw [hcounts] at hbytes
        cases hbytes
        have hsame : (client.writeToFd call.last call.counts).2 = client := by
          rw [hcounts]
          rfl
        rw [← hcounts]
        refine ⟨[], rfl, ⟨hsame.symm ▸ h, hpending (hsame.symm ▸ h) (by decide), ?_⟩⟩
        exact fun hne => absurd rfl hne
  · have hr := h.remaining hrest
    obtain ⟨rest', f', hsplit, hr'⟩ := @Remaining.call J [] call.counts client rest [] call.last
      bytes 0 hr (by simp only [List.length_nil]; omega) hbytes
    have hf' : f' = [] ∧ (client.writeToFd call.last call.counts).2.iov₁.len = 0 := by
      rcases hr'.file with ⟨-, hlen, rfl⟩ | ⟨-, -, done, hdone, hiov⟩
      · exact ⟨rfl, hlen⟩
      · obtain ⟨-, rfl⟩ := List.append_eq_nil_iff.mp hdone.symm
        exact ⟨rfl, congrArg IoVec.len hiov⟩
    obtain ⟨rfl, hfile⟩ := hf'
    rw [List.append_nil, List.append_nil] at hsplit
    have hoffers : Offers (client.writeToFd call.last call.counts).2 rest' :=
      ⟨hr'.buffer.elim fun _ h => h.elim fun _ h => h.readable, hfile, hr'.header.1, fun _ => hr'⟩
    have hlen : rest'.length < 2 ^ 32 := by
      have := congrArg List.length hsplit
      rw [List.length_append] at this
      omega
    refine ⟨rest', hsplit, hoffers, hpending hoffers hlen, fun hne => ?_⟩
    have hlast : (client.writeToFd call.last call.counts).1 = call.last :=
      hr.call_last call.counts (by simp only [List.length_nil]; omega) hbytes
    rcases hends with hbusy | ⟨-, hnone⟩
    · rw [hlast, hbusy]
      exact ⟨by decide, rfl⟩
    · have hoffered : (client.writeToFd call.last call.counts).2.offered = some (rest' ++ []) :=
        hr'.offered_eq
      rw [hnone, List.append_nil] at hoffered
      exact absurd (Option.some.inj hoffered).symm hne

end HttpConn

namespace Relay

open HttpServer

variable {J : Type} {cfg : ServerConfig J} {fd p : Int} {responses : Nat → Bytes} {r r' : Relay J}
  {client client' : HttpConn J} {rest bytes : Bytes} {s s' : HttpServer J}

/-- With `rest` written every exchange is whole. -/
def Due (rest : Bytes) (exchanges : List Exchange) : Prop :=
  ∀ e past, exchanges = e :: past →
    e.Answers (e.written ++ rest) ∧ ∀ e' ∈ past, e'.Whole

theorem Due.whole {exchanges : List Exchange} (h : Due [] exchanges) :
    ∀ e ∈ exchanges, e.Whole := by
  cases exchanges with
  | nil => exact fun e he => nomatch he
  | cons e past =>
      obtain ⟨hlast, hpast⟩ := h e past rfl
      intro e' he'
      rcases List.mem_cons.mp he' with rfl | he'
      · rw [Exchange.Whole, ← List.append_nil e'.written]
        exact hlast
      · exact hpast e' he'

theorem Due.cons {exchanges : List Exchange} {e : Exchange} (h : Due [] exchanges)
    (he : e.Answers (e.written ++ rest)) : Due rest (e :: exchanges) := by
  intro e' past heq
  obtain ⟨rfl, rfl⟩ := List.cons.inj heq
  exact ⟨he, h.whole⟩

theorem Due.note {exchanges : List Exchange} {rest' : Bytes} (h : Due rest exchanges)
    (hrest : rest = bytes ++ rest') : Due rest' (noteWritten bytes exchanges) := by
  cases exchanges with
  | nil => exact fun e past heq => nomatch heq
  | cons e₀ past₀ =>
      obtain ⟨hlast, hpast⟩ := h e₀ past₀ rfl
      intro e past heq
      obtain ⟨rfl, rfl⟩ := List.cons.inj heq
      rw [hrest, ← List.append_assoc] at hlast
      exact ⟨hlast, hpast⟩

/-- Nothing of the backend is outstanding. -/
def Idle (responses : Nat → Bytes) (r : Relay J) : Prop :=
  r.read = (sent responses r.requests).length ∧ r.unread = 0

/-- The backend has not been read since the last request was forwarded. -/
def Outstanding (responses : Nat → Bytes) (r : Relay J) : Prop :=
  ∃ n, r.requests = n + 1 ∧ r.read = (sent responses n).length ∧ Due (responses n) r.exchanges

inductive Mode
  | reads
  | answers (rest : Bytes)
  | forwards (rest : Bytes)
  | awaits
  | closed

/-- What a connection is about, which of its descriptors is watched, and what is due to
its client. -/
inductive InMode (responses : Nat → Bytes) (fd p : Int) (r : Relay J) : Mode → Prop
  | reads {client : HttpConn J} (h : Serving fd p client r.server)
      (hstate : client.proxyProcessState = .pendingReadFromClient) (hoffers : client.Offers [])
      (hfd : r.server.epoll fd = some ⟨connEventIn, true⟩)
      (hp : ∀ reg ∈ r.server.epoll p, reg.enabled = true → reg.events.epollout = false)
      (hidle : Idle responses r) (hdue : Due [] r.exchanges) : InMode responses fd p r .reads
  | answers {client : HttpConn J} {rest : Bytes} (h : Serving fd p client r.server)
      (hstate : client.proxyProcessState = .pendingReadFromClient) (hoffers : client.Offers rest)
      (hfd : r.server.epoll fd = some ⟨connEventOut, true⟩)
      (hp : ∀ reg ∈ r.server.epoll p, reg.enabled = true → reg.events.epollout = false)
      (hidle : Idle responses r) (hdue : Due rest r.exchanges) :
      InMode responses fd p r (.answers rest)
  | forwards {client : HttpConn J} {rest : Bytes} (h : Serving fd p client r.server)
      (hstate : client.proxyProcessState = .pendingReadFromProxyServer)
      (hempty : client.readBuff.readable = []) (hoffers : client.Offers rest)
      (hfd : ∀ reg ∈ r.server.epoll fd, reg.enabled = false)
      (hp : r.server.epoll p = some ⟨connEventOut, true⟩) (hdue : Outstanding responses r) :
      InMode responses fd p r (.forwards rest)
  | awaits {client : HttpConn J} (h : Serving fd p client r.server)
      (hstate : client.proxyProcessState = .pendingReadFromProxyServer)
      (hempty : client.readBuff.readable = []) (hfile : client.iov₁.len = 0)
      (hfd : ∀ reg ∈ r.server.epoll fd, reg.enabled = false)
      (hp : r.server.epoll p = some ⟨connEventIn, true⟩) (hdue : Outstanding responses r) :
      InMode responses fd p r .awaits
  | closed (huser : ∀ client ∈ r.server.users fd, client.isClose = true ∧ client.proxyFd = p)
      (hfd : r.server.epoll fd = none) (hp : r.server.epoll p = none)
      (hidle : Idle responses r) (hdue : Due [] r.exchanges) : InMode responses fd p r .closed

/-! ## §4  Steps -/

theorem sent_succ (responses : Nat → Bytes) (n : Nat) :
    sent responses (n + 1) = sent responses n ++ responses n := by
  simp [sent, List.range_succ]

theorem Idle.available (h : Idle responses r) : r.available responses = [] := by
  rw [Relay.available, h.2, List.take_zero]

/-- More arrives of what is outstanding, and nothing of what is not. -/
theorem InMode.arrive {mode : Mode} {len : Nat} (h : InMode responses fd p r mode)
    (hlen : r.read + r.unread + len ≤ (sent responses r.requests).length) :
    InMode responses fd p { r with unread := r.unread + len } mode := by
  have hidle : Idle responses r → Idle responses { r with unread := r.unread + len } := by
    rintro ⟨hread, hunread⟩
    exact ⟨hread, show r.unread + len = 0 by omega⟩
  cases h with
  | reads h hstate hoffers hfd hp hi hdue => exact .reads h hstate hoffers hfd hp (hidle hi) hdue
  | answers h hstate hoffers hfd hp hi hdue =>
      exact .answers h hstate hoffers hfd hp (hidle hi) hdue
  | forwards h hstate hempty hoffers hfd hp hdue =>
      exact .forwards h hstate hempty hoffers hfd hp hdue
  | awaits h hstate hempty hfile hfd hp hdue => exact .awaits h hstate hempty hfile hfd hp hdue
  | closed huser hfd hp hi hdue => exact .closed huser hfd hp (hidle hi) hdue

/-- A descriptor that is not watched for the event is not served. -/
theorem not_serves {d : Int} {events : EpollEvents} {w : TaskWorld}
    (h : ∀ reg, s.epoll d = some reg → reg.enabled = true → ¬ reg.Reports events) :
    s.serves cfg d events w ≠ some s' := by
  intro hserves
  obtain ⟨⟨s₂, os⟩, hexec, -⟩ := Option.map_eq_some_iff.mp hserves
  obtain ⟨s₁, -, hdeliver, -⟩ := server_exec_cons hexec
  replace hdeliver : s.deliver d events = some s₁ := hdeliver
  unfold deliver at hdeliver
  cases hreg : s.epoll d with
  | none => simp [hreg] at hdeliver
  | some reg =>
      simp only [hreg] at hdeliver
      obtain ⟨⟨henabled, hreports, -⟩, -⟩ := Option.ite_none_right_eq_some.mp hdeliver
      exact h reg hreg henabled hreports

theorem noteRead_kept (h : client'.proxyProcessState = .pendingReadFromClient) :
    r.noteRead responses s client client' =
      { r with server := s, exchanges := ⟨none, []⟩ :: r.exchanges } := by
  unfold noteRead hasForwarded
  rw [if_neg (by rw [h]; simp)]

theorem noteRead_forwarded (h : client.proxyProcessState = .pendingReadFromClient)
    (h' : client'.proxyProcessState = .pendingReadFromProxyServer) :
    r.noteRead responses s client client' =
      { server := s, requests := r.requests + 1, read := r.read, unread := r.unread,
        exchanges := ⟨some (responses r.requests), []⟩ :: r.exchanges } := by
  unfold noteRead hasForwarded
  rw [if_pos (by rw [h, h']; rfl)]

/-- What `ProcessProxy` makes of what the client has sent. -/
theorem serving_readsClient {w : TaskWorld} {s₁ : HttpServer J} {result : ProxyProcessState}
    (h : Serving fd p client s₁) (hstate : client.proxyProcessState = .pendingReadFromClient)
    (hoffers : client.Offers []) (hidle : Idle responses r) (hdue : Due [] r.exchanges)
    (hfd : ∀ reg ∈ s₁.epoll fd, reg.enabled = false)
    (hp : ∀ reg ∈ s₁.epoll p, reg.enabled = true → reg.events.epollout = false)
    (hprocess : (client.readFromFd w.reads).processProxy cfg.js w.fs cfg.webRoot w.entries =
      .ok (result, client'))
    (hserver : s₁.onProcessProxy cfg w fd (client.readFromFd w.reads) = some s') :
    s'.users fd = some client' ∧
      ∃ mode, InMode responses fd p (r.noteRead responses s' client client') mode := by
  have hread := readFromFd_buffersStored h.stored w.reads
  have hstored' := processProxy_buffersStored hread hprocess
  have hturn := processProxy_turn hprocess
  have hsame : SameEnds client client' := ⟨hturn.same.fd, hturn.same.proxyFd, hturn.same.isClose⟩
  have hfd' : client'.fd = fd := hsame.fd.trans h.ends.1
  have hp' : client'.proxyFd = p := hsame.proxyFd.trans h.ends.2
  unfold onProcessProxy at hserver
  rw [hprocess] at hserver
  -- back to the client
  have hback : ∀ {rest : Bytes}, client'.Offers rest → Exchange.Answers ⟨none, []⟩ rest →
      client'.proxyProcessState = .pendingReadFromClient →
      s' = (s₁.setUser fd client').watch client'.fd connEventOut →
      s'.users fd = some client' ∧
        ∃ mode, InMode responses fd p (r.noteRead responses s' client client') mode := by
    rintro rest hoffers' hanswers hstate' rfl
    refine ⟨Function.update_self .., .answers rest, ?_⟩
    rw [noteRead_kept hstate', hfd']
    refine .answers ((h.setUser hsame hstored').watch fd connEventOut) hstate' hoffers' (watch_epoll_self _) ?_
      hidle (hdue.cons hanswers)
    intro reg hreg
    exact hp reg ((watch_epoll_other connEventOut h.apart).symm.trans hreg)
  -- on to the backend
  have hforward : ∀ {rest : Bytes}, client'.Offers rest →
      client'.proxyProcessState = .pendingReadFromProxyServer → client'.readBuff.readable = [] →
      s' = (s₁.setUser fd client').watch client'.proxyFd connEventOut →
      s'.users fd = some client' ∧
        ∃ mode, InMode responses fd p (r.noteRead responses s' client client') mode := by
    rintro rest hoffers' hstate' hempty rfl
    refine ⟨Function.update_self .., .forwards rest, ?_⟩
    rw [noteRead_forwarded hstate hstate', hp']
    refine .forwards ((h.setUser hsame hstored').watch p connEventOut) hstate' hempty hoffers' ?_
      (watch_epoll_self _) ⟨r.requests, rfl, hidle.1, hdue.cons rfl⟩
    intro reg hreg
    exact hfd reg ((watch_epoll_other connEventOut h.apart.symm).symm.trans hreg)
  cases processProxy_answer (show InExchange (client.readFromFd w.reads) from Or.inl hstate)
    hprocess with
  | waits _ _ =>
      cases hserver
      exact hback ⟨hoffers.buffer, hoffers.file, hoffers.header, fun hne => absurd rfl hne⟩
        (Or.inl rfl) hstate rfl
  | @rejects q' b c₁ _ _ hrespond =>
      cases hserver
      have htext : c₁.writeBuff.readable =
          client.writeBuff.readable ++ HttpResponse.badRequestText q'.version :=
        respond_badRequest hrespond h.stored.writeBuff
      rw [hoffers.buffer, List.nil_append] at htext
      obtain ⟨_, _, rfl⟩ := respond_eq hrespond
      exact hback (Offers.of_buffer hstored'.writeBuff hoffers.file rfl rfl)
        (Or.inr ⟨q'.version, htext⟩) rfl rfl
  | forwards _ _ hb hmake =>
      cases hserver
      have hempty := hstored'.readBuff
      obtain ⟨g, u, n, hholds⟩ := hempty
      have hu : u = [] := List.length_eq_zero_iff.mp (hholds.readableBytes.symm.trans hb)
      exact hforward (Offers.of_buffer hstored'.writeBuff hoffers.file rfl rfl) rfl
        (hholds.readable.trans hu) rfl
  | relays hproxy => exact absurd (hstate.symm.trans hproxy) (by decide)

/-- What `ProcessProxy` makes of what the backend has sent. -/
theorem serving_relays {w : TaskWorld} {s₁ : HttpServer J} {result : ProxyProcessState}
    (h : Serving fd p client s₁) (hstate : client.proxyProcessState = .pendingReadFromProxyServer)
    (hfile : client.iov₁.len = 0) (hp : ∀ reg ∈ s₁.epoll p, reg.enabled = false)
    (hidle : Idle responses r)
    (hdue : Due (client.readFromFd w.reads).readBuff.readable r.exchanges)
    (hprocess : (client.readFromFd w.reads).processProxy cfg.js w.fs cfg.webRoot w.entries =
      .ok (result, client'))
    (hserver : s₁.onProcessProxy cfg w fd (client.readFromFd w.reads) = some s') :
    ∃ mode, InMode responses fd p { r with server := s' } mode := by
  have hread := readFromFd_buffersStored h.stored w.reads
  have hstored' := processProxy_buffersStored hread hprocess
  have hturn := processProxy_turn hprocess
  have hsame : SameEnds client client' := ⟨hturn.same.fd, hturn.same.proxyFd, hturn.same.isClose⟩
  have hfd' : client'.fd = fd := hsame.fd.trans h.ends.1
  unfold onProcessProxy at hserver
  rw [hprocess] at hserver
  have hback : client'.Offers (client.readFromFd w.reads).readBuff.readable →
      client'.proxyProcessState = .pendingReadFromClient →
      s' = (s₁.setUser fd client').watch client'.fd connEventOut →
      ∃ mode, InMode responses fd p { r with server := s' } mode := by
    rintro hoffers hstate' rfl
    refine ⟨.answers (client.readFromFd w.reads).readBuff.readable, ?_⟩
    rw [hfd']
    refine .answers ((h.setUser hsame hstored').watch fd connEventOut) hstate' hoffers (watch_epoll_self _) ?_
      hidle hdue
    intro reg hreg henabled
    rw [hp reg ((watch_epoll_other connEventOut h.apart).symm.trans hreg)] at henabled
    cases henabled
  cases processProxy_answer (show InExchange (client.readFromFd w.reads) from Or.inr hstate)
    hprocess with
  | waits hclient _ => exact absurd (hstate.symm.trans hclient) (by decide)
  | rejects hclient _ _ => exact absurd (hstate.symm.trans hclient) (by decide)
  | forwards hclient _ _ _ => exact absurd (hstate.symm.trans hclient) (by decide)
  | relays _ =>
      cases hserver
      exact hback (Offers.of_buffer hstored'.writeBuff hfile rfl rfl) rfl rfl

/-- The descriptor that was reported is not watched any more. -/
theorem served_disarmed {d : Int} {events₀ events : EpollEvents} {s₁ : HttpServer J}
    (hserved : Served d events s s₁) (hreg : s.epoll d = some ⟨events₀, true⟩)
    (honeshot : events₀.epolloneshot = true) : ∀ reg ∈ s₁.epoll d, reg.enabled = false := by
  obtain ⟨reg, hreg', -, -, hepoll⟩ := hserved.reported
  rw [hreg] at hreg'
  cases hreg'
  intro reg' hreg'
  rw [hepoll, Function.update_self] at hreg'
  cases hreg'
  rw [honeshot]
  rfl

theorem served_other {d d' : Int} {events : EpollEvents} {s₁ : HttpServer J}
    (hserved : Served d events s s₁) (hne : d' ≠ d) : s₁.epoll d' = s.epoll d' := by
  obtain ⟨reg, -, -, -, hepoll⟩ := hserved.reported
  rw [hepoll, Function.update_of_ne hne]

theorem InMode.readClient {mode : Mode} {reads : List Bytes} {fs : FileSystem}
    {entries : HeaderMap → List (Bytes × Bytes)} (hset : cfg.isSetProxy = true)
    (h : InMode responses fd p r mode) (huser : r.server.users fd = some client)
    (hserves : r.server.serves cfg fd EPOLLIN (reading reads fs entries) = some s)
    (huser' : s.users fd = some client') :
    ∃ mode', InMode responses fd p (r.noteRead responses s client client') mode' := by
  cases h with
  | @reads client₀ h hstate hoffers hfd hp hidle hdue =>
      rw [h.user] at huser
      cases huser
      obtain ⟨s₁, result, client₁, hserved, h₁, hprocess, hserver⟩ :=
        serves_reads false h hset rfl (by simp [reading]) hserves
      obtain ⟨huser₁, hmode⟩ := serving_readsClient h₁ hstate hoffers hidle hdue
        (served_disarmed hserved hfd rfl)
        (fun reg hreg => hp reg ((served_other hserved h.apart).symm.trans hreg)) hprocess hserver
      rw [huser₁] at huser'
      cases huser'
      exact hmode
  | answers h hstate hoffers hfd hp hidle hdue =>
      refine absurd hserves (not_serves fun reg hreg _ hreports => ?_)
      rw [hfd] at hreg
      cases hreg
      exact absurd hreports (by decide)
  | forwards h hstate hempty hoffers hfd hp hdue =>
      refine absurd hserves (not_serves fun reg hreg henabled _ => ?_)
      rw [hfd reg hreg] at henabled
      cases henabled
  | awaits h hstate hempty hfile hfd hp hdue =>
      refine absurd hserves (not_serves fun reg hreg henabled _ => ?_)
      rw [hfd reg hreg] at henabled
      cases henabled
  | closed huser hfd hp hidle hdue =>
      refine absurd hserves (not_serves fun reg hreg _ _ => ?_)
      rw [hfd] at hreg
      cases hreg

/-- The whole response has arrived when the backend is read. -/
theorem InMode.readBackend {mode : Mode} {reads : List Bytes} {fs : FileSystem}
    {entries : HeaderMap → List (Bytes × Bytes)} (hset : cfg.isSetProxy = true)
    (h : InMode responses fd p r mode)
    (hwhole : r.read + r.unread = (sent responses r.requests).length)
    (huser : r.server.users fd = some client) (hreads : reads.flatten = r.available responses)
    (havailable : r.available responses ≠ [])
    (hserves : r.server.serves cfg client.proxyFd EPOLLIN (reading reads fs entries) = some s) :
    ∃ mode', InMode responses fd p { r with server := s, read := r.read + r.unread, unread := 0 }
      mode' := by
  cases h with
  | reads h hstate hoffers hfd hp hidle hdue => exact absurd hidle.available havailable
  | answers h hstate hoffers hfd hp hidle hdue => exact absurd hidle.available havailable
  | closed huser hfd hp hidle hdue => exact absurd hidle.available havailable
  | forwards h hstate hempty hoffers hfd hp hdue =>
      rw [h.user] at huser
      cases huser
      refine absurd hserves (not_serves fun reg hreg _ hreports => ?_)
      rw [h.ends.2, hp] at hreg
      cases hreg
      exact absurd hreports (by decide)
  | @awaits client₀ h hstate hempty hfile hfd hp hdue =>
      rw [h.user] at huser
      cases huser
      obtain ⟨n, hn, hread, hdue⟩ := hdue
      rw [h.ends.2] at hserves
      obtain ⟨s₁, result, client', hserved, h₁, hprocess, hserver⟩ :=
        serves_reads true h hset rfl (by simp [reading]) hserves
      have hdata : r.available responses = responses n := by
        rw [hn, sent_succ, List.length_append] at hwhole
        rw [Relay.available, hn, sent_succ, hread, List.drop_left, List.take_of_length_le (by omega)]
      have hresponse : (client.readFromFd reads).readBuff.readable = responses n := by
        rw [readFromFd_readable h.stored.readBuff, hempty, List.nil_append]
        exact hreads.trans hdata
      have hidle : Idle responses { r with read := r.read + r.unread, unread := 0 } := ⟨hwhole, rfl⟩
      exact serving_relays h₁ hstate hfile (served_disarmed hserved hp rfl) hidle
        (show Due (client.readFromFd reads).readBuff.readable r.exchanges from hresponse ▸ hdue)
        hprocess hserver

/-- The client takes a part of its answer, or the rest of it. -/
theorem serving_answers {write : WriteEnd} {s₁ : HttpServer J} (h : Serving fd p client s₁)
    (hset : cfg.isSetProxy = true) (hsame : SameEnds client client')
    (hstored : BuffersStored client')
    (hstate : client'.proxyProcessState = .pendingReadFromClient)
    (hp : ∀ reg ∈ s₁.epoll p, reg.enabled = true → reg.events.epollout = false)
    (hidle : Idle responses r) (hdue : Due rest r.exchanges) (hwrote : Wrote write client' rest)
    (hwrite : (s₁.setUser fd client').onWritten cfg fd false write client' = some s') :
    ∃ mode, InMode responses fd p { r with server := s' } mode := by
  have hfd' : client'.fd = fd := hsame.fd.trans h.ends.1
  have hp' : client'.proxyFd = p := hsame.proxyFd.trans h.ends.2
  have hbackend : ∀ events, ∀ reg ∈ (((s₁.setUser fd client').watch fd events).epoll p),
      reg.enabled = true → reg.events.epollout = false := by
    intro events reg hreg
    exact hp reg ((watch_epoll_other events h.apart).symm.trans hreg)
  unfold onWritten at hwrite
  simp only [Bool.false_eq_true, and_false, if_false] at hwrite
  by_cases hrest : rest = []
  · subst hrest
    have hnone : client'.pendingWriteBytes = 0 := hwrote.pending.mpr rfl
    by_cases halive : client'.isKeepAlive = true
    · rw [if_pos ⟨hnone, halive⟩, extentTime_eq, hfd'] at hwrite
      cases hwrite
      have hserving := ((h.setUser hsame hstored).extentTime cfg client').watch fd connEventIn
      rw [extentTime_eq] at hserving
      exact ⟨.reads, .reads hserving hstate hwrote.offers (watch_epoll_self _)
        (hbackend connEventIn) hidle hdue⟩
    · rw [if_neg fun hand => halive hand.2, if_neg fun hand => hand.1 hnone] at hwrite
      have huser : (s₁.setUser fd client').users fd = some client' := Function.update_self ..
      have hopen' : client'.isClose = false := hsame.isClose.trans h.isOpen
      have hclosed := closeConn_closed hwrite huser hopen'
      obtain ⟨closed, hat, hisClose, hproxyFd⟩ := closeConn_user hwrite huser hopen'
      refine ⟨.closed, .closed ?_ ?_ ?_ hidle hdue⟩
      · intro closed' hmem
        rw [hat] at hmem
        cases hmem
        exact ⟨hisClose, hproxyFd.trans hp'⟩
      · exact (hclosed.epoll fd).trans (if_pos (Or.inl hfd'.symm))
      · exact (hclosed.epoll p).trans (if_pos (Or.inr ⟨hp'.symm, Or.inl hset⟩))
  · have hsome : client'.pendingWriteBytes ≠ 0 := fun hnone => hrest (hwrote.pending.mp hnone)
    rw [if_neg fun hand => hsome hand.1, if_pos ⟨hsome, hwrote.busy hrest⟩, hfd'] at hwrite
    cases hwrite
    exact ⟨.answers rest, .answers ((h.setUser hsame hstored).watch fd connEventOut) hstate hwrote.offers
      (watch_epoll_self _) (hbackend connEventOut) hidle hdue⟩

/-- The backend takes a part of the request, or the rest of it. -/
theorem serving_forwards {write : WriteEnd} {s₁ : HttpServer J} (h : Serving fd p client s₁)
    (hsame : SameEnds client client') (hstored : BuffersStored client')
    (hstate : client'.proxyProcessState = .pendingReadFromProxyServer)
    (hempty : client'.readBuff.readable = [])
    (hfd : ∀ reg ∈ s₁.epoll fd, reg.enabled = false) (hdue : Outstanding responses r)
    (hwrote : Wrote write client' rest)
    (hwrite : (s₁.setUser fd client').onWritten cfg fd true write client' = some s') :
    ∃ mode, InMode responses fd p { r with server := s' } mode := by
  have hp' : client'.proxyFd = p := hsame.proxyFd.trans h.ends.2
  have hclient : ∀ events, ∀ reg ∈ (((s₁.setUser fd client').watch p events).epoll fd),
      reg.enabled = false := by
    intro events reg hreg
    exact hfd reg ((watch_epoll_other events h.apart.symm).symm.trans hreg)
  unfold onWritten at hwrite
  simp only [and_true, if_true] at hwrite
  by_cases hrest : rest = []
  · subst hrest
    rw [if_pos (hwrote.pending.mpr rfl), extentTime_eq, hp'] at hwrite
    cases hwrite
    have hserving := ((h.setUser hsame hstored).extentTime cfg client').watch p connEventIn
    rw [extentTime_eq] at hserving
    exact ⟨.awaits, .awaits hserving hstate hempty hwrote.offers.file (hclient connEventIn)
      (watch_epoll_self _) hdue⟩
  · have hsome : client'.pendingWriteBytes ≠ 0 := fun hnone => hrest (hwrote.pending.mp hnone)
    rw [if_neg hsome, if_neg fun hand => hsome hand.1, if_pos ⟨hsome, hwrote.busy hrest⟩,
      hp'] at hwrite
    cases hwrite
    exact ⟨.forwards rest, .forwards ((h.setUser hsame hstored).watch p connEventOut) hstate hempty
      hwrote.offers (hclient connEventOut) (watch_epoll_self _) hdue⟩

/-- A descriptor that is not watched for output is not written to. -/
theorem not_writes {d : Int} {w : TaskWorld}
    (h : ∀ reg ∈ s.epoll d, reg.enabled = true → reg.events.epollout = false) :
    s.serves cfg d EPOLLOUT w ≠ some s' := by
  apply not_serves
  intro reg hreg henabled hreports
  obtain ⟨-, -, hout, -⟩ := hreports
  have hwatched := hout rfl
  rw [h reg hreg henabled] at hwatched
  cases hwatched

/-- A write that offers fewer than 2^32 bytes does not take what is left for nothing. -/
theorem InMode.write {mode : Mode} {inProxy : Bool} {call : WriteCall}
    (hset : cfg.isSetProxy = true) (h : InMode responses fd p r mode)
    (hsize : client.iov₀.len + client.iov₁.len < 2 ^ 32) (huser : r.server.users fd = some client)
    (hbytes : handedOver call.counts client = some bytes)
    (hends : EndsCall (client.writeToFd call.last call.counts).2 call.last)
    (hserves : r.server.serves cfg (if inProxy then client.proxyFd else fd) EPOLLOUT
      (writing call) = some s) :
    ∃ mode', InMode responses fd p
      { r with server := s,
               exchanges := if inProxy then r.exchanges else noteWritten bytes r.exchanges }
      mode' := by
  obtain ⟨hsame, hkept⟩ := writeLoop_same call.last call.counts 0 client
  cases h with
  | reads h hstate hoffers hfd hp hidle hdue =>
      rw [h.user] at huser
      cases huser
      rw [h.ends.2] at hserves
      refine absurd hserves (not_writes fun reg hreg henabled => ?_)
      cases inProxy with
      | true => exact hp reg hreg henabled
      | false =>
          cases hfd.symm.trans hreg
          rfl
  | answers h hstate hoffers hfd hp hidle hdue =>
      rw [h.user] at huser
      cases huser
      rw [h.ends.2] at hserves
      cases inProxy with
      | true => exact absurd hserves (not_writes hp)
      | false =>
          obtain ⟨s₁, hserved, h₁, hwrite⟩ := serves_writes false h hset rfl hserves
          obtain ⟨rest', hrest, hwrote⟩ := hoffers.write hsize hbytes hends
          have hp₁ : ∀ reg ∈ s₁.epoll p, reg.enabled = true → reg.events.epollout = false := by
            rw [served_other hserved h.apart]
            exact hp
          exact serving_answers (r := { r with exchanges := noteWritten bytes r.exchanges }) h₁ hset
            hsame (writeLoop_buffersStored call.last call.counts 0 client h.stored)
            (hkept.trans hstate) hp₁ hidle (hdue.note hrest) hwrote hwrite
  | forwards h hstate hempty hoffers hfd hp hdue =>
      rw [h.user] at huser
      cases huser
      rw [h.ends.2] at hserves
      cases inProxy with
      | false =>
          refine absurd hserves (not_writes fun reg hreg henabled => ?_)
          rw [hfd reg hreg] at henabled
          cases henabled
      | true =>
          obtain ⟨s₁, hserved, h₁, hwrite⟩ := serves_writes true h hset rfl hserves
          obtain ⟨rest', -, hwrote⟩ := hoffers.write hsize hbytes hends
          have hfd₁ : ∀ reg ∈ s₁.epoll fd, reg.enabled = false := by
            rw [served_other hserved h.apart.symm]
            exact hfd
          have hread := (writeToFd_kept call.last call.counts client).2
          exact serving_forwards h₁ hsame
            (writeLoop_buffersStored call.last call.counts 0 client h.stored)
            (hkept.trans hstate) ((congrArg Buffer.readable hread).trans hempty) hfd₁ hdue hwrote
            hwrite
  | awaits h hstate hempty hfile hfd hp hdue =>
      rw [h.user] at huser
      cases huser
      rw [h.ends.2] at hserves
      refine absurd hserves (not_writes fun reg hreg henabled => ?_)
      cases inProxy with
      | true =>
          cases hp.symm.trans hreg
          rfl
      | false =>
          rw [hfd reg hreg] at henabled
          cases henabled
  | closed huser' hfd hp hidle hdue =>
      rw [(huser' client huser).2] at hserves
      refine absurd hserves (not_writes fun reg hreg _ => ?_)
      cases inProxy with
      | true => cases hp.symm.trans hreg
      | false => cases hfd.symm.trans hreg

/-! ## §5  The answers -/

/-- A step that reads the backend finds the whole response, and one that writes offers
fewer than 2^32 bytes. -/
def InOnePiece (fd : Int) (responses : Nat → Bytes) (r : Relay J) : RelayStep → Prop
  | .arrive _ => True
  | .read false _ _ _ => True
  | .read true _ _ _ => r.read + r.unread = (sent responses r.requests).length
  | .write _ _ => ∀ client ∈ r.server.users fd, client.iov₀.len + client.iov₁.len < 2 ^ 32

instance (fd : Int) (responses : Nat → Bytes) (r : Relay J) :
    ∀ step, Decidable (InOnePiece fd responses r step)
  | .arrive _ => inferInstanceAs (Decidable True)
  | .read false _ _ _ => inferInstanceAs (Decidable True)
  | .read true _ _ _ =>
      inferInstanceAs (Decidable (r.read + r.unread = (sent responses r.requests).length))
  | .write _ _ => inferInstanceAs
      (Decidable (∀ client ∈ r.server.users fd, client.iov₀.len + client.iov₁.len < 2 ^ 32))

/-- Each forwarded request has its own response, in order. -/
def InOrder (responses : Nat → Bytes) (r : Relay J) : Prop :=
  r.exchanges.reverse.filterMap Exchange.response = (List.range r.requests).map responses

theorem map_response_noteWritten (bytes : Bytes) (exchanges : List Exchange) :
    (noteWritten bytes exchanges).map Exchange.response = exchanges.map Exchange.response := by
  cases exchanges with
  | nil => rfl
  | cons e past => rfl

theorem InOrder.of_responses {exchanges : List Exchange} (h : InOrder responses r)
    (heq : exchanges.map Exchange.response = r.exchanges.map Exchange.response) :
    exchanges.reverse.filterMap Exchange.response = (List.range r.requests).map responses := by
  have hid : ∀ es : List Exchange, es.reverse.filterMap Exchange.response =
      (es.map Exchange.response).reverse.filterMap id := by
    intro es
    rw [← List.map_reverse, List.filterMap_map]
    rfl
  rw [hid, heq, ← hid]
  exact h

theorem InOrder.noteRead (h : InOrder responses r) (s : HttpServer J) (c c' : HttpConn J) :
    InOrder responses (r.noteRead responses s c c') := by
  unfold InOrder Relay.noteRead
  split
  · rw [List.reverse_cons, List.filterMap_append, h, List.range_succ, List.map_append]
    rfl
  · rw [List.reverse_cons, List.filterMap_append, h]
    exact List.append_nil _

theorem InOrder.step {step : RelayStep} (h : InOrder responses r)
    (hstep : Stepped cfg fd responses r step r') : InOrder responses r' := by
  cases hstep with
  | arrives _ => exact h
  | readsClient _ _ _ => exact h.noteRead _ _ _
  | readsBackend _ _ _ _ => exact h
  | @writes inProxy call client bytes s _ _ _ _ =>
      cases inProxy with
      | true => exact h
      | false => exact h.of_responses (map_response_noteWritten bytes r.exchanges)

theorem Due.past {exchanges : List Exchange} (h : Due rest exchanges) :
    ∀ e ∈ exchanges.tail, e.Whole := by
  cases exchanges with
  | nil => exact fun e he => nomatch he
  | cons e past => exact (h e past rfl).2

theorem Due.part {exchanges : List Exchange} (h : Due rest exchanges) :
    ∀ e ∈ exchanges, ∃ rest, e.Answers (e.written ++ rest) := by
  cases exchanges with
  | nil => exact fun e he => nomatch he
  | cons e past =>
      obtain ⟨hlast, hpast⟩ := h e past rfl
      intro e' he'
      rcases List.mem_cons.mp he' with rfl | he'
      · exact ⟨rest, hlast⟩
      · refine ⟨[], ?_⟩
        rw [List.append_nil]
        exact hpast e' he'

theorem InMode.step {mode : Mode} {step : RelayStep} (hset : cfg.isSetProxy = true)
    (h : InMode responses fd p r mode) (hpiece : InOnePiece fd responses r step)
    (hstep : Stepped cfg fd responses r step r') : ∃ mode', InMode responses fd p r' mode' := by
  cases hstep with
  | arrives hlen => exact ⟨mode, h.arrive hlen⟩
  | readsClient huser hserves huser' => exact h.readClient hset huser hserves huser'
  | readsBackend huser hreads havailable hserves =>
      exact h.readBackend hset hpiece huser hreads havailable hserves
  | writes huser hbytes hends hserves =>
      exact h.write hset (hpiece _ huser) huser hbytes hends hserves

end Relay

end WhiteWebServer
