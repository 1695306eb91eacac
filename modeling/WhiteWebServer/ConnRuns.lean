import WhiteWebServer.ParseTrace
import WhiteWebServer.HttpConn
import WhiteWebServer.Lib.Machine

/-!
# Runs of a connection

Any order of calls of the methods of one `HttpConn`, with whatever the kernel
returns to them: what the server does with a connection is one of these runs. In
all of them both buffers keep their indices in order and the spare bytes zero.
-/

namespace WhiteWebServer

open Outcome

namespace Buffer

variable {b : Buffer}

theorem Stored.clear (h : b.Stored) : b.clear.Stored := by
  obtain ⟨g, u, n, h⟩ := h
  exact ⟨_, _, _, h.clear⟩

theorem Stored.retrieve (h : b.Stored) (len : Nat) : (b.retrieve len).Stored := by
  obtain ⟨g, u, n, h⟩ := h
  by_cases hlen : u.length < len
  · rw [retrieve_of_gt h hlen]
    exact ⟨g, u, n, h⟩
  · rw [← List.take_append_drop len u] at h
    have htake : (u.take len).length = len := List.length_take_of_le (by omega)
    have hret := h.retrieve
    rw [htake] at hret
    exact ⟨_, _, _, hret⟩

theorem Stored.append (h : b.Stored) (xs : Bytes) : (b.append xs).Stored := by
  obtain ⟨g, u, n, h⟩ := h
  obtain ⟨m, h'⟩ := h.append xs
  exact ⟨g, _, m, h'⟩

theorem Stored.readFromFd (h : b.Stored) (data : Bytes) : (b.readFromFd (.ok data)).Stored := by
  obtain ⟨g, u, n, h⟩ := h
  obtain ⟨m, h'⟩ := h.readFromFd data
  exact ⟨g, _, m, h'⟩

theorem Stored.addCustomHeader (h : b.Stored) (key value : Bytes) :
    (HttpRequest.addCustomHeader b key value).Stored := h.append _

end Buffer

namespace HttpResponse

variable {fs : FileSystem} {r r' : HttpResponse} {b b' : Buffer}

theorem generateErrorContent_stored (h : b.Stored) (message : Bytes) :
    (generateErrorContent r b message).Stored := (h.addCustomHeader _ _).append _

theorem addConnection_stored (h : b.Stored) : (addConnection r b).2.Stored := by
  unfold addConnection
  split
  · exact h.addCustomHeader _ _
  · split
    · dsimp only
      have hloc : (if r.responseCode = 301 then
          HttpRequest.addCustomHeader b (ascii "Location") r.path else b).Stored := by
        split
        · exact h.addCustomHeader _ _
        · exact h
      split
      · exact hloc
      · split
        · exact (hloc.addCustomHeader _ _).addCustomHeader _ _
        · exact hloc.addCustomHeader _ _
    · exact h

theorem addHeader_stored (h : b.Stored) : (addHeader r b).2.Stored := by
  unfold addHeader
  dsimp only
  refine Buffer.Stored.addCustomHeader ?_ _ _
  have htype := (addConnection_stored (r := r) h).addCustomHeader (ascii "Content-type")
    (addConnection r b).1.getFileType
  split
  · exact htype.addCustomHeader _ _
  · exact htype

theorem addContent_stored (h : b.Stored) : (addContent fs r b).2.Stored := by
  unfold addContent
  split
  · split
    · exact generateErrorContent_stored h _
    · split
      · exact generateErrorContent_stored h _
      · exact h.addCustomHeader _ _
  · exact generateErrorContent_stored h _

/-- The three writers of a response, one behind the other. -/
theorem makeResponse_eq (hmake : makeResponse fs r b = .ok (r', b')) :
    ∃ r₁ : HttpResponse, (r', b') =
      addContent fs (addHeader (r₁.addStateLine b).1 (r₁.addStateLine b).2).1
        (addHeader (r₁.addStateLine b).1 (r₁.addStateLine b).2).2 := by
  unfold makeResponse at hmake
  by_cases hserves : servesFile r.responseCode = true
  · rw [if_pos hserves] at hmake
    obtain ⟨r₁, -, hmake⟩ := bind_eq_ok.mp hmake
    exact ⟨r₁, (Except.ok.inj hmake).symm⟩
  · rw [if_neg hserves] at hmake
    obtain ⟨r₁, -, hmake⟩ := bind_eq_ok.mp hmake
    exact ⟨r₁, (Except.ok.inj hmake).symm⟩

theorem makeResponse_stored (h : b.Stored) (hmake : makeResponse fs r b = .ok (r', b')) :
    b'.Stored := by
  obtain ⟨r₁, heq⟩ := makeResponse_eq hmake
  change (r', b').2.Stored
  rw [heq]
  exact addContent_stored (addHeader_stored (h.append _))

end HttpResponse

namespace HttpRequest

theorem makeProxyRequests_stored {J : Type} {b : Buffer} (h : b.Stored) (q : HttpRequest J)
    (entries : List (Bytes × Bytes)) (originIp : Bytes) :
    (q.makeProxyRequests entries b originIp).2.Stored := by
  have hfold : ∀ (entries : List (Bytes × Bytes)) (b : Buffer), b.Stored →
      (entries.foldl (fun b e => addCustomHeader b e.1 e.2) b).Stored := by
    intro entries
    induction entries with
    | nil => exact fun b h => h
    | cons e entries ih => exact fun b h => ih _ (h.addCustomHeader e.1 e.2)
  unfold makeProxyRequests
  dsimp only
  split
  · exact (((((((hfold entries _ (h.append _)).addCustomHeader _ _).addCustomHeader _ _
      ).addCustomHeader _ _).addCustomHeader _ _).addCustomHeader _ _).append _)
  · exact ((((((((hfold entries _ (h.append _)).addCustomHeader _ _).addCustomHeader _ _
      ).addCustomHeader _ _).addCustomHeader _ _).addCustomHeader _ _).append _).append _)

end HttpRequest

namespace HttpConn

variable {J : Type} {js : JsonCpp J} {fs : FileSystem} {webRoot : Bytes} {c c' : HttpConn J}

/-! ## The calls -/

inductive ConnCall
  | init (fd : Int) (addr : SockAddr) (proxyFd : Int) (indexFile : Option (List Bytes))
  | readFromFd (reads : List Bytes)
  | writeToFd (last : WriteEnd) (counts : List Nat)
  | process (fs : FileSystem)
  | processProxy (fs : FileSystem) (entries : HeaderMap → List (Bytes × Bytes))
  | resetProxyFd (newProxyFd : Int)
  | close

def connStep (js : JsonCpp J) (webRoot : Bytes) (c : HttpConn J) : ConnCall →
    Except Fault (HttpConn J)
  | .init fd addr proxyFd indexFile => .ok (c.init fd addr proxyFd indexFile)
  | .readFromFd reads => .ok (c.readFromFd reads)
  | .writeToFd last counts => .ok (c.writeToFd last counts).2
  | .process fs => (c.process js fs webRoot).map Prod.snd
  | .processProxy fs entries => (c.processProxy js fs webRoot entries).map Prod.snd
  | .resetProxyFd newProxyFd => .ok (c.resetProxyFd newProxyFd)
  | .close => c.close js

/-- Behind a fault there is no next call. -/
def calls (js : JsonCpp J) (webRoot : Bytes) (c₀ : HttpConn J) :
    Machine (HttpConn J) ConnCall Unit where
  init := c₀
  step c call := match connStep js webRoot c call with
    | .error _ => none
    | .ok c => some (c, ())

/-- A connection as some order of calls leaves it. -/
def Reached (js : JsonCpp J) (webRoot : Bytes) (c : HttpConn J) : Prop :=
  ∃ junk c₀, HttpConn.new js junk = .ok c₀ ∧
    ∃ ls os, (calls js webRoot c₀).run ls = some (c, os)

/-! ## What holds in every run -/

structure BuffersStored (c : HttpConn J) : Prop where
  readBuff : c.readBuff.Stored
  writeBuff : c.writeBuff.Stored

theorem new_buffersStored {junk : Junk} (h : HttpConn.new js junk = .ok c) :
    BuffersStored c := by
  obtain ⟨readBuff, hread, h⟩ := bind_eq_ok.mp h
  obtain ⟨writeBuff, hwrite, h⟩ := bind_eq_ok.mp h
  obtain ⟨request, -, h⟩ := bind_eq_ok.mp h
  obtain rfl := Except.ok.inj h
  exact ⟨⟨_, _, _, Buffer.holds_of_new hread⟩, ⟨_, _, _, Buffer.holds_of_new hwrite⟩⟩

theorem readFromFd_buffersStored (hc : BuffersStored c) (reads : List Bytes) :
    BuffersStored (c.readFromFd reads) := by
  obtain ⟨g, u, n, hb⟩ := hc.readBuff
  obtain ⟨m, hm⟩ := readFromFd_holds hb reads
  exact ⟨⟨g, _, m, hm⟩, hc.writeBuff⟩

theorem advance_buffersStored (hc : BuffersStored c) (len : Nat) :
    BuffersStored (c.advance len) := by
  unfold advance
  dsimp only
  split
  · split
    · exact ⟨hc.readBuff, hc.writeBuff.clear⟩
    · exact ⟨hc.readBuff, hc.writeBuff⟩
  · exact ⟨hc.readBuff, hc.writeBuff.retrieve len⟩

theorem writeLoop_buffersStored (last : WriteEnd) :
    ∀ (counts : List Nat) (total : Int) (c : HttpConn J), BuffersStored c →
      BuffersStored (writeLoop last counts total c).2 := by
  intro counts
  induction counts with
  | nil => exact fun _ _ hc => hc
  | cons len counts ih =>
      intro total c hc
      rw [writeLoop]
      split
      · exact hc
      · exact ih _ _ (advance_buffersStored hc len)

theorem respond_buffersStored {code : Int} (hc : BuffersStored c)
    (h : respond fs webRoot code c = .ok c') : BuffersStored c' := by
  obtain ⟨r, -, h⟩ := bind_eq_ok.mp h
  obtain ⟨⟨r', b'⟩, hmake, h⟩ := bind_eq_ok.mp h
  obtain rfl := Except.ok.inj h
  exact ⟨hc.readBuff, HttpResponse.makeResponse_stored hc.writeBuff hmake⟩

theorem process_buffersStored {result : ProcessState} (hc : BuffersStored c)
    (h : c.process js fs webRoot = .ok (result, c')) : BuffersStored c' := by
  obtain ⟨q, -, h⟩ := bind_eq_ok.mp h
  dsimp only at h
  split at h
  · simp only [pure, Except.pure, Except.ok.injEq, Prod.mk.injEq] at h
    obtain ⟨-, rfl⟩ := h
    exact ⟨hc.readBuff, hc.writeBuff⟩
  · obtain ⟨⟨code, q', b⟩, hparse, h⟩ := bind_eq_ok.mp h
    obtain ⟨g, u, n, hholds⟩ := hc.readBuff
    obtain ⟨g', u', hb⟩ := HttpRequest.parse_holds hholds hparse
    have hparsed : BuffersStored { c with request := q', readBuff := b } :=
      ⟨⟨g', u', n, hb⟩, hc.writeBuff⟩
    dsimp only at h
    split at h
    · simp only [pure, Except.pure, Except.ok.injEq, Prod.mk.injEq] at h
      obtain ⟨-, rfl⟩ := h
      exact hparsed
    · obtain ⟨c₁, hrespond, h⟩ := bind_eq_ok.mp h
      have hc₁ := respond_buffersStored hparsed hrespond
      simp only [pure, Except.pure, Except.ok.injEq, Prod.mk.injEq] at h
      obtain ⟨-, rfl⟩ := h
      split
      · exact ⟨hc₁.readBuff, hc₁.writeBuff⟩
      · exact ⟨hc₁.readBuff, hc₁.writeBuff⟩

theorem processProxy_buffersStored {entries : HeaderMap → List (Bytes × Bytes)}
    {result : ProxyProcessState} (hc : BuffersStored c)
    (h : c.processProxy js fs webRoot entries = .ok (result, c')) : BuffersStored c' := by
  unfold processProxy at h
  split at h
  · obtain ⟨q, -, h⟩ := bind_eq_ok.mp h
    obtain ⟨⟨code, q', b⟩, hparse, h⟩ := bind_eq_ok.mp h
    obtain ⟨g, u, n, hholds⟩ := hc.readBuff
    obtain ⟨g', u', hb⟩ := HttpRequest.parse_holds hholds hparse
    have hforward := HttpRequest.makeProxyRequests_stored hc.writeBuff q' (entries q'.header)
      (inetNtoa c.address)
    dsimp only at h
    split at h
    · simp only [pure, Except.pure, Except.ok.injEq, Prod.mk.injEq] at h
      obtain ⟨-, rfl⟩ := h
      exact ⟨⟨g', u', n, hb⟩, hforward⟩
    · simp only [pure, Except.pure, Except.ok.injEq, Prod.mk.injEq] at h
      obtain ⟨-, rfl⟩ := h
      exact ⟨⟨g', u', n, hb⟩, hforward⟩
    · obtain ⟨c₁, hrespond, h⟩ := bind_eq_ok.mp h
      have hparsed : BuffersStored { c with request := q', readBuff := b } :=
        ⟨⟨g', u', n, hb⟩, hc.writeBuff⟩
      have hc₁ := respond_buffersStored hparsed hrespond
      simp only [pure, Except.pure, Except.ok.injEq, Prod.mk.injEq] at h
      obtain ⟨-, rfl⟩ := h
      exact ⟨hc₁.readBuff, hc₁.writeBuff⟩
    · simp only [pure, Except.pure, Except.ok.injEq, Prod.mk.injEq] at h
      obtain ⟨-, rfl⟩ := h
      exact ⟨⟨g', u', n, hb⟩, hc.writeBuff⟩
  · simp only [Except.ok.injEq, Prod.mk.injEq] at h
    obtain ⟨-, rfl⟩ := h
    exact ⟨hc.writeBuff, hc.readBuff⟩
  · simp only [Except.ok.injEq, Prod.mk.injEq] at h
    obtain ⟨-, rfl⟩ := h
    exact hc

theorem close_buffersStored (hc : BuffersStored c) (h : c.close js = .ok c') :
    BuffersStored c' := by
  unfold close at h
  dsimp only at h
  split at h
  · obtain rfl := Except.ok.inj h
    exact ⟨hc.readBuff, hc.writeBuff⟩
  · split at h
    · cases h
    · obtain rfl := Except.ok.inj h
      exact ⟨hc.readBuff, hc.writeBuff⟩

theorem connStep_buffersStored {call : ConnCall} (hc : BuffersStored c)
    (h : connStep js webRoot c call = .ok c') : BuffersStored c' := by
  cases call with
  | init fd addr proxyFd indexFile =>
      obtain rfl := Except.ok.inj h
      exact ⟨hc.readBuff.clear, hc.writeBuff.clear⟩
  | readFromFd reads =>
      obtain rfl := Except.ok.inj h
      exact readFromFd_buffersStored hc reads
  | writeToFd last counts =>
      obtain rfl := Except.ok.inj h
      exact writeLoop_buffersStored last counts 0 c hc
  | process fs =>
      obtain ⟨r, hprocess, rfl⟩ := map_eq_ok h
      exact process_buffersStored hc hprocess
  | processProxy fs entries =>
      obtain ⟨r, hprocess, rfl⟩ := map_eq_ok h
      exact processProxy_buffersStored hc hprocess
  | resetProxyFd newProxyFd =>
      obtain rfl := Except.ok.inj h
      exact ⟨hc.readBuff, hc.writeBuff⟩
  | close => exact close_buffersStored hc h

theorem calls_step {c₀ : HttpConn J} {call : ConnCall} {o : Unit}
    (h : (calls js webRoot c₀).step c call = some (c', o)) : connStep js webRoot c call = .ok c' := by
  rw [calls] at h
  dsimp only at h
  cases hcall : connStep js webRoot c call with
  | error e => simp [hcall] at h
  | ok c₁ =>
      simp only [hcall, Option.some.injEq, Prod.mk.injEq] at h
      rw [h.1]

/-- What a new connection has and each call keeps, every reached one has. -/
theorem Reached.invariant {I : HttpConn J → Prop} (h : Reached js webRoot c)
    (hnew : ∀ junk c, HttpConn.new js junk = .ok c → I c)
    (hstep : ∀ c call c', I c → connStep js webRoot c call = .ok c' → I c') : I c := by
  obtain ⟨junk, c₀, hc₀, ls, os, hrun⟩ := h
  exact Machine.run_invariant (hnew junk c₀ hc₀)
    (fun c call c' o hc hcall => hstep c call c' hc (calls_step hcall)) hrun

theorem Reached.buffersStored (h : Reached js webRoot c) : BuffersStored c :=
  h.invariant (fun _ _ hnew => new_buffersStored hnew)
    fun _ _ _ hc hcall => connStep_buffersStored hc hcall

/-! ### The body of the request -/

theorem init_body {q q' : HttpRequest J} (h : q.init js = .ok q') :
    q'.body = [] ∧ q'.state = .requestLine := by
  unfold HttpRequest.init at h
  split at h
  · cases h
  · obtain rfl := Except.ok.inj h
    exact ⟨rfl, rfl⟩

/-- The request `Parse` is called on has no body. -/
theorem nextRequest_body {q q' : HttpRequest J} (hq : q.BodyOpen) (h : nextRequest js q = .ok q') :
    q'.body = [] := by
  unfold nextRequest at h
  split at h
  · exact (init_body h).1
  · rename_i hfinish
    obtain rfl := Except.ok.inj h
    exact hq (by simpa [HttpRequest.isFinish] using hfinish)

theorem parse_bodyOpen {q q' : HttpRequest J} {b b' : Buffer} {code : HttpCode} (hb : b.Stored)
    (hq : q.BodyOpen) (h : q.parse js b = .ok (code, q', b')) : q'.BodyOpen := by
  obtain ⟨g, u, n, hholds⟩ := hb
  exact (HttpRequest.parse_body hholds h hq).1

/-- The request a processing call leaves: what `nextRequest` made of it, or what
`Parse` made of that, with a header `MakeProxyRequests` may have bound. -/
inductive Parsed (js : JsonCpp J) (c : HttpConn J) : HttpRequest J → Prop
  | next {q : HttpRequest J} (hq : nextRequest js c.request = .ok q) : Parsed js c q
  | parse {q q' : HttpRequest J} {code : HttpCode} {b : Buffer}
      (hq : nextRequest js c.request = .ok q)
      (hparse : q.parse js c.readBuff = .ok (code, q', b)) (header : HeaderMap) :
      Parsed js c { q' with header := header }

theorem respond_request {code : Int} (h : respond fs webRoot code c = .ok c') :
    c'.request = c.request := by
  obtain ⟨r, b, rfl⟩ := respond_eq h
  rfl

theorem process_parsed {result : ProcessState} (h : c.process js fs webRoot = .ok (result, c')) :
    Parsed js c c'.request := by
  obtain ⟨q, hq, h⟩ := bind_eq_ok.mp h
  dsimp only at h
  split at h
  · simp only [pure, Except.pure, Except.ok.injEq, Prod.mk.injEq] at h
    obtain ⟨-, rfl⟩ := h
    exact Parsed.next hq
  · obtain ⟨⟨code, q', b⟩, hparse, h⟩ := bind_eq_ok.mp h
    have hparsed := Parsed.parse hq hparse q'.header
    dsimp only at h
    split at h
    · simp only [pure, Except.pure, Except.ok.injEq, Prod.mk.injEq] at h
      obtain ⟨-, rfl⟩ := h
      exact hparsed
    · obtain ⟨c₁, hrespond, h⟩ := bind_eq_ok.mp h
      rw [show q' = c₁.request from (respond_request hrespond).symm] at hparsed
      simp only [pure, Except.pure, Except.ok.injEq, Prod.mk.injEq] at h
      obtain ⟨-, rfl⟩ := h
      split <;> exact hparsed

theorem processProxy_parsed {entries : HeaderMap → List (Bytes × Bytes)}
    {result : ProxyProcessState} (h : c.processProxy js fs webRoot entries = .ok (result, c')) :
    c'.request = c.request ∨ Parsed js c c'.request := by
  unfold processProxy at h
  split at h
  · obtain ⟨q, hq, h⟩ := bind_eq_ok.mp h
    obtain ⟨⟨code, q', b⟩, hparse, h⟩ := bind_eq_ok.mp h
    have hparsed := Parsed.parse hq hparse
    apply Or.inr
    dsimp only at h
    split at h
    · simp only [pure, Except.pure, Except.ok.injEq, Prod.mk.injEq] at h
      obtain ⟨-, rfl⟩ := h
      exact hparsed _
    · simp only [pure, Except.pure, Except.ok.injEq, Prod.mk.injEq] at h
      obtain ⟨-, rfl⟩ := h
      exact hparsed _
    · obtain ⟨c₁, hrespond, h⟩ := bind_eq_ok.mp h
      have hparsed := hparsed q'.header
      rw [show q' = c₁.request from (respond_request hrespond).symm] at hparsed
      simp only [pure, Except.pure, Except.ok.injEq, Prod.mk.injEq] at h
      obtain ⟨-, rfl⟩ := h
      exact hparsed
    · simp only [pure, Except.pure, Except.ok.injEq, Prod.mk.injEq] at h
      obtain ⟨-, rfl⟩ := h
      exact hparsed q'.header
  · simp only [Except.ok.injEq, Prod.mk.injEq] at h
    obtain ⟨-, rfl⟩ := h
    exact Or.inl rfl
  · simp only [Except.ok.injEq, Prod.mk.injEq] at h
    obtain ⟨-, rfl⟩ := h
    exact Or.inl rfl

/-- What every `Init` brings, and each `Parse` and each header bound to the request keep. -/
structure KeptByParse (js : JsonCpp J) (I : HttpRequest J → Prop) : Prop where
  init : ∀ {q q' : HttpRequest J}, q.init js = .ok q' → I q'
  parse : ∀ {q q' : HttpRequest J} {b b' : Buffer} {code : HttpCode}, b.Stored → I q →
    q.parse js b = .ok (code, q', b') → I q'
  header : ∀ {q : HttpRequest J} (header : HeaderMap), I q → I { q with header := header }

theorem KeptByParse.next {I : HttpRequest J → Prop} (hI : KeptByParse js I) {q q' : HttpRequest J}
    (hq : I q) (h : nextRequest js q = .ok q') : I q' := by
  unfold nextRequest at h
  split at h
  · exact hI.init h
  · obtain rfl := Except.ok.inj h
    exact hq

theorem Parsed.kept {I : HttpRequest J → Prop} (hI : KeptByParse js I) {q : HttpRequest J}
    (h : Parsed js c q) (hb : c.readBuff.Stored) (hc : I c.request) : I q := by
  cases h with
  | next hq => exact hI.next hc hq
  | parse hq hparse header => exact hI.header header (hI.parse hb (hI.next hc hq) hparse)

/-- Writing leaves what was read alone. -/
theorem writeLoop_kept (last : WriteEnd) :
    ∀ (counts : List Nat) (total : Int) (c : HttpConn J),
      (writeLoop last counts total c).2.request = c.request ∧
        (writeLoop last counts total c).2.readBuff = c.readBuff := by
  intro counts
  induction counts with
  | nil => exact fun _ _ => ⟨rfl, rfl⟩
  | cons len counts ih =>
      intro total c
      rw [writeLoop]
      split
      · exact ⟨rfl, rfl⟩
      · obtain ⟨hrequest, hread⟩ := ih (total + len) (c.advance len)
        rw [hrequest, hread]
        unfold advance
        dsimp only
        split
        · split <;> exact ⟨rfl, rfl⟩
        · exact ⟨rfl, rfl⟩

theorem writeToFd_kept (last : WriteEnd) (counts : List Nat) (c : HttpConn J) :
    (c.writeToFd last counts).2.request = c.request ∧
      (c.writeToFd last counts).2.readBuff = c.readBuff := writeLoop_kept last counts 0 c

theorem connStep_kept {I : HttpRequest J → Prop} (hI : KeptByParse js I) {call : ConnCall}
    (hb : c.readBuff.Stored) (hc : I c.request) (h : connStep js webRoot c call = .ok c') :
    I c'.request := by
  cases call with
  | init fd addr proxyFd indexFile =>
      obtain rfl := Except.ok.inj h
      exact hc
  | readFromFd reads =>
      obtain rfl := Except.ok.inj h
      exact hc
  | writeToFd last counts =>
      obtain rfl := Except.ok.inj h
      rw [(writeToFd_kept last counts c).1]
      exact hc
  | process fs =>
      obtain ⟨r, hprocess, rfl⟩ := map_eq_ok h
      exact (process_parsed hprocess).kept hI hb hc
  | processProxy fs entries =>
      obtain ⟨r, hprocess, rfl⟩ := map_eq_ok h
      rcases processProxy_parsed hprocess with heq | hparsed
      · rw [heq]
        exact hc
      · exact hparsed.kept hI hb hc
  | resetProxyFd newProxyFd =>
      obtain rfl := Except.ok.inj h
      exact hc
  | close =>
      rw [connStep, close] at h
      dsimp only at h
      split at h
      · obtain rfl := Except.ok.inj h
        exact hc
      · split at h
        · cases h
        · rename_i q hinit
          obtain rfl := Except.ok.inj h
          exact hI.init hinit

theorem Reached.kept {I : HttpRequest J → Prop} (h : Reached js webRoot c) (hI : KeptByParse js I) :
    I c.request := by
  refine (h.invariant (I := fun c => BuffersStored c ∧ I c.request) ?_ ?_).2
  · intro junk c hnew
    refine ⟨new_buffersStored hnew, ?_⟩
    obtain ⟨readBuff, -, hnew⟩ := bind_eq_ok.mp hnew
    obtain ⟨writeBuff, -, hnew⟩ := bind_eq_ok.mp hnew
    obtain ⟨q, hq, hnew⟩ := bind_eq_ok.mp hnew
    obtain rfl := Except.ok.inj hnew
    exact hI.init hq
  · intro c call c' ⟨hb, hc⟩ hcall
    exact ⟨connStep_buffersStored hb hcall, connStep_kept hI hb.readBuff hc hcall⟩

theorem bodyOpen_kept (js : JsonCpp J) : KeptByParse js HttpRequest.BodyOpen where
  init h := fun _ => (init_body h).1
  parse hb hq h := parse_bodyOpen hb hq h
  header _ hq := hq

theorem Reached.bodyOpen (h : Reached js webRoot c) : c.request.BodyOpen := h.kept (bodyOpen_kept js)

/-! ### A client that has sent its first bytes -/

def zeroed : Junk :=
  { proxyFd := 0, proxyProcessState := .pendingReadFromClient, iovCnt := 0, iov₀ := ⟨.wild, 0⟩,
    iov₁ := ⟨.wild, 0⟩, fileStat := ⟨false, false, 0⟩ }

theorem new_of_request {q₀ : HttpRequest J} {b : Buffer} (hnew : HttpRequest.new js = .ok q₀)
    (hb : Buffer.new 2048 = .ok b) :
    ∃ c₀ : HttpConn J, HttpConn.new js zeroed = .ok c₀ ∧ c₀.request = q₀ ∧ c₀.readBuff = b := by
  unfold HttpConn.new
  rw [hb, hnew]
  exact ⟨_, rfl, rfl, rfl⟩

/-- An accepted connection after one read that fits its buffer. -/
theorem reached_first_read {q₀ : HttpRequest J} (hnew : HttpRequest.new js = .ok q₀)
    (webRoot : Bytes) {data : Bytes} (hdata : data.length ≤ 2047) :
    ∃ c : HttpConn J, Reached js webRoot c ∧ c.request = q₀ ∧
      c.proxyProcessState = .pendingReadFromClient ∧
      c.readBuff.Holds NUL data (2047 - data.length) := by
  obtain ⟨b, hb, hholds⟩ := Buffer.new_holds (show 2 ≤ 2048 from by decide)
  have hlen : b.bufferContainer.length = 2048 := by
    simp only [Buffer.new, if_neg (show ¬ 2048 ≤ 1 from by decide), Except.ok.injEq] at hb
    rw [← hb, List.length_replicate]
  have hclear := hholds.clear
  rw [hlen] at hclear
  have hread := hclear.readFromFd_fits hdata
  rw [List.nil_append] at hread
  obtain ⟨c₀, hc₀, hrequest, hbuff⟩ := new_of_request hnew hb
  refine ⟨(c₀.init 5 ⟨10, 0, 0, 7⟩ (-1) (some [])).readFromFd [data],
    ⟨zeroed, c₀, hc₀, [.init 5 ⟨10, 0, 0, 7⟩ (-1) (some []), .readFromFd [data]], [(), ()], rfl⟩,
    hrequest, rfl, ?_⟩
  rw [← hbuff] at hread
  exact hread

end HttpConn

end WhiteWebServer
