import WhiteWebServer.Dialogue

/-!
# What each client is sent

Over every run of the static server. §1 a client sees what it would see if the others
were not there; §2 its answers come one behind the other, and are those that a response
object makes that was never used; §3 a client that reads one header block and as many
bytes as it announces, again and again, finds exactly the answers.
-/

namespace WhiteWebServer

open HttpConn HttpRequest HttpResponse Outcome

variable {J : Type} {cfg : ServerConfig J}

/-! ## §1  Without the others -/

namespace Dialogue

/-- What an event hands to the socket. -/
def handed (x : Dialogue J) : DialogueEvent → List Bytes
  | .write w => (x.conn.bind (handedOver w.counts)).toList
  | _ => []

end Dialogue

namespace HttpServer

variable {s : HttpServer J} {fd : Int} {steps : List ServerStep}

/-- What a step hands to the socket `fd`. -/
def handed (fd : Int) (s : HttpServer J) : ServerStep → List Bytes
  | .run index w =>
      match s.tasks[index]? with
      | some task =>
          if task.user = fd ∧ task.kind = .onWrite then
            ((s.users fd).bind (handedOver w.counts)).toList
          else []
      | none => []
  | _ => []

/-- What a run hands to the socket `fd`, one entry for each `WriteToFd`. -/
def handedTo (cfg : ServerConfig J) (fd : Int) (steps : List ServerStep) : List Bytes :=
  (server cfg).emitted (handed fd) new steps

theorem handed_projects {x : Dialogue J} (h : Sees fd s x) (step : ServerStep) :
    handed fd s step = (Dialogue.machine cfg fd).emitted Dialogue.handed x
      (dialogueEvents fd s step) := by
  cases step with
  | listen accepts =>
      refine (Machine.emitted_eq_nil fun event hevent t => ?_).symm
      obtain ⟨a, -, rfl⟩ := List.mem_map.mp hevent
      rfl
  | handle connects =>
      refine (Machine.emitted_eq_nil fun event hevent t => ?_).symm
      rw [dialogueEvents] at hevent
      split at hevent
      · split at hevent
        · rw [List.mem_singleton.mp hevent]
          rfl
        · cases hevent
      · cases hevent
  | run index w =>
      rw [handed, dialogueEvents]
      cases s.tasks[index]? with
      | none => rfl
      | some task =>
          dsimp only
          by_cases huser : task.user = fd
          · rw [if_pos huser, Machine.emitted_singleton]
            cases hkind : task.kind with
            | onRead =>
                rw [if_neg fun hand => TaskKind.noConfusion hand.2]
                rfl
            | onWrite =>
                rw [if_pos ⟨huser, rfl⟩, ← h.stands.conn]
                rfl
          · rw [if_neg huser, if_neg fun hand => huser hand.1]
            rfl
  | deliver d events => rfl
  | elapse ms => rfl
  | expire d => rfl

theorem handedTo_projects (hstatic : cfg.isSetProxy = false) (htimeout : cfg.timeout = 0)
    {steps : List ServerStep} {os : List Unit}
    (hkernel : (server cfg).Meets KernelKeepsWord new steps)
    (hrun : (server cfg).run steps = some (s, os)) :
    handedTo cfg fd steps =
      (Dialogue.machine cfg fd).emitted Dialogue.handed .new (eventsAt cfg fd steps) :=
  Machine.emitted_projects (R := Sees fd)
    (fun _ _ _ _ _ h hP hstep => h.serverStep hstatic htimeout hP (server_step.mp hstep))
    (fun _ _ step h => handed_projects h step) (Sees.new fd) hkernel hrun

/-- Fewer than 2^32 bytes are pending when `WriteToFd` is called. -/
def WritesNarrow (s : HttpServer J) : ServerStep → Prop
  | .run index _ => ∀ task client, s.tasks[index]? = some task → task.kind = .onWrite →
      s.users task.user = some client → Narrow client
  | _ => True

def Ordinary (s : HttpServer J) (step : ServerStep) : Prop :=
  KernelKeepsWord s step ∧ WritesNarrow s step

/-! ### A client that is answered twice -/

/-- The socket accepts what it is told to. -/
def WritesGo (s : HttpServer J) : ServerStep → Prop
  | .run index w => ∀ task ∈ s.tasks[index]?, task.kind = .onWrite →
      ∀ client ∈ s.users task.user, (handedOver w.counts client).isSome ∧ Narrow client
  | _ => True

instance (s : HttpServer J) : (step : ServerStep) → Decidable (WritesGo s step)
  | .run index w => inferInstanceAs (Decidable (∀ task ∈ s.tasks[index]?, task.kind = .onWrite →
      ∀ client ∈ s.users task.user, (handedOver w.counts client).isSome ∧ Narrow client))
  | .listen _ => isTrue trivial
  | .handle _ => isTrue trivial
  | .deliver _ _ => isTrue trivial
  | .elapse _ => isTrue trivial
  | .expire _ => isTrue trivial

def WithoutFiles : ServerStep → Prop
  | .run _ w => w.fs = noFiles
  | _ => True

theorem ordinary_of_noFiles (hfiles : ∀ step ∈ steps, WithoutFiles step)
    (h : (server cfg).Meets WritesGo s steps) : (server cfg).Meets Ordinary s steps := by
  refine h.mono_of_mem fun step hstep s hgo => ?_
  have hfs := hfiles step hstep
  cases step with
  | run index w =>
      rw [WithoutFiles] at hfs
      refine ⟨⟨?_, ?_, ?_⟩, ?_⟩
      · rw [hfs]
        exact fun path st hst => nomatch hst
      · rw [hfs]
        exact fun path size file hfile => nomatch hfile
      · exact fun task client htask hkind hclient => (hgo task htask hkind client hclient).1
      · exact fun task client htask hkind hclient => (hgo task htask hkind client hclient).2
  | listen accepts => exact ⟨trivial, trivial⟩
  | deliver d events => exact ⟨trivial, trivial⟩
  | handle connects => exact ⟨trivial, trivial⟩
  | elapse ms => exact ⟨trivial, trivial⟩
  | expire d => exact ⟨trivial, trivial⟩

/-- A request in two parts, and its answer in two parts. -/
def servedOnce : List ServerStep :=
  [.listen [⟨5, ⟨10, 0, 0, 7⟩, .noSocket⟩], .deliver 5 EPOLLIN, .handle [],
    .run 0 (busyAfter (ascii "GET / HTT") 0), .deliver 5 EPOLLIN, .handle [],
    .run 0 (busyAfter (ascii "P/1.1\r\n\r\n") 0),
    .deliver 5 { EPOLLIN with epollin := false, epollout := true }, .handle [],
    .run 0 (busyAfter [] 10),
    .deliver 5 { EPOLLIN with epollin := false, epollout := true }, .handle [],
    .run 0 (busyAfter [] 330)]

/-- And another one, with ten bytes of its answer. -/
def servedTwice : List ServerStep :=
  servedOnce ++ [.deliver 5 EPOLLIN, .handle [],
    .run 0 (busyAfter (ascii "GET /x HTTP/1.1\r\n\r\n") 0),
    .deliver 5 { EPOLLIN with epollin := false, epollout := true }, .handle [],
    .run 0 (busyAfter [] 10)]

/-- Another client connects and begins a request. -/
def another : List ServerStep :=
  [.listen [⟨6, ⟨10, 0, 0, 8⟩, .noSocket⟩], .deliver 6 EPOLLIN, .handle [],
    .run 0 (busyAfter (ascii "GET / HTT") 0)]

theorem another_withoutFiles : ∀ step ∈ servedTwice ++ another, WithoutFiles step := by
  simp [servedTwice, servedOnce, another, WithoutFiles, busyAfter]

theorem servedTwice_withoutFiles : ∀ step ∈ servedTwice, WithoutFiles step :=
  fun step hstep => another_withoutFiles step (List.mem_append_left _ hstep)

/-- **No client has a part in what another one receives.** Two runs in which the same
happens to a descriptor, whatever the other clients do and in whatever order the workers
serve them, leave it with the same connection and have handed it the same bytes. -/
theorem clients_apart (hstatic : cfg.isSetProxy = false) (htimeout : cfg.timeout = 0)
    {steps₁ steps₂ : List ServerStep} {s₁ s₂ : HttpServer J} {os₁ os₂ : List Unit} {fd : Int}
    (hkernel₁ : (server cfg).Meets KernelKeepsWord new steps₁)
    (hkernel₂ : (server cfg).Meets KernelKeepsWord new steps₂)
    (hrun₁ : (server cfg).run steps₁ = some (s₁, os₁))
    (hrun₂ : (server cfg).run steps₂ = some (s₂, os₂))
    (hsame : eventsAt cfg fd steps₁ = eventsAt cfg fd steps₂) :
    s₁.users fd = s₂.users fd ∧ s₁.isConnected fd = s₂.isConnected fd ∧
      handedTo cfg fd steps₁ = handedTo cfg fd steps₂ := by
  obtain ⟨x₁, xs₁, hx₁, hsees₁⟩ := server_projects hstatic htimeout hkernel₁ hrun₁ fd
  obtain ⟨x₂, xs₂, hx₂, hsees₂⟩ := server_projects hstatic htimeout hkernel₂ hrun₂ fd
  rw [hsame, hx₂] at hx₁
  obtain ⟨rfl, -⟩ := Prod.mk.inj (Option.some.inj hx₁)
  have husers : s₁.users fd = s₂.users fd := hsees₁.stands.conn.symm.trans hsees₂.stands.conn
  refine ⟨husers, isConnected_of_users_eq husers, ?_⟩
  rw [handedTo_projects hstatic htimeout hkernel₁ hrun₁,
    handedTo_projects hstatic htimeout hkernel₂ hrun₂, hsame]

theorem clients_apart_another :
    ∃ s₁ os₁ s₂ os₂, (server (emptySite false)).run servedTwice = some (s₁, os₁) ∧
      (server (emptySite false)).run (servedTwice ++ another) = some (s₂, os₂) ∧
      s₁.isConnected 6 = false ∧ s₂.isConnected 6 = true ∧ s₁.users 5 = s₂.users 5 ∧
      handedTo (emptySite false) 5 servedTwice =
        handedTo (emptySite false) 5 (servedTwice ++ another) := by
  have halone : (((server (emptySite false)).run servedTwice).bind fun r =>
      ((server (emptySite false)).exec r.1 another).map fun r' =>
        (r.1.isConnected 6, r'.1.isConnected 6,
          ((server (emptySite false)).emitted (dialogueEvents 5) r.1 another).isEmpty)) =
      some (false, true, true) := by
    decide +kernel
  obtain ⟨⟨s₁, os₁⟩, hrun₁, halone⟩ := Option.bind_eq_some_iff.mp halone
  obtain ⟨⟨s₂, os₂⟩, hrun₂, halone⟩ := Option.map_eq_some_iff.mp halone
  simp only [Prod.mk.injEq, List.isEmpty_iff] at halone
  obtain ⟨h₁, h₂, hnone⟩ := halone
  have hrun : (server (emptySite false)).run (servedTwice ++ another) = some (s₂, os₁ ++ os₂) :=
    Machine.exec_append.mpr ⟨s₁, os₁, os₂, hrun₁, hrun₂, rfl⟩
  have hordinary₁ : (server (emptySite false)).Meets Ordinary new servedTwice :=
    ordinary_of_noFiles servedTwice_withoutFiles (by decide +kernel)
  have hordinary₂ : (server (emptySite false)).Meets Ordinary new (servedTwice ++ another) :=
    ordinary_of_noFiles another_withoutFiles (by decide +kernel)
  have hsame : eventsAt (emptySite false) 5 servedTwice =
      eventsAt (emptySite false) 5 (servedTwice ++ another) := by
    have happend : eventsAt (emptySite false) 5 (servedTwice ++ another) =
        eventsAt (emptySite false) 5 servedTwice ++
          (server (emptySite false)).emitted (dialogueEvents 5) s₁ another :=
      Machine.emitted_append hrun₁
    rw [happend, hnone, List.append_nil]
  obtain ⟨husers, -, hhanded⟩ := clients_apart rfl rfl (hordinary₁.mono fun _ _ h => h.1)
    (hordinary₂.mono fun _ _ h => h.1) hrun₁ hrun hsame
  exact ⟨s₁, os₁, s₂, os₁ ++ os₂, hrun₁, hrun, h₁, h₂, husers, hhanded⟩

end HttpServer

/-! ## §2  One answer behind the other -/

/-- The answer to some request as a response object makes it that was never used. -/
def Answer.Fresh (cfg : ServerConfig J) (a : Answer) : Prop :=
  SmallFiles a.fs ∧ MapsWhole a.fs ∧ ∃ path version isKeepAlive code, LF ∉ path ∧ LF ∉ version ∧
    (code = 200 ∨ code = 400) ∧
    answerText a.fs cfg.webRoot path version cfg.indexFile isKeepAlive code = .ok a.bytes

namespace Dialogue

variable {x x' : Dialogue J} {fd : Int} {client : HttpConn J}

def texts (x : Dialogue J) : List Bytes := x.answers.map Answer.bytes

/-- The kernel does what it says, and fewer than 2^32 bytes are pending at a `writev`. -/
def Ordinary (x : Dialogue J) : DialogueEvent → Prop
  | .read w => SmallFiles w.fs ∧ MapsWhole w.fs
  | .write _ => ∀ client, x.conn = some client → Narrow client
  | _ => True

/-- All answers but the last are out; while the dialogue reads, the last one is too, and while
it writes, what is not out is scheduled. -/
structure InOrder (cfg : ServerConfig J) (x : Dialogue J) : Prop where
  reached : ∀ client, x.conn = some client → Reached cfg.js cfg.webRoot client
  isOpen : x.phase ≠ .closed → ∀ client, x.conn = some client → client.isClose = false
  cleared : x.phase = .closed → ∀ client, x.conn = some client →
    ∃ q : HttpRequest J, q.init cfg.js = .ok client.request
  index : x.phase ≠ .closed → ∀ client, x.conn = some client → client.indexFile = cfg.indexFile
  fresh : ∀ a ∈ x.answers, a.Fresh cfg
  begun : x.texts.dropLast.flatten <+: x.sent
  bounded : x.sent <+: x.texts.flatten
  reading : x.phase = .reading → x.sent = x.texts.flatten ∧
    ∀ client, x.conn = some client → ∃ g n, client.writeBuff.Holds g [] n
  writing : x.phase = .writing → ∀ client, x.conn = some client →
    ∃ u, x.texts.flatten = x.sent ++ u ∧ Unsent client u

theorem reached_call {c c' : HttpConn J} {l : ConnCall} (h : Reached cfg.js cfg.webRoot c)
    (hcall : connStep cfg.js cfg.webRoot c l = .ok c') : Reached cfg.js cfg.webRoot c' := by
  obtain ⟨junk, c₀, hnew, ls, os, hrun⟩ := h
  refine ⟨junk, c₀, hnew, ls ++ [l], os ++ [()], Machine.exec_snoc.mpr ⟨c, os, (), hrun, ?_, rfl⟩⟩
  simp only [calls, hcall]

theorem reached_process {c c' : HttpConn J} {fs : FileSystem} {result : ProcessState}
    (h : Reached cfg.js cfg.webRoot c)
    (hprocess : c.process cfg.js fs cfg.webRoot = .ok (result, c')) :
    Reached cfg.js cfg.webRoot c' := by
  apply reached_call (l := .process fs) h
  rw [connStep, hprocess]
  rfl

theorem writeLoop_indexFile (last : WriteEnd) :
    ∀ (counts : List Nat) (total : Int) (c : HttpConn J),
      (writeLoop last counts total c).2.indexFile = c.indexFile := by
  intro counts
  induction counts with
  | nil => exact fun _ _ => rfl
  | cons len counts ih =>
      intro total c
      rw [writeLoop]
      split
      · rfl
      · rw [ih]
        unfold advance
        dsimp only
        split
        · split <;> rfl
        · rfl

theorem close_request {c c' : HttpConn J} (h : c.close cfg.js = .ok c')
    (hopen : c.isClose = false) : c.request.init cfg.js = .ok c'.request := by
  simp only [HttpConn.close, hopen, Bool.false_eq_true, if_false] at h
  split at h
  · cases h
  · rename_i q hinit
    obtain rfl := Except.ok.inj h
    exact hinit

theorem InOrder.closes (h : InOrder cfg x) (hclient : Reached cfg.js cfg.webRoot client)
    (hopen : client.isClose = false) (hclose : x.close cfg client = some x') : InOrder cfg x' := by
  unfold close at hclose
  cases hclosed : client.close cfg.js with
  | error e => simp [hclosed] at hclose
  | ok closed =>
      rw [hclosed] at hclose
      obtain rfl := Option.some.inj hclose
      constructor
      case reached =>
        intro c hc
        obtain rfl := Option.some.inj hc
        exact reached_call (l := .close) hclient hclosed
      case isOpen => exact fun hne => absurd rfl hne
      case cleared =>
        intro _ c hc
        obtain rfl := Option.some.inj hc
        exact ⟨_, close_request hclosed hopen⟩
      case index => exact fun hne => absurd rfl hne
      case fresh => exact h.fresh
      case begun => exact h.begun
      case bounded => exact h.bounded
      case reading => exact fun hphase => nomatch hphase
      case writing => exact fun hphase => nomatch hphase

theorem InOrder.accepts {addr : SockAddr} (h : InOrder cfg x)
    (haccept : x.accept cfg fd addr = some x') : InOrder cfg x' := by
  unfold accept at haccept
  cases hobject : x.object cfg fd with
  | error e => simp [hobject] at haccept
  | ok client =>
      rw [hobject] at haccept
      obtain rfl := Option.some.inj haccept
      have hclient : Reached cfg.js cfg.webRoot client := by
        unfold object at hobject
        cases hconn : x.conn with
        | some c =>
            rw [hconn] at hobject
            obtain rfl := Except.ok.inj hobject
            exact h.reached c hconn
        | none =>
            rw [hconn] at hobject
            exact ⟨_, client, hobject, [], [], rfl⟩
      obtain ⟨g, u, n, hb⟩ := hclient.buffersStored.writeBuff
      constructor
      case reached =>
        intro c hc
        obtain rfl := Option.some.inj hc
        exact reached_call (l := .init fd addr (-1) cfg.indexFile) hclient rfl
      case isOpen =>
        intro _ c hc
        obtain rfl := Option.some.inj hc
        rfl
      case cleared => exact fun hphase => nomatch hphase
      case index =>
        intro _ c hc
        obtain rfl := Option.some.inj hc
        rfl
      case fresh => exact fun a ha => nomatch ha
      case begun => exact List.prefix_rfl
      case bounded => exact List.prefix_rfl
      case reading =>
        refine fun _ => ⟨rfl, fun c hc => ?_⟩
        obtain rfl := Option.some.inj hc
        exact ⟨_, _, hb.clear⟩
      case writing => exact fun hphase => nomatch hphase

theorem process_unfinished {js : JsonCpp J} {fs : FileSystem} {webRoot : Bytes}
    {c c' : HttpConn J} {result : ProcessState}
    (h : c.process js fs webRoot = .ok (result, c')) (hresult : result ≠ .finish) :
    ∃ q b, c' = { c with request := q, readBuff := b } := by
  obtain ⟨q₀, -, h⟩ := bind_eq_ok.mp h
  dsimp only at h
  split at h
  · obtain rfl := congrArg Prod.snd (Except.ok.inj h)
    exact ⟨q₀, c.readBuff, rfl⟩
  · obtain ⟨⟨code, q, b⟩, -, h⟩ := bind_eq_ok.mp h
    dsimp only at h
    split at h
    · obtain rfl := congrArg Prod.snd (Except.ok.inj h)
      exact ⟨q, b, rfl⟩
    · obtain ⟨c₁, -, h⟩ := bind_eq_ok.mp h
      exact absurd (congrArg Prod.fst (Except.ok.inj h)).symm hresult

/-- A request is parsed in full and its answer scheduled. -/
theorem InOrder.answers (h : InOrder cfg x) (hreading : x.phase = .reading)
    {fs : FileSystem} {bytes : Bytes} {c c' : HttpConn J} (hsmall : SmallFiles fs)
    (hwhole : MapsWhole fs) (hc : Reached cfg.js cfg.webRoot c)
    (hopen : c.isClose = false) (hindex : c.indexFile = cfg.indexFile)
    (hempty : ∃ g n, c.writeBuff.Holds g [] n)
    (hprocess : c.process cfg.js fs cfg.webRoot = .ok (.finish, c'))
    (hoffered : c'.offered = some bytes) :
    InOrder cfg
      { x with conn := some c', phase := .writing, answers := x.answers ++ [⟨fs, bytes⟩] } := by
  obtain ⟨g, n, hb⟩ := hempty
  obtain ⟨q₀, code, q, b, text, hnext, hparse, -, -, -, htext, hunsent⟩ :=
    process_answers hb hsmall hwhole hprocess
  rw [List.nil_append] at hunsent
  obtain rfl : text = bytes := Option.some.inj (hunsent.offered.symm.trans hoffered)
  have hhead : q.PlainHead :=
    parse_head hc.buffersStored.readBuff ((plainHead_kept cfg.js).next hc.plainHead hnext) hparse
  obtain ⟨hsent, -⟩ := h.reading hreading
  have htexts : (x.answers ++ [Answer.mk fs text]).map Answer.bytes = x.texts ++ [text] := by
    rw [List.map_append]
    rfl
  constructor
  case reached =>
    intro client hclient
    obtain rfl := Option.some.inj hclient
    exact reached_process hc hprocess
  case isOpen =>
    intro _ client hclient
    obtain rfl := Option.some.inj hclient
    exact (process_same hprocess).isClose.trans hopen
  case cleared => exact fun hphase => nomatch hphase
  case index =>
    intro _ client hclient
    obtain rfl := Option.some.inj hclient
    obtain ⟨_, _, _, _, _, _, _, -, -, -, -, -, rfl⟩ := process_finished hprocess
    exact hindex
  case fresh =>
    intro a ha
    rcases List.mem_append.mp ha with ha | ha
    · exact h.fresh a ha
    · obtain rfl := List.mem_singleton.mp ha
      rw [hindex] at htext
      refine ⟨hsmall, hwhole, q.path, q.version, _, _, hhead.path, ?_, ?_, htext⟩
      · rcases hhead.version with hversion | hversion <;> rw [hversion] <;> decide
      · by_cases hcode : code = .getRequest
        · exact Or.inl (if_pos hcode)
        · exact Or.inr (if_neg hcode)
  case begun =>
    rw [texts, htexts, List.dropLast_concat, ← hsent]
  case bounded =>
    rw [texts, htexts, List.flatten_append, ← hsent]
    exact List.prefix_append ..
  case reading => exact fun hphase => nomatch hphase
  case writing =>
    intro _ client hclient
    obtain rfl := Option.some.inj hclient
    refine ⟨text, ?_, hunsent⟩
    rw [texts, htexts, List.flatten_append, ← hsent, List.flatten_singleton]

/-- The bytes that were read are not a request yet. -/
theorem InOrder.waits (h : InOrder cfg x) (hreading : x.phase = .reading) {c : HttpConn J}
    (hc : Reached cfg.js cfg.webRoot c) (hopen : c.isClose = false)
    (hindex : c.indexFile = cfg.indexFile) (hempty : ∃ g n, c.writeBuff.Holds g [] n) :
    InOrder cfg { x with conn := some c } := by
  obtain ⟨hsent, -⟩ := h.reading hreading
  constructor
  case reached =>
    intro client hclient
    obtain rfl := Option.some.inj hclient
    exact hc
  case isOpen =>
    intro _ client hclient
    obtain rfl := Option.some.inj hclient
    exact hopen
  case cleared =>
    intro hphase
    rw [show x.phase = .closed from hphase] at hreading
    cases hreading
  case index =>
    intro _ client hclient
    obtain rfl := Option.some.inj hclient
    exact hindex
  case fresh => exact h.fresh
  case begun => exact h.begun
  case bounded => exact h.bounded
  case reading =>
    refine fun _ => ⟨hsent, fun client hclient => ?_⟩
    obtain rfl := Option.some.inj hclient
    exact hempty
  case writing =>
    intro hphase
    rw [show x.phase = .writing from hphase] at hreading
    cases hreading

theorem InOrder.receives (h : InOrder cfg x) (received : Bytes) :
    InOrder cfg { x with received := received } :=
  ⟨h.reached, h.isOpen, h.cleared, h.index, h.fresh, h.begun, h.bounded, h.reading, h.writing⟩

theorem InOrder.reads {w : TaskWorld} (h : InOrder cfg x) (hreading : x.phase = .reading)
    (hconn : x.conn = some client) (hsmall : SmallFiles w.fs) (hwhole : MapsWhole w.fs)
    (hread : x.read cfg w client = some x') : InOrder cfg x' := by
  have hreached : Reached cfg.js cfg.webRoot (client.readFromFd w.reads) :=
    reached_call (l := .readFromFd w.reads) (h.reached client hconn) rfl
  have hne : x.phase ≠ .closed := by
    rw [hreading]
    exact Phase.noConfusion
  have hopen : client.isClose = false := h.isOpen hne client hconn
  have hindex : client.indexFile = cfg.indexFile := h.index hne client hconn
  have hempty := (h.reading hreading).2 client hconn
  have h₁ := h.receives (x.received ++ w.reads.flatten)
  unfold read at hread
  dsimp only at hread
  split at hread
  · exact h₁.closes hreached hopen hread
  · cases hprocess : (client.readFromFd w.reads).process cfg.js w.fs cfg.webRoot with
    | error e => simp [hprocess] at hread
    | ok p =>
        obtain ⟨result, client'⟩ := p
        rw [hprocess] at hread
        have hreached' : Reached cfg.js cfg.webRoot client' := reached_process hreached hprocess
        have hwaits : result ≠ .finish →
            InOrder cfg
              { x with received := x.received ++ w.reads.flatten, conn := some client' } := by
          intro hresult
          obtain ⟨q, b, rfl⟩ := process_unfinished hprocess hresult
          exact h₁.waits hreading hreached' hopen hindex hempty
        cases result with
        | finish =>
            obtain ⟨bytes, hoffered, rfl⟩ := Option.map_eq_some_iff.mp hread
            exact h₁.answers hreading hsmall hwhole hreached hopen hindex hempty hprocess hoffered
        | pending =>
            obtain rfl := Option.some.inj hread
            exact hwaits fun hfinish => nomatch hfinish
        | fail =>
            obtain rfl := Option.some.inj hread
            exact hwaits fun hfinish => nomatch hfinish

/-- The connection after some bytes of the answer have gone out. -/
theorem InOrder.sends (h : InOrder cfg x) (hwriting : x.phase = .writing)
    {bytes : Bytes} {c : HttpConn J} {u : Bytes} (hc : Reached cfg.js cfg.webRoot c)
    (hopen : c.isClose = false) (hindex : c.indexFile = cfg.indexFile)
    (hsplit : x.texts.flatten = x.sent ++ bytes ++ u)
    (hunsent : Unsent c u) :
    InOrder cfg { x with conn := some c, sent := x.sent ++ bytes } := by
  constructor
  case reached =>
    intro client hclient
    obtain rfl := Option.some.inj hclient
    exact hc
  case isOpen =>
    intro _ client hclient
    obtain rfl := Option.some.inj hclient
    exact hopen
  case cleared =>
    intro hphase
    rw [show x.phase = .closed from hphase] at hwriting
    cases hwriting
  case index =>
    intro _ client hclient
    obtain rfl := Option.some.inj hclient
    exact hindex
  case fresh => exact h.fresh
  case begun => exact h.begun.trans (List.prefix_append ..)
  case bounded => exact ⟨u, hsplit.symm⟩
  case reading =>
    intro hphase
    rw [show x.phase = .reading from hphase] at hwriting
    cases hwriting
  case writing =>
    intro _ client hclient
    obtain rfl := Option.some.inj hclient
    exact ⟨u, hsplit, hunsent⟩

/-- The answer is out. -/
theorem InOrder.turns (h : InOrder cfg x) (hconn : x.conn = some client)
    (hdone : x.texts.flatten = x.sent) (hunsent : Unsent client []) (hopen : x.phase ≠ .closed) :
    InOrder cfg { x with phase := .reading } := by
  constructor
  case reached => exact h.reached
  case isOpen => exact fun _ => h.isOpen hopen
  case cleared => exact fun hphase => nomatch hphase
  case index => exact fun _ => h.index hopen
  case fresh => exact h.fresh
  case begun => exact h.begun
  case bounded => exact h.bounded
  case reading =>
    refine fun _ => ⟨hdone.symm, fun c hc => ?_⟩
    obtain rfl := Option.some.inj (hconn.symm.trans hc)
    exact hunsent.drained
  case writing => exact fun hphase => nomatch hphase

theorem InOrder.writes {w : TaskWorld} (h : InOrder cfg x) (hwriting : x.phase = .writing)
    (hconn : x.conn = some client) (hnarrow : Narrow client)
    (hwrite : x.write cfg w client = some x') : InOrder cfg x' := by
  have hopen : x.phase ≠ .closed := by
    rw [hwriting]
    exact Phase.noConfusion
  obtain ⟨u, hsplit, hunsent⟩ := h.writing hwriting client hconn
  unfold write at hwrite
  cases hbytes : handedOver w.counts client with
  | none => simp [hbytes] at hwrite
  | some bytes =>
      obtain ⟨u', rfl, hunsent', hnarrow', -⟩ :=
        @Unsent.call _ w.counts client u w.last bytes 0 hunsent hnarrow hbytes
      have hreached' : Reached cfg.js cfg.webRoot (client.writeToFd w.last w.counts).2 :=
        reached_call (l := .writeToFd w.last w.counts) (h.reached client hconn) rfl
      have hindex' : (client.writeToFd w.last w.counts).2.indexFile = cfg.indexFile := by
        rw [← h.index hopen client hconn]
        exact writeLoop_indexFile w.last w.counts 0 client
      have hopen' : (client.writeToFd w.last w.counts).2.isClose = false :=
        (writeLoop_same w.last w.counts 0 client).1.isClose.trans (h.isOpen hopen client hconn)
      rw [← List.append_assoc] at hsplit
      have h₁ := h.sends hwriting hreached' hopen' hindex' hsplit hunsent'
      rw [hbytes] at hwrite
      dsimp only at hwrite
      split at hwrite
      · rename_i hdone
        obtain rfl := Option.some.inj hwrite
        obtain rfl : u' = [] := hunsent'.nil_of_pending hnarrow' hdone.1
        rw [List.append_nil] at hsplit
        exact h₁.turns rfl hsplit hunsent' hopen
      · split at hwrite
        · obtain rfl := Option.some.inj hwrite
          exact h₁
        · exact h₁.closes hreached' hopen' hwrite

/-! ### Runs -/

theorem inOrder_new : InOrder cfg (new : Dialogue J) := by
  constructor
  case reached => exact fun c hc => nomatch hc
  case isOpen => exact fun hopen => absurd rfl hopen
  case cleared => exact fun _ c hc => nomatch hc
  case index => exact fun hopen => absurd rfl hopen
  case fresh => exact fun a ha => nomatch ha
  case begun => exact List.prefix_rfl
  case bounded => exact List.prefix_rfl
  case reading => exact fun hphase => nomatch hphase
  case writing => exact fun hphase => nomatch hphase

theorem InOrder.step {event : DialogueEvent} (h : InOrder cfg x) (hordinary : x.Ordinary event)
    (hstep : x.step cfg fd event = some x') : InOrder cfg x' := by
  cases event with
  | accept addr =>
      obtain ⟨-, haccept⟩ := Option.ite_none_right_eq_some.mp hstep
      exact h.accepts haccept
  | read w =>
      obtain ⟨hreading, hread⟩ := Option.ite_none_right_eq_some.mp hstep
      obtain ⟨client, hconn, hread⟩ := Option.bind_eq_some_iff.mp hread
      exact h.reads hreading hconn hordinary.1 hordinary.2 hread
  | write w =>
      obtain ⟨hwriting, hwrite⟩ := Option.ite_none_right_eq_some.mp hstep
      obtain ⟨client, hconn, hwrite⟩ := Option.bind_eq_some_iff.mp hwrite
      exact h.writes hwriting hconn (hordinary client hconn) hwrite
  | hangUp =>
      obtain ⟨hopen, hclose⟩ := Option.ite_none_left_eq_some.mp hstep
      obtain ⟨client, hconn, hclose⟩ := Option.bind_eq_some_iff.mp hclose
      exact h.closes (h.reached client hconn) (h.isOpen hopen client hconn) hclose

theorem inOrder_exec {events : List DialogueEvent} {os : List Unit} (h : InOrder cfg x)
    (hordinary : (machine cfg fd).Meets Ordinary x events)
    (hrun : (machine cfg fd).exec x events = some (x', os)) : InOrder cfg x' :=
  Machine.exec_invariant_of_meets
    (fun _ _ _ _ hx hP hstep => hx.step hP (Machine.map_unit_eq_some.mp hstep)) h hordinary hrun

end Dialogue

namespace HttpServer

variable {s : HttpServer J} {fd : Int} {x : Dialogue J} {steps : List ServerStep} {os : List Unit}

theorem ordinary_projects (h : Sees fd s x) {step : ServerStep} (hordinary : Ordinary s step) :
    (Dialogue.machine cfg fd).Meets Dialogue.Ordinary x (dialogueEvents fd s step) := by
  obtain ⟨hkernel, hnarrow⟩ := hordinary
  cases step with
  | listen accepts =>
      refine Machine.meets_of_forall fun event hevent t => ?_
      obtain ⟨a, -, rfl⟩ := List.mem_map.mp hevent
      trivial
  | handle connects =>
      refine Machine.meets_of_forall fun event hevent t => ?_
      rw [dialogueEvents] at hevent
      split at hevent
      · split at hevent
        · rw [List.mem_singleton.mp hevent]
          trivial
        · cases hevent
      · cases hevent
  | run index w =>
      rw [dialogueEvents]
      cases htask : s.tasks[index]? with
      | none => trivial
      | some task =>
          dsimp only
          by_cases huser : task.user = fd
          · rw [if_pos huser]
            refine ⟨?_, fun _ _ _ => trivial⟩
            cases hkind : task.kind with
            | onRead => exact ⟨hkernel.1, hkernel.2.1⟩
            | onWrite =>
                intro client hclient
                apply hnarrow task client htask hkind
                rw [huser, ← h.stands.conn]
                exact hclient
          · rw [if_neg huser]
            trivial
  | deliver d events => trivial
  | elapse ms => trivial
  | expire d => trivial

theorem ordinary_events (hstatic : cfg.isSetProxy = false) (htimeout : cfg.timeout = 0)
    (hordinary : (server cfg).Meets Ordinary new steps)
    (hrun : (server cfg).run steps = some (s, os)) (fd : Int) :
    (Dialogue.machine cfg fd).Meets Dialogue.Ordinary .new (eventsAt cfg fd steps) :=
  Machine.meets_projects (R := Sees fd)
    (fun _ _ _ _ _ h hP hstep => h.serverStep hstatic htimeout hP.1 (server_step.mp hstep))
    (fun _ _ _ h hP => ordinary_projects h hP) (Sees.new fd) hordinary hrun

/-- Each connection is one of its runs by itself, its answers in order. -/
theorem server_inOrder (hstatic : cfg.isSetProxy = false) (htimeout : cfg.timeout = 0)
    (hordinary : (server cfg).Meets Ordinary new steps)
    (hrun : (server cfg).run steps = some (s, os)) (fd : Int) :
    ∃ x os', (Dialogue.machine cfg fd).run (eventsAt cfg fd steps) = some (x, os') ∧ Sees fd s x ∧
      x.InOrder cfg := by
  obtain ⟨x, os', hx, hsees⟩ :=
    server_projects hstatic htimeout (hordinary.mono fun _ _ h => h.1) hrun fd
  exact ⟨x, os', hx, hsees,
    Dialogue.inOrder_exec Dialogue.inOrder_new
      (ordinary_events hstatic htimeout hordinary hrun fd) hx⟩

/-- **Every client gets its own answers, whole and in order.** What the socket of a connection
has been handed since `accept` is the answers to its requests one behind the other, the last
one perhaps cut; while the server waits for the next request, it is all of them. Each is
the answer that a response object makes which no other request was answered with. -/
theorem answers_in_order (hstatic : cfg.isSetProxy = false) (htimeout : cfg.timeout = 0)
    (hordinary : (server cfg).Meets Ordinary new steps)
    (hrun : (server cfg).run steps = some (s, os)) (fd : Int) :
    ∃ x os', (Dialogue.machine cfg fd).run (eventsAt cfg fd steps) = some (x, os') ∧
      x.conn = s.users fd ∧ (x.phase ≠ .closed ↔ s.isConnected fd = true) ∧
      (∀ a ∈ x.answers, a.Fresh cfg) ∧
      x.texts.dropLast.flatten <+: x.sent ∧ x.sent <+: x.texts.flatten ∧
      (x.phase = .reading → x.sent = x.texts.flatten) := by
  obtain ⟨x, os', hx, hsees, hinv⟩ := server_inOrder hstatic htimeout hordinary hrun fd
  exact ⟨x, os', hx, hsees.stands.conn, hsees.stands.isOpen, hinv.fresh, hinv.begun, hinv.bounded,
    fun hphase => (hinv.reading hphase).1⟩

theorem answers_in_order_twice :
    ∃ s os x os', (server (emptySite false)).run servedTwice = some (s, os) ∧
      (Dialogue.machine (emptySite false) 5).run (eventsAt (emptySite false) 5 servedTwice) =
        some (x, os') ∧
      x.answers.length = 2 ∧ x.sent.length = 350 ∧ x.texts.dropLast.flatten <+: x.sent ∧
      x.sent <+: x.texts.flatten := by
  have hstate : (((server (emptySite false)).run servedTwice).bind fun r =>
      ((Dialogue.machine (emptySite false) 5).run (eventsAt (emptySite false) 5 servedTwice)).map
        fun r' => (r.1.isConnected 5, r'.1.answers.length, r'.1.sent.length)) =
      some (true, 2, 350) := by
    decide +kernel
  obtain ⟨⟨s, os⟩, hrun, hstate⟩ := Option.bind_eq_some_iff.mp hstate
  obtain ⟨⟨x, os'⟩, hx, hstate⟩ := Option.map_eq_some_iff.mp hstate
  simp only [Prod.mk.injEq] at hstate
  obtain ⟨-, hanswers, hsent⟩ := hstate
  have hordinary : (server (emptySite false)).Meets Ordinary new servedTwice :=
    ordinary_of_noFiles servedTwice_withoutFiles (by decide +kernel)
  obtain ⟨x', os'', hx', -, -, -, hbegun, hbounded, -⟩ :=
    answers_in_order (show (emptySite false).isSetProxy = false from rfl) rfl hordinary hrun 5
  obtain ⟨rfl, -⟩ := Prod.mk.inj (Option.some.inj (hx.symm.trans hx'))
  exact ⟨s, os, x, os', hrun, hx, hanswers, hsent, hbegun, hbounded⟩

end HttpServer

/-! ## §3  A client that reads -/

namespace Client

/-- The first response, and what comes behind it. -/
def readResponse (text : Bytes) : Option (Bytes × Bytes) :=
  match headBlock text with
  | none => none
  | some (lines, body) =>
      match lines.filterMap lengthField with
      | [value] =>
          if digitsValue value ≤ body.length then
            some (text.take (text.length - (body.drop (digitsValue value)).length),
              body.drop (digitsValue value))
          else none
      | _ => none

theorem headBlock_length {text body : Bytes} {lines : List Bytes}
    (h : headBlock text = some (lines, body)) : body.length < text.length := by
  induction hlen : text.length using Nat.strong_induction_on generalizing text lines with
  | _ len ih =>
      cases hs : splitLine text with
      | none =>
          rw [headBlock_none hs] at h
          cases h
      | some p =>
          obtain ⟨line, rest⟩ := p
          have hrest := splitLine_length hs
          rw [hlen] at hrest
          rw [headBlock_some hs] at h
          split at h
          · obtain ⟨-, rfl⟩ := Prod.mk.inj (Option.some.inj h)
            exact hrest
          · obtain ⟨⟨lines', body'⟩, hblock, hpair⟩ := Option.map_eq_some_iff.mp h
            obtain ⟨-, rfl⟩ := Prod.mk.inj hpair
            exact (ih rest.length hrest hblock rfl).trans hrest

theorem readResponse_length {text response rest : Bytes}
    (h : readResponse text = some (response, rest)) : rest.length < text.length := by
  unfold readResponse at h
  split at h
  · cases h
  · rename_i lines body hblock
    split at h
    · split at h
      · obtain ⟨-, rfl⟩ := Prod.mk.inj (Option.some.inj h)
        rw [List.length_drop]
        exact lt_of_le_of_lt (Nat.sub_le ..) (headBlock_length hblock)
      · cases h
    · cases h

/-- The responses in what has been received, and what is not a whole one yet. -/
def readResponses (text : Bytes) : List Bytes × Bytes :=
  match _h : readResponse text with
  | none => ([], text)
  | some (response, rest) =>
      (response :: (readResponses rest).1, (readResponses rest).2)
termination_by text.length
decreasing_by all_goals exact readResponse_length _h

variable {response part rest : Bytes}

theorem readResponses_none {text : Bytes} (h : readResponse text = none) :
    readResponses text = ([], text) := by
  rw [readResponses]
  split
  · rfl
  · simp_all

theorem readResponses_some {text : Bytes} (h : readResponse text = some (response, rest)) :
    readResponses text = (response :: (readResponses rest).1, (readResponses rest).2) := by
  rw [readResponses]
  split
  · simp_all
  · rename_i response' rest' h'
    obtain ⟨rfl, rfl⟩ := Prod.mk.inj (Option.some.inj (h.symm.trans h'))
    rfl

theorem readResponse_nil : readResponse [] = none := by
  rw [readResponse, headBlock_none (show splitLine [] = none from rfl)]

/-- A framed response is read, whatever follows it. -/
theorem readResponse_framed (h : Frames response 0) (rest : Bytes) :
    readResponse (response ++ rest) = some (response, rest) := by
  obtain ⟨lines, body, hblock, value, hvalue, hnumber⟩ := h
  have hlength : digitsValue value = body.length := hnumber.value
  unfold readResponse
  rw [headBlock_append hblock]
  dsimp only
  rw [hvalue]
  dsimp only
  rw [if_pos, hlength, List.drop_left, List.length_append, Nat.add_sub_cancel, List.take_left]
  rw [hlength, List.length_append]
  exact Nat.le_add_right ..

/-- A part of one is not. -/
theorem readResponse_part (h : Frames response 0) (hpart : part <+: response)
    (hne : part ≠ response) : readResponse part = none := by
  obtain ⟨lines, body, hblock, value, hvalue, hnumber⟩ := h
  have hlength : digitsValue value = body.length := hnumber.value
  obtain ⟨missing, rfl⟩ := hpart
  have hmissing : missing ≠ [] := by
    rintro rfl
    exact hne (List.append_nil part).symm
  unfold readResponse
  cases hread : headBlock part with
  | none => rfl
  | some block =>
      obtain ⟨lines', body'⟩ := block
      rw [headBlock_append hread] at hblock
      obtain ⟨rfl, rfl⟩ := Prod.mk.inj (Option.some.inj hblock)
      dsimp only
      rw [hvalue]
      dsimp only
      rw [if_neg]
      rw [hlength, List.length_append, not_le]
      exact Nat.lt_add_of_pos_right (List.length_pos_iff.mpr hmissing)

theorem readResponses_flatten {responses : List Bytes} (hframed : ∀ r ∈ responses, Frames r 0)
    (hrest : readResponse rest = none) :
    readResponses (responses.flatten ++ rest) = (responses, rest) := by
  induction responses with
  | nil => exact readResponses_none hrest
  | cons response responses ih =>
      rw [List.flatten_cons, List.append_assoc,
        readResponses_some (readResponse_framed (hframed _ List.mem_cons_self) _),
        ih fun r hr => hframed r (List.mem_cons_of_mem _ hr)]

/-- Responses one behind the other, the last one perhaps cut. -/
theorem readResponses_cut {responses : List Bytes} {received : Bytes}
    (hframed : ∀ r ∈ responses, Frames r 0) (hbegun : responses.dropLast.flatten <+: received)
    (hbounded : received <+: responses.flatten) :
    readResponses received = (responses, []) ∧ received = responses.flatten ∨
      ∃ last ∈ responses.getLast?, (readResponses received).1 = responses.dropLast ∧
        (readResponses received).2 <+: last ∧ (readResponses received).2 ≠ last := by
  have hwhole : readResponses responses.flatten = (responses, []) := by
    have h := readResponses_flatten hframed readResponse_nil
    rwa [List.append_nil] at h
  rcases List.eq_nil_or_concat responses with rfl | ⟨earlier, last, rfl⟩
  · obtain rfl : received = [] := List.prefix_nil.mp hbounded
    exact Or.inl ⟨hwhole, rfl⟩
  · rw [List.concat_eq_append] at hframed hbegun hbounded hwhole ⊢
    rw [List.dropLast_concat] at hbegun ⊢
    obtain ⟨part, rfl⟩ := hbegun
    rw [List.flatten_append, List.flatten_singleton, List.prefix_append_right_inj] at hbounded
    by_cases hpart : part = last
    · left
      rw [hpart]
      rw [List.flatten_append, List.flatten_singleton] at hwhole ⊢
      exact ⟨hwhole, rfl⟩
    · right
      have hlast : Frames last 0 := hframed last (by simp)
      rw [readResponses_flatten (fun r hr => hframed r (List.mem_append_left _ hr))
        (readResponse_part hlast hbounded hpart)]
      exact ⟨last, by simp, rfl, hbounded, hpart⟩

end Client

/-! ### What the server sends -/

theorem mappedFile_length {fs : FileSystem} {r₀ r : HttpResponse} (hsmall : SmallFiles fs)
    (hwhole : MapsWhole fs) (hlocated : located fs r₀ = .ok r) :
    (mappedFile fs r).length = mappedLength fs r := by
  unfold mappedFile mappedLength
  by_cases hpage : errorPage fs r = none
  · rw [if_pos hpage, if_pos hpage]
    have hserves := errorPage_serves hpage
    obtain ⟨path, hpath⟩ := located_stat hlocated hserves
    obtain ⟨hpos, hbound⟩ := hsmall path _ hpath
    cases hfile : fs.mmap (r.srcDir ++ r.path) r.fileStat.size with
    | none =>
        rw [errorPage, if_pos hserves, if_pos hfile] at hpage
        split at hpage <;> cases hpage
    | some file =>
        apply Int.ofNat.inj
        show (file.length : Int) = (toSize (toInt r.fileStat.size) : Int)
        rw [hwhole _ _ _ hfile, toSize_fileSize hpos hbound]
  · rw [if_neg hpage, if_neg hpage]
    rfl

/-- Behind index files without a line end in their names, every answer frames its body. -/
theorem Answer.Fresh.frames {a : Answer} (h : a.Fresh cfg)
    (hindex : ∀ file ∈ cfg.indexFile.getD [], LF ∉ file) : Frames a.bytes 0 := by
  obtain ⟨hsmall, hwhole, path, version, isKeepAlive, code, hpath, hversion, -, htext⟩ := h
  obtain ⟨r₀, hinit, htext⟩ := bind_eq_ok.mp htext
  obtain ⟨r, hlocated, htext⟩ := bind_eq_ok.mp htext
  obtain hbytes : fullText a.fs r = a.bytes := Except.ok.inj htext
  obtain ⟨hversion₀, -⟩ := init_kept hinit
  obtain ⟨-, -, hpath₀, hindex₀, -⟩ := HttpResponse.init_eq hinit
  have hplain : LF ∉ r.version := by
    rw [(located_kept hlocated).1, hversion₀]
    exact hversion
  have hname : LF ∉ r.path := by
    obtain ⟨-, hnames⟩ := located_names hlocated
    rw [hpath₀, hindex₀] at hnames
    generalize r.path = name at hnames ⊢
    cases hnames with
    | self => exact hpath
    | index hlast hfile =>
        rw [List.mem_append, not_or]
        exact ⟨hpath, hindex _ hfile⟩
  have hsize : errorPage a.fs r = none → 0 ≤ r.fileStat.size ∧ r.fileStat.size < 2 ^ 31 := by
    intro hpage
    obtain ⟨path', hstat⟩ := located_stat hlocated (errorPage_serves hpage)
    exact hsmall path' _ hstat
  have hframes : Frames (headersText r ++ contentText a.fs r) (mappedLength a.fs r) := by
    rw [frames_iff fun hpage => ⟨(hsize hpage).1, (hsize hpage).2.trans (by decide)⟩,
      framingHolds_of_plain hplain hname]
    exact fun hpage => (hsize hpage).2
  obtain ⟨lines, body, hblock, hone⟩ := hframes
  rw [← hbytes, fullText]
  refine ⟨lines, body ++ mappedFile a.fs r, headBlock_append hblock _, ?_⟩
  rw [List.length_append, mappedFile_length hsmall hwhole hlocated]
  exact hone

/-- What was sent reads as the answers: all of them while the dialogue reads, else those in front
of the last one and no more than a part of that. -/
theorem Dialogue.InOrder.reading_back {x : Dialogue J} (h : x.InOrder cfg)
    (hindex : ∀ file ∈ cfg.indexFile.getD [], LF ∉ file) :
    Client.readResponses x.sent = (x.texts, []) ∨ x.phase ≠ .reading ∧
      ∃ last ∈ x.texts.getLast?, (Client.readResponses x.sent).1 = x.texts.dropLast ∧
        (Client.readResponses x.sent).2 <+: last ∧ (Client.readResponses x.sent).2 ≠ last := by
  have hframed : ∀ text ∈ x.texts, Frames text 0 := by
    intro text htext
    obtain ⟨a, ha, rfl⟩ := List.mem_map.mp htext
    exact (h.fresh a ha).frames hindex
  by_cases hphase : x.phase = .reading
  · left
    have hread := Client.readResponses_flatten hframed Client.readResponse_nil
    rwa [List.append_nil, ← (h.reading hphase).1] at hread
  · rcases Client.readResponses_cut hframed h.begun h.bounded with ⟨hwhole, -⟩ | hcut
    · exact Or.inl hwhole
    · exact Or.inr ⟨hphase, hcut⟩

namespace HttpServer

variable {s : HttpServer J} {steps : List ServerStep} {os : List Unit}

/-- **A client finds exactly its answers.** Reading one header block and as many bytes as it
announces, again and again, a client splits what it was sent into its answers: all of them
while the server waits for its next request; else those in front of the last one, and from
the last one it has no more than a part. -/
theorem client_reads_answers (hstatic : cfg.isSetProxy = false) (htimeout : cfg.timeout = 0)
    (hindex : ∀ file ∈ cfg.indexFile.getD [], LF ∉ file)
    (hordinary : (server cfg).Meets Ordinary new steps)
    (hrun : (server cfg).run steps = some (s, os)) (fd : Int) :
    ∃ x os', (Dialogue.machine cfg fd).run (eventsAt cfg fd steps) = some (x, os') ∧
      x.conn = s.users fd ∧
      (Client.readResponses x.sent = (x.texts, []) ∨ x.phase ≠ .reading ∧
        ∃ last ∈ x.texts.getLast?, (Client.readResponses x.sent).1 = x.texts.dropLast ∧
          (Client.readResponses x.sent).2 <+: last ∧ (Client.readResponses x.sent).2 ≠ last) := by
  obtain ⟨x, os', hx, hsees, hinv⟩ := server_inOrder hstatic htimeout hordinary hrun fd
  exact ⟨x, os', hx, hsees.stands.conn, hinv.reading_back hindex⟩

theorem client_reads_answers_once :
    ∃ s os x os', (server (emptySite false)).run servedOnce = some (s, os) ∧
      (Dialogue.machine (emptySite false) 5).run (eventsAt (emptySite false) 5 servedOnce) =
        some (x, os') ∧
      x.texts.length = 1 ∧ x.sent.length = 340 ∧ Client.readResponses x.sent = (x.texts, []) := by
  have hstate : (((server (emptySite false)).run servedOnce).bind fun r =>
      ((Dialogue.machine (emptySite false) 5).run (eventsAt (emptySite false) 5 servedOnce)).map
        fun r' => (r.1.isConnected 5, r'.1.texts.length, r'.1.sent.length, r'.1.phase)) =
      some (true, 1, 340, .reading) := by
    decide +kernel
  obtain ⟨⟨s, os⟩, hrun, hstate⟩ := Option.bind_eq_some_iff.mp hstate
  obtain ⟨⟨x, os'⟩, hx, hstate⟩ := Option.map_eq_some_iff.mp hstate
  simp only [Prod.mk.injEq] at hstate
  obtain ⟨-, htexts, hsent, hphase⟩ := hstate
  have hordinary : (server (emptySite false)).Meets Ordinary new servedOnce :=
    ordinary_of_noFiles
      (fun step hstep => servedTwice_withoutFiles step (List.mem_append_left _ hstep))
      (by decide +kernel)
  obtain ⟨x', os'', hx', -, hread | ⟨hnot, -⟩⟩ :=
    client_reads_answers (show (emptySite false).isSetProxy = false from rfl) rfl
      (fun file hfile => nomatch hfile) hordinary hrun 5
  · obtain ⟨rfl, -⟩ := Prod.mk.inj (Option.some.inj (hx.symm.trans hx'))
    exact ⟨s, os, x, os', hrun, hx, htexts, hsent, hread⟩
  · obtain ⟨rfl, -⟩ := Prod.mk.inj (Option.some.inj (hx.symm.trans hx'))
    exact absurd hphase hnot

end HttpServer

end WhiteWebServer
