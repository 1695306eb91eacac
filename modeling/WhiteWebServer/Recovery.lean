import WhiteWebServer.ParseSafety
import WhiteWebServer.StaticTokens

/-!
# After a rejected request

A rejected line is answered with 400 and stays in the read buffer. §1 the line at which
`Parse` gives up; §2 what is left when the answer is written: the server closes the
connection, or the next request is read behind the rejected line.
-/

namespace WhiteWebServer

open Outcome

namespace HttpRequest

variable {J : Type} {js : JsonCpp J} {q q' : HttpRequest J} {b b' : Buffer} {g : Byte} {u : Bytes}
  {n : Nat}

/-! ## §1  The rejected line -/

/-- The version of a request line whose method is accepted. -/
def requestVersion (line : Bytes) : Option Bytes := do
  let i ← strpbrk line blanks
  let _ ← methodOf (line.take i)
  let url := line.drop (i + 1 + strspn (line.drop (i + 1)) blanks)
  let j ← strpbrk url blanks
  let version := url.drop (j + 1)
  versionOf (version.drop (strspn version blanks))

theorem parseRequestLine_rejected {line : Bytes} {nuls : List Nat}
    (h : parseRequestLine q line = .ok (false, q', nuls)) :
    q'.header = q.header ∧ q'.version = (requestVersion line).getD q.version ∧ q'.path = q.path := by
  unfold parseRequestLine at h
  unfold requestVersion
  cases hi : strpbrk line blanks with
  | none =>
      simp only [hi, Except.ok.injEq, Prod.mk.injEq, true_and] at h
      obtain ⟨rfl, -⟩ := h
      exact ⟨rfl, rfl, rfl⟩
  | some i =>
      simp only [hi] at h
      simp only [Option.bind_eq_bind, Option.bind_some]
      cases hm : methodOf (line.take i) with
      | none =>
          simp only [hm, Except.ok.injEq, Prod.mk.injEq, true_and] at h
          obtain ⟨rfl, -⟩ := h
          exact ⟨rfl, rfl, rfl⟩
      | some method =>
          simp only [hm] at h
          simp only [Option.bind_some]
          generalize line.drop (i + 1 + strspn (line.drop (i + 1)) blanks) = url at h ⊢
          cases hj : strpbrk url blanks with
          | none =>
              simp only [hj, Except.ok.injEq, Prod.mk.injEq, true_and] at h
              obtain ⟨rfl, -⟩ := h
              exact ⟨rfl, rfl, rfl⟩
          | some j =>
              simp only [hj] at h
              simp only [Option.bind_some]
              generalize (url.drop (j + 1)).drop (strspn (url.drop (j + 1)) blanks) = token at h ⊢
              cases hv : versionOf token with
              | none =>
                  simp only [hv, Except.ok.injEq, Prod.mk.injEq, true_and] at h
                  obtain ⟨rfl, -⟩ := h
                  exact ⟨rfl, rfl, rfl⟩
              | some version =>
                  simp only [hv] at h
                  rcases hp : pathOf (url.take j) with e | (- | path)
                  · simp [hp] at h
                  · simp only [hp, Except.ok.injEq, Prod.mk.injEq, true_and] at h
                    obtain ⟨rfl, -⟩ := h
                    exact ⟨rfl, rfl, rfl⟩
                  · simp [hp] at h

/-- Whether a connection is kept whose line `line` is rejected: by the headers accepted
before it, and by the version a rejected request line names. -/
def keptAfter (q : HttpRequest J) (line : Bytes) : Bool :=
  isKeepAlive { q with version :=
    if q.state = .requestLine then (requestVersion line).getD q.version else q.version }

theorem parseStateLine_lineStep_eq (q : HttpRequest J) (b : Buffer) (line : Bytes) :
    (parseStateLine q b line).map (fun r => (r.1, r.2.1)) = lineStep q line := by
  unfold parseStateLine lineStep
  cases q.state with
  | requestLine => rcases parseRequestLine q line with e | ⟨ok, q₁, nuls⟩ <;> rfl
  | headers => rfl
  | body => rfl
  | finish => rfl

/-- A line that `ParseRequestLine` or `ParseHeader` refuses. -/
def Refuses (q : HttpRequest J) (line : Bytes) : Prop := ∃ q', lineStep q line = .ok (false, q')

/-- A turn that rejects its line. -/
structure Rejects (js : JsonCpp J) (q : HttpRequest J) (b : Buffer) (line : Bytes) (len : Nat)
    (q' : HttpRequest J) (b' : Buffer) : Prop where
  lineAt : lineAt q b = some line
  refuses : Refuses q line
  length : ∃ b₁, parseLine q b = (.lineOk, len, b₁)
  two_le : 2 ≤ len
  readIdx : b'.readIdx = b.readIdx
  keepAlive : isKeepAlive q' = keptAfter q line

theorem parseStateLine_rejected {line : Bytes} {b₁ : Buffer}
    (h : parseStateLine q b₁ line = .ok (false, q', b')) (hq : q.state ≠ .body) :
    b'.readIdx = b₁.readIdx ∧ isKeepAlive { q' with state := .finish } = keptAfter q line := by
  unfold parseStateLine at h
  cases hst : q.state with
  | requestLine =>
      simp only [hst] at h
      rcases hp : parseRequestLine q line with e | ⟨ok, q₁, nuls⟩
      · simp [hp] at h
      · simp only [hp, Except.ok.injEq, Prod.mk.injEq] at h
        obtain ⟨rfl, rfl, rfl⟩ := h
        obtain ⟨hheader, hversion, -⟩ := parseRequestLine_rejected hp
        refine ⟨rfl, ?_⟩
        simp only [keptAfter, isKeepAlive, hheader, hversion, hst, if_true]
  | headers =>
      simp only [hst, Except.ok.injEq, Prod.mk.injEq] at h
      obtain ⟨hok, rfl, rfl⟩ := h
      have hsame : (parseHeader q line).2.1 = q := by
        unfold parseHeader at hok ⊢
        split at hok
        · cases hok
        · rename_i hline
          rw [if_neg hline]
          split at hok
          · rfl
          · cases hok
      refine ⟨rfl, ?_⟩
      rw [hsame]
      simp [keptAfter, isKeepAlive, hst]
  | body => exact absurd hst hq
  | finish => simp [hst] at h

theorem turn_rejects {code : HttpCode} (h : b.Holds g u n) (hcode : code = .badRequest)
    (hturn : turn js q b = .answers code q' b') : ∃ line len, Rejects js q b line len q' b' := by
  subst hcode
  have hq : q.state ≠ .body := by
    intro hq
    rw [turn_body h hq] at hturn
    split at hturn
    · split at hturn <;> cases hturn
    · cases hturn
  unfold turn at hturn
  rcases hline : parseLine q b with ⟨status, len, b₁⟩
  cases status with
  | lineBad => simp [hline] at hturn
  | lineOpen => simp [hline] at hturn
  | lineOk =>
      obtain ⟨g', u', h₁, -, hnul, -, hle, -⟩ := parseLine_cut h hq hline
      have hread : readCstring b₁ = .ok (cstr u') := by
        rw [readCstring_eq h₁, if_pos (Or.inl hnul)]
      have hidx : b₁.readIdx = b.readIdx := by
        simp only [parseLine, if_neg hq, Prod.mk.injEq] at hline
        rw [← hline.2.2]
        rfl
      simp only [hline, hread, if_neg hq] at hturn
      rcases hstep : parseStateLine q b₁ (cstr u') with e | ⟨ok, q₁, b₂⟩
      · simp [hstep] at hturn
      · cases ok with
        | true => simp [hstep] at hturn
        | false =>
            simp only [hstep, Turn.answers.injEq, true_and] at hturn
            obtain ⟨rfl, rfl⟩ := hturn
            obtain ⟨hb₂, hkeep⟩ := parseStateLine_rejected hstep hq
            have hat : lineAt q b = some (cstr u') := by
              unfold lineAt
              rw [hline]
              simp only [hread]
              rfl
            refine ⟨cstr u', len, hat, ⟨q₁, ?_⟩, ⟨b₁, hline⟩, by omega, hb₂.trans hidx, hkeep⟩
            rw [← parseStateLine_lineStep_eq q b₁, hstep]
            rfl

/-- A connection that is kept behind the line at which `Parse` gives up. -/
def RejectedKept (js : JsonCpp J) (q : HttpRequest J) (b : Buffer) : Prop :=
  ∃ p ∈ standsOf js q b, ∃ line, lineAt p.1 p.2 = some line ∧ Refuses p.1 line ∧
    keptAfter p.1 line = true

variable (js) in
theorem turn_of_refuses {line : Bytes} (h : b.Holds g u n) (hline : lineAt q b = some line)
    (hrefuses : Refuses q line) : ∃ q' b', turn js q b = .answers .badRequest q' b' := by
  obtain ⟨q₁, hstep⟩ := hrefuses
  have hq : q.state ≠ .body := by
    intro hq
    simp [lineStep, hq] at hstep
  rcases turn_cases js h hq with ⟨hnone, -⟩ | ⟨line', len, b₁, hline', hturn⟩
  · rw [hnone] at hline
    cases hline
  · obtain rfl : line = line' := Option.some.inj (hline.symm.trans hline')
    rw [← parseStateLine_lineStep_eq q b₁] at hstep
    rcases hparse : parseStateLine q b₁ line with e | ⟨ok, q₂, b₂⟩
    · simp [hparse, Except.map] at hstep
    · simp only [hparse, Except.map, Except.ok.injEq, Prod.mk.injEq] at hstep
      obtain ⟨rfl, rfl⟩ := hstep
      exact ⟨_, _, hturn.trans (by rw [hparse]; rfl)⟩

theorem rejectedKept_iff (h : b.Holds g u n) (hparse : parse js q b = .ok (.badRequest, q', b')) :
    RejectedKept js q b ↔ isKeepAlive q' = true := by
  constructor
  · rintro ⟨p, hp, line, hline, hrefuses, hkept⟩
    obtain ⟨g₁, u₁, h₁, -, -⟩ := standsOf_part h hp
    obtain ⟨q₁, b₁, hturn⟩ := turn_of_refuses js h₁ hline hrefuses
    obtain ⟨line', len, hrejects⟩ := turn_rejects h₁ rfl hturn
    obtain rfl : line = line' := Option.some.inj (hline.symm.trans hrejects.lineAt)
    have hending : (turn js p.1 p.2).ending = some (.ok (.badRequest, q₁, b₁)) := by
      rw [hturn]
      rfl
    have hsame := (parse_of_stand hp hending).symm.trans hparse
    simp only [Except.ok.injEq, Prod.mk.injEq, true_and] at hsame
    rw [← hsame.1, hrejects.keepAlive]
    exact hkept
  · intro hkeep
    obtain ⟨p, hp, hturn⟩ := parse_badRequest h hparse
    obtain ⟨g₁, u₁, h₁, -, -⟩ := standsOf_part h hp
    obtain ⟨line, len, hrejects⟩ := turn_rejects h₁ rfl hturn
    exact ⟨p, hp, line, hrejects.lineAt, hrejects.refuses, hrejects.keepAlive ▸ hkeep⟩

end HttpRequest

/-! ## §2  When the answer is written -/

namespace HttpServer

variable {J : Type} {cfg : ServerConfig J} {s : HttpServer J} {c c₃ : HttpConn J} {fd : Int}
  {w : TaskWorld} {q q' : HttpRequest J} {b' : Buffer}

open HttpConn

/-- `OnWrite` has written the rest of the 400 that `Process` answered a rejected line with. -/
structure RejectionWritten (cfg : ServerConfig J) (c : HttpConn J) (q : HttpRequest J) (fd : Int)
    (w : TaskWorld) (s : HttpServer J) (c₃ : HttpConn J) : Prop where
  reached : Reached cfg.js cfg.webRoot c
  next : nextRequest cfg.js c.request = .ok q
  rejected : ∃ q' b', q.parse cfg.js c.readBuff = .ok (.badRequest, q', b')
  answered : ∃ fs c₁ c₂, c.process cfg.js fs cfg.webRoot = .ok (.finish, c₁) ∧
    (∃ writes : List (WriteEnd × List Nat),
      writes.foldl (fun c call => (c.writeToFd call.1 call.2).2) c₁ = c₂) ∧
    s.users fd = some c₂ ∧ c₂.isClose = false ∧ (c₂.writeToFd w.last w.counts).2 = c₃
  written : c₃.pendingWriteBytes = 0

/-- The read position is behind the rejected line. -/
def LineGone (js : JsonCpp J) (q : HttpRequest J) (b : Buffer) (c₃ : HttpConn J) : Prop :=
  ∀ p ∈ HttpRequest.standsOf js q b, ∀ line len q' b',
    HttpRequest.Rejects js p.1 p.2 line len q' b' → p.2.readIdx + len ≤ c₃.readBuff.readIdx

/-- The next `Process` makes of every well-formed request what it makes of it on a new
connection. -/
def ParsedAsFresh (cfg : ServerConfig J) (c₃ : HttpConn J) : Prop :=
  ∀ junk c₀ q₀ parsed, HttpConn.new cfg.js junk = .ok c₀ → HttpRequest.new cfg.js = .ok q₀ →
    ∀ request : WireRequest, HttpRequest.WellFormed q₀ request parsed → ∀ fs,
      ((c₃.readFromFd [request.bytes]).process cfg.js fs cfg.webRoot).map
          (fun r => (r.1, r.2.request)) =
        (((c₀.init c₃.fd c₃.address c₃.proxyFd c₃.indexFile).readFromFd
          [request.bytes]).process cfg.js fs cfg.webRoot).map (fun r => (r.1, r.2.request))

/-- The server closes the connection, or nothing of the rejected line is in its way. -/
def Recovers (cfg : ServerConfig J) (c : HttpConn J) (q : HttpRequest J) (fd : Int) (w : TaskWorld)
    (s : HttpServer J) (c₃ : HttpConn J) : Prop :=
  (∀ s', s.onWrite cfg w fd false = some s' → s'.isConnected fd = false) ∨
    (LineGone cfg.js q c.readBuff c₃ ∧ ParsedAsFresh cfg c₃)

theorem process_of_badRequest {fs : FileSystem} {c₁ : HttpConn J} {result : ProcessState}
    (hq : nextRequest cfg.js c.request = .ok q)
    (hparse : q.parse cfg.js c.readBuff = .ok (.badRequest, q', b'))
    (hprocess : c.process cfg.js fs cfg.webRoot = .ok (result, c₁)) :
    c₁.request = q' ∧ c₁.readBuff = b' := by
  obtain ⟨q₁, hq₁, hprocess⟩ := bind_eq_ok.mp hprocess
  obtain rfl := Except.ok.inj (hq.symm.trans hq₁)
  dsimp only at hprocess
  split at hprocess
  · rename_i hzero
    rw [HttpRequest.parse, if_pos hzero] at hparse
    cases hparse
  · obtain ⟨⟨code, q₂, b₂⟩, hparse₂, hprocess⟩ := bind_eq_ok.mp hprocess
    obtain ⟨rfl, rfl, rfl⟩ : code = .badRequest ∧ q₂ = q' ∧ b₂ = b' := by
      simpa using hparse₂.symm.trans hparse
    dsimp only at hprocess
    rw [if_neg (by decide)] at hprocess
    obtain ⟨c₂, hrespond, hprocess⟩ := bind_eq_ok.mp hprocess
    obtain ⟨r, b, rfl⟩ := respond_eq hrespond
    simp only [pure, Except.pure, Except.ok.injEq, Prod.mk.injEq] at hprocess
    obtain ⟨-, rfl⟩ := hprocess
    split <;> exact ⟨rfl, rfl⟩

theorem foldl_writes_kept : ∀ (writes : List (WriteEnd × List Nat)) (c : HttpConn J),
    (writes.foldl (fun c call => (c.writeToFd call.1 call.2).2) c).request = c.request ∧
      (writes.foldl (fun c call => (c.writeToFd call.1 call.2).2) c).readBuff = c.readBuff := by
  intro writes
  induction writes with
  | nil => exact fun _ => ⟨rfl, rfl⟩
  | cons call writes ih =>
      intro c
      obtain ⟨hrequest, hread⟩ := ih (c.writeToFd call.1 call.2).2
      obtain ⟨hrequest₁, hread₁⟩ := writeToFd_kept call.1 call.2 c
      exact ⟨hrequest.trans hrequest₁, hread.trans hread₁⟩

/-- The rejected line is still in the buffer, and the answer decides over the connection. -/
theorem RejectionWritten.kept (h : RejectionWritten cfg c q fd w s c₃)
    (hparse : q.parse cfg.js c.readBuff = .ok (.badRequest, q', b')) :
    c₃.request = q' ∧ c₃.readBuff = b' := by
  obtain ⟨-, hq, -, ⟨fs, c₁, c₂, hprocess, ⟨writes, hwrites⟩, -, -, hc₃⟩, -⟩ := h
  obtain ⟨hrequest, hread⟩ := process_of_badRequest hq hparse hprocess
  obtain ⟨hrequest₂, hread₂⟩ := foldl_writes_kept writes c₁
  obtain ⟨hrequest₃, hread₃⟩ := writeToFd_kept w.last w.counts c₂
  rw [hwrites] at hrequest₂ hread₂
  rw [hc₃] at hrequest₃ hread₃
  exact ⟨by rw [hrequest₃, hrequest₂, hrequest], by rw [hread₃, hread₂, hread]⟩

/-- With everything written, `OnWrite` keeps a connection whose request is kept alive, and
closes every other. -/
theorem onWrite_connected_iff {c₂ : HttpConn J} (huser : s.users fd = some c₂)
    (hopen : c₂.isClose = false) (hc₃ : (c₂.writeToFd w.last w.counts).2 = c₃)
    (hdone : c₃.pendingWriteBytes = 0) :
    (∃ s', s.onWrite cfg w fd false = some s' ∧ s'.isConnected fd = true) ↔
      c₃.isKeepAlive = true := by
  have hwrite : s.onWrite cfg w fd false = _ := onWrite_of_user huser
    (show c₂.writeToFd w.last w.counts = ((c₂.writeToFd w.last w.counts).1, c₃) from by rw [← hc₃])
  have hopen₃ : c₃.isClose = false := by
    rw [← hc₃, ← hopen]
    exact (writeLoop_same w.last w.counts 0 c₂).1.isClose
  rw [hwrite]
  unfold onWritten
  rw [if_neg (by simp)]
  cases hkeep : c₃.isKeepAlive with
  | true =>
      rw [if_pos ⟨hdone, rfl⟩]
      refine iff_of_true ⟨_, rfl, ?_⟩ rfl
      rw [extentTime_eq, isConnected_of_user (Function.update_self fd (some c₃) s.users) hopen₃]
  | false =>
      rw [if_neg (by simp), if_neg (by simp [hdone]), if_neg (by decide)]
      refine iff_of_false ?_ (by decide)
      rintro ⟨s', hclose, hconnected⟩
      obtain ⟨⟨closed, husers, hisClose, -⟩, -⟩ := closeConn_closed hclose setUser_users_self hopen₃
      unfold isConnected at hconnected
      rw [husers, Function.update_self] at hconnected
      simp [HttpConn.isConnected, hisClose] at hconnected

theorem RejectionWritten.closes_iff (h : RejectionWritten cfg c q fd w s c₃) :
    (∀ s', s.onWrite cfg w fd false = some s' → s'.isConnected fd = false) ↔
      c₃.isKeepAlive = false := by
  obtain ⟨-, -, -, ⟨fs, c₁, c₂, -, -, huser, hopen, hc₃⟩, hdone⟩ := h
  have hconnected := @onWrite_connected_iff J cfg s c₃ fd w c₂ huser hopen hc₃ hdone
  rw [← Bool.not_eq_true c₃.isKeepAlive, ← hconnected, not_exists]
  simp only [not_and, Bool.not_eq_true]

theorem RejectionWritten.recovers_iff (h : RejectionWritten cfg c q fd w s c₃) :
    Recovers cfg c q fd w s c₃ ↔ c₃.isKeepAlive = false := by
  obtain ⟨q', b', hparse⟩ := h.rejected
  obtain ⟨g, u, n, hholds⟩ := h.reached.buffersStored.readBuff
  rw [Recovers, h.closes_iff]
  refine or_iff_left fun hgone => ?_
  obtain ⟨p, hp, hturn⟩ := HttpRequest.parse_badRequest hholds hparse
  obtain ⟨g₁, u₁, h₁, -, -⟩ := HttpRequest.standsOf_part hholds hp
  obtain ⟨line, len, hrejects⟩ := HttpRequest.turn_rejects h₁ rfl hturn
  -- the rejected line has not been retrieved
  have hle := hgone.1 p hp line len q' b' hrejects
  rw [(h.kept hparse).2, hrejects.readIdx] at hle
  have htwo := hrejects.two_le
  omega

/-- A client's connection after its first bytes. -/
def afterFirst (data : Bytes) : Except Fault (HttpConn (Option HeaderMap)) := do
  let c ← HttpConn.new HttpRequest.membersJson zeroed
  return (c.init 5 ⟨10, 0, 0, 7⟩ (-1) (some [])).readFromFd [data]

theorem afterFirst_reached {data : Bytes} {c : HttpConn (Option HeaderMap)}
    (h : afterFirst data = .ok c) (webRoot : Bytes) :
    Reached HttpRequest.membersJson webRoot c ∧ c.indexFile = some [] := by
  obtain ⟨c₀, hnew, h⟩ := bind_eq_ok.mp h
  obtain rfl := Except.ok.inj h
  exact ⟨⟨zeroed, c₀, hnew, [.init 5 ⟨10, 0, 0, 7⟩ (-1) (some []), .readFromFd [data]], [(), ()],
    rfl⟩, rfl⟩

/-- What becomes of a rejected line: the answer of `Parse` and of `Process`, what is left
to write of the 400, and whether the connection is kept. -/
def rejection (data : Bytes) : Except Fault (HttpCode × ProcessState × Bool × Int × Bool) := do
  let c ← afterFirst data
  let q ← nextRequest HttpRequest.membersJson c.request
  let p ← q.parse HttpRequest.membersJson c.readBuff
  let r ← c.process HttpRequest.membersJson noFiles (emptySite false).webRoot
  let c₃ := (r.2.writeToFd ⟨0, some .eagain⟩ [r.2.iov₀.len]).2
  return (p.1, r.1, r.2.isClose, c₃.pendingWriteBytes, c₃.isKeepAlive)

theorem rejectionWritten_first {data : Bytes} {kept : Bool}
    (h : rejection data = .ok (.badRequest, .finish, false, 0, kept)) :
    ∃ (c : HttpConn (Option HeaderMap)) (q : HttpRequest (Option HeaderMap)) (w : TaskWorld)
      (s : HttpServer (Option HeaderMap)) (c₃ : HttpConn (Option HeaderMap)),
      RejectionWritten (emptySite false) c q 5 w s c₃ ∧ c₃.isKeepAlive = kept := by
  obtain ⟨c, hc, h⟩ := bind_eq_ok.mp h
  obtain ⟨q, hq, h⟩ := bind_eq_ok.mp h
  obtain ⟨⟨code, q', b'⟩, hparse, h⟩ := bind_eq_ok.mp h
  obtain ⟨⟨result, c₁⟩, hprocess, h⟩ := bind_eq_ok.mp h
  simp only [pure, Except.pure, Except.ok.injEq, Prod.mk.injEq] at h
  obtain ⟨rfl, rfl, hopen, hdone, hkept⟩ := h
  exact ⟨c, q, { busyAfter [] c₁.iov₀.len with last := ⟨0, some .eagain⟩ },
    HttpServer.new.setUser 5 c₁, _, ⟨(afterFirst_reached hc _).1, hq, ⟨q', b', hparse⟩,
      ⟨noFiles, c₁, c₁, hprocess, ⟨[], rfl⟩, setUser_users_self, hopen, rfl⟩, hdone⟩, hkept⟩

/-- After a rejected line the server recovers exactly where it closes the connection: where
neither the headers before the line nor the version it names keep it. -/
theorem rejection_recovers_iff (h : RejectionWritten cfg c q fd w s c₃) :
    Recovers cfg c q fd w s c₃ ↔ ¬ HttpRequest.RejectedKept cfg.js q c.readBuff := by
  obtain ⟨q', b', hparse⟩ := h.rejected
  obtain ⟨g, u, n, hholds⟩ := h.reached.buffersStored.readBuff
  rw [HttpRequest.rejectedKept_iff hholds hparse, h.recovers_iff, HttpConn.isKeepAlive,
    (h.kept hparse).1, Bool.not_eq_true]

/-- A relative path in HTTP/1.0: the connection is closed. -/
theorem rejection_recovers_relative :
    ∃ (c : HttpConn (Option HeaderMap)) (q : HttpRequest (Option HeaderMap)) (w : TaskWorld)
      (s : HttpServer (Option HeaderMap)) (c₃ : HttpConn (Option HeaderMap)),
      RejectionWritten (emptySite false) c q 5 w s c₃ ∧ Recovers (emptySite false) c q 5 w s c₃ ∧
        ¬ HttpRequest.RejectedKept (emptySite false).js q c.readBuff := by
  obtain ⟨c, q, w, s, c₃, h, hkept⟩ := rejectionWritten_first
    (show rejection (ascii "GET x HTTP/1.0\r\n") = .ok (_, _, _, _, false) from by decide +kernel)
  have hrecovers := h.recovers_iff.mpr hkept
  exact ⟨c, q, w, s, c₃, h, hrecovers, (rejection_recovers_iff h).mp hrecovers⟩

/-- A request line without a version: the connection is kept, and the line stays. -/
theorem rejected_line_stays :
    ∃ (c : HttpConn (Option HeaderMap)) (q : HttpRequest (Option HeaderMap)) (w : TaskWorld)
      (s : HttpServer (Option HeaderMap)) (c₃ : HttpConn (Option HeaderMap)),
      RejectionWritten (emptySite false) c q 5 w s c₃ ∧
        ¬ Recovers (emptySite false) c q 5 w s c₃ := by
  obtain ⟨c, q, w, s, c₃, h, hkept⟩ := rejectionWritten_first
    (show rejection (ascii "GET /\r\n") = .ok (_, _, _, _, true) from by decide +kernel)
  refine ⟨c, q, w, s, c₃, h, fun hrecovers => ?_⟩
  rw [h.recovers_iff, hkept] at hrecovers
  cases hrecovers

end HttpServer

end WhiteWebServer
