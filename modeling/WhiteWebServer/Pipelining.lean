import WhiteWebServer.Lib.Machine
import WhiteWebServer.WireRequest
import WhiteWebServer.HttpConn

/-!
# Several requests on one connection

A session is a connection, the bytes it has received and the requests it has
finished. `Process` parses until the read buffer is empty, in its last state
too, and a body is everything readable; so a request is finished by itself
only when the bytes of a read end with it. §1 the session machine; §2 what is
expected of it (`Lossless`) and when the code does that (`StepAllowed`,
`Isolated`); §3 the invariant, one step and whole runs; §4 two requests in one
read, of which none is finished by itself.
-/

namespace WhiteWebServer

open HttpRequest

variable {J : Type}

/-! ## §1  Sessions -/

structure Session (J : Type) where
  conn : HttpConn J
  received : Bytes
  /-- how many bytes had been received at the last call of `Process` -/
  seen : Nat
  /-- each finished request and how many bytes had been taken out of the read
  buffer by then -/
  finished : List (HttpRequest J × Nat)

inductive SessionEvent where
  | receive (reads : List Bytes)
  | process (fs : FileSystem)

def sessionStep (js : JsonCpp J) (webRoot : Bytes) (s : Session J) :
    SessionEvent → Option (Session J × Unit)
  | .receive reads =>
      some ({ s with conn := s.conn.readFromFd reads, received := s.received ++ reads.flatten }, ())
  | .process fs =>
      match s.conn.process js fs webRoot with
      | .error _ => none
      | .ok (state, conn) =>
          some ({ s with conn := conn, seen := s.received.length,
                         finished := if state = .finish then
                             s.finished ++
                               [(conn.request, s.received.length - conn.readBuff.readableBytes)]
                           else s.finished }, ())

/-- A session that starts on the connection `conn`. -/
def sessionMachine (js : JsonCpp J) (webRoot : Bytes) (conn : HttpConn J) :
    Machine (Session J) SessionEvent Unit where
  init := { conn := conn, received := [], seen := 0, finished := [] }
  step := sessionStep js webRoot

/-! ## §2  What is expected, and when the code does it -/

/-- A well-formed request, with what the parser makes of its lines on `q₀`. -/
structure ClientRequest (q₀ : HttpRequest J) where
  wire : WireRequest
  parsed : HttpRequest J
  wellFormed : WellFormed q₀ wire parsed

section requests

variable {q₀ : HttpRequest J}

def ClientRequest.bytes (w : ClientRequest q₀) : Bytes := w.wire.bytes

/-- Each request with the position of its end in the stream. -/
def ends (start : Nat) : List (ClientRequest q₀) → List (ClientRequest q₀ × Nat)
  | [] => []
  | w :: ws => (w, start + w.bytes.length) :: ends (start + w.bytes.length) ws

/-- A buffer with the unread bytes `u` and a spare byte. -/
def bufferOf (u : Bytes) : Buffer :=
  { bufferContainer := NUL :: (u ++ [NUL]), readIdx := 1, writeIdx := 1 + u.length }

/-- One request parsed alone. -/
def parsedAlone (js : JsonCpp J) (q₀ : HttpRequest J) (bytes : Bytes) :
    Except Fault (HttpCode × HttpRequest J) :=
  outcome (parse js q₀ (bufferOf bytes))

/-- The finished requests are those whose last byte `Process` has seen, in order,
each once, with the fields it has when parsed alone, and its bytes and no
others had been taken out by then. -/
def Lossless (js : JsonCpp J) (ws : List (ClientRequest q₀)) (s : Session J) : Prop :=
  s.finished.map (fun f => (Except.ok (HttpCode.getRequest, f.1), f.2)) =
    ((ends 0 ws).filter fun e => e.2 ≤ s.seen).map fun e => (parsedAlone js q₀ e.1.bytes, e.2)

/-- The post data of each request over what `Init` leaves of the one before is
what it is on a fresh `HttpRequest`. -/
def Isolated (js : JsonCpp J) : J → List (ClientRequest q₀) → Prop
  | _, [] => True
  | post, w :: ws => ∃ r, postOver js w.parsed w.wire post = .ok r ∧
      postOver js w.parsed w.wire q₀.post = .ok r ∧ ∃ post', js.clear r = .ok post' ∧
        Isolated js post' ws

/-- The end of a request that `Process` sees for the first time is the end of what
has been received. -/
def EndsWithRead (ws : List (ClientRequest q₀)) (s : Session J) : Prop :=
  ∀ e ∈ ends 0 ws, s.seen < e.2 → e.2 ≤ s.received.length → e.2 = s.received.length

/-- Inside a body there is a writable byte, or a NUL in what has come of it. -/
def RoomInBody (ws : List (ClientRequest q₀)) (s : Session J) : Prop :=
  ∀ e ∈ ends 0 ws, s.seen < e.2 →
    s.received.drop (e.2 - e.1.wire.body.length) ≠ [] →
    NUL ∈ s.received.drop (e.2 - e.1.wire.body.length) ∨ 0 < s.conn.readBuff.writableBytes

/-- The steps on which the code loses nothing, on the stream of the requests `ws`
and a part of `next`. -/
def StepAllowed (ws : List (ClientRequest q₀)) (next : ClientRequest q₀) (part : Bytes)
    (s : Session J) : SessionEvent → Prop
  | .receive reads => s.received ++ reads.flatten <+: ws.flatMap ClientRequest.bytes ++ part
  | .process _ => EndsWithRead ws s ∧ RoomInBody (ws ++ [next]) s

end requests

/-! ## §3  Runs -/

section runs

variable {js : JsonCpp J} {q₀ : HttpRequest J} {ws : List (ClientRequest q₀)}

theorem ends_append (xs ys : List (ClientRequest q₀)) : ∀ start : Nat,
    ends start (xs ++ ys) =
      ends start xs ++ ends (start + (xs.flatMap ClientRequest.bytes).length) ys := by
  induction xs with
  | nil =>
      intro start
      simp [ends]
  | cons x xs ih =>
      intro start
      rw [List.cons_append, ends, ends, ih, List.cons_append, List.flatMap_cons,
        List.length_append, Nat.add_assoc]

theorem ClientRequest.bytes_pos (w : ClientRequest q₀) : 0 < w.bytes.length := by
  apply List.length_pos_of_ne_nil
  simp [ClientRequest.bytes, WireRequest.bytes, WireRequest.head, crlf]

/-- Where the ends of `ws` lie. -/
theorem mem_ends {e : ClientRequest q₀ × Nat} : ∀ {ws : List (ClientRequest q₀)} {start : Nat},
    e ∈ ends start ws → start < e.2 ∧ e.2 ≤ start + (ws.flatMap ClientRequest.bytes).length
  | [], _, h => by simp [ends] at h
  | w :: ws, start, h => by
      have hpos := w.bytes_pos
      rw [ends, List.mem_cons] at h
      rw [List.flatMap_cons, List.length_append]
      rcases h with rfl | h
      · exact ⟨by omega, by omega⟩
      · obtain ⟨h₁, h₂⟩ := mem_ends h
        exact ⟨by omega, by omega⟩

/-- Up to a position inside the request behind `done`, the ends are those of
`done`. -/
theorem filter_ends {done todo : List (ClientRequest q₀)} {seen : Nat}
    (hdone : (done.flatMap ClientRequest.bytes).length ≤ seen)
    (htodo : ∀ e ∈ ends (done.flatMap ClientRequest.bytes).length todo, seen < e.2) :
    (ends 0 (done ++ todo)).filter (fun e => e.2 ≤ seen) = ends 0 done := by
  rw [ends_append, List.filter_append, Nat.zero_add]
  have h₁ : (ends 0 done).filter (fun e => e.2 ≤ seen) = ends 0 done := by
    refine List.filter_eq_self.mpr fun e he => ?_
    have := (mem_ends he).2
    simp only [decide_eq_true_eq]
    omega
  have h₂ : (ends (done.flatMap ClientRequest.bytes).length todo).filter
      (fun e => e.2 ≤ seen) = [] := by
    refine List.filter_eq_nil_iff.mpr fun e he => ?_
    have := htodo e he
    simp only [decide_eq_true_eq]
    omega
  rw [h₁, h₂, List.append_nil]

theorem bufferOf_holds (u : Bytes) : (bufferOf u).Holds NUL u 1 := ⟨[], rfl, rfl, rfl⟩

/-- The first byte of a request is not an LF. -/
theorem ClientRequest.head_ne (w : ClientRequest q₀) {p : Bytes} (hp : p <+: w.bytes) :
    p.head? ≠ some LF := by
  obtain ⟨hplain, hne⟩ := w.wellFormed.plain w.wire.requestLine (by simp [WireRequest.lines])
  intro hlf
  cases hline : w.wire.requestLine with
  | nil => exact hne hline
  | cons a l =>
      have hbytes : ∃ t, w.bytes = a :: t := by
        simp only [ClientRequest.bytes, WireRequest.bytes, WireRequest.head, WireRequest.lines,
          WireRequest.joinLines, List.flatMap_cons, hline, List.cons_append]
        exact ⟨_, rfl⟩
      obtain ⟨t, ht⟩ := hbytes
      rw [ht] at hp
      cases p with
      | nil => simp at hlf
      | cons b p =>
          obtain rfl : b = a := (List.cons_prefix_cons.mp hp).1
          obtain rfl : b = LF := by simpa using hlf
          exact absurd rfl (hplain LF (by simp [hline])).2

/-- A request parsed alone is finished. -/
theorem parsedAlone_eq {w : ClientRequest q₀} {r : J} (hq₀ : InHead q₀)
    (hrange : BodyInRange w.parsed w.wire) (hr : postOver js w.parsed w.wire q₀.post = .ok r) :
    parsedAlone js q₀ w.bytes = .ok (.getRequest, finished w.parsed w.wire r) := by
  have hpos : w.bytes ≠ [] := List.ne_nil_of_length_pos w.bytes_pos
  have hstart := @Position.start J js q₀ w.parsed w.wire q₀.post hq₀
  have hcl : w.wire.head.length < w.wire.bytes.length → w.wire.body.length < 2 ^ 31 := by
    intro hlt
    by_cases hcl : contentLength ∈ w.parsed.header
    · exact (hrange hcl).2
    · have hlength := w.wellFormed.length
      simp only [Finmap.lookup_eq_none.mpr hcl] at hlength
      simp [WireRequest.bytes, hlength] at hlt
  have hstream : stream js 1 q₀ w.bytes =
      .ok (.getRequest, finished w.parsed w.wire r, []) :=
    (hstart.step hq₀ w.wellFormed (List.prefix_refl w.bytes) (fun _ _ _ => Or.inr one_pos) hcl).2
      rfl hrange r hr
  have hag := parse_stream js q₀ (bufferOf_holds w.bytes) (fun h => absurd h (by decide)) hpos
  rw [hstream] at hag
  obtain ⟨b, hb, -⟩ := hag
  rw [parsedAlone, hb]
  rfl

/-- The path of an accepted request is not empty. -/
theorem ClientRequest.path_ne {w : ClientRequest q₀} (hq₀ : new js = .ok q₀) :
    w.parsed.path ≠ [] := by
  have hkeep : ∀ (lines : List Bytes) {q q' : HttpRequest J}, Progress js q₀.post q → InHead q →
      (∀ line ∈ lines, PlainLine line ∧ line ≠ []) → parseLines q lines = .ok (true, q') →
      Progress js q₀.post q' := by
    intro lines
    induction lines with
    | nil =>
        intro q q' hq _ _ h
        simp only [parseLines, Except.ok.injEq, Prod.mk.injEq, true_and] at h
        exact h ▸ hq
    | cons line lines ih =>
        intro q q' hq hin hlines h
        rw [parseLines] at h
        cases hl : lineStep q line with
        | error e => simp [hl] at h
        | ok r =>
            obtain ⟨ok, q₁⟩ := r
            rw [hl] at h
            cases ok with
            | false => simp at h
            | true =>
                obtain ⟨hplain, hne⟩ := hlines line (by simp)
                have hin₁ : InHead q₁ := by
                  rcases lineStep_state hin hl with ⟨-, hin₁⟩ | ⟨rfl, -⟩
                  · exact hin₁
                  · exact absurd rfl hne
                exact ih (lineStep_progress hq hin.ne_body hplain hl) hin₁
                  (fun l hl => hlines l (by simp [hl])) h
  have hin := init_inHead hq₀
  have hp := hkeep w.wire.lines (init_progress hq₀) hin w.wellFormed.plain w.wellFormed.accepted
  have hl := hp.line (by simp [w.wellFormed.state hin])
  intro hnil
  have := hl.path.start
  rw [hnil] at this
  simp at this

/-- What is the same throughout the runs considered. -/
structure Scenario (js : JsonCpp J) (q₀ : HttpRequest J) (ws : List (ClientRequest q₀))
    (next : ClientRequest q₀) (part : Bytes) : Prop where
  fresh : new js = .ok q₀
  inRange : ∀ w ∈ ws, BodyInRange w.parsed w.wire
  isPart : part <+: next.bytes
  isProper : part ≠ next.bytes
  nextInRange : next.wire.head.length < part.length → next.wire.body.length < 2 ^ 31

/-- **The invariant.** The requests in `done` are finished; of the one behind
them the parser has been given `p`, and `x` has come since. -/
structure Tracks (js : JsonCpp J) (ws : List (ClientRequest q₀)) (next : ClientRequest q₀)
    (part : Bytes) (s : Session J) (done todo : List (ClientRequest q₀)) (cur : ClientRequest q₀)
    (post : J) (p : Bytes) (q : HttpRequest J) (rest x : Bytes) : Prop where
  split : ws = done ++ todo
  current : (todo ++ [next]).head? = some cur
  finished : s.finished.map (fun f => (Except.ok (HttpCode.getRequest, f.1), f.2)) =
    (ends 0 done).map fun e => (parsedAlone js q₀ e.1.bytes, e.2)
  received : s.received = done.flatMap ClientRequest.bytes ++ (p ++ x)
  isPrefix : s.received <+: ws.flatMap ClientRequest.bytes ++ part
  seen : s.seen = (done.flatMap ClientRequest.bytes).length + p.length
  given : p <+: cur.bytes ∧ p ≠ cur.bytes
  position : Position js q₀ cur.parsed cur.wire post p q rest
  request : HttpConn.nextRequest js s.conn.request = .ok q
  buffer : ∃ g n, s.conn.readBuff.Holds g (rest ++ x) n ∧ (g = NUL ∨ rest = p)
  isolated : Isolated js post todo
  index : s.conn.indexFile ≠ none

def SessionInv (js : JsonCpp J) (ws : List (ClientRequest q₀)) (next : ClientRequest q₀)
    (part : Bytes) (s : Session J) : Prop :=
  ∃ done todo cur post p q rest x, Tracks js ws next part s done todo cur post p q rest x

section step

variable {next : ClientRequest q₀} {part : Bytes} {s : Session J}
  {done todo : List (ClientRequest q₀)} {cur : ClientRequest q₀} {post : J} {p rest x : Bytes}
  {q : HttpRequest J}

/-- The ends of the requests that are not finished lie ahead. -/
theorem Tracks.seen_lt (h : Tracks js ws next part s done todo cur post p q rest x) :
    ∀ e ∈ ends (done.flatMap ClientRequest.bytes).length (todo ++ [next]), s.seen < e.2 := by
  have hlt : p.length < cur.bytes.length :=
    lt_of_le_of_ne h.given.1.length_le fun heq => h.given.2 (h.given.1.eq_of_length heq)
  intro e he
  rw [h.seen]
  have hcur := h.current
  cases hlist : todo ++ [next] with
  | nil => simp at hlist
  | cons w l =>
      rw [hlist] at he hcur
      obtain rfl : w = cur := by simpa using hcur
      rw [ends, List.mem_cons] at he
      rcases he with rfl | he
      · show _ < _ + _
        omega
      · have := (mem_ends he).1
        omega

theorem Tracks.lossless (h : Tracks js ws next part s done todo cur post p q rest x) :
    Lossless js ws s := by
  have hlt : ∀ e ∈ ends (done.flatMap ClientRequest.bytes).length todo, s.seen < e.2 := by
    intro e he
    apply h.seen_lt e
    rw [ends_append]
    exact List.mem_append_left _ he
  unfold Lossless
  rw [h.split, filter_ends (by rw [h.seen]; omega) hlt]
  exact h.finished

/-- More bytes. -/
theorem Tracks.receive (h : Tracks js ws next part s done todo cur post p q rest x)
    {reads : List Bytes}
    (hreads : s.received ++ reads.flatten <+: ws.flatMap ClientRequest.bytes ++ part) :
    Tracks js ws next part
      { s with conn := s.conn.readFromFd reads, received := s.received ++ reads.flatten }
      done todo cur post p q rest (x ++ reads.flatten) := by
  obtain ⟨g, n, hb, hg⟩ := h.buffer
  obtain ⟨m, hm⟩ := HttpConn.readFromFd_holds hb reads
  exact { h with
    received := by
      show s.received ++ reads.flatten = _
      rw [h.received]
      simp
    isPrefix := hreads
    buffer := ⟨g, m, by rw [← List.append_assoc]; exact hm, hg⟩ }

/-- What has come of the current request is at most the whole of it. -/
theorem Tracks.within (hsc : Scenario js q₀ ws next part)
    (h : Tracks js ws next part s done todo cur post p q rest x) (hends : EndsWithRead ws s) :
    p ++ x <+: cur.bytes ∧ (todo = [] → p ++ x <+: part) := by
  have hpre := h.isPrefix
  rw [h.received, h.split, List.flatMap_append, List.append_assoc,
    List.prefix_append_right_inj] at hpre
  have hcur := h.current
  cases todo with
  | nil =>
      obtain rfl : next = cur := by simpa using hcur
      have hpart : p ++ x <+: part := by simpa using hpre
      exact ⟨hpart.trans hsc.isPart, fun _ => hpart⟩
  | cons w todo =>
      obtain rfl : w = cur := by simpa using hcur
      refine ⟨?_, fun h => by simp at h⟩
      have hmem : (w, (done.flatMap ClientRequest.bytes).length + w.bytes.length) ∈ ends 0 ws := by
        rw [h.split, ends_append, Nat.zero_add]
        exact List.mem_append_right _ (by simp [ends])
      have hlen : s.received.length =
          (done.flatMap ClientRequest.bytes).length + (p ++ x).length := by
        rw [h.received, List.length_append]
      have hlt := h.seen_lt (w, (done.flatMap ClientRequest.bytes).length + w.bytes.length)
        (by simp [ends])
      have hw : w.bytes <+: (w :: todo).flatMap ClientRequest.bytes ++ part :=
        ⟨todo.flatMap ClientRequest.bytes ++ part, by simp⟩
      rcases Nat.lt_or_ge w.bytes.length (p ++ x).length with hover | hle
      · -- a read that goes on behind the end of the request
        have := hends _ hmem hlt (by simp only; omega)
        simp only at this
        omega
      · exact List.prefix_of_prefix_length_le hpre hw hle

/-- Room for the body, said of the request that is being received. -/
theorem Tracks.room (h : Tracks js ws next part s done todo cur post p q rest x)
    (hroom : RoomInBody (ws ++ [next]) s) :
    ∀ y, p ++ x = cur.wire.head ++ y → y ≠ [] →
      NUL ∈ y ∨ 0 < s.conn.readBuff.writableBytes := by
  intro y hy hne
  have hmem : (cur, (done.flatMap ClientRequest.bytes).length + cur.bytes.length) ∈
      ends (done.flatMap ClientRequest.bytes).length (todo ++ [next]) := by
    have hcur := h.current
    cases hlist : todo ++ [next] with
    | nil => simp at hlist
    | cons w l =>
        rw [hlist] at hcur
        obtain rfl : w = cur := by simpa using hcur
        simp [ends]
  have hmem' : (cur, (done.flatMap ClientRequest.bytes).length + cur.bytes.length) ∈
      ends 0 (ws ++ [next]) := by
    rw [h.split, List.append_assoc, ends_append, Nat.zero_add]
    exact List.mem_append_right _ hmem
  have hdrop : s.received.drop ((done.flatMap ClientRequest.bytes).length + cur.bytes.length -
      cur.wire.body.length) = y := by
    have hlen : (done.flatMap ClientRequest.bytes).length + cur.bytes.length -
        cur.wire.body.length = (done.flatMap ClientRequest.bytes ++ cur.wire.head).length := by
      simp only [ClientRequest.bytes, WireRequest.bytes, List.length_append]
      omega
    rw [h.received, hy, hlen, ← List.append_assoc, List.drop_left]
  have := hroom _ hmem' (h.seen_lt _ hmem)
  simp only [hdrop] at this
  exact this hne

theorem sessionStep_process {webRoot : Bytes} {fs : FileSystem} {state : ProcessState}
    {c' : HttpConn J} (h : s.conn.process js fs webRoot = .ok (state, c')) :
    sessionStep js webRoot s (.process fs) =
      some ({ s with conn := c', seen := s.received.length,
                     finished := if state = .finish then
                         s.finished ++
                           [(c'.request, s.received.length - c'.readBuff.readableBytes)]
                       else s.finished }, ()) := by
  simp only [sessionStep, h]

theorem Tracks.seen_length (h : Tracks js ws next part s done todo cur post p q rest x) :
    s.received.length = (done.flatMap ClientRequest.bytes).length + (p ++ x).length := by
  rw [h.received, List.length_append]

/-- Only of a request in `ws` can the last byte have come. -/
theorem Tracks.todo_of_complete (hsc : Scenario js q₀ ws next part)
    (h : Tracks js ws next part s done todo cur post p q rest x) (hends : EndsWithRead ws s)
    (hall : p ++ x = cur.bytes) : ∃ todo', todo = cur :: todo' := by
  have hcur := h.current
  cases todo with
  | nil =>
      obtain rfl : next = cur := by simpa using hcur
      have hpart := (h.within hsc hends).2 rfl
      rw [hall] at hpart
      exact absurd (hsc.isPart.eq_of_length
        (le_antisymm hsc.isPart.length_le hpart.length_le)) hsc.isProper
  | cons w todo' =>
      obtain rfl : w = cur := by simpa using hcur
      exact ⟨todo', rfl⟩

theorem Tracks.range (hsc : Scenario js q₀ ws next part)
    (h : Tracks js ws next part s done todo cur post p q rest x) (hends : EndsWithRead ws s)
    (hlt : cur.wire.head.length < (p ++ x).length) : cur.wire.body.length < 2 ^ 31 := by
  have hcur := h.current
  cases todo with
  | nil =>
      obtain rfl : next = cur := by simpa using hcur
      exact hsc.nextInRange (lt_of_lt_of_le hlt ((h.within hsc hends).2 rfl).length_le)
  | cons w todo =>
      obtain rfl : w = cur := by simpa using hcur
      have hrange := hsc.inRange w (by rw [h.split]; simp)
      by_cases hcl : contentLength ∈ w.parsed.header
      · exact (hrange hcl).2
      · have hlength := w.wellFormed.length
        simp only [Finmap.lookup_eq_none.mpr hcl] at hlength
        rw [hlength]
        simp

/-- A call that finishes nothing. -/
theorem Tracks.stays (hsc : Scenario js q₀ ws next part)
    (h : Tracks js ws next part s done todo cur post p q rest x) (hends : EndsWithRead ws s)
    {c' : HttpConn J} {rest' : Bytes} {g' : Byte} {n : Nat} (hne : p ++ x ≠ cur.bytes)
    (hpos : Position js q₀ cur.parsed cur.wire post (p ++ x) c'.request rest')
    (hindex : c'.indexFile = s.conn.indexFile) (hbuf : c'.readBuff.Holds g' rest' n)
    (hguard : g' = NUL ∨ rest' = p ++ x) :
    SessionInv js ws next part { s with conn := c', seen := s.received.length } := by
  refine ⟨done, todo, cur, post, p ++ x, c'.request, rest', [], ?_⟩
  exact { h with
    received := by
      show s.received = _
      rw [h.received, List.append_nil]
    seen := h.seen_length
    given := ⟨(h.within hsc hends).1, hne⟩
    position := hpos
    request := by
      show HttpConn.nextRequest js c'.request = _
      rw [HttpConn.nextRequest, if_neg (by simpa [isFinish] using hpos.not_finish cur.wellFormed)]
    buffer := ⟨g', n, by rw [List.append_nil]; exact hbuf, hguard⟩
    index := by
      show c'.indexFile ≠ none
      rw [hindex]
      exact h.index }

/-- A call that finishes the request in hand: nothing of the next one has come. -/
theorem Tracks.finishes {w : ClientRequest q₀} (hsc : Scenario js q₀ ws next part)
    (h : Tracks js ws next part s done (w :: todo) w post p q rest x) (hall : p ++ x = w.bytes)
    {c' : HttpConn J} {r post' : J} {g' : Byte} {n : Nat}
    (hr : postOver js w.parsed w.wire q₀.post = .ok r) (hclear : js.clear r = .ok post')
    (hiso : Isolated js post' todo) (hreq : c'.request = w.parsed.finished w.wire r)
    (hindex : c'.indexFile = s.conn.indexFile) (hbuf : c'.readBuff.Holds g' [] n) :
    SessionInv js ws next part
      { s with conn := c', seen := s.received.length,
               finished := s.finished ++
                 [(c'.request, s.received.length - c'.readBuff.readableBytes)] } := by
  have hin : InHead q₀ := init_inHead hsc.fresh
  have hwrange := hsc.inRange w (by rw [h.split]; simp)
  have hdoneBytes : (done ++ [w]).flatMap ClientRequest.bytes =
      done.flatMap ClientRequest.bytes ++ (p ++ x) := by
    rw [List.flatMap_append, hall]
    simp
  have htaken : c'.readBuff.readableBytes = 0 := by
    rw [hbuf.readableBytes]
    rfl
  obtain ⟨cur', hcur'⟩ : ∃ cur', (todo ++ [next]).head? = some cur' := by
    cases todo with
    | nil => exact ⟨next, rfl⟩
    | cons w' _ => exact ⟨w', rfl⟩
  refine ⟨done ++ [w], todo, cur', post', [], { q₀ with post := post' }, [], [], ?_⟩
  constructor
  case split => rw [h.split]; simp
  case current => exact hcur'
  case finished =>
    show (s.finished ++ [(c'.request, s.received.length - c'.readBuff.readableBytes)]).map _ = _
    rw [List.map_append, h.finished, ends_append, List.map_append, Nat.zero_add, htaken, hreq]
    simp only [List.map_cons, List.map_nil, ends, parsedAlone_eq hin hwrange hr, Nat.sub_zero]
    rw [h.seen_length, hall]
  case received =>
    show s.received = _
    rw [hdoneBytes, h.received]
    simp
  case isPrefix => exact h.isPrefix
  case seen =>
    show s.received.length = _
    rw [hdoneBytes, h.received]
    rfl
  case given => exact ⟨List.nil_prefix, (List.ne_nil_of_length_pos cur'.bytes_pos).symm⟩
  case position => exact @Position.start J js q₀ cur'.parsed cur'.wire post' hin
  case request =>
    show HttpConn.nextRequest js c'.request = _
    have hfin : (w.parsed.finished w.wire r).isFinish = true := by
      unfold HttpRequest.finished
      split <;> rfl
    have hpost : (w.parsed.finished w.wire r).post = r := by
      unfold HttpRequest.finished
      split <;> rfl
    rw [hreq, HttpConn.nextRequest, if_pos hfin, init, hpost, hclear]
    simp only [Except.ok.injEq]
    rw [init_blank hsc.fresh]
  case buffer =>
    refine ⟨g', n, ?_, Or.inr rfl⟩
    show c'.readBuff.Holds g' ([] ++ []) n
    exact hbuf
  case isolated => exact hiso
  case index =>
    show c'.indexFile ≠ none
    rw [hindex]
    exact h.index

/-- One call of `Process`, by what there is to parse. -/
theorem Tracks.process {webRoot : Bytes} (hsc : Scenario js q₀ ws next part) (hroot : webRoot ≠ [])
    (h : Tracks js ws next part s done todo cur post p q rest x) (fs : FileSystem)
    (hends : EndsWithRead ws s) (hroom : RoomInBody (ws ++ [next]) s) :
    ∃ s', sessionStep js webRoot s (.process fs) = some (s', ()) ∧
      SessionInv js ws next part s' := by
  have hwithin := (h.within hsc hends).1
  obtain ⟨g, n, hb, hg⟩ := h.buffer
  by_cases hnil : rest ++ x = []
  · -- nothing to parse
    obtain ⟨rfl, rfl⟩ := List.append_eq_nil_iff.mp hnil
    have hempty : s.conn.readBuff.readableBytes = 0 := by
      rw [hb.readableBytes]
      rfl
    have hproc := @HttpConn.process_of_empty J js fs webRoot s.conn q h.request hempty
    refine ⟨_, sessionStep_process hproc, ?_⟩
    have hpos := h.position
    rw [← List.append_nil p] at hpos
    have hne : p ++ [] ≠ cur.bytes := by
      rw [List.append_nil]
      exact h.given.2
    exact h.stays hsc hends hne hpos rfl hb (by simpa using hg)
  · have hrd : s.conn.readBuff.readableBytes ≠ 0 := by
      rw [hb.readableBytes]
      simpa using hnil
    have hguard : g = CR → (rest ++ x).head? ≠ some LF := by
      intro hcr
      rcases hg with rfl | rfl
      · exact absurd hcr (by decide)
      · exact cur.head_ne hwithin
    have hspare := h.room hroom
    rw [hb.writableBytes] at hspare
    obtain ⟨hmore, hdone⟩ := h.position.step (init_inHead hsc.fresh) cur.wellFormed hwithin hspare
      (h.range hsc hends)
    have hag := parse_stream js q hb hguard hnil
    by_cases hall : p ++ x = cur.bytes
    · -- the last byte of the request has come
      obtain ⟨todo, rfl⟩ := h.todo_of_complete hsc hends hall
      obtain ⟨r, hr, hr₀, post', hclear, hiso⟩ := h.isolated
      have hwrange := hsc.inRange cur (by rw [h.split]; simp)
      rw [hdone hall hwrange r hr] at hag
      obtain ⟨b', hparse, hholds⟩ := hag
      obtain ⟨g', hb', -⟩ := hholds (by decide)
      have hpath : (cur.parsed.finished cur.wire r).path ≠ [] := by
        have := cur.path_ne hsc.fresh
        unfold HttpRequest.finished
        split <;> exact this
      obtain ⟨c', hproc, hreq, hread, hindex⟩ :=
        @HttpConn.process_of_getRequest J js fs webRoot s.conn q _ b' h.request hrd hparse hroot
          hpath h.index
      refine ⟨_, sessionStep_process hproc, ?_⟩
      rw [← hread] at hb'
      exact h.finishes hsc hall hr₀ hclear hiso hreq hindex hb'
    · -- the request goes on
      obtain ⟨q', rest', hstream, hpos⟩ := hmore hall
      rw [hstream] at hag
      obtain ⟨b', hparse, hholds⟩ := hag
      obtain ⟨g', hb', hg'⟩ := hholds (by decide)
      have hproc :=
        @HttpConn.process_of_noRequest J js fs webRoot s.conn q q' b' h.request hrd hparse
      refine ⟨_, sessionStep_process hproc, ?_⟩
      refine h.stays hsc hends hall hpos rfl hb' ?_
      rcases hg' rfl with hnul | ⟨rfl, rfl⟩
      · exact Or.inl hnul
      · rcases hg with hnul | hrest
        · exact Or.inl hnul
        · exact Or.inr (by rw [hrest])

end step

/-- **Pipelining.** On a connection just opened, on which each read that brings the
end of a request ends with it, nothing is lost: `Process` finishes each
request when its last byte has come, with the fields it has when parsed alone,
and takes exactly its bytes. -/
theorem pipelining_lossless {webRoot : Bytes} {next : ClientRequest q₀} {part : Bytes}
    {c : HttpConn J} {post : J} {g : Byte} {u : Bytes} {n : Nat} {fd proxyFd : Int}
    {addr : SockAddr} {index : List Bytes} {events : List SessionEvent}
    (hsc : Scenario js q₀ ws next part) (hroot : webRoot ≠ [])
    (hrequest : c.request = { q₀ with post := post }) (hbuff : c.readBuff.Holds g u n)
    (hisolated : Isolated js post ws)
    (hallowed : (sessionMachine js webRoot (c.init fd addr proxyFd (some index))).Meets
      (StepAllowed ws next part)
      (sessionMachine js webRoot (c.init fd addr proxyFd (some index))).init events) :
    ∃ s os, (sessionMachine js webRoot (c.init fd addr proxyFd (some index))).run events =
      some (s, os) ∧ Lossless js ws s := by
  have hin : InHead q₀ := init_inHead hsc.fresh
  have hinit : SessionInv js ws next part
      (sessionMachine js webRoot (c.init fd addr proxyFd (some index))).init := by
    obtain ⟨cur, hcur⟩ : ∃ cur, (ws ++ [next]).head? = some cur := by
      cases ws with
      | nil => exact ⟨next, rfl⟩
      | cons w _ => exact ⟨w, rfl⟩
    refine ⟨[], ws, cur, post, [], { q₀ with post := post }, [], [], ?_⟩
    constructor
    case split => rfl
    case current => exact hcur
    case finished => rfl
    case received => rfl
    case isPrefix => exact List.nil_prefix
    case seen => rfl
    case given => exact ⟨List.nil_prefix, (List.ne_nil_of_length_pos cur.bytes_pos).symm⟩
    case position => exact Position.start hin
    case request =>
      show HttpConn.nextRequest js c.request = _
      have hstate : q₀.state = .requestLine := by rw [init_blank hsc.fresh]
      rw [hrequest, HttpConn.nextRequest, if_neg (by simp [isFinish, hstate])]
    case buffer => exact ⟨NUL, _, hbuff.clear, Or.inl rfl⟩
    case isolated => exact hisolated
    case index => simp [sessionMachine, HttpConn.init]
  have hstep : ∀ s event, SessionInv js ws next part s → StepAllowed ws next part s event →
      ∃ s' o, (sessionMachine js webRoot (c.init fd addr proxyFd (some index))).step s event =
        some (s', o) ∧ SessionInv js ws next part s' := by
    intro s event hs hP
    obtain ⟨done, todo, cur, post', p, q, rest, x, h⟩ := hs
    cases event with
    | receive reads => exact ⟨_, (), rfl, _, _, _, _, _, _, _, _, h.receive hP⟩
    | process fs =>
        obtain ⟨s', hs', hinv⟩ := h.process hsc hroot fs hP.1 hP.2
        exact ⟨s', (), hs', hinv⟩
  obtain ⟨s, os, hrun, done, todo, cur, post', p, q, rest, x, h⟩ :=
    Machine.run_total_of_meets hinit hstep hallowed
  exact ⟨s, os, hrun, h.lossless⟩

end runs

/-! ## §4  Two requests in one read -/

instance {q₀ : HttpRequest J} (ws : List (ClientRequest q₀)) (s : Session J) :
    Decidable (EndsWithRead ws s) := by
  unfold EndsWithRead
  infer_instance

instance {q₀ : HttpRequest J} (ws : List (ClientRequest q₀)) (s : Session J) :
    Decidable (RoomInBody ws s) := by
  unfold RoomInBody
  infer_instance

instance {q₀ : HttpRequest J} (ws : List (ClientRequest q₀)) (next : ClientRequest q₀)
    (part : Bytes) (s : Session J) (event : SessionEvent) : Decidable (StepAllowed ws next part s event) := by
  cases event <;> unfold StepAllowed <;> infer_instance

/-- A file system with nothing in it. -/
def noFiles : FileSystem :=
  { access := fun _ => false, stat := fun _ => none, canOpen := fun _ => false,
    mmap := fun _ _ => none }

/-- A connection object as the constructor leaves it. -/
def blankConn : HttpConn (Option HeaderMap) :=
  { fd := -1, proxyFd := 0, address := ⟨0, 0, 0, 0⟩, proxyProcessState := .pendingReadFromClient,
    isClose := true, iovCnt := 0, iov₀ := ⟨.wild, 0⟩, iov₁ := ⟨.wild, 0⟩,
    readBuff := { bufferContainer := List.replicate 2048 NUL, readIdx := 1, writeIdx := 1 },
    writeBuff := { bufferContainer := List.replicate 2048 NUL, readIdx := 1, writeIdx := 1 },
    request := blankForm, response := .new ⟨false, false, 0⟩, indexFile := none }

/-- A GET without headers. -/
def plainGet : ClientRequest blankForm where
  wire := { requestLine := ascii "GET / HTTP/1.1", headerLines := [], body := [] }
  parsed := { blankForm with state := .headers, method := ascii "GET", path := ascii "/" }
  wellFormed := by
    have hlookup : blankForm.header.lookup contentLength = none := by decide +kernel
    refine ⟨by decide +kernel, by decide +kernel, ?_⟩
    simp only [hlookup]

/-- The form of one byte. -/
def smallForm : ClientRequest blankForm where
  wire := { requestLine := ascii "POST / HTTP/1.1", headerLines := [ascii "Content-Length: 1"],
            body := ascii "a" }
  parsed := { blankForm with state := .headers, method := ascii "POST", path := ascii "/",
                             header := (∅ : HeaderMap).insert contentLength (ascii "1") }
  wellFormed := by
    have hlookup : ((∅ : HeaderMap).insert contentLength (ascii "1")).lookup contentLength =
        some (ascii "1") := Finmap.lookup_insert _
    refine ⟨by decide +kernel, by decide +kernel, ?_⟩
    simp only [hlookup]
    decide +kernel

/-- The session of a client on a connection just accepted. -/
def blankSession : Machine (Session (Option HeaderMap)) SessionEvent Unit :=
  sessionMachine membersJson (ascii "/var/www") (blankConn.init 5 ⟨10, 0, 0, 7⟩ (-1) (some []))

/-- Two GETs in one read: the first parse takes the bytes of both and finishes one
request, and `Process` has nothing left to finish. -/
theorem pipelining_pair_loses :
    ∃ s os, blankSession.run [.receive [plainGet.bytes ++ plainGet.bytes], .process noFiles,
        .process noFiles] = some (s, os) ∧
      s.finished.map Prod.snd = [plainGet.bytes.length + plainGet.bytes.length] ∧
      s.conn.readBuff.readable = [] ∧ ¬ Lossless membersJson [plainGet, plainGet] s := by
  have hrun : ((blankSession.run [.receive [plainGet.bytes ++ plainGet.bytes], .process noFiles,
      .process noFiles]).map fun r => (r.1.finished.map Prod.snd, r.1.conn.readBuff.readable,
        r.1.seen)) =
      some ([plainGet.bytes.length + plainGet.bytes.length], [],
        plainGet.bytes.length + plainGet.bytes.length) := by
    decide +kernel
  obtain ⟨⟨s, os⟩, hs, hfields⟩ := Option.map_eq_some_iff.mp hrun
  simp only [Prod.mk.injEq] at hfields
  obtain ⟨hfinished, hread, hseen⟩ := hfields
  refine ⟨s, os, hs, hfinished, hread, fun hlossless => ?_⟩
  have hlen := congrArg List.length hlossless
  have hone : s.finished.length = 1 := by
    rw [← List.length_map (f := Prod.snd), hfinished]
    rfl
  rw [List.length_map, List.length_map, hone, hseen] at hlen
  exact absurd hlen (by decide +kernel)

/-- A GET, the form in two reads, and the beginning of another GET. -/
theorem pipelining_lossless_form :
    ∃ s os, blankSession.run [.receive [plainGet.bytes], .process noFiles,
        .receive [smallForm.wire.head], .process noFiles, .receive [ascii "a"], .process noFiles,
        .receive [ascii "GET"], .process noFiles] = some (s, os) ∧
      Lossless membersJson [plainGet, smallForm] s := by
  have hbuff : Buffer.new 2048 = .ok blankConn.readBuff := rfl
  have hsc : Scenario membersJson blankForm [plainGet, smallForm] plainGet (ascii "GET") := by
    constructor
    case fresh => rfl
    case inRange =>
      intro w hw
      rcases List.mem_cons.mp hw with rfl | hw
      · exact fun h => absurd h (by decide +kernel)
      · obtain rfl := List.mem_singleton.mp hw
        exact fun _ => ⟨by decide +kernel, by decide +kernel⟩
    case isPart => decide +kernel
    case isProper => decide +kernel
    case nextInRange => exact fun h => absurd h (by decide +kernel)
  refine pipelining_lossless hsc (by decide)
    (show blankConn.request = { blankForm with post := none } from rfl)
    (Buffer.holds_of_new hbuff) ?_ (by decide +kernel)
  exact ⟨none, by decide +kernel, by decide +kernel, none, rfl, none, by decide +kernel,
    by decide +kernel, none, rfl, trivial⟩

end WhiteWebServer
