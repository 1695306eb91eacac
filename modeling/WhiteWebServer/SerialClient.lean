import WhiteWebServer.Clients
import WhiteWebServer.Pipelining

/-!
# A client that waits for its answers

A client that does not go on behind a request before it has the answer gets one answer
for each request, in order, and each is the answer to that request parsed alone by a
request object that was never used, whatever other clients do. §1 what the parser
makes of such a client; §2 one event; §3 runs of the server.
-/

namespace WhiteWebServer

open HttpConn HttpRequest HttpResponse Outcome

variable {J : Type} {js : JsonCpp J} {q₀ : HttpRequest J} {ws : List (ClientRequest q₀)}
  {next : ClientRequest q₀} {n : Nat}

/-! ## §1  The session of the client -/

section session

variable {part : Bytes} {s : Session J} {done todo : List (ClientRequest q₀)}
  {cur : ClientRequest q₀} {post : J} {p rest x : Bytes} {q : HttpRequest J}

theorem ends_map_fst : ∀ (ws : List (ClientRequest q₀)) (start : Nat),
    (ends start ws).map Prod.fst = ws
  | [], _ => rfl
  | w :: ws, start => by rw [ends, List.map_cons, ends_map_fst ws]

/-- Nothing is rejected. -/
theorem Tracks.parses (hsc : Scenario js q₀ ws next part)
    (h : Tracks js ws next part s done todo cur post p q rest x) (hends : EndsWithRead ws s)
    (hroom : RoomInBody (ws ++ [next]) s) {code : HttpCode} {q' : HttpRequest J} {b' : Buffer}
    (hparse : q.parse js s.conn.readBuff = .ok (code, q', b')) (hcode : code ≠ .noRequest) :
    code = .getRequest := by
  have hwithin := (h.within hsc hends).1
  obtain ⟨g, n, hb, hg⟩ := h.buffer
  by_cases hnil : rest ++ x = []
  · rw [hnil] at hb
    rw [parse_nil js q hb] at hparse
    exact absurd (Prod.mk.inj (Except.ok.inj hparse)).1.symm hcode
  · have hguard : g = CR → (rest ++ x).head? ≠ some LF := by
      intro hcr
      rcases hg with rfl | rfl
      · exact absurd hcr (by decide)
      · exact cur.head_ne hwithin
    have hspare := h.room hroom
    rw [hb.writableBytes] at hspare
    obtain ⟨hmore, hdone⟩ := h.position.step (init_inHead hsc.fresh) cur.wellFormed hwithin hspare
      (h.range hsc hends)
    have hag := parse_stream js q hb hguard hnil
    by_cases hall : p ++ x = cur.bytes
    · obtain ⟨todo, rfl⟩ := h.todo_of_complete hsc hends hall
      obtain ⟨r, hr, -, -, -, -⟩ := h.isolated
      rw [hdone hall (hsc.inRange cur (by rw [h.split]; simp)) r hr] at hag
      obtain ⟨b, hb', -⟩ := hag
      exact (Prod.mk.inj (Except.ok.inj (hparse.symm.trans hb'))).1
    · obtain ⟨q₁, rest', hstream, -⟩ := hmore hall
      rw [hstream] at hag
      obtain ⟨b, hb', -⟩ := hag
      exact absurd (Prod.mk.inj (Except.ok.inj (hparse.symm.trans hb'))).1 hcode

theorem Tracks.done_length (h : Tracks js ws next part s done todo cur post p q rest x) :
    s.finished.length = done.length := by
  have hlength := congrArg List.length h.finished
  rwa [List.length_map, List.length_map,
    ← @List.length_map _ _ (WhiteWebServer.ends 0 done) Prod.fst, ends_map_fst] at hlength

/-- The request that was finished is the one the client sent, parsed alone. -/
theorem Tracks.finished_get (h : Tracks js ws next part s done todo cur post p q rest x) {k : Nat}
    {f : HttpRequest J × Nat} (hf : s.finished[k]? = some f) :
    ∃ w, ws[k]? = some w ∧ parsedAlone js q₀ w.bytes = .ok (.getRequest, f.1) := by
  have hget := congrArg (fun l => l[k]?) h.finished
  simp only [List.getElem?_map, hf, Option.map_some] at hget
  obtain ⟨e, he, heq⟩ := Option.map_eq_some_iff.mp hget.symm
  refine ⟨e.1, ?_, congrArg Prod.fst heq⟩
  have hdone : done[k]? = some e.1 := by
    rw [← ends_map_fst done 0, List.getElem?_map, he, Option.map_some]
  rw [h.split, List.getElem?_append_left (List.getElem?_eq_some_iff.mp hdone).1]
  exact hdone

/-- A client that does not go on behind the request in hand ends its reads with it. -/
theorem Tracks.endsWithRead (h : Tracks js ws next part s done todo cur post p q rest x)
    (hserial : s.received <+: (ws.take (done.length + 1)).flatMap ClientRequest.bytes) :
    EndsWithRead ws s := by
  intro e he hseen hle
  apply le_antisymm hle
  have hbound := hserial.length_le
  rw [h.split, List.take_append, Nat.add_sub_cancel_left, List.take_of_length_le (Nat.le_succ _),
    List.flatMap_append, List.length_append] at hbound
  rw [h.split, ends_append, Nat.zero_add] at he
  rcases List.mem_append.mp he with he | he
  · -- an end that was seen
    have hend := (mem_ends he).2
    have hstart := h.seen
    omega
  · cases todo with
    | nil => cases he
    | cons w todo =>
        have hw : s.received.length ≤
            (done.flatMap ClientRequest.bytes).length + w.bytes.length := by
          simpa using hbound
        rw [ends, List.mem_cons] at he
        rcases he with rfl | he
        · exact hw
        · exact hw.trans (mem_ends he).1.le

/-- Of the request behind the last one nothing comes. -/
theorem room_snoc (hroom : RoomInBody ws s)
    (hreceived : s.received <+: ws.flatMap ClientRequest.bytes) : RoomInBody (ws ++ [next]) s := by
  intro e he hseen hne
  rw [ends_append, Nat.zero_add] at he
  rcases List.mem_append.mp he with he | he
  · exact hroom e he hseen hne
  · rw [ends, ends, List.mem_singleton] at he
    refine absurd (List.drop_eq_nil_of_le (hreceived.length_le.trans ?_)) hne
    rw [he]
    dsimp only [ClientRequest.bytes, WireRequest.bytes]
    rw [List.length_append]
    omega

theorem SessionInv.withConn (h : SessionInv js ws next part s) {c : HttpConn J}
    (hread : c.readBuff = s.conn.readBuff) (hrequest : c.request = s.conn.request)
    (hindex : c.indexFile = s.conn.indexFile) :
    SessionInv js ws next part { s with conn := c } := by
  obtain ⟨done, todo, cur, post, p, q, rest, x, h⟩ := h
  refine ⟨done, todo, cur, post, p, q, rest, x, ?_⟩
  exact { h with
    request := by
      show nextRequest js c.request = _
      rw [hrequest]
      exact h.request
    buffer := by
      show ∃ g n, c.readBuff.Holds g (rest ++ x) n ∧ _
      rw [hread]
      exact h.buffer
    index := by
      show c.indexFile ≠ none
      rw [hindex]
      exact h.index }

theorem SessionInv.finished_get (h : SessionInv js ws next part s) {k : Nat}
    {f : HttpRequest J × Nat} (hf : s.finished[k]? = some f) :
    ∃ w, ws[k]? = some w ∧ parsedAlone js q₀ w.bytes = .ok (.getRequest, f.1) := by
  obtain ⟨done, todo, cur, post, p, q, rest, x, h⟩ := h
  exact h.finished_get hf

/-- **A read of such a client**, and `Process` behind it. -/
theorem SessionInv.serial {webRoot : Bytes} {fs : FileSystem} {reads : List Bytes}
    {result : ProcessState} {c' : HttpConn J} (hsc : Scenario js q₀ ws next [])
    (hroot : webRoot ≠ []) (h : SessionInv js ws next [] s)
    (hbefore : s.received ++ reads.flatten <+:
      (ws.take (s.finished.length + 1)).flatMap ClientRequest.bytes)
    (hroom : RoomInBody ws ⟨s.conn.readFromFd reads, s.received ++ reads.flatten, s.seen, []⟩)
    (hprocess : (s.conn.readFromFd reads).process js fs webRoot = .ok (result, c')) :
    SessionInv js ws next [] ⟨c', s.received ++ reads.flatten, (s.received ++ reads.flatten).length,
        if result = .finish then s.finished ++
          [(c'.request, (s.received ++ reads.flatten).length - c'.readBuff.readableBytes)]
        else s.finished⟩ ∧
      ∀ {q q' : HttpRequest J} {code : HttpCode} {b : Buffer},
        nextRequest js s.conn.request = .ok q →
          q.parse js (s.conn.readFromFd reads).readBuff = .ok (code, q', b) →
            code ≠ .noRequest → code = .getRequest := by
  obtain ⟨done, todo, cur, post, p, q, rest, x, h⟩ := h
  have hwithin : s.received ++ reads.flatten <+: ws.flatMap ClientRequest.bytes := by
    refine hbefore.trans ⟨(ws.drop (s.finished.length + 1)).flatMap ClientRequest.bytes, ?_⟩
    rw [← List.flatMap_append, List.take_append_drop]
  have hwithin' : s.received ++ reads.flatten <+: ws.flatMap ClientRequest.bytes ++ [] := by
    rw [List.append_nil]
    exact hwithin
  have h₁ := h.receive hwithin'
  have hends := h₁.endsWithRead (by rw [← h.done_length]; exact hbefore)
  have hroom₁ : RoomInBody (ws ++ [next]) (Session.mk (s.conn.readFromFd reads)
      (s.received ++ reads.flatten) s.seen s.finished) := room_snoc hroom hwithin
  constructor
  · obtain ⟨s', hstep, hinv⟩ := h₁.process hsc hroot fs hends hroom₁
    rw [sessionStep_process hprocess] at hstep
    rw [← (Prod.mk.inj (Option.some.inj hstep)).1] at hinv
    exact hinv
  · intro q₁ q' code b hnext hparse hcode
    obtain rfl : q₁ = q := Except.ok.inj (hnext.symm.trans h.request)
    exact h₁.parses hsc hends hroom₁ hparse hcode

end session

/-! ## §2  One event -/

variable {cfg : ServerConfig J} {x x' : Dialogue J} {fd : Int} {client : HttpConn J}

/-- The answer to the request parsed alone, by an object that was never used. -/
def ClientRequest.Answered (cfg : ServerConfig J) (w : ClientRequest q₀) (a : Answer) : Prop :=
  ∃ q, parsedAlone cfg.js q₀ w.bytes = .ok (.getRequest, q) ∧
    answerText a.fs cfg.webRoot q.path q.version cfg.indexFile q.isKeepAlive 200 = .ok a.bytes

def EachAnswered (cfg : ServerConfig J) (ws : List (ClientRequest q₀)) (answers : List Answer) :
    Prop :=
  ∀ (k : Nat) (a : Answer), answers[k]? = some a →
    ∃ w : ClientRequest q₀, ws[k]? = some w ∧ w.Answered cfg a

theorem EachAnswered.snoc {cfg : ServerConfig J} {answers : List Answer} {w : ClientRequest q₀}
    {a : Answer} (h : EachAnswered cfg ws answers) (hw : ws[answers.length]? = some w)
    (ha : w.Answered cfg a) : EachAnswered cfg ws (answers ++ [a]) := by
  intro k a' hk
  rcases Nat.lt_or_ge k answers.length with hlt | hge
  · rw [List.getElem?_append_left hlt] at hk
    exact h k a' hk
  · rw [List.getElem?_append_right hge, List.getElem?_singleton] at hk
    split at hk
    · rename_i hzero
      obtain rfl := Option.some.inj hk
      obtain rfl : k = answers.length := le_antisymm (Nat.sub_eq_zero_iff_le.mp hzero) hge
      exact ⟨w, hw, ha⟩
    · cases hk

namespace Dialogue

/-- The session behind a read. -/
def session (client : HttpConn J) (reads : List Bytes) (x : Dialogue J) : Session J :=
  { conn := client.readFromFd reads, received := x.received ++ reads.flatten,
    seen := x.received.length, finished := [] }

/-- The client does not go on behind the request whose answer it waits for, and inside a body
there is a writable byte. -/
def Serial (ws : List (ClientRequest q₀)) (x : Dialogue J) : DialogueEvent → Prop
  | .accept _ => False
  | .read w =>
      x.received ++ w.reads.flatten <+:
          (ws.take (x.answers.length + 1)).flatMap ClientRequest.bytes ∧
        ∀ client, x.conn = some client → RoomInBody ws (x.session client w.reads)
  | _ => True

instance (ws : List (ClientRequest q₀)) (x : Dialogue J) (event : DialogueEvent) :
    Decidable (x.Serial ws event) :=
  match event with
  | .accept _ => isFalse not_false
  | .read w => decidable_of_iff
      (x.received ++ w.reads.flatten <+:
          (ws.take (x.answers.length + 1)).flatMap ClientRequest.bytes ∧
        ∀ client ∈ x.conn, RoomInBody ws (x.session client w.reads)) Iff.rfl
  | .write _ => isTrue trivial
  | .hangUp => isTrue trivial

/-- Each answer is that of its request; while the connection is open there is one for each
request that has come in full. -/
structure Served (cfg : ServerConfig J) (ws : List (ClientRequest q₀)) (next : ClientRequest q₀)
    (x : Dialogue J) : Prop where
  answered : EachAnswered cfg ws x.answers
  session : x.phase ≠ .closed → ∃ s : Session J, x.conn = some s.conn ∧ s.received = x.received ∧
    s.seen = x.received.length ∧ s.finished.length = x.answers.length ∧
    SessionInv cfg.js ws next [] s

theorem Served.count (h : Served cfg ws next x) (hopen : x.phase ≠ .closed) :
    x.answers.length =
      ((WhiteWebServer.ends 0 ws).filter fun e => e.2 ≤ x.received.length).length := by
  obtain ⟨s, -, -, hseen, hlength, done, todo, cur, post, p, q, rest, y, hinv⟩ := h.session hopen
  have hlossless := congrArg List.length hinv.lossless
  rwa [List.length_map, List.length_map, hlength, hseen] at hlossless

theorem served_closed (h : EachAnswered cfg ws x.answers)
    (hclose : x.close cfg client = some x') : Served cfg ws next x' := by
  unfold close at hclose
  split at hclose
  · cases hclose
  · obtain rfl := Option.some.inj hclose
    exact ⟨h, fun hopen => absurd rfl hopen⟩

theorem Served.reads {w : TaskWorld} (hsc : Scenario cfg.js q₀ ws next [])
    (hroot : cfg.webRoot ≠ []) (h : Served cfg ws next x) (hin : x.InOrder cfg)
    (hreading : x.phase = .reading) (hconn : x.conn = some client) (hsmall : SmallFiles w.fs)
    (hwhole : MapsWhole w.fs) (hserial : x.Serial ws (.read w))
    (hread : x.read cfg w client = some x') : Served cfg ws next x' := by
  have hopen : x.phase ≠ .closed := by
    rw [hreading]
    exact Phase.noConfusion
  obtain ⟨g, n, hempty⟩ := (hin.reading hreading).2 client hconn
  obtain ⟨s, hsconn, hreceived, hseen, hlength, hinv⟩ := h.session hopen
  obtain rfl : client = s.conn := Option.some.inj (hconn.symm.trans hsconn)
  have hindex : (s.conn.readFromFd w.reads).indexFile = cfg.indexFile :=
    hin.index hopen s.conn hconn
  obtain ⟨hbefore, hroom⟩ := hserial
  have hroom := hroom s.conn hconn
  rw [Dialogue.session, ← hseen] at hroom
  rw [← hreceived, ← hlength] at hbefore
  rw [← hreceived] at hroom
  unfold read at hread
  dsimp only at hread
  split at hread
  · exact served_closed (x := { x with received := x.received ++ w.reads.flatten }) h.answered hread
  · cases hprocess : (s.conn.readFromFd w.reads).process cfg.js w.fs cfg.webRoot with
    | error e => simp [hprocess] at hread
    | ok result =>
        obtain ⟨result, client'⟩ := result
        rw [hprocess, ← hreceived] at hread
        obtain ⟨hinv', hrejects⟩ := hinv.serial hsc hroot hbefore hroom hprocess
        have hwaits : result ≠ .finish → Served cfg ws next
            { x with received := s.received ++ w.reads.flatten, conn := some client' } := by
          intro hresult
          rw [if_neg hresult] at hinv'
          exact ⟨h.answered, fun _ => ⟨⟨client', s.received ++ w.reads.flatten, _, s.finished⟩,
            rfl, rfl, rfl, hlength, hinv'⟩⟩
        cases result with
        | finish =>
            obtain ⟨bytes, hoffered, rfl⟩ := Option.map_eq_some_iff.mp hread
            obtain ⟨q₁, code, q₂, b, text, hnext, hparse, hcode, rfl, -, htext, hunsent⟩ :=
              process_answers (c := s.conn.readFromFd w.reads) hempty hsmall hwhole hprocess
            rw [List.nil_append] at hunsent
            obtain rfl : text = bytes := Option.some.inj (hunsent.offered.symm.trans hoffered)
            obtain rfl := hrejects hnext hparse hcode
            rw [if_pos rfl] at hinv'
            refine ⟨?_, fun _ => ⟨_, rfl, rfl, rfl, ?_, hinv'⟩⟩
            · obtain ⟨w₀, hw₀, hparsed⟩ := hinv'.finished_get List.getElem?_concat_length
              rw [hlength] at hw₀
              rw [hindex] at htext
              exact h.answered.snoc hw₀ ⟨_, hparsed, htext⟩
            · show (s.finished ++ [_]).length = (x.answers ++ [Answer.mk w.fs text]).length
              simp only [List.length_append, List.length_cons, List.length_nil, hlength]
        | pending =>
            obtain rfl := Option.some.inj hread
            exact hwaits fun hfinish => nomatch hfinish
        | fail =>
            obtain rfl := Option.some.inj hread
            exact hwaits fun hfinish => nomatch hfinish

theorem Served.writes {w : TaskWorld} (h : Served cfg ws next x) (hopen : x.phase ≠ .closed)
    (hconn : x.conn = some client) (hwrite : x.write cfg w client = some x') :
    Served cfg ws next x' := by
  obtain ⟨s, hsconn, hreceived, hseen, hlength, hinv⟩ := h.session hopen
  obtain rfl : client = s.conn := Option.some.inj (hconn.symm.trans hsconn)
  obtain ⟨hrequest, hread⟩ := writeToFd_kept w.last w.counts s.conn
  obtain ⟨s', hs'⟩ : ∃ s' : Session J,
      s' = { s with conn := (s.conn.writeToFd w.last w.counts).2 } := ⟨_, rfl⟩
  have hinv' : SessionInv cfg.js ws next [] s' := by
    rw [hs']
    exact hinv.withConn hread hrequest (writeLoop_indexFile w.last w.counts 0 s.conn)
  have hconn' : some (s.conn.writeToFd w.last w.counts).2 = some s'.conn := by rw [hs']
  have hreceived' : s'.received = x.received := by rw [hs', ← hreceived]
  have hseen' : s'.seen = x.received.length := by rw [hs', ← hseen]
  have hlength' : s'.finished.length = x.answers.length := by rw [hs', ← hlength]
  unfold write at hwrite
  split at hwrite
  · cases hwrite
  · rename_i bytes hbytes
    dsimp only at hwrite
    split at hwrite
    · obtain rfl := Option.some.inj hwrite
      exact ⟨h.answered, fun _ => ⟨s', hconn', hreceived', hseen', hlength', hinv'⟩⟩
    · split at hwrite
      · obtain rfl := Option.some.inj hwrite
        exact ⟨h.answered, fun _ => ⟨s', hconn', hreceived', hseen', hlength', hinv'⟩⟩
      · exact served_closed (x := { x with sent := x.sent ++ bytes }) h.answered hwrite

theorem Served.step {event : DialogueEvent} (hsc : Scenario cfg.js q₀ ws next [])
    (hroot : cfg.webRoot ≠ []) (h : Served cfg ws next x) (hin : x.InOrder cfg)
    (hordinary : x.Ordinary event) (hserial : x.Serial ws event)
    (hstep : x.step cfg fd event = some x') : Served cfg ws next x' := by
  cases event with
  | accept addr => exact absurd hserial not_false
  | read w =>
      obtain ⟨hreading, hread⟩ := Option.ite_none_right_eq_some.mp hstep
      obtain ⟨client, hconn, hread⟩ := Option.bind_eq_some_iff.mp hread
      exact h.reads hsc hroot hin hreading hconn hordinary.1 hordinary.2 hserial hread
  | write w =>
      obtain ⟨hwriting, hwrite⟩ := Option.ite_none_right_eq_some.mp hstep
      obtain ⟨client, hconn, hwrite⟩ := Option.bind_eq_some_iff.mp hwrite
      refine h.writes ?_ hconn hwrite
      rw [hwriting]
      exact Phase.noConfusion
  | hangUp =>
      obtain ⟨-, hclose⟩ := Option.ite_none_left_eq_some.mp hstep
      obtain ⟨client, -, hclose⟩ := Option.bind_eq_some_iff.mp hclose
      exact served_closed h.answered hclose

end Dialogue

namespace HttpServer

variable {s : HttpServer J} {steps : List ServerStep} {os : List Unit}

end HttpServer

end WhiteWebServer
