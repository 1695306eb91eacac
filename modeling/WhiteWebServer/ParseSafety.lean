import WhiteWebServer.ConnRuns

/-!
# When `Parse` stays within the language

`Parse` reads C strings at the read position and hands what the client sent to
`std::stoi`, `strncasecmp` and jsoncpp. For every buffer a connection can come to,
whether each of these is in order is a condition on the bytes: §1 on the C-string
reads, §2 on everything that can fail.
-/

namespace WhiteWebServer

variable {J : Type} {js : JsonCpp J} {q q' : HttpRequest J} {b b' : Buffer} {g : Byte} {u : Bytes}
  {n : Nat}

/-- The C string at the read position ends in the storage, at the write position or
before it. -/
def Buffer.CstringInside (b : Buffer) : Prop :=
  ∃ i, b.readIdx ≤ i ∧ i ≤ b.writeIdx ∧ b.bufferContainer[i]? = some NUL

theorem Buffer.Holds.cstringInside_iff (h : b.Holds g u n) : b.CstringInside ↔ NUL ∈ u ∨ 0 < n := by
  have hget : ∀ i, b.bufferContainer[b.readIdx + i]? = (u ++ List.replicate n NUL)[i]? := by
    intro i
    rw [← List.getElem?_drop, h.drop_readIdx]
  have hwrite : b.writeIdx = b.readIdx + u.length := by
    obtain ⟨pre, -, hr, hw⟩ := h
    rw [hr, hw]
  constructor
  · rintro ⟨i, hle, hi, hnul⟩
    obtain ⟨k, rfl⟩ := Nat.exists_eq_add_of_le hle
    rw [hget] at hnul
    by_cases hk : k < u.length
    · rw [List.getElem?_append_left hk] at hnul
      exact Or.inl (List.mem_of_getElem? hnul)
    · refine Or.inr (Nat.pos_of_ne_zero ?_)
      rintro rfl
      rw [List.replicate_zero, List.append_nil, List.getElem?_eq_none (by omega)] at hnul
      cases hnul
  · rintro (hmem | hn)
    · obtain ⟨k, hk, hnul⟩ := List.mem_iff_getElem.mp hmem
      refine ⟨b.readIdx + k, Nat.le_add_right _ _, by omega, ?_⟩
      rw [hget, List.getElem?_append_left hk, List.getElem?_eq_getElem hk, hnul]
    · refine ⟨b.readIdx + u.length, Nat.le_add_right _ _, hwrite.ge, ?_⟩
      rw [hget, List.getElem?_append_right (le_refl _), Nat.sub_self,
        List.getElem?_replicate_of_lt hn]

namespace HttpRequest

/-! ## §1  The C-string reads -/

/-- The reads of one call of `Parse`: each turn whose line is complete reads it as a
C string. -/
def ReadsInside (js : JsonCpp J) (q : HttpRequest J) (b : Buffer) : Prop :=
  ∀ p ∈ standsOf js q b, ∀ len b₁, parseLine p.1 p.2 = (.lineOk, len, b₁) → b₁.CstringInside

/-- `body_` afterwards is made of received bytes. -/
def BodyReceived (js : JsonCpp J) (q : HttpRequest J) (b : Buffer) : Prop :=
  ∀ code q' b', parse js q b = .ok (code, q', b') → q'.body <:+: b.readable

/-- A byte is free behind the received ones, or a NUL is in each body that is taken
up. -/
def BodyEnds (js : JsonCpp J) (q : HttpRequest J) (b : Buffer) : Prop :=
  0 < b.writableBytes ∨ ∀ p ∈ standsOf js q b, p.1.state = .body → NUL ∈ p.2.readable

theorem readsInside_iff (h : b.Holds g u n) : ReadsInside js q b ↔ BodyEnds js q b := by
  rw [BodyEnds, h.writableBytes]
  constructor
  · intro hreads
    refine or_iff_not_imp_left.mpr fun hn p hp hbody => ?_
    obtain ⟨g', u', hp', -, -⟩ := standsOf_part h hp
    have hinside := hreads p hp p.2.readableBytes p.2 (by rw [parseLine, if_pos hbody])
    rw [hp'.readable]
    exact (hp'.cstringInside_iff.mp hinside).resolve_right hn
  · intro hends p hp len b₁ hline
    obtain ⟨g', u', hp', -, -⟩ := standsOf_part h hp
    by_cases hbody : p.1.state = .body
    · rw [parseLine, if_pos hbody] at hline
      obtain ⟨-, rfl⟩ : p.2.readableBytes = len ∧ p.2 = b₁ := by simpa using hline
      refine hp'.cstringInside_iff.mpr (hends.symm.imp_left fun hall => ?_)
      rw [← hp'.readable]
      exact hall p hp hbody
    · -- the line of a head ends where its CR was
      obtain ⟨g₁, u₁, h₁, -, hnul, -, -, -⟩ := parseLine_cut hp' hbody hline
      exact h₁.cstringInside_iff.mpr (Or.inl hnul)

theorem bodyReceived (h : b.Holds g u n) (hq : q.body = []) : BodyReceived js q b := by
  intro code q' b' hparse
  rw [h.readable]
  rcases (parse_body h hparse fun _ => hq).2 with heq | ⟨hinside, -⟩
  · rw [heq, hq]
    exact List.nil_infix
  · exact hinside

end HttpRequest

/-- In every run of a connection, the C strings that `Parse` reads stay inside the
received bytes exactly where each body has a byte behind it or a NUL in it. -/
theorem HttpConn.parse_reads_inside_iff {webRoot : Bytes} {c : HttpConn J}
    (hc : Reached js webRoot c)
    (hq : nextRequest js c.request = .ok q) :
    (HttpRequest.ReadsInside js q c.readBuff ∧ HttpRequest.BodyReceived js q c.readBuff) ↔
      HttpRequest.BodyEnds js q c.readBuff := by
  obtain ⟨g, u, n, h⟩ := hc.buffersStored.readBuff
  rw [HttpRequest.readsInside_iff h]
  exact and_iff_left (HttpRequest.bodyReceived h (nextRequest_body hc.bodyOpen hq))

theorem HttpConn.parse_reads_inside_form :
    ∃ c : HttpConn (Option HeaderMap), Reached HttpRequest.membersJson [] c ∧
      c.readBuff.readable = HttpRequest.formHead ++ ascii "a" ∧
      ∃ q, nextRequest HttpRequest.membersJson c.request = .ok q ∧
        HttpRequest.ReadsInside HttpRequest.membersJson q c.readBuff ∧
        HttpRequest.BodyReceived HttpRequest.membersJson q c.readBuff := by
  obtain ⟨c, hc, hrequest, -, h⟩ := reached_first_read
    (show HttpRequest.new HttpRequest.membersJson = .ok HttpRequest.blankForm from rfl) []
    (show (HttpRequest.formHead ++ ascii "a").length ≤ 2047 from by decide)
  have hq : nextRequest HttpRequest.membersJson c.request = .ok HttpRequest.blankForm := by
    rw [hrequest]
    rfl
  refine ⟨c, hc, h.readable, _, hq, (parse_reads_inside_iff hc hq).mpr (Or.inl ?_)⟩
  rw [h.writableBytes]
  decide

namespace HttpRequest

/-- A form of 2006 bytes, of which none is a NUL. -/
def fullForm : Bytes :=
  ascii "POST / HTTP/1.1" ++ CR :: LF :: (ascii "Content-Length: 2006" ++ CR :: LF ::
    ([] ++ CR :: LF :: List.replicate 2006 97))

theorem fullForm_length : fullForm.length = 2047 := by
  simp only [fullForm, List.length_append, List.length_cons, List.length_replicate]
  rfl

/-- The request behind its request line, and behind the header line. -/
def formStarted : HttpRequest (Option HeaderMap) :=
  { blankForm with state := .headers, method := ascii "POST", path := ascii "/" }

def formAnnounced : HttpRequest (Option HeaderMap) :=
  { formStarted with header := (∅ : HeaderMap).insert contentLength (ascii "2006") }

/-- One read that fills the buffer to its last byte: what follows the body is outside the
storage. -/
theorem full_buffer_reads_outside :
    ∃ c : HttpConn (Option HeaderMap), HttpConn.Reached membersJson [] c ∧
      ∃ q, HttpConn.nextRequest membersJson c.request = .ok q ∧
        ¬ (ReadsInside membersJson q c.readBuff ∧ BodyReceived membersJson q c.readBuff) := by
  obtain ⟨c, hc, hrequest, -, h⟩ := HttpConn.reached_first_read
    (show new membersJson = .ok blankForm from rfl) [] fullForm_length.le
  refine ⟨c, hc, blankForm, by rw [hrequest]; rfl, ?_⟩
  rintro ⟨hreads, -⟩
  have hguard : ∀ u : Bytes, NUL = CR → u.head? ≠ some LF := fun _ hcr => absurd hcr (by decide)
  -- the three lines of the head
  obtain ⟨b₁, hturn₁, h₁⟩ := turn_line membersJson h (hguard _) (show blankForm.state ≠ .body by decide)
    (splitLine_eq_some.mpr ⟨rfl, by decide⟩)
    (show lineStep _ _ = .ok (true, formStarted) by decide +kernel)
  obtain ⟨b₂, hturn₂, h₂⟩ := turn_line membersJson h₁ (hguard _) (show formStarted.state ≠ .body by decide)
    (splitLine_eq_some.mpr ⟨rfl, by decide⟩)
    (show lineStep _ _ = .ok (true, formAnnounced) by decide +kernel)
  obtain ⟨b₃, hturn₃, h₃⟩ := turn_line membersJson h₂ (hguard _) (show formAnnounced.state ≠ .body by decide)
    (splitLine_eq_some.mpr ⟨rfl, by decide⟩)
    (show lineStep _ _ = .ok (true, { formAnnounced with state := .body }) by decide +kernel)
  have hstand : ({ formAnnounced with state := .body }, b₃) ∈
      standsOf membersJson blankForm c.readBuff := by
    rw [standsOf, h.readableBytes, fullForm_length]
    have hbehind : ∀ line rest : Bytes, line ++ CR :: LF :: rest ≠ [] := fun line rest =>
      List.append_ne_nil_of_right_ne_nil _ (List.cons_ne_nil _ _)
    refine mem_stands_later h (hbehind _ _) hturn₁ (mem_stands_later h₁ (hbehind _ _) hturn₂
      (mem_stands_later h₂ (hbehind _ _) hturn₃ (mem_stands_self 2044 _ h₃ ?_)))
    rw [Ne, List.replicate_eq_nil_iff]
    decide
  have hinside := hreads _ hstand b₃.readableBytes b₃ (by rw [parseLine, if_pos rfl])
  rcases h₃.cstringInside_iff.mp hinside with hnul | hn
  · exact absurd (List.eq_of_mem_replicate hnul) (by decide)
  · rw [fullForm_length] at hn
    exact absurd hn (by decide)

/-! ## §2  What can fail -/

/-- The line `ParseLine` cuts off at the read position. -/
def lineAt (q : HttpRequest J) (b : Buffer) : Option Bytes :=
  match parseLine q b with
  | (.lineOk, _, b) => (readCstring b).toOption
  | _ => none

/-- The target of a request line whose method and version are accepted. -/
def requestTarget (line : Bytes) : Option Bytes := do
  let i ← strpbrk line blanks
  let _ ← methodOf (line.take i)
  let url := line.drop (i + 1 + strspn (line.drop (i + 1)) blanks)
  let j ← strpbrk url blanks
  let version := url.drop (j + 1)
  let _ ← versionOf (version.drop (strspn version blanks))
  return url.take j

/-- The key and the value of a header line. -/
def headerField (line : Bytes) : Option (Bytes × Bytes) := do
  let i ← strpbrk line separators
  let value := line.drop (i + 1)
  return (strToupper (line.take i), value.drop (strspn value separators))

/-- A header line with a length that `std::stoi` refuses. -/
def MalformedLength (line : Bytes) : Prop :=
  ∃ value, headerField line = some (contentLength, value) ∧ ∃ e, stoi value = .error e

/-- A domain with nothing behind it. -/
def BareDomain (line : Bytes) : Prop :=
  ∃ url, requestTarget line = some url ∧ skipDomain url (ascii "http://") = none

/-- A body that `ParseBody` can take: its C string ends, its length is a number, and if
all of it is there then it decodes. -/
structure BodyInOrder (js : JsonCpp J) (q : HttpRequest J) (b : Buffer) : Prop where
  ends : 0 < b.writableBytes ∨ NUL ∈ b.readable
  length : ∃ m, stoi (q.header.access contentLength).1 = .ok m ∧
    (toSize m ≤ b.readableBytes → ∃ post, postValue js
      ((q.header.access contentLength).2.access contentType).1 (cstr b.readable) q.post = .ok post)

/-- Nothing at the read position makes a turn fail. -/
structure InOrder (js : JsonCpp J) (q : HttpRequest J) (b : Buffer) : Prop where
  requestLine : q.state = .requestLine → ∀ line, lineAt q b = some line → ¬ BareDomain line
  headers : q.state = .headers → ∀ line, lineAt q b = some line → ¬ MalformedLength line
  body : q.state = .body → BodyInOrder js q b

theorem pathOf_eq_error {url : Bytes} :
    (∃ e, pathOf url = .error e) ↔ skipDomain url (ascii "http://") = none := by
  unfold pathOf
  cases skipDomain url (ascii "http://") with
  | none => simp
  | some url =>
      simp only
      cases skipDomain url (ascii "https://") <;> simp

theorem parseRequestLine_eq_error {line : Bytes} :
    (∃ e, parseRequestLine q line = .error e) ↔ BareDomain line := by
  unfold BareDomain requestTarget parseRequestLine
  cases strpbrk line blanks with
  | none => simp
  | some i =>
      simp only [Option.bind_eq_bind, Option.bind_some]
      cases methodOf (line.take i) with
      | none => simp
      | some method =>
          simp only [Option.bind_some]
          generalize line.drop (i + 1 + strspn (line.drop (i + 1)) blanks) = url
          cases strpbrk url blanks with
          | none => simp
          | some j =>
              simp only [Option.bind_some]
              generalize (url.drop (j + 1)).drop (strspn (url.drop (j + 1)) blanks) = token
              cases versionOf token with
              | none => simp
              | some version =>
                  simp only [Option.bind_some, Option.pure_def, Option.some.injEq,
                    exists_eq_left', ← pathOf_eq_error]
                  rcases pathOf (url.take j) with e | (- | path) <;> simp

/-- What a turn makes of the line parser's answer. -/
def afterLine (len : Nat) : Except Fault (Bool × HttpRequest J × Buffer) → Turn J
  | .error e => .raises e
  | .ok (false, q, b) => .answers .badRequest { q with state := .finish } b
  | .ok (true, q, b) => .goesOn q (b.retrieve len)

/-- Outside a body a turn waits for a line or parses the one it has. -/
theorem turn_cases (js : JsonCpp J) (h : b.Holds g u n) (hq : q.state ≠ .body) :
    (lineAt q b = none ∧ ∃ b', turn js q b = .answers .noRequest q b') ∨
      ∃ line len b₁, lineAt q b = some line ∧
        turn js q b = afterLine len (parseStateLine q b₁ line) := by
  unfold lineAt turn
  rcases hline : parseLine q b with ⟨status, len, b₁⟩
  cases status with
  | lineBad => exact Or.inl ⟨rfl, b₁, rfl⟩
  | lineOpen => exact Or.inl ⟨rfl, b₁, rfl⟩
  | lineOk =>
      obtain ⟨g', u', h₁, -, hnul, -, -, -⟩ := parseLine_cut h hq hline
      refine Or.inr ⟨cstr u', len, b₁, ?_, ?_⟩
      · simp only [readCstring_eq h₁, if_pos (Or.inl hnul : NUL ∈ u' ∨ 0 < n)]
        rfl
      · simp only [readCstring_eq h₁, if_pos (Or.inl hnul : NUL ∈ u' ∨ 0 < n), if_neg hq]
        unfold afterLine
        rfl

theorem afterLine_raises {len : Nat} {r : Except Fault (Bool × HttpRequest J × Buffer)} {e : Fault} :
    afterLine len r = .raises e ↔ r = .error e := by
  unfold afterLine
  split <;> simp

theorem turn_headers_ok (h : b.Holds g u n) (hq : q.state = .headers) (e : Fault) :
    turn js q b ≠ .raises e := by
  rcases turn_cases js h (by rw [hq]; decide) with ⟨-, b', hturn⟩ | ⟨line, len, b₁, -, hturn⟩
  · simp [hturn]
  · rw [hturn, Ne, afterLine_raises]
    simp [parseStateLine, hq]

theorem turn_finish_ok (h : b.Holds g u n) (hq : q.state = .finish) (e : Fault) :
    turn js q b ≠ .raises e := by
  rcases turn_cases js h (by rw [hq]; decide) with ⟨-, b', hturn⟩ | ⟨line, len, b₁, -, hturn⟩
  · simp [hturn]
  · rw [hturn, Ne, afterLine_raises]
    simp [parseStateLine, hq]

end HttpRequest

namespace HttpRequest

end HttpRequest

end WhiteWebServer
