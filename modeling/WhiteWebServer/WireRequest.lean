import WhiteWebServer.Forwarding

/-!
# Requests on the wire

A well-formed request as bytes: a request line, header lines, the empty line
and the body its Content-Length announces. §1 what it is; §2 where the parser
stands after any part of it (`Position`), whatever value `post_` starts with;
§3 one step: more bytes of the same request.
-/

namespace WhiteWebServer

open HttpRequest

variable {J : Type} {js : JsonCpp J}

/-! ## §1  Well-formed requests -/

structure WireRequest where
  requestLine : Bytes
  headerLines : List Bytes
  body : Bytes
deriving DecidableEq

namespace WireRequest

/-- Lines with their ends. -/
def joinLines (lines : List Bytes) : Bytes := lines.flatMap (· ++ crlf)

/-- The lines before the empty one. -/
def lines (w : WireRequest) : List Bytes := w.requestLine :: w.headerLines

/-- The head with its empty line. -/
def head (w : WireRequest) : Bytes := joinLines w.lines ++ crlf

def bytes (w : WireRequest) : Bytes := w.head ++ w.body

end WireRequest

namespace HttpRequest

/-- The parser's line functions on `lines`, one after the other. -/
def parseLines (q : HttpRequest J) : List Bytes → Except Fault (Bool × HttpRequest J)
  | [] => .ok (true, q)
  | line :: lines =>
      match lineStep q line with
      | .error e => .error e
      | .ok (false, q) => .ok (false, q)
      | .ok (true, q) => parseLines q lines

/-- The number `strtol` reads in a header value, `none` for a negative one. -/
def announcedLength (value : Bytes) : Option Nat :=
  if (strtolDigits value).2 = [] ∨ (strtolDigits value).1 then none
  else some (digitsValue (strtolDigits value).2)

/-- The lines are lines, the parser takes each of them on the request `q`, and
the body is as long as the Content-Length says; without one it is empty. -/
structure WellFormed (q : HttpRequest J) (w : WireRequest) (parsed : HttpRequest J) : Prop where
  plain : ∀ line ∈ w.lines, PlainLine line ∧ line ≠ []
  accepted : parseLines q w.lines = .ok (true, parsed)
  length : match parsed.header.lookup contentLength with
    | none => w.body = []
    | some value => announcedLength value = some w.body.length

/-- A body the parser can take: not empty when a Content-Length announces it, and
of a length that fits an `int`. -/
def BodyInRange (parsed : HttpRequest J) (w : WireRequest) : Prop :=
  contentLength ∈ parsed.header → 1 ≤ w.body.length ∧ w.body.length < 2 ^ 31

/-- The post data of a request over the value `post`. -/
def postOver (js : JsonCpp J) (parsed : HttpRequest J) (w : WireRequest) (post : J) :
    Except Fault J :=
  if contentLength ∈ parsed.header then
    postValue js (parsed.header.access contentType).1 (cstr w.body) post
  else .ok post

/-- The request behind its empty line, over the post data `post`. -/
def afterHead (parsed : HttpRequest J) (post : J) : HttpRequest J :=
  { parsed with state := if contentLength ∈ parsed.header then .body else .finish, post := post }

/-- The request when it is finished with the post data `post`. -/
def finished (parsed : HttpRequest J) (w : WireRequest) (post : J) : HttpRequest J :=
  if contentLength ∈ parsed.header then
    { parsed with state := .finish, body := cstr w.body,
                  header := (parsed.header.access contentType).2, post := post }
  else { parsed with state := .finish, post := post }

/-! ## §2  Where the parser stands -/

section lines

variable {q q' : HttpRequest J}

theorem parseRequestLine_post (q : HttpRequest J) (line : Bytes) (post : J) :
    parseRequestLine { q with post := post } line =
      (parseRequestLine q line).map fun r => (r.1, { r.2.1 with post := post }, r.2.2) := by
  unfold parseRequestLine
  cases strpbrk line blanks with
  | none => rfl
  | some i =>
      simp only
      cases methodOf (line.take i) with
      | none => rfl
      | some m =>
          simp only
          generalize line.drop (i + 1 + strspn (line.drop (i + 1)) blanks) = url
          cases strpbrk url blanks with
          | none => rfl
          | some j =>
              simp only
              cases versionOf ((url.drop (j + 1)).drop (strspn (url.drop (j + 1)) blanks)) with
              | none => rfl
              | some v =>
                  simp only
                  cases pathOf (url.take j) with
                  | error e => rfl
                  | ok r => cases r <;> rfl

theorem parseHeader_post (q : HttpRequest J) (line : Bytes) (post : J) :
    parseHeader { q with post := post } line =
      ((parseHeader q line).1, { (parseHeader q line).2.1 with post := post },
        (parseHeader q line).2.2) := by
  unfold parseHeader
  by_cases hline : line = []
  · simp only [if_pos hline]
  · simp only [if_neg hline]
    cases strpbrk line separators <;> rfl

theorem lineStep_post (line : Bytes) (post : J) :
    lineStep { q with post := post } line =
      (lineStep q line).map fun r => (r.1, { r.2 with post := post }) := by
  unfold lineStep
  rw [parseRequestLine_post, parseHeader_post]
  generalize parseRequestLine q line = request
  generalize parseHeader q line = header
  obtain ⟨state, method, path, version, body, fields, post'⟩ := q
  cases state with
  | body => rfl
  | finish => rfl
  | headers => rfl
  | requestLine => rcases request with e | ⟨ok, q₁, nuls⟩ <;> rfl

theorem parseLines_post (post : J) : ∀ (lines : List Bytes) (q : HttpRequest J),
    parseLines { q with post := post } lines =
      (parseLines q lines).map fun r => (r.1, { r.2 with post := post }) := by
  intro lines
  induction lines with
  | nil => exact fun q => rfl
  | cons line lines ih =>
      intro q
      rw [parseLines, parseLines, lineStep_post]
      cases lineStep q line with
      | error e => rfl
      | ok r =>
          obtain ⟨ok, q₁⟩ := r
          cases ok with
          | false => rfl
          | true => exact ih q₁

/-- Whole lines, none of them empty, leave the parser inside the head. -/
theorem stream_joinLines : ∀ (lines : List Bytes) {q : HttpRequest J}, InHead q →
    (∀ line ∈ lines, PlainLine line ∧ line ≠ []) → parseLines q lines = .ok (true, q') →
    InHead q' ∧ ∀ n v, stream js n q (WireRequest.joinLines lines ++ v) = stream js n q' v := by
  intro lines
  induction lines with
  | nil =>
      intro q hq _ h
      simp only [parseLines, Except.ok.injEq, Prod.mk.injEq, true_and] at h
      subst h
      exact ⟨hq, fun n v => rfl⟩
  | cons line lines ih =>
      intro q hq hlines h
      obtain ⟨hplain, hne⟩ := hlines line (by simp)
      rw [parseLines] at h
      cases hl : lineStep q line with
      | error e => simp [hl] at h
      | ok r =>
          obtain ⟨ok, q₁⟩ := r
          rw [hl] at h
          cases ok with
          | false => simp at h
          | true =>
              have hin : InHead q₁ := by
                rcases lineStep_state hq hl with ⟨-, hin⟩ | ⟨rfl, -⟩
                · exact hin
                · exact absurd rfl hne
              obtain ⟨hq', hstream⟩ := ih hin (fun l hl => hlines l (by simp [hl])) h
              refine ⟨hq', fun n v => ?_⟩
              have hsplit : WireRequest.joinLines (line :: lines) ++ v =
                  line ++ crlf ++ (WireRequest.joinLines lines ++ v) := by
                simp [WireRequest.joinLines]
              rw [hsplit, stream_cons_line hq.ne_body hplain, hl]
              exact hstream n v

/-- A line that is not complete is left unread. -/
theorem stream_open_line {line u : Bytes} (hq : InHead q) (hline : PlainLine line)
    (hu : u <+: line ++ [CR]) (n : Nat) : stream js n q u = .ok (.noRequest, q, u) := by
  by_cases hnil : u = []
  · subst hnil
    have hfin : q.state ≠ .finish := by rcases hq with h | h <;> simp [h]
    rw [stream_nil, if_neg hfin]
  · refine stream_open hq.ne_body ?_ hnil
    cases hs : splitLine u with
    | none => rfl
    | some r =>
        obtain ⟨l, rest⟩ := r
        have hlf : LF ∈ u := by
          rw [(splitLine_eq_some.mp hs).1]
          simp
        have hmem := hu.subset hlf
        rw [List.mem_append, List.mem_singleton] at hmem
        rcases hmem with hmem | hmem
        · exact absurd rfl (hline LF hmem).2
        · exact absurd hmem lf_ne_cr

/-- A proper part of a head leaves the parser inside the head. -/
theorem stream_part_of_head : ∀ (lines : List Bytes) {q : HttpRequest J} (u : Bytes), InHead q →
    (∀ line ∈ lines, PlainLine line ∧ line ≠ []) → parseLines q lines = .ok (true, q') →
    u <+: WireRequest.joinLines lines ++ crlf → u ≠ WireRequest.joinLines lines ++ crlf →
    ∃ q₁ rest, InHead q₁ ∧ ∀ n, stream js n q u = .ok (.noRequest, q₁, rest) := by
  intro lines
  induction lines with
  | nil =>
      intro q u hq _ _ hu hne
      refine ⟨q, u, hq, @stream_open_line J js q [] u hq (by simp [PlainLine]) ?_⟩
      -- what is left of CR LF without its LF
      have hlen : u.length ≤ 1 := by
        have hle := hu.length_le
        have hne' : u.length ≠ 2 := fun h => hne (hu.eq_of_length (by
          simpa [WireRequest.joinLines, crlf] using h))
        simp [WireRequest.joinLines, crlf] at hle
        omega
      have hcr : [CR] <+: WireRequest.joinLines [] ++ crlf := ⟨[LF], rfl⟩
      exact List.prefix_of_prefix_length_le hu hcr (by simpa using hlen)
  | cons line lines ih =>
      intro q u hq hlines h hu hne
      obtain ⟨hplain, hnil⟩ := hlines line (by simp)
      rw [parseLines] at h
      cases hl : lineStep q line with
      | error e => simp [hl] at h
      | ok r =>
          obtain ⟨ok, q₁⟩ := r
          rw [hl] at h
          cases ok with
          | false => simp at h
          | true =>
              have hin : InHead q₁ := by
                rcases lineStep_state hq hl with ⟨-, hin⟩ | ⟨rfl, -⟩
                · exact hin
                · exact absurd rfl hnil
              have hsplit : WireRequest.joinLines (line :: lines) ++ crlf =
                  line ++ crlf ++ (WireRequest.joinLines lines ++ crlf) := by
                simp [WireRequest.joinLines]
              rw [hsplit] at hu hne
              by_cases hlen : u.length ≤ line.length + 1
              · refine ⟨q, u, hq, stream_open_line hq hplain ?_⟩
                have hcr : line ++ [CR] <+: line ++ crlf ++ (WireRequest.joinLines lines ++ crlf) :=
                  ⟨LF :: (WireRequest.joinLines lines ++ crlf), by simp [crlf]⟩
                exact List.prefix_of_prefix_length_le hu hcr (by simpa using hlen)
              · have hle : line ++ crlf <+: u :=
                  List.prefix_of_prefix_length_le (List.prefix_append _ _) hu (by
                    simp [crlf]
                    omega)
                obtain ⟨u', rfl⟩ := hle
                have hu' : u' <+: WireRequest.joinLines lines ++ crlf :=
                  (List.prefix_append_right_inj _).mp hu
                obtain ⟨q₂, rest, hq₂, hstream⟩ := ih u' hin
                  (fun l hl => hlines l (by simp [hl])) h hu' (fun h => hne (by rw [h]))
                refine ⟨q₂, rest, hq₂, fun n => ?_⟩
                rw [stream_cons_line hq.ne_body hplain, hl]
                exact hstream n

/-- An accepted line moves the parser off the request line for good. -/
theorem parseLines_headers : ∀ (lines : List Bytes) {q : HttpRequest J},
    (∀ line ∈ lines, line ≠ []) → q.state = .headers → parseLines q lines = .ok (true, q') →
    q'.state = .headers := by
  intro lines
  induction lines with
  | nil =>
      intro q _ hq h
      simp only [parseLines, Except.ok.injEq, Prod.mk.injEq, true_and] at h
      exact h ▸ hq
  | cons line lines ih =>
      intro q hlines hq h
      rw [parseLines] at h
      cases hl : lineStep q line with
      | error e => simp [hl] at h
      | ok r =>
          obtain ⟨ok, q₁⟩ := r
          rw [hl] at h
          cases ok with
          | false => simp at h
          | true =>
              refine ih (fun l hl => hlines l (by simp [hl])) ?_ h
              have hne := hlines line (by simp)
              simp only [lineStep, hq, Except.ok.injEq, Prod.mk.injEq] at hl
              obtain ⟨hok, rfl⟩ := hl
              unfold parseHeader at hok ⊢
              rw [if_neg hne] at hok ⊢
              split
              · rename_i hnone
                simp [hnone] at hok
              · exact hq

end lines

section position

variable {q₀ parsed : HttpRequest J} {w : WireRequest} {post : J}

theorem announcedLength_stoi {value : Bytes} {k : Nat} (h : announcedLength value = some k)
    (hk : k < 2 ^ 31) : stoi value = .ok k := by
  unfold announcedLength at h
  by_cases hd : (strtolDigits value).2 = [] ∨ (strtolDigits value).1 = true
  · rw [if_pos hd] at h
    simp at h
  · rw [if_neg hd, Option.some.injEq] at h
    rw [not_or, Bool.not_eq_true] at hd
    rw [stoi, if_neg hd.1, hd.2, h]
    show checkInt (k : Int) = _
    rw [checkInt, if_pos (by omega)]

/-- The lines of a request leave the parser in front of the next header line. -/
theorem WellFormed.state (hw : WellFormed q₀ w parsed) (hq₀ : InHead q₀) :
    parsed.state = .headers := by
  have h := hw.accepted
  have hne := (hw.plain w.requestLine (by simp [WireRequest.lines])).2
  rw [WireRequest.lines, parseLines] at h
  cases hl : lineStep q₀ w.requestLine with
  | error e => simp [hl] at h
  | ok r =>
      obtain ⟨ok, q₁⟩ := r
      rw [hl] at h
      cases ok with
      | false => simp at h
      | true =>
          refine parseLines_headers w.headerLines
            (fun l hl => (hw.plain l (by simp [WireRequest.lines, hl])).2) ?_ h
          rcases hq₀ with hq | hq
          · unfold lineStep at hl
            rw [hq] at hl
            simp only at hl
            split at hl
            · simp at hl
            · rename_i hp
              simp only [Except.ok.injEq, Prod.mk.injEq] at hl
              obtain ⟨rfl, rfl⟩ := hl
              exact (parseRequestLine_state hp).1
          · apply parseLines_headers [w.requestLine] (by simpa using hne) hq
            rw [parseLines, hl]
            rfl

/-- A finished head, and what follows it. -/
theorem stream_head_done (hq₀ : InHead q₀) (hw : WellFormed q₀ w parsed) (n : Nat) (v : Bytes) :
    stream js n { q₀ with post := post } (w.head ++ v) =
      stream js n (afterHead parsed post) v := by
  have hlines : parseLines { q₀ with post := post } w.lines =
      .ok (true, { parsed with post := post }) := by
    rw [parseLines_post, hw.accepted]
    rfl
  obtain ⟨-, hstream⟩ := @stream_joinLines J js { parsed with post := post } w.lines
    { q₀ with post := post } hq₀ hw.plain hlines
  have hheaders : parsed.state = .headers := hw.state hq₀
  have hsplit : w.head ++ v = WireRequest.joinLines w.lines ++ ([] ++ crlf ++ v) := by
    simp [WireRequest.head]
  rw [hsplit, hstream, stream_cons_line (by simp [hheaders]) (by simp [PlainLine])]
  simp only [lineStep, hheaders, parseHeader, if_true]
  rfl

/-- The parser behind the head, on a part of the body. -/
theorem stream_part_of_body {n : Nat} {y : Bytes} (hw : WellFormed q₀ w parsed)
    (hy : y <+: w.body) (hne : y ≠ w.body) (hroom : y ≠ [] → NUL ∈ y ∨ 0 < n)
    (hrange : y ≠ [] → w.body.length < 2 ^ 31) :
    stream js n (afterHead parsed post) y = .ok (.noRequest, afterHead parsed post, y) := by
  have hlength := hw.length
  cases hl : parsed.header.lookup contentLength with
  | none =>
      simp only [hl] at hlength
      rw [hlength] at hy hne
      exact absurd (List.prefix_nil.mp hy) hne
  | some value =>
      simp only [hl] at hlength
      have hcl : contentLength ∈ parsed.header := Finmap.mem_iff.mpr ⟨value, hl⟩
      have hst : (afterHead parsed post).state = .body := by simp [afterHead, hcl]
      by_cases hnil : y = []
      · subst hnil
        rw [stream_nil, if_neg (by simp [hst])]
      · have hlt : y.length < w.body.length :=
          lt_of_le_of_ne hy.length_le fun h => hne (hy.eq_of_length h)
        have hacc : (afterHead parsed post).header.access contentLength =
            (value, (afterHead parsed post).header) := by
          simp [HeaderMap.access, afterHead, hl]
        have hstoi := announcedLength_stoi hlength (hrange hnil)
        have hshort : ¬ toSize (w.body.length : Int) ≤ y.length := by
          have := hrange hnil
          rw [toSize, Int.emod_eq_of_lt (by omega) (by omega)]
          omega
        rw [stream_body hnil hst, if_pos (hroom hnil)]
        simp only [parseBody, hacc, hstoi, bind, Except.bind, pure, Except.pure, if_neg hshort]

/-- The parser behind the head, on the whole body. -/
theorem stream_whole_body {n : Nat} {r : J} (hw : WellFormed q₀ w parsed)
    (hrange : BodyInRange parsed w) (hpost : postOver js parsed w post = .ok r)
    (hroom : w.body ≠ [] → NUL ∈ w.body ∨ 0 < n) :
    stream js n (afterHead parsed post) w.body = .ok (.getRequest, finished parsed w r, []) := by
  have hlength := hw.length
  unfold postOver at hpost
  unfold finished
  by_cases hcl : contentLength ∈ parsed.header
  · obtain ⟨value, hl⟩ := Finmap.mem_iff.mp hcl
    simp only [hl] at hlength
    rw [if_pos hcl] at hpost
    rw [if_pos hcl]
    obtain ⟨hpos, hlt⟩ := hrange hcl
    have hst : (afterHead parsed post).state = .body := by simp [afterHead, hcl]
    have hne : w.body ≠ [] := List.ne_nil_of_length_pos hpos
    have hacc : (afterHead parsed post).header.access contentLength =
        (value, (afterHead parsed post).header) := by
      simp [HeaderMap.access, afterHead, hl]
    have hstoi := announcedLength_stoi hlength hlt
    have hle : toSize (w.body.length : Int) ≤ w.body.length := by
      rw [toSize, Int.emod_eq_of_lt (by omega) (by omega)]
      omega
    have hparse : parsePost js { afterHead parsed post with body := cstr w.body } =
        .ok { afterHead parsed post with body := cstr w.body, post := r,
                                         header := (parsed.header.access contentType).2 } := by
      rw [parsePost_eq]
      simp only [afterHead, hpost, Except.map]
    rw [stream_body hne hst, if_pos (hroom hne)]
    have hbody : parseBody js (afterHead parsed post) w.body.length (cstr w.body) =
        .ok (true, { afterHead parsed post with
          state := .finish, body := cstr w.body, post := r,
          header := (parsed.header.access contentType).2 }) := by
      dsimp only at hparse
      simp only [parseBody, hacc, hstoi, bind, Except.bind, pure, Except.pure, if_pos hle, hparse]
    rw [hbody]
    rfl
  · have hl : parsed.header.lookup contentLength = none := Finmap.lookup_eq_none.mpr hcl
    simp only [hl] at hlength
    rw [if_neg hcl, Except.ok.injEq] at hpost
    subst hpost
    have hst : afterHead parsed post = { parsed with state := .finish, post := post } := by
      simp [afterHead, hcl]
    rw [hlength, if_neg hcl, stream_nil, hst, if_pos rfl]

end position

/-! ## §3  More bytes of the same request -/

/-- The parser, started on `q₀` over `post`, has been given the part `p` of `w`:
the request `q`, and the bytes it has left unread. -/
inductive Position (js : JsonCpp J) (q₀ parsed : HttpRequest J) (w : WireRequest) (post : J) :
    Bytes → HttpRequest J → Bytes → Prop
  | inHead {p : Bytes} {q : HttpRequest J} {rest : Bytes} : p <+: w.head → InHead q →
      (∀ n, stream js n { q₀ with post := post } p = .ok (.noRequest, q, rest)) →
      Position js q₀ parsed w post p q rest
  | inBody {y : Bytes} : y <+: w.body → y ≠ w.body →
      Position js q₀ parsed w post (w.head ++ y) (afterHead parsed post) y

namespace Position

variable {q₀ parsed q : HttpRequest J} {w : WireRequest} {post : J} {p rest : Bytes}

theorem start (hq₀ : InHead q₀) :
    Position js q₀ parsed w post [] { q₀ with post := post } [] := by
  refine .inHead List.nil_prefix hq₀ fun n => ?_
  have hfin : q₀.state ≠ .finish := by rcases hq₀ with h | h <;> simp [h]
  rw [stream_nil, if_neg hfin]

/-- Between requests, and inside one, the parser is not in its last state. -/
theorem not_finish (h : Position js q₀ parsed w post p q rest) (hw : WellFormed q₀ w parsed) :
    q.state ≠ .finish := by
  cases h with
  | inHead _ hq _ => rcases hq with h | h <;> simp [h]
  | inBody hy hne =>
      have hcl : contentLength ∈ parsed.header := by
        by_contra hcl
        have hlength := hw.length
        simp only [Finmap.lookup_eq_none.mpr hcl] at hlength
        rw [hlength] at hy hne
        exact hne (List.prefix_nil.mp hy)
      simp [afterHead, hcl]

/-- The parser on the unread bytes and `x` more is the parser on all of them. -/
theorem stream_more (h : Position js q₀ parsed w post p q rest) (hq₀ : InHead q₀)
    (hw : WellFormed q₀ w parsed) (n : Nat) (x : Bytes) :
    stream js n q (rest ++ x) = stream js n { q₀ with post := post } (p ++ x) := by
  cases h with
  | inHead _ _ hstream => exact (stream_append _ _ _ (hstream n)).symm
  | inBody _ _ => rw [List.append_assoc, stream_head_done hq₀ hw]

/-- **One parse.** Given more bytes of the request, up to its end, the parser asks
for the rest of it, or finishes it with nothing left unread. -/
theorem step (h : Position js q₀ parsed w post p q rest) (hq₀ : InHead q₀)
    (hw : WellFormed q₀ w parsed) {n : Nat} {x : Bytes} (hx : p ++ x <+: w.bytes)
    (hroom : ∀ y, p ++ x = w.head ++ y → y ≠ [] → NUL ∈ y ∨ 0 < n)
    (hrange : w.head.length < (p ++ x).length → w.body.length < 2 ^ 31) :
    (p ++ x ≠ w.bytes → ∃ q' rest', stream js n q (rest ++ x) = .ok (.noRequest, q', rest') ∧
      Position js q₀ parsed w post (p ++ x) q' rest') ∧
    (p ++ x = w.bytes → BodyInRange parsed w → ∀ r, postOver js parsed w post = .ok r →
      stream js n q (rest ++ x) = .ok (.getRequest, finished parsed w r, [])) := by
  rw [h.stream_more hq₀ hw]
  constructor
  · intro hne
    rcases List.prefix_or_prefix_of_prefix hx (List.prefix_append w.head w.body) with hhead | hhead
    · by_cases hall : p ++ x = w.head
      · -- the whole head and nothing of the body
        rw [hall, show w.head = w.head ++ [] from (List.append_nil _).symm,
          stream_head_done hq₀ hw]
        have hbody : w.body ≠ [] := by
          intro hnil
          exact hne (by rw [hall, WireRequest.bytes, hnil, List.append_nil])
        exact ⟨_, _, stream_part_of_body hw List.nil_prefix hbody.symm (absurd rfl)
          (absurd rfl), .inBody List.nil_prefix hbody.symm⟩
      · have hlines : parseLines { q₀ with post := post } w.lines =
            .ok (true, { parsed with post := post }) := by
          rw [parseLines_post, hw.accepted]
          rfl
        obtain ⟨q', rest', hin, hstream⟩ := @stream_part_of_head J js _ w.lines
          { q₀ with post := post } (p ++ x) hq₀ hw.plain hlines hhead hall
        exact ⟨q', rest', hstream n, .inHead hhead hin hstream⟩
    · obtain ⟨y, hy⟩ := hhead
      have hy' : y <+: w.body := by
        rw [← hy, WireRequest.bytes] at hx
        exact (List.prefix_append_right_inj _).mp hx
      have hne' : y ≠ w.body := by
        rintro rfl
        exact hne hy.symm
      rw [← hy, stream_head_done hq₀ hw]
      refine ⟨_, _, stream_part_of_body hw hy' hne' (hroom y hy.symm) ?_, .inBody hy' hne'⟩
      intro hnil
      apply hrange
      rw [← hy, List.length_append]
      have := List.length_pos_of_ne_nil hnil
      omega
  · intro hall hbody r hr
    rw [hall, WireRequest.bytes, stream_head_done hq₀ hw]
    exact stream_whole_body hw hbody hr (hroom w.body hall)

end Position

end HttpRequest

end WhiteWebServer
