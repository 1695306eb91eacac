import WhiteWebServer.ParseStream

/-!
# Chunking invariance for one request

A parse that answers NO_REQUEST is suspended, not decided: parsing again with
more bytes is parsing everything at once (`stream_append`). On a request
(`SingleRequest`: a head up to its first empty line and the body the head
announces) no proper prefix is decided differently from the whole
(`stream_decided`), so the chunks it arrives in do not show
(`parse_chunking_invariant`). A CR that an earlier body left before the unread
bytes makes a line of an LF at their head; such a request is rejected at its
first byte (`feed_stray_lf`).
-/

namespace WhiteWebServer

namespace HttpRequest

variable {J : Type} {js : JsonCpp J}

/-! ## Suspension -/

theorem splitLine_append {u line rest : Bytes} (h : splitLine u = some (line, rest)) (v : Bytes) :
    splitLine (u ++ v) = some (line, rest ++ v) := by
  obtain ⟨rfl, hnot⟩ := splitLine_eq_some.mp h
  exact splitLine_eq_some.mpr ⟨by simp, hnot⟩

/-- The spare bytes only have to be there. -/
theorem stream_spare {n m : Nat} (hn : 0 < n) (hm : 0 < m) (q : HttpRequest J) (u : Bytes) :
    stream js n q u = stream js m q u := by
  induction hlen : u.length using Nat.strong_induction_on generalizing q u with
  | _ len ih =>
      by_cases hu : u = []
      · subst hu
        simp
      · by_cases hq : q.state = .body
        · rw [stream_body hu hq, stream_body hu hq, if_pos (Or.inr hn), if_pos (Or.inr hm)]
        · cases hs : splitLine u with
          | none => rw [stream_open hq hs hu, stream_open hq hs hu]
          | some r =>
              obtain ⟨line, rest⟩ := r
              rw [stream_line hq hs, stream_line hq hs]
              cases lineStep q (cstr line) with
              | error e => rfl
              | ok r =>
                  obtain ⟨ok, q'⟩ := r
                  cases ok with
                  | false => rfl
                  | true => exact ih _ (hlen ▸ splitLine_length hs) q' rest rfl

@[simp] theorem access_access (m : HeaderMap) (key : Bytes) :
    (m.access key).2.access key = ((m.access key).1, (m.access key).2) := by
  unfold HeaderMap.access
  cases h : m.lookup key with
  | none => simp [Finmap.lookup_insert]
  | some v => simp [h]

/-- A body that is not complete leaves the request as it was, up to the lookup of
its length. -/
theorem parseBody_false {q q' : HttpRequest J} {k : Nat} {text : Bytes}
    (h : parseBody js q k text = .ok (false, q')) :
    q'.state = q.state ∧ ∀ k text, parseBody js q' k text = parseBody js q k text := by
  have hq' : q' = { q with header := (q.header.access contentLength).2 } := by
    simp only [parseBody, bind, Except.bind, pure, Except.pure] at h
    split at h
    · simp at h
    · split at h
      · split at h <;> simp at h
      · simpa using h.symm
  subst hq'
  refine ⟨rfl, fun k text => ?_⟩
  simp only [parseBody, access_access]

/-- **Suspension.** After NO_REQUEST, more bytes are parsed as if they had been
there from the start. -/
theorem stream_append {n : Nat} (q : HttpRequest J) (u v : Bytes) {q' : HttpRequest J}
    {rest : Bytes} (h : stream js n q u = .ok (.noRequest, q', rest)) :
    stream js n q (u ++ v) = stream js n q' (rest ++ v) := by
  induction hlen : u.length using Nat.strong_induction_on generalizing q u with
  | _ len ih =>
      by_cases hu : u = []
      · subst hu
        rw [stream_nil] at h
        split at h
        · simp at h
        · simp only [Except.ok.injEq, Prod.mk.injEq, true_and] at h
          obtain ⟨rfl, rfl⟩ := h
          rfl
      · by_cases hq : q.state = .body
        · rw [stream_body hu hq] at h
          split at h
          · rename_i hend
            split at h
            · simp at h
            · rename_i q₁ hp
              simp only [Except.ok.injEq, Prod.mk.injEq, true_and] at h
              obtain ⟨rfl, rfl⟩ := h
              obtain ⟨hst, hsame⟩ := parseBody_false hp
              have huv : u ++ v ≠ [] := by simp [hu]
              have hend' : NUL ∈ u ++ v ∨ 0 < n := hend.imp_left (List.mem_append_left v)
              rw [stream_body huv hq, stream_body huv (hst.trans hq), if_pos hend',
                if_pos hend', hsame]
            · simp at h
          · simp at h
        · cases hs : splitLine u with
          | none =>
              rw [stream_open hq hs hu] at h
              simp only [Except.ok.injEq, Prod.mk.injEq, true_and] at h
              obtain ⟨rfl, rfl⟩ := h
              rfl
          | some r =>
              obtain ⟨line, tail⟩ := r
              rw [stream_line hq hs] at h
              rw [stream_line hq (splitLine_append hs v)]
              cases hl : lineStep q (cstr line) with
              | error e => simp [hl] at h
              | ok r =>
                  obtain ⟨ok, q₁⟩ := r
                  rw [hl] at h
                  cases ok with
                  | false => simp at h
                  | true => exact ih _ (hlen ▸ splitLine_length hs) q₁ tail h rfl

/-! ## Heads -/

/-- `p` ends with an empty line: a CR LF at the start or behind another one. -/
def EndsInEmptyLine (p : Bytes) : Prop := p = crlf ∨ crlf ++ crlf <:+ p

/-- No proper prefix of `u` ends with an empty line. -/
def HeadShaped (u : Bytes) : Prop := ∀ p, p <+: u → p ≠ u → ¬ EndsInEmptyLine p

theorem HeadShaped.initial {u p : Bytes} (h : HeadShaped u) (hp : p <+: u) : HeadShaped p := by
  intro r hr hne
  apply h r (hr.trans hp)
  rintro rfl
  exact hne (hr.eq_of_length (le_antisymm hr.length_le hp.length_le))

/-- The bytes behind the first line of a head are shaped as a head. -/
theorem HeadShaped.tail {line rest : Bytes} (h : HeadShaped (line ++ crlf ++ rest)) :
    HeadShaped rest := by
  intro p hp hne hend
  apply h (line ++ crlf ++ p) ((List.prefix_append_right_inj _).mpr hp) (by simpa using hne)
  apply Or.inr
  rcases hend with rfl | hsuf
  · exact ⟨line, by simp⟩
  · exact hsuf.trans (List.suffix_append _ _)

theorem EndsInEmptyLine.cons_line {line rest : Bytes} (h : EndsInEmptyLine rest) :
    EndsInEmptyLine (line ++ crlf ++ rest) := by
  apply Or.inr
  rcases h with rfl | hsuf
  · exact ⟨line, by simp⟩
  · exact hsuf.trans (List.suffix_append _ _)

/-- The parser is in front of a request or inside its head. -/
def InHead (q : HttpRequest J) : Prop := q.state = .requestLine ∨ q.state = .headers

theorem InHead.ne_body {q : HttpRequest J} (h : InHead q) : q.state ≠ .body := by
  rcases h with h | h <;> simp [h]

theorem parseRequestLine_state {q q' : HttpRequest J} {line : Bytes} {nuls : List Nat}
    (h : parseRequestLine q line = .ok (true, q', nuls)) : q'.state = .headers ∧ line ≠ [] := by
  have hne : line ≠ [] := by
    rintro rfl
    simp [parseRequestLine, strpbrk] at h
  refine ⟨?_, hne⟩
  unfold parseRequestLine at h
  split at h
  · simp at h
  · split at h
    · simp at h
    · simp only at h
      split at h
      · simp at h
      · split at h
        · simp at h
        · split at h
          · simp at h
          · simp at h
          · simp only [Except.ok.injEq, Prod.mk.injEq, true_and] at h
            rw [← h.1]

/-- What an accepted line of a head does to the state: the empty line ends the
head, any other line leaves the parser inside it. -/
theorem lineStep_state {q q' : HttpRequest J} {line : Bytes} (hq : InHead q)
    (h : lineStep q line = .ok (true, q')) :
    (line ≠ [] ∧ InHead q') ∨ (line = [] ∧ (q'.state = .body ∨ q'.state = .finish)) := by
  unfold lineStep at h
  rcases hq with hq | hq
  · rw [hq] at h
    simp only at h
    split at h
    · simp at h
    · rename_i ok q₁ nuls hp
      simp only [Except.ok.injEq, Prod.mk.injEq] at h
      obtain ⟨rfl, rfl⟩ := h
      obtain ⟨hst, hne⟩ := parseRequestLine_state hp
      exact Or.inl ⟨hne, Or.inr hst⟩
  · rw [hq] at h
    simp only [Except.ok.injEq, Prod.mk.injEq] at h
    obtain ⟨hok, rfl⟩ := h
    by_cases hline : line = []
    · refine Or.inr ⟨hline, ?_⟩
      simp only [parseHeader, if_pos hline]
      split
      · exact Or.inl rfl
      · exact Or.inr rfl
    · refine Or.inl ⟨hline, Or.inr ?_⟩
      unfold parseHeader at hok ⊢
      rw [if_neg hline] at hok ⊢
      split
      · rename_i hnone
        simp [hnone] at hok
      · exact hq

theorem cstr_eq_self {s : Bytes} (h : NUL ∉ s) : cstr s = s := by
  rw [cstr, List.takeWhile_eq_self_iff]
  intro a ha
  simp only [bne_iff_ne, ne_eq]
  rintro rfl
  exact h ha

/-- What the parser makes of a head, and of a head with anything behind it: a
fault or a rejection is final; otherwise what follows is parsed from where
the head left the parser, and the head is complete only at an empty line. -/
theorem stream_head (js : JsonCpp J) (n : Nat) (q : HttpRequest J) (u : Bytes) (hq : InHead q)
    (hnul : NUL ∉ u) (hu : HeadShaped u) :
    match stream js n q u with
    | .error e => ∀ v, stream js n q (u ++ v) = .error e
    | .ok (code, q', rest) =>
        (code = .badRequest ∧ ∀ v, ∃ r, stream js n q (u ++ v) = .ok (.badRequest, q', r)) ∨
        (code = .noRequest ∧ InHead q') ∨
        (EndsInEmptyLine u ∧ rest = [] ∧ (∀ v, stream js n q (u ++ v) = stream js n q' v) ∧
          (code = .noRequest ∧ q'.state = .body ∨ code = .getRequest ∧ q'.state = .finish)) := by
  induction hlen : u.length using Nat.strong_induction_on generalizing q u with
  | _ len ih =>
      by_cases hnil : u = []
      · subst hnil
        have hfin : q.state ≠ .finish := by rcases hq with h | h <;> simp [h]
        rw [stream_nil, if_neg hfin]
        exact Or.inr (Or.inl ⟨rfl, hq⟩)
      · cases hs : splitLine u with
        | none =>
            rw [stream_open hq.ne_body hs hnil]
            exact Or.inr (Or.inl ⟨rfl, hq⟩)
        | some r =>
            obtain ⟨line, rest⟩ := r
            obtain ⟨hsplit, -⟩ := splitLine_eq_some.mp hs
            have hsplit' : u = line ++ crlf ++ rest := by rw [hsplit]; simp [crlf]
            have hcs : cstr line = line := cstr_eq_self fun h => hnul (by rw [hsplit]; simp [h])
            have happ : ∀ v, stream js n q (u ++ v) = _ := fun v =>
              stream_line hq.ne_body (splitLine_append hs v)
            rw [stream_line hq.ne_body hs]
            simp only [happ, hcs]
            cases hl : lineStep q line with
            | error e => simp
            | ok r =>
                obtain ⟨ok, q₁⟩ := r
                cases ok with
                | false => exact Or.inl ⟨rfl, fun v => ⟨_, rfl⟩⟩
                | true =>
                    simp only
                    rcases lineStep_state hq hl with ⟨hne, hin⟩ | ⟨rfl, hst⟩
                    · have ih' := ih rest.length (hlen ▸ splitLine_length hs) q₁ rest hin
                        (fun h => hnul (by rw [hsplit]; simp [h])) (hsplit' ▸ hu).tail rfl
                      cases hr : stream js n q₁ rest with
                      | error e => simpa [hr] using ih'
                      | ok r =>
                          obtain ⟨code, q', r'⟩ := r
                          rw [hr] at ih'
                          rcases ih' with h | h | ⟨hend, h⟩
                          · exact Or.inl h
                          · exact Or.inr (Or.inl h)
                          · exact Or.inr (Or.inr ⟨hsplit' ▸ hend.cons_line, h⟩)
                    · -- the empty line: nothing of the head is behind it
                      have hrest : rest = [] := by
                        have hpre : crlf <+: u := ⟨rest, by rw [hsplit']; simp⟩
                        by_contra hrest
                        refine hu crlf hpre ?_ (Or.inl rfl)
                        rw [hsplit']
                        simpa using hrest
                      subst hrest
                      have hend : EndsInEmptyLine u := Or.inl (by simpa using hsplit')
                      rcases hst with hst | hst <;> simp [hst, hend]

/-! ## Feeding chunks -/

/-- Append each chunk and parse after it, up to the first answer other than
NO_REQUEST. -/
def feed (js : JsonCpp J) : List Bytes → HttpRequest J → Buffer →
    Except Fault (Option HttpCode × HttpRequest J × Buffer)
  | [], q, b => .ok (none, q, b)
  | c :: cs, q, b =>
      match parse js q (b.append c) with
      | .error e => .error e
      | .ok (.noRequest, q, b) => feed js cs q b
      | .ok (code, q, b) => .ok (some code, q, b)

/-- The buffer has a writable byte at each call of `parse` that `feed` makes. -/
def roomAtEach (js : JsonCpp J) : List Bytes → HttpRequest J → Buffer → Bool
  | [], _, _ => true
  | c :: cs, q, b => decide (0 < (b.append c).writableBytes) &&
      match parse js q (b.append c) with
      | .ok (.noRequest, q, b) => roomAtEach js cs q b
      | _ => true

/-- The body a parsed head announces: with a Content-Length as many bytes, at
least one, as its last value says; without one, or without its empty line,
nothing. What follows a head that is rejected does not matter. -/
def AnnouncedBody (head : Except Fault (HttpCode × HttpRequest J × Buffer)) (body : Bytes) :
    Prop :=
  match head with
  | .error _ => True
  | .ok (code, q, _) =>
      code = .badRequest ∨
      if q.state = .body then
        (q.header.lookup contentLength).map stoi = some (.ok body.length) ∧ body ≠ []
      else body = []

/-- One request: a head without NULs up to its first empty line (or with no
empty line), and behind it the body that the head announces when `q` parses it
in the buffer `b`. -/
structure SingleRequest (js : JsonCpp J) (q : HttpRequest J) (b : Buffer)
    (head body : Bytes) : Prop where
  nulFree : NUL ∉ head
  headShaped : HeadShaped head
  announced : AnnouncedBody (parse js q (b.append head)) body

/-- The part of an answer that a caller of the parser sees: the code and the
request with all its fields. -/
def outcome {α : Type} (r : Except Fault (HttpCode × HttpRequest J × α)) :
    Except Fault (HttpCode × HttpRequest J) :=
  r.map fun r => (r.1, r.2.1)

/-- A complete body is the first moment at which a body parser answers anything
but NO_REQUEST. -/
theorem parseBody_short (js : JsonCpp J) {q : HttpRequest J} {k : Nat} {value : Bytes} {n : Int}
    (text : Bytes)
    (hv : q.header.lookup contentLength = some value) (hn : stoi value = .ok n) (hpos : 1 ≤ n)
    (hk : (k : Int) < n) : ∃ q', parseBody js q k text = .ok (false, q') := by
  have hacc : q.header.access contentLength = (value, q.header) := by
    simp [HeaderMap.access, hv]
  have hlt : ¬ toSize n ≤ k := by
    have := (stoi_range hn).2
    rw [toSize, Int.emod_eq_of_lt (by omega) (by omega)]
    omega
  refine ⟨q, ?_⟩
  simp only [parseBody, hacc, hn, bind, Except.bind, pure, Except.pure, if_neg hlt]

/-- A head does not need spare bytes. -/
theorem stream_head_spare {n m : Nat} (q : HttpRequest J) (u : Bytes) (hq : InHead q)
    (hnul : NUL ∉ u) (hu : HeadShaped u) : stream js n q u = stream js m q u := by
  induction hlen : u.length using Nat.strong_induction_on generalizing q u with
  | _ len ih =>
      by_cases hnil : u = []
      · subst hnil
        simp
      · cases hs : splitLine u with
        | none => rw [stream_open hq.ne_body hs hnil, stream_open hq.ne_body hs hnil]
        | some r =>
            obtain ⟨line, rest⟩ := r
            obtain ⟨hsplit, -⟩ := splitLine_eq_some.mp hs
            have hsplit' : u = line ++ crlf ++ rest := by rw [hsplit]; simp [crlf]
            have hcs : cstr line = line := cstr_eq_self fun h => hnul (by rw [hsplit]; simp [h])
            rw [stream_line hq.ne_body hs, stream_line hq.ne_body hs, hcs]
            cases hl : lineStep q line with
            | error e => rfl
            | ok r =>
                obtain ⟨ok, q₁⟩ := r
                cases ok with
                | false => rfl
                | true =>
                    simp only
                    rcases lineStep_state hq hl with ⟨-, hin⟩ | ⟨rfl, -⟩
                    · exact ih rest.length (hlen ▸ splitLine_length hs) q₁ rest hin
                        (fun h => hnul (by rw [hsplit]; simp [h])) (hsplit' ▸ hu).tail rfl
                    · have hrest : rest = [] := by
                        have hpre : crlf <+: u := ⟨rest, by rw [hsplit']; simp⟩
                        by_contra hrest
                        refine hu crlf hpre ?_ (Or.inl rfl)
                        rw [hsplit']
                        simpa using hrest
                      subst hrest
                      simp

/-- The body announced, from what the stream parser makes of the head. -/
theorem SingleRequest.announced_stream {q q' : HttpRequest J} {b : Buffer} {head body : Bytes}
    {g : Byte} {m : Nat} {code : HttpCode} {rest : Bytes} (hs : SingleRequest js q b head body)
    (hq : InHead q) (hb : b.Holds g [] m) (hg : g = CR → head.head? ≠ some LF)
    (h : stream js 1 q head = .ok (code, q', rest)) (hcode : code ≠ .badRequest) :
    if q'.state = .body then
      (q'.header.lookup contentLength).map stoi = some (.ok body.length) ∧ body ≠ []
    else body = [] := by
  obtain ⟨n', hb'⟩ := hb.append head
  rw [List.nil_append] at hb'
  obtain ⟨b', hp⟩ : ∃ b', parse js q (b.append head) = .ok (code, q', b') := by
    by_cases hnil : head = []
    · subst hnil
      have hfin : q.state ≠ .finish := by rcases hq with h | h <;> simp [h]
      rw [stream_nil, if_neg hfin] at h
      simp only [Except.ok.injEq, Prod.mk.injEq] at h
      obtain ⟨rfl, rfl, -⟩ := h
      exact ⟨_, parse_nil js q hb'⟩
    · have hag := parse_stream js q hb' hg hnil
      rw [stream_head_spare (m := 1) q head hq hs.nulFree hs.headShaped, h] at hag
      obtain ⟨b', hp, -⟩ := hag
      exact ⟨b', hp⟩
  have := hs.announced
  rw [hp] at this
  exact this.resolve_left hcode

/-- Nothing a prefix of a request decides is decided otherwise by the whole. -/
theorem stream_decided {q : HttpRequest J} {b : Buffer} {head body p : Bytes} {g : Byte} {m : Nat}
    (hq : InHead q) (hb : b.Holds g [] m) (hg : g = CR → head.head? ≠ some LF)
    (hs : SingleRequest js q b head body) (hp : p <+: head ++ body)
    (hdec : ∀ q' r, stream js 1 q p ≠ .ok (.noRequest, q', r)) :
    outcome (stream js 1 q (head ++ body)) = outcome (stream js 1 q p) := by
  rcases List.prefix_or_prefix_of_prefix hp (List.prefix_append head body) with hph | hhp
  · -- the prefix ends inside the head
    obtain ⟨v, hv⟩ := hp
    have hnul : NUL ∉ p := fun h => hs.nulFree (hph.subset h)
    have hcase := stream_head js 1 q p hq hnul (hs.headShaped.initial hph)
    cases hst : stream js 1 q p with
    | error e =>
        rw [hst] at hcase
        rw [← hv, hcase v]
    | ok r =>
        obtain ⟨code, q', rest⟩ := r
        rw [hst] at hcase
        rcases hcase with ⟨rfl, hbad⟩ | ⟨rfl, -⟩ | ⟨hend, -, -, hc⟩
        · obtain ⟨r, hr⟩ := hbad v
          rw [← hv, hr]
          rfl
        · exact absurd hst (hdec q' rest)
        · have hph' : p = head := by
            by_contra hne
            exact hs.headShaped p hph hne hend
          subst hph'
          rcases hc with ⟨rfl, -⟩ | ⟨rfl, hfin⟩
          · exact absurd hst (hdec q' rest)
          · have hbody := hs.announced_stream hq hb hg hst (by decide)
            rw [if_neg (by rw [hfin]; decide)] at hbody
            rw [hbody, List.append_nil, hst]
  · -- the prefix contains the head
    obtain ⟨x, rfl⟩ := hhp
    have hx : x <+: body := (List.prefix_append_right_inj head).mp hp
    have hcase := stream_head js 1 q head hq hs.nulFree hs.headShaped
    cases hst : stream js 1 q head with
    | error e =>
        rw [hst] at hcase
        rw [hcase x, hcase body]
    | ok r =>
        obtain ⟨code, q', rest⟩ := r
        rw [hst] at hcase
        have hannounced := hs.announced_stream hq hb hg hst
        have hempty : body = [] → outcome (stream js 1 q (head ++ body)) =
            outcome (stream js 1 q (head ++ x)) := by
          rintro rfl
          rw [List.prefix_nil.mp hx]
        rcases hcase with ⟨rfl, hbad⟩ | ⟨rfl, hin⟩ | ⟨-, -, hafter, hc⟩
        · obtain ⟨r₁, h₁⟩ := hbad x
          obtain ⟨r₂, h₂⟩ := hbad body
          rw [h₁, h₂]
          rfl
        · have hbody := hannounced (by decide)
          rw [if_neg hin.ne_body] at hbody
          exact hempty hbody
        · rcases hc with ⟨rfl, hbody⟩ | ⟨rfl, hfin⟩
          · have hlength := hannounced (by decide)
            rw [if_pos hbody] at hlength
            obtain ⟨⟨value, hval, hn⟩, hne⟩ :=
              And.imp_left Option.map_eq_some_iff.mp hlength
            have hpos : 0 < body.length := List.length_pos_of_ne_nil hne
            have hfull : x = body := by
              by_contra hne
              have hlt : x.length < body.length :=
                lt_of_le_of_ne hx.length_le fun h => hne (hx.eq_of_length h)
              rw [hafter x] at hdec
              by_cases hnil : x = []
              · subst hnil
                rw [stream_nil, if_neg (by rw [hbody]; decide)] at hdec
                exact hdec _ _ rfl
              · obtain ⟨q'', hshort⟩ := parseBody_short js (cstr x) hval hn (by omega)
                  (Int.ofNat_lt.mpr hlt)
                rw [stream_body hnil hbody, if_pos (Or.inr one_pos), hshort] at hdec
                exact hdec _ _ rfl
            rw [hfull]
          · have hbody := hannounced (by decide)
            rw [if_neg (by rw [hfin]; decide)] at hbody
            exact hempty hbody

/-! ## The theorem -/

/-- The first answer other than NO_REQUEST, and the request at that point. -/
def firstOutcome (r : Except Fault (Option HttpCode × HttpRequest J × Buffer)) :
    Except Fault (Option HttpCode × HttpRequest J) :=
  r.map fun r => (r.1, r.2.1)

theorem of_firstOutcome {r : Except Fault (Option HttpCode × HttpRequest J × Buffer)}
    {code : Option HttpCode} {q : HttpRequest J} (h : firstOutcome r = .ok (code, q)) :
    ∃ b, r = .ok (code, q, b) := by
  cases r with
  | error e => cases h
  | ok p =>
      obtain ⟨code', q', b⟩ := p
      cases h
      exact ⟨b, rfl⟩

/-- The same from one call of the stream parser. -/
def answered (r : Except Fault (HttpCode × HttpRequest J)) :
    Except Fault (Option HttpCode × HttpRequest J) :=
  r.map fun r => (if r.1 = .noRequest then none else some r.1, r.2)

/-- Feeding the rest of a request to a parser that is suspended behind `p`
decides what the stream parser decides on the whole. -/
theorem feed_eq {q₀ : HttpRequest J} {b₀ : Buffer} {head body : Bytes} {g₀ : Byte} {m : Nat}
    (hq₀ : InHead q₀) (hb₀ : b₀.Holds g₀ [] m) (hg₀ : g₀ = CR → (head ++ body).head? ≠ some LF)
    (hs : SingleRequest js q₀ b₀ head body) :
    ∀ (chunks : List Bytes) (p : Bytes) (q : HttpRequest J) (rest : Bytes) (b : Buffer) (g : Byte)
      (k : Nat), p ++ chunks.flatten = head ++ body → stream js 1 q₀ p = .ok (.noRequest, q, rest) →
      b.Holds g rest k → (g = NUL ∨ (g = g₀ ∧ rest = p)) → roomAtEach js chunks q b = true →
      firstOutcome (feed js chunks q b) =
        answered (outcome (stream js 1 q₀ (head ++ body))) := by
  have hhead : g₀ = CR → head.head? ≠ some LF := fun hcr hlf =>
    hg₀ hcr (by rw [List.head?_append, hlf]; rfl)
  intro chunks
  induction chunks with
  | nil =>
      intro p q rest b g k hp hst _ _ _
      rw [List.flatten_nil, List.append_nil] at hp
      rw [← hp, hst]
      rfl
  | cons c cs ih =>
      intro p q rest b g k hp hst hb hg hroom
      obtain ⟨hspare, hroom⟩ := Bool.and_eq_true_iff.mp hroom
      rw [decide_eq_true_eq] at hspare
      obtain ⟨k', hb'⟩ := hb.append c
      rw [hb'.writableBytes] at hspare
      have hpc : (p ++ c) ++ cs.flatten = head ++ body := by simpa using hp
      have hstep : stream js 1 q₀ (p ++ c) = stream js 1 q (rest ++ c) :=
        stream_append q₀ p c hst
      by_cases hnil : rest ++ c = []
      · -- nothing to parse yet
        rw [hnil] at hb' hstep
        have hparse := parse_nil js q hb'
        obtain ⟨rfl, rfl⟩ := List.append_eq_nil_iff.mp hnil
        have hfin : q.state ≠ .finish := by
          intro hfin
          rw [stream_nil, if_pos hfin, List.append_nil, hst] at hstep
          simp at hstep
        rw [stream_nil, if_neg hfin] at hstep
        rw [feed, hparse]
        rw [hparse] at hroom
        rw [List.append_nil] at hpc hstep
        exact ih p q [] _ g _ hpc hstep hb' hg hroom
      · -- the byte before the unread ones is the first one's only where nothing was taken out
        have hguard : g = CR → (rest ++ c).head? ≠ some LF := by
          rintro rfl hlf
          rcases hg with hg | ⟨rfl, rfl⟩
          · exact absurd hg (by decide)
          · apply hg₀ rfl
            rw [← hpc, List.head?_append, hlf]
            rfl
        have hag := parse_stream js q hb' hguard hnil
        rw [stream_spare hspare one_pos, ← hstep] at hag
        have hdecided : (∀ q' r, stream js 1 q₀ (p ++ c) ≠ .ok (.noRequest, q', r)) →
            outcome (stream js 1 q₀ (head ++ body)) = outcome (stream js 1 q₀ (p ++ c)) :=
          stream_decided hq₀ hb₀ hhead hs ⟨cs.flatten, hpc⟩
        cases hpcs : stream js 1 q₀ (p ++ c) with
        | error e =>
            rw [hpcs] at hag hdecided
            rw [hdecided (by simp), feed, show parse js q (b.append c) = .error e from hag]
            rfl
        | ok r =>
            obtain ⟨code, q', rest'⟩ := r
            rw [hpcs] at hag hdecided
            obtain ⟨b', hparse, hholds⟩ := hag
            by_cases hcode : code = .noRequest
            · subst hcode
              obtain ⟨g', hb'', hg'⟩ := hholds (by decide)
              have hg'' : g' = NUL ∨ (g' = g₀ ∧ rest' = p ++ c) := by
                rcases hg' rfl with h | ⟨rfl, rfl⟩
                · exact Or.inl h
                · exact hg.imp_right fun h => ⟨h.1, by rw [h.2]⟩
              rw [feed, hparse]
              rw [hparse] at hroom
              exact ih (p ++ c) q' rest' b' g' k' hpc hpcs hb'' hg'' hroom
            · rw [hdecided (by simp [hcode])]
              have : feed js (c :: cs) q b = .ok (some code, q', b') := by
                rw [feed, hparse]
                cases code <;> first | exact absurd rfl hcode | rfl
              rw [this]
              simp [firstOutcome, answered, outcome, Except.map, hcode]

/-- A CR before the unread bytes and an LF at their head are an empty line, which
is no request line. -/
theorem parse_stray_lf {q : HttpRequest J} {b : Buffer} {u : Bytes} {n : Nat}
    (h : b.Holds CR (LF :: u) n) (hq : q.state = .requestLine) :
    ∃ b', parse js q b = .ok (.badRequest, { q with state := .finish }, b') := by
  have hrd : b.readableBytes ≠ 0 := by
    rw [h.readableBytes]
    simp
  have hbody : q.state ≠ .body := by simp [hq]
  have hline : parseLine q b = (.lineOk, 2, putNuls b [b.readIdx, b.readIdx - 1]) := by
    rw [parseLine, if_neg hbody, h.guardByte, h.readable]
    simp [scanLine, lf_ne_cr]
  have hread : readCstring (putNuls b [b.readIdx, b.readIdx - 1]) = .ok [] := by
    have h₁ : (putNuls b [b.readIdx + 0]).Holds CR ([] ++ NUL :: u) n :=
      @holds_putNul b CR n [] u LF h
    have hdrop := h₁.drop_readIdx
    obtain ⟨pre, -, hr, -⟩ := h
    have hsame : (putNuls b [b.readIdx, b.readIdx - 1]).bufferContainer.drop b.readIdx =
        (putNuls b [b.readIdx + 0]).bufferContainer.drop b.readIdx := by
      show (((b.bufferContainer.set b.readIdx NUL).set (b.readIdx - 1) NUL).drop b.readIdx) = _
      rw [List.drop_set_of_lt (by omega)]
      rfl
    have hcontainer : (putNuls b [b.readIdx, b.readIdx - 1]).bufferContainer.drop b.readIdx =
        NUL :: (u ++ List.replicate n NUL) := by
      rw [hsame]
      exact hdrop
    rw [readCstring, putNuls_readIdx, hcontainer, cstring]
    simp
  have hempty : parseRequestLine q [] = .ok (false, q, []) := rfl
  rw [parse, if_neg hrd, parseLoop, if_neg hrd, hline]
  simp only [hread, parseStateLine, hq, hempty]
  exact ⟨_, rfl⟩

/-- Behind a CR, chunks that start with an LF are rejected at that byte. -/
theorem feed_stray_lf {q : HttpRequest J} (hq : q.state = .requestLine) :
    ∀ (chunks : List Bytes) {b : Buffer} {n : Nat}, b.Holds CR [] n →
      chunks.flatten.head? = some LF →
      firstOutcome (feed js chunks q b) = .ok (some .badRequest, { q with state := .finish }) := by
  intro chunks
  induction chunks with
  | nil =>
      intro b n _ hlf
      cases hlf
  | cons c cs ih =>
      intro b n hb hlf
      obtain ⟨k, hb'⟩ := hb.append c
      rw [List.nil_append] at hb'
      cases c with
      | nil =>
          rw [feed, parse_nil js q hb']
          exact ih hb' hlf
      | cons a c =>
          obtain rfl : a = LF := Option.some.inj hlf
          obtain ⟨b', hparse⟩ := @parse_stray_lf J js q _ c k hb' hq
          rw [feed, hparse]
          rfl

/-- What `Init` leaves: every field but `post_` is reset. -/
theorem init_blank {q q₀ : HttpRequest J} (h : init js q = .ok q₀) :
    q₀ = { state := .requestLine, method := [], path := [], version := ascii "1.1", body := [],
           header := ∅, post := q₀.post } := by
  unfold init at h
  split at h
  · simp at h
  · simp only [Except.ok.injEq] at h
    rw [← h]

theorem init_state {q q₀ : HttpRequest J} (h : init js q = .ok q₀) : q₀.state = .requestLine := by
  rw [init_blank h]

theorem init_inHead {q q₀ : HttpRequest J} (h : init js q = .ok q₀) : InHead q₀ :=
  Or.inl (init_state h)

/-- **Chunking does not show.** A request on an `HttpRequest` behind `Init` (a
fresh one, or one that served others), in an empty buffer, in chunks of any
sizes with a parse after each: the first answer other than NO_REQUEST (or none
at all, or the fault), and the request with all its fields at that point, are
those of one parse of all its bytes. The two buffers may differ in size and
storage, not in the byte before the read position. -/
theorem parse_chunking_invariant {q q₀ : HttpRequest J} {b b' : Buffer} {g : Byte} {n n' : Nat}
    {head body : Bytes} {chunks : List Bytes} (hq : init js q = .ok q₀)
    (hb : b.Holds g [] n) (hb' : b'.Holds g [] n')
    (hs : SingleRequest js q₀ b head body) (hchunks : chunks.flatten = head ++ body)
    (hroom : roomAtEach js chunks q₀ b = true)
    (hroom' : roomAtEach js [head ++ body] q₀ b' = true) :
    firstOutcome (feed js chunks q₀ b) = firstOutcome (feed js [head ++ body] q₀ b') := by
  have hin : InHead q₀ := init_inHead hq
  by_cases hstray : g = CR ∧ (head ++ body).head? = some LF
  · obtain ⟨rfl, hlf⟩ := hstray
    rw [feed_stray_lf (init_state hq) chunks hb (by rwa [hchunks]),
      feed_stray_lf (init_state hq) [head ++ body] hb' (by simpa using hlf)]
  · have hg : g = CR → (head ++ body).head? ≠ some LF := fun hcr hlf => hstray ⟨hcr, hlf⟩
    have hfin : q₀.state ≠ .finish := by simp [init_state hq]
    have hstart : stream js 1 q₀ [] = .ok (.noRequest, q₀, []) := by
      rw [stream_nil, if_neg hfin]
    have hsplit := feed_eq hin hb hg hs chunks [] q₀ [] b g _
      (by simpa using hchunks) hstart hb (Or.inr ⟨rfl, rfl⟩) hroom
    have hwhole := feed_eq hin hb hg hs [head ++ body] [] q₀ [] b' g _
      (by simp) hstart hb' (Or.inr ⟨rfl, rfl⟩) hroom'
    rw [hsplit, hwhole]

/-! ## A request in pieces -/

instance (p : Bytes) : Decidable (EndsInEmptyLine p) := by
  unfold EndsInEmptyLine
  infer_instance

instance (u : Bytes) : Decidable (HeadShaped u) :=
  decidable_of_iff (∀ p ∈ u.inits, p ≠ u → ¬ EndsInEmptyLine p) (by
    simp only [List.mem_inits, HeadShaped])

instance (r : Except Fault (HttpCode × HttpRequest J × Buffer)) (body : Bytes) :
    Decidable (AnnouncedBody r body) := by
  unfold AnnouncedBody
  split <;> infer_instance

/-- jsoncpp on members only: a null value or an object; every document is
refused. -/
def membersJson : JsonCpp (Option HeaderMap) where
  null := none
  clear v := .ok (v.map fun _ => ∅)
  setMember v k x := .ok (some ((v.getD ∅).insert k x))
  parse _ v := .ok (false, v)

/-- A fresh `HttpRequest` over `membersJson`. -/
def blankForm : HttpRequest (Option HeaderMap) :=
  { state := .requestLine, method := [], path := [], version := ascii "1.1", body := [],
    header := ∅, post := none }

/-- A head that announces one body byte. -/
def formHead : Bytes := ascii "POST / HTTP/1.1\r\nContent-Length: 1\r\n\r\n"

/-- The request with its body byte, cut between a CR and its LF, inside a header
name and before the body. -/
def formChunks : List Bytes :=
  [ascii "POST / HTTP/1.1\r", ascii "\nConte", ascii "nt-Length: 1\r\n\r\n", ascii "a"]

/-- An object that was parsed to the form before; `Init` makes it blank again. -/
def servedForm : HttpRequest (Option HeaderMap) :=
  { blankForm with state := .finish, method := ascii "POST", path := ascii "/", body := ascii "a" }

/-- An empty buffer with `size` spare bytes, behind the body of the form before. -/
def servedBuffer (size : Nat) : Buffer :=
  { bufferContainer := 97 :: List.replicate size NUL, readIdx := 1, writeIdx := 1 }

theorem servedBuffer_holds (size : Nat) : (servedBuffer size).Holds 97 [] size :=
  ⟨[], rfl, rfl, rfl⟩

theorem formHead_single :
    SingleRequest membersJson blankForm (servedBuffer 1) formHead (ascii "a") where
  nulFree := by decide +kernel
  headShaped := by decide +kernel
  announced := by decide +kernel

/-- The form in pieces and whole, behind another one, in buffers of two sizes. -/
theorem parse_chunking_invariant_form :
    firstOutcome (feed membersJson formChunks blankForm (servedBuffer 1)) =
        firstOutcome (feed membersJson [formHead ++ ascii "a"] blankForm (servedBuffer 63)) ∧
      ((firstOutcome (feed membersJson formChunks blankForm (servedBuffer 1))).map
        fun r => (r.1, r.2.body)) = .ok (some .getRequest, ascii "a") :=
  ⟨parse_chunking_invariant (show init membersJson servedForm = .ok blankForm from rfl)
    (servedBuffer_holds 1) (servedBuffer_holds 63) formHead_single
    (by decide +kernel) (by decide +kernel) (by decide +kernel), by decide +kernel⟩

end HttpRequest

end WhiteWebServer
