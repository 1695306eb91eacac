import WhiteWebServer.Chunking

/-!
# Forwarding a parsed request

`MakeProxyRequests` writes an accepted request out again. §1 what the parser
leaves in the fields of a request (`Progress`), one lemma for each line parser
and one for a whole parse; §2 what `makeProxyRequests` writes; §3 the parser on
what was written (`parse_forwarded`), and when it is the request again
(`makeProxyRequests_round_trip_iff`).
-/

namespace WhiteWebServer

namespace HttpRequest

variable {J : Type} {js : JsonCpp J}

/-! ## §1  The fields of a parsed request -/

/-- A header name as the parser stores it. -/
structure FieldName (key : Bytes) : Prop where
  upper : strToupper key = key
  plain : ∀ c ∈ key, c ≠ NUL ∧ c ≠ LF ∧ c ∉ separators

/-- A header value as the parser stores it. -/
structure FieldValue (value : Bytes) : Prop where
  plain : ∀ c ∈ value, c ≠ NUL ∧ c ≠ LF
  start : ∀ c, value.head? = some c → c ∉ separators

/-- A path as the parser stores it. -/
structure TargetPath (path : Bytes) : Prop where
  plain : ∀ c ∈ path, c ≠ NUL ∧ c ≠ LF ∧ c ∉ blanks
  start : path.head? = some slash

/-- What an accepted request line leaves. -/
structure LineParsed (q : HttpRequest J) : Prop where
  method : q.method = ascii "GET" ∨ q.method = ascii "POST"
  version : q.version = ascii "1.1" ∨ q.version = ascii "1.0"
  path : TargetPath q.path

/-- What accepted header lines leave. -/
def Fields (m : HeaderMap) : Prop :=
  ∀ key value, m.lookup key = some value → FieldName key ∧ FieldValue value

/-- What a finished request has besides its head: nothing, or the C string of
its body and what `ParsePost` makes of it over `post`. -/
def BodyParsed (js : JsonCpp J) (post : J) (q : HttpRequest J) : Prop :=
  if contentLength ∈ q.header then NUL ∉ q.body ∧ parsePost js { q with post := post } = .ok q
  else q.body = [] ∧ q.post = post

/-- The invariant of a parse that started over `post`, up to a rejection. -/
structure Progress (js : JsonCpp J) (post : J) (q : HttpRequest J) : Prop where
  fields : Fields q.header
  line : q.state ≠ .requestLine → LineParsed q
  unread : q.state ≠ .finish → q.body = [] ∧ q.post = post
  announced : q.state = .body → contentLength ∈ q.header
  finished : q.state = .finish → BodyParsed js post q

/-- A line as `ParseLine` hands it on. -/
def PlainLine (line : Bytes) : Prop := ∀ c ∈ line, c ≠ NUL ∧ c ≠ LF

instance (line : Bytes) : Decidable (PlainLine line) :=
  List.decidableBAll (fun c => c ≠ NUL ∧ c ≠ LF) line

theorem plainLine_cstr {line : Bytes} (h : LF ∉ line) : PlainLine (cstr line) := by
  intro c hc
  refine ⟨?_, fun hlf => h (hlf ▸ (List.takeWhile_sublist _).subset hc)⟩
  simpa using List.mem_takeWhile_imp hc

theorem skipDomain_suffix {url scheme r : Bytes} (h : skipDomain url scheme = some r) :
    r <:+ url := by
  unfold skipDomain at h
  split at h
  · exact (strchr_suffix h).trans (List.drop_suffix _ _)
  · obtain rfl : url = r := by simpa using h
    exact List.suffix_refl _

theorem pathOf_eq_some {url path : Bytes} (h : pathOf url = .ok (some path)) :
    path <:+ url ∧ path.head? = some slash := by
  unfold pathOf at h
  cases h₁ : skipDomain url (ascii "http://") with
  | none => simp [h₁] at h
  | some u₁ =>
      simp only [h₁] at h
      cases h₂ : skipDomain u₁ (ascii "https://") with
      | none => simp [h₂] at h
      | some u₂ =>
          simp only [h₂, Except.ok.injEq] at h
          split at h
          · rename_i hhead
            obtain rfl : u₂ = path := by simpa using h
            exact ⟨(skipDomain_suffix h₂).trans (skipDomain_suffix h₁), hhead⟩
          · simp at h

/-- **The request line.** An accepted one leaves a method, a version and a path
the parser knows, and touches nothing else. -/
theorem parseRequestLine_accepted {q q' : HttpRequest J} {line : Bytes} {nuls : List Nat}
    (hline : PlainLine line) (h : parseRequestLine q line = .ok (true, q', nuls)) :
    LineParsed q' ∧ q' = { q with method := q'.method, version := q'.version, path := q'.path,
                                  state := .headers } := by
  unfold parseRequestLine at h
  cases hi : strpbrk line blanks with
  | none => simp [hi] at h
  | some i =>
      simp only [hi] at h
      cases hm : methodOf (line.take i) with
      | none => simp [hm] at h
      | some method =>
          simp only [hm] at h
          generalize hurl : line.drop (i + 1 + strspn (line.drop (i + 1)) blanks) = url at h
          have hplain : PlainLine url := fun c hc => hline c (by
            rw [← hurl] at hc
            exact List.mem_of_mem_drop hc)
          cases hj : strpbrk url blanks with
          | none => simp [hj] at h
          | some j =>
              simp only [hj] at h
              split at h
              · simp at h
              · rename_i version hv
                cases hp : pathOf (url.take j) with
                | error e => simp [hp] at h
                | ok r =>
                    cases r with
                    | none => simp [hp] at h
                    | some path =>
                        simp only [hp, Except.ok.injEq, Prod.mk.injEq, true_and] at h
                        obtain ⟨rfl, -⟩ := h
                        refine ⟨⟨?_, ?_, ?_⟩, rfl⟩
                        · unfold methodOf at hm
                          split at hm
                          · exact Or.inl (by simpa using hm.symm)
                          · split at hm
                            · exact Or.inr (by simpa using hm.symm)
                            · simp at hm
                        · unfold versionOf at hv
                          split at hv
                          · exact Or.inl (by simpa using hv.symm)
                          · split at hv
                            · exact Or.inr (by simpa using hv.symm)
                            · simp at hv
                        · obtain ⟨hsuf, hhead⟩ := pathOf_eq_some hp
                          refine ⟨fun c hc => ?_, hhead⟩
                          have hc' : c ∈ url.take j := hsuf.subset hc
                          obtain ⟨h₁, h₂⟩ := hplain c (List.mem_of_mem_take hc')
                          exact ⟨h₁, h₂, not_mem_of_strpbrk hj c hc'⟩

/-- **A header line.** The name it stores is in capitals and without separators,
the value starts with no separator. -/
theorem parseHeader_accepted {q : HttpRequest J} {line : Bytes} (hline : PlainLine line)
    (hne : line ≠ []) (h : (parseHeader q line).1 = true) :
    ∃ key value, FieldName key ∧ FieldValue value ∧
      (parseHeader q line).2.1 = { q with header := q.header.insert key value } := by
  unfold parseHeader at h ⊢
  rw [if_neg hne] at h ⊢
  cases hi : strpbrk line separators with
  | none => simp [hi] at h
  | some i =>
      refine ⟨_, _, ⟨?_, ?_⟩, ⟨?_, head_drop_strspn⟩, rfl⟩
      · simp only [strToupper, List.map_map]
        exact List.map_congr_left fun c _ => toupper_toupper c
      · intro c hc
        obtain ⟨d, hd, rfl⟩ := List.mem_map.mp hc
        obtain ⟨h₁, h₂⟩ := hline d (List.mem_of_mem_take hd)
        have h₃ := not_mem_of_strpbrk hi d hd
        refine ⟨fun hc => h₁ ?_, fun hc => h₂ ?_, fun hc => h₃ ?_⟩
        · exact toupper_eq_small (by decide) hc
        · exact toupper_eq_small (by decide) hc
        · have hsmall : ∀ c ∈ separators, c.toNat < 65 := by decide +kernel
          rw [toupper_eq_small (hsmall _ hc) rfl]
          exact hc
      · intro c hc
        exact hline c (List.mem_of_mem_drop (List.mem_of_mem_drop hc))

theorem Fields.insert {m : HeaderMap} {key value : Bytes} (h : Fields m) (hk : FieldName key)
    (hv : FieldValue value) : Fields (m.insert key value) := by
  intro k v hkv
  by_cases hkey : k = key
  · subst hkey
    rw [Finmap.lookup_insert, Option.some.injEq] at hkv
    exact ⟨hk, hkv ▸ hv⟩
  · rw [Finmap.lookup_insert_of_ne _ hkey] at hkv
    exact h k v hkv

/-- A lookup with `operator[]` binds at most the empty string. -/
theorem Fields.access {m : HeaderMap} {key : Bytes} (h : Fields m) (hk : FieldName key) :
    Fields (m.access key).2 := by
  unfold HeaderMap.access
  split
  · exact h
  · exact h.insert hk ⟨by simp, by simp⟩

theorem fieldName_contentType : FieldName contentType :=
  ⟨by decide +kernel, by decide +kernel⟩

/-- The value `ParsePost` stores for a content type and a body, over the value
before. -/
def postValue (js : JsonCpp J) (ct body : Bytes) (post : J) : Except Fault J :=
  if strncasecmpEq ct (ascii "application/x-www-form-urlencoded") 33 then
    postLoop js body (body.length + 1) 0 post
  else if strncasecmpEq ct (ascii "application/json") 16 then (js.parse body post).map Prod.snd
  else .ok post

theorem parsePost_eq (js : JsonCpp J) (q : HttpRequest J) :
    parsePost js q = (postValue js (q.header.access contentType).1 q.body q.post).map
      fun post => { q with header := (q.header.access contentType).2, post := post } := by
  rw [parsePost, postValue]
  generalize q.header.access contentType = r
  generalize ascii "application/x-www-form-urlencoded" = form
  generalize ascii "application/json" = json
  obtain ⟨ct, header⟩ := r
  dsimp only
  cases strncasecmpEq ct form 33 with
  | true =>
      rw [if_pos rfl, if_pos rfl]
      cases postLoop js q.body (q.body.length + 1) 0 q.post <;> rfl
  | false =>
      rw [if_neg Bool.false_ne_true, if_neg Bool.false_ne_true]
      cases strncasecmpEq ct json 16 with
      | true =>
          rw [if_pos rfl, if_pos rfl]
          cases js.parse q.body q.post <;> rfl
      | false => rfl

/-- What `ParsePost` left, it leaves again over the same value. -/
theorem parsePost_again {q q' : HttpRequest J} (h : parsePost js q = .ok q') (s : ParseState) :
    parsePost js { q' with state := s, post := q.post } = .ok { q' with state := s } := by
  rw [parsePost_eq] at h ⊢
  cases hv : postValue js (q.header.access contentType).1 q.body q.post with
  | error e => simp [hv, Except.map] at h
  | ok post =>
      simp only [hv, Except.map, Except.ok.injEq] at h
      subst h
      simp [hv, Except.map]

theorem mem_access {m : HeaderMap} {key key' : Bytes} (h : key ∈ m) :
    key ∈ (m.access key').2 := by
  unfold HeaderMap.access
  split
  · exact h
  · exact Finmap.mem_insert.mpr (Or.inr h)

/-! ### One line, one body, one parse -/

section parse

variable {post : J} {q q' : HttpRequest J}

theorem lineStep_progress {line : Bytes} (hq : Progress js post q) (hst : q.state ≠ .body)
    (hline : PlainLine line) (h : lineStep q line = .ok (true, q')) : Progress js post q' := by
  unfold lineStep at h
  cases hs : q.state with
  | body => exact absurd hs hst
  | finish =>
      simp only [hs, Except.ok.injEq, Prod.mk.injEq, true_and] at h
      exact h ▸ hq
  | requestLine =>
      simp only [hs] at h
      cases hp : parseRequestLine q line with
      | error e => simp [hp] at h
      | ok r =>
          obtain ⟨ok, q₁, nuls⟩ := r
          simp only [hp, Except.ok.injEq, Prod.mk.injEq] at h
          obtain ⟨rfl, rfl⟩ := h
          obtain ⟨hl, heq⟩ := parseRequestLine_accepted hline hp
          have hun := hq.unread (by simp [hs])
          constructor
          · rw [heq]
            exact hq.fields
          · exact fun _ => hl
          · intro _
            rw [heq]
            exact hun
          · intro hbody
            rw [heq] at hbody
            simp at hbody
          · intro hfin
            rw [heq] at hfin
            simp at hfin
  | headers =>
      simp only [hs, Except.ok.injEq, Prod.mk.injEq] at h
      obtain ⟨hok, rfl⟩ := h
      have hun := hq.unread (by simp [hs])
      have hl := hq.line (by simp [hs])
      by_cases hne : line = []
      · -- the empty line: what comes next depends on Content-Length
        simp only [parseHeader, if_pos hne]
        constructor
        · exact hq.fields
        · exact fun _ => ⟨hl.method, hl.version, hl.path⟩
        · exact fun _ => hun
        · intro hbody
          by_contra hcl
          simp [hcl] at hbody
        · intro hfin
          by_cases hcl : contentLength ∈ q.header
          · simp [hcl] at hfin
          · unfold BodyParsed
            rw [if_neg hcl]
            exact hun
      · obtain ⟨key, value, hk, hv, heq⟩ := parseHeader_accepted hline hne hok
        rw [heq]
        constructor
        · exact hq.fields.insert hk hv
        · exact fun _ => ⟨hl.method, hl.version, hl.path⟩
        · exact fun _ => hun
        · intro hbody
          exact absurd (hs.symm.trans hbody) (by decide)
        · intro hfin
          exact absurd (hs.symm.trans hfin) (by decide)

theorem parseBody_progress {k : Nat} {text : Bytes} {ok : Bool} (hq : Progress js post q)
    (hst : q.state = .body) (htext : NUL ∉ text) (h : parseBody js q k text = .ok (ok, q')) :
    Progress js post q' := by
  have hcl : contentLength ∈ q.header := hq.announced hst
  obtain ⟨value, hval⟩ := Finmap.mem_iff.mp hcl
  have hacc : q.header.access contentLength = (value, q.header) := by
    simp [HeaderMap.access, hval]
  have hl := hq.line (by simp [hst])
  simp only [parseBody, hacc, bind, Except.bind, pure, Except.pure] at h
  cases hn : stoi value with
  | error e => simp [hn] at h
  | ok n =>
      simp only [hn] at h
      split at h
      · cases hp : parsePost js { q with body := text } with
        | error e => simp [hp] at h
        | ok q₁ =>
            simp only [hp, Except.ok.injEq, Prod.mk.injEq] at h
            obtain ⟨-, rfl⟩ := h
            have hagain := parsePost_again hp .finish
            rw [parsePost_eq] at hp
            cases hv : postValue js (q.header.access contentType).1 text q.post with
            | error e => simp [hv, Except.map] at hp
            | ok p =>
                simp only [hv, Except.map, Except.ok.injEq] at hp
                subst hp
                constructor
                · exact hq.fields.access fieldName_contentType
                · exact fun _ => ⟨hl.method, hl.version, hl.path⟩
                · exact fun h => absurd rfl h
                · simp
                · intro _
                  unfold BodyParsed
                  rw [if_pos (mem_access hcl)]
                  refine ⟨htext, ?_⟩
                  rw [← (hq.unread (by simp [hst])).2]
                  exact hagain
      · simp only [Except.ok.injEq, Prod.mk.injEq] at h
        rw [← h.2]
        exact hq

theorem nul_notMem_cstr (s : Bytes) : NUL ∉ cstr s := by
  intro h
  simpa using List.mem_takeWhile_imp h

/-- **The invariant of a parse.** Every answer but BAD_REQUEST leaves it. -/
theorem stream_progress {n : Nat} {code : HttpCode} {rest : Bytes} (u : Bytes)
    (hq : Progress js post q) (h : stream js n q u = .ok (code, q', rest))
    (hcode : code ≠ .badRequest) : Progress js post q' := by
  induction hlen : u.length using Nat.strong_induction_on generalizing q u with
  | _ len ih =>
      by_cases hu : u = []
      · subst hu
        simp only [stream_nil, Except.ok.injEq, Prod.mk.injEq] at h
        exact h.2.1 ▸ hq
      · by_cases hst : q.state = .body
        · rw [stream_body hu hst] at h
          split at h
          · cases hp : parseBody js q u.length (cstr u) with
            | error e => simp [hp] at h
            | ok r =>
                obtain ⟨ok, q₁⟩ := r
                have hq₁ := parseBody_progress hq hst (nul_notMem_cstr u) hp
                rw [hp] at h
                cases ok <;> simp only [Except.ok.injEq, Prod.mk.injEq] at h <;>
                  exact h.2.1 ▸ hq₁
          · simp at h
        · cases hs : splitLine u with
          | none =>
              rw [stream_open hst hs hu] at h
              simp only [Except.ok.injEq, Prod.mk.injEq] at h
              exact h.2.1 ▸ hq
          | some r =>
              obtain ⟨line, tail⟩ := r
              rw [stream_line hst hs] at h
              cases hl : lineStep q (cstr line) with
              | error e => simp [hl] at h
              | ok r =>
                  obtain ⟨ok, q₁⟩ := r
                  rw [hl] at h
                  cases ok with
                  | false =>
                      simp only [Except.ok.injEq, Prod.mk.injEq] at h
                      exact absurd h.1.symm hcode
                  | true =>
                      have hplain := plainLine_cstr (splitLine_eq_some.mp hs).2
                      exact ih _ (hlen ▸ splitLine_length hs) tail
                        (lineStep_progress hq hst hplain hl) h rfl

end parse

/-! ### Several parses -/

section feed

variable {post : J} {q q' : HttpRequest J}

/-- A parse takes bytes away only by whole lines or a body. -/
theorem stream_unread_length {n : Nat} {code : HttpCode} {rest : Bytes} (u : Bytes)
    (h : stream js n q u = .ok (code, q', rest)) (hcode : code ≠ .badRequest) :
    rest.length ≤ u.length := by
  induction hlen : u.length using Nat.strong_induction_on generalizing q u with
  | _ len ih =>
      by_cases hu : u = []
      · subst hu
        simp only [stream_nil, Except.ok.injEq, Prod.mk.injEq] at h
        simp [← h.2.2]
      · by_cases hst : q.state = .body
        · rw [stream_body hu hst] at h
          split at h
          · split at h <;> simp only [Except.ok.injEq, Prod.mk.injEq, reduceCtorEq] at h <;>
              simp [← h.2.2, ← hlen]
          · simp at h
        · cases hs : splitLine u with
          | none =>
              rw [stream_open hst hs hu] at h
              simp only [Except.ok.injEq, Prod.mk.injEq] at h
              rw [← h.2.2, ← hlen]
          | some r =>
              obtain ⟨line, tail⟩ := r
              rw [stream_line hst hs] at h
              have hlt : tail.length < len := hlen ▸ splitLine_length hs
              split at h
              · simp at h
              · simp only [Except.ok.injEq, Prod.mk.injEq] at h
                exact absurd h.1.symm hcode
              · exact le_trans (ih _ hlt tail h rfl) (le_of_lt hlt)

/-- A parse that took nothing away is where it was. -/
theorem stream_stuck {n : Nat} {u : Bytes} (h : stream js n q u = .ok (.noRequest, q', u)) :
    q'.state = q.state := by
  by_cases hu : u = []
  · subst hu
    simp only [stream_nil, Except.ok.injEq, Prod.mk.injEq] at h
    rw [h.2.1]
  · by_cases hst : q.state = .body
    · rw [stream_body hu hst] at h
      split at h
      · split at h
        · simp at h
        · rename_i hp
          simp only [Except.ok.injEq, Prod.mk.injEq, true_and] at h
          rw [← h.1]
          exact (parseBody_false hp).1
        · simp at h
      · simp at h
    · cases hs : splitLine u with
      | none =>
          rw [stream_open hst hs hu] at h
          simp only [Except.ok.injEq, Prod.mk.injEq] at h
          rw [h.2.1]
      | some r =>
          obtain ⟨line, tail⟩ := r
          rw [stream_line hst hs] at h
          have hlt := splitLine_length hs
          split at h
          · simp at h
          · simp at h
          · exact absurd (stream_unread_length tail h (by decide)) (by omega)

theorem stream_getRequest {n : Nat} {rest : Bytes} (u : Bytes)
    (h : stream js n q u = .ok (.getRequest, q', rest)) : q'.state = .finish := by
  induction hlen : u.length using Nat.strong_induction_on generalizing q u with
  | _ len ih =>
      by_cases hu : u = []
      · subst hu
        rw [stream_nil] at h
        split at h
        · rename_i hfin
          simp only [Except.ok.injEq, Prod.mk.injEq, true_and] at h
          rw [← h.1, hfin]
        · simp at h
      · by_cases hst : q.state = .body
        · rw [stream_body hu hst] at h
          split at h
          · split at h
            · simp at h
            · simp at h
            · rename_i hp
              simp only [Except.ok.injEq, Prod.mk.injEq, true_and] at h
              simp only [parseBody, bind, Except.bind, pure, Except.pure] at hp
              split at hp
              · simp at hp
              · split at hp
                · split at hp
                  · simp at hp
                  · simp only [Except.ok.injEq, Prod.mk.injEq, true_and] at hp
                    rw [← h.1, ← hp]
                · simp at hp
          · simp at h
        · cases hs : splitLine u with
          | none =>
              rw [stream_open hst hs hu] at h
              simp at h
          | some r =>
              obtain ⟨line, tail⟩ := r
              rw [stream_line hst hs] at h
              split at h
              · simp at h
              · simp at h
              · exact ih _ (hlen ▸ splitLine_length hs) tail h rfl

/-- **The invariant over a connection.** The request a sequence of parses accepts
keeps the invariant, whatever the buffer held before. -/
theorem feed_progress : ∀ (chunks : List Bytes) {q : HttpRequest J} {b b' : Buffer} {g : Byte}
    {u : Bytes} {n : Nat}, Progress js post q → b.Holds g u n →
    (g = CR → q.state = .requestLine) → feed js chunks q b = .ok (some .getRequest, q', b') →
    Progress js post q' ∧ q'.state = .finish := by
  intro chunks
  induction chunks with
  | nil =>
      intro q b b' g u n _ _ _ h
      simp [feed] at h
  | cons c cs ih =>
      intro q b b' g u n hq hb hg h
      obtain ⟨k, hb₁⟩ := hb.append c
      rw [feed] at h
      by_cases hnil : u ++ c = []
      · rw [hnil] at hb₁
        rw [parse_nil js q hb₁] at h
        exact ih hq hb₁ hg h
      · by_cases hstray : g = CR ∧ (u ++ c).head? = some LF
        · obtain ⟨rfl, hlf⟩ := hstray
          obtain ⟨t, ht⟩ : ∃ t, u ++ c = LF :: t := by
            cases huc : u ++ c with
            | nil => exact absurd huc hnil
            | cons a t =>
                rw [huc] at hlf
                obtain rfl : a = LF := by simpa using hlf
                exact ⟨t, rfl⟩
          rw [ht] at hb₁
          obtain ⟨b₁, hp⟩ := @parse_stray_lf J js q _ t k hb₁ (hg rfl)
          simp [hp] at h
        · have hag := parse_stream js q hb₁ (fun hcr hlf => hstray ⟨hcr, hlf⟩) hnil
          cases hst : stream js k q (u ++ c) with
          | error e =>
              rw [hst] at hag
              rw [show parse js q (b.append c) = .error e from hag] at h
              simp at h
          | ok r =>
              obtain ⟨code, q₁, rest⟩ := r
              rw [hst] at hag
              obtain ⟨b₁, hp, hholds⟩ := hag
              rw [hp] at h
              cases code <;> simp only [Except.ok.injEq, Prod.mk.injEq, Option.some.injEq,
                reduceCtorEq, false_and, true_and] at h
              · obtain ⟨g', hb₂, hg'⟩ := hholds (by decide)
                refine ih (stream_progress _ hq hst (by decide)) hb₂ ?_ h
                intro hcr
                rcases hg' rfl with hnul | ⟨hgg, hrest⟩
                · rw [hnul] at hcr
                  exact absurd hcr (by decide)
                · rw [hrest] at hst
                  rw [stream_stuck hst]
                  exact hg (hgg.symm.trans hcr)
              · obtain ⟨rfl, -⟩ := h
                exact ⟨stream_progress _ hq hst (by decide), stream_getRequest _ hst⟩

end feed

/-! ## §2  The text of a forwarded request -/

/-- `entries` is an order in which `header_` can be iterated. -/
structure IterationOrder (entries : List (Bytes × Bytes)) (m : HeaderMap) : Prop where
  nodup : (entries.map Prod.fst).Nodup
  lookup : ∀ key value, (key, value) ∈ entries ↔ m.lookup key = some value

/-- What `AddCustomHeader` appends. -/
def headerLine (e : Bytes × Bytes) : Bytes := e.1 ++ ascii ": " ++ e.2 ++ crlf

/-- The headers `MakeProxyRequests` adds for a client at `originIp`. -/
def proxyHeaders (q : HttpRequest J) (originIp : Bytes) : List (Bytes × Bytes) :=
  [(ascii "X-Forwarded-For", originIp),
   (ascii "X-Forwarded-Host", (q.header.access host).1),
   (ascii "X-Forwarded-Proto", ascii "http"),
   (ascii "Forwarded",
    ascii "for=" ++ originIp ++ ascii ";host=" ++ (q.header.access host).1 ++ ascii ";proto=http"),
   (ascii "via", ascii "WhiteWebServer_Proxy")]

def requestLineText (q : HttpRequest J) : Bytes :=
  q.method ++ ascii " " ++ q.path ++ ascii " HTTP/" ++ q.version

/-- The forwarded request as bytes. -/
def forwardedText (q : HttpRequest J) (entries : List (Bytes × Bytes)) (originIp : Bytes) :
    Bytes :=
  requestLineText q ++ crlf ++ ((entries ++ proxyHeaders q originIp).flatMap headerLine ++
    (crlf ++ q.body))

theorem holds_foldl_addCustomHeader {g : Byte} : ∀ (entries : List (Bytes × Bytes)) {b : Buffer}
    {u : Bytes} {n : Nat}, b.Holds g u n →
    ∃ m, (entries.foldl (fun b e => addCustomHeader b e.1 e.2) b).Holds g
      (u ++ entries.flatMap headerLine) m := by
  intro entries
  induction entries with
  | nil =>
      intro b u n h
      exact ⟨n, by simpa using h⟩
  | cons e entries ih =>
      intro b u n h
      obtain ⟨m, h'⟩ := h.append (headerLine e)
      obtain ⟨m', h''⟩ := ih h'
      exact ⟨m', by simpa [addCustomHeader, headerLine] using h''⟩

/-- **What is written.** `makeProxyRequests` appends the forwarded text. -/
theorem makeProxyRequests_holds (q : HttpRequest J) (entries : List (Bytes × Bytes))
    (originIp : Bytes) {b : Buffer} {g : Byte} {u : Bytes} {n : Nat} (h : b.Holds g u n) :
    ∃ m, (makeProxyRequests q entries b originIp).2.Holds g
      (u ++ forwardedText q entries originIp) m := by
  obtain ⟨m₁, h₁⟩ := h.append (q.method ++ ascii " " ++ q.path ++ ascii " HTTP/" ++ q.version ++ crlf)
  obtain ⟨m₂, h₂⟩ := holds_foldl_addCustomHeader (entries ++ proxyHeaders q originIp) h₁
  obtain ⟨m₃, h₃⟩ := h₂.append crlf
  obtain ⟨m₄, h₄⟩ := h₃.append q.body
  have hfold : (makeProxyRequests q entries b originIp).2 =
      if q.body = [] then
        ((entries ++ proxyHeaders q originIp).foldl (fun b e => addCustomHeader b e.1 e.2)
          (b.append (q.method ++ ascii " " ++ q.path ++ ascii " HTTP/" ++ q.version ++ crlf))).append
            crlf
      else
        (((entries ++ proxyHeaders q originIp).foldl (fun b e => addCustomHeader b e.1 e.2)
          (b.append (q.method ++ ascii " " ++ q.path ++ ascii " HTTP/" ++ q.version ++ crlf))).append
            crlf).append q.body := by
    rw [List.foldl_append]
    rfl
  rw [hfold]
  split
  · rename_i hbody
    refine ⟨m₃, ?_⟩
    have htext : u ++ forwardedText q entries originIp =
        u ++ (q.method ++ ascii " " ++ q.path ++ ascii " HTTP/" ++ q.version ++ crlf) ++
          (entries ++ proxyHeaders q originIp).flatMap headerLine ++ crlf := by
      simp only [forwardedText, requestLineText, hbody, List.append_assoc, List.append_nil]
    rw [htext]
    exact h₃
  · refine ⟨m₄, ?_⟩
    have htext : u ++ forwardedText q entries originIp =
        u ++ (q.method ++ ascii " " ++ q.path ++ ascii " HTTP/" ++ q.version ++ crlf) ++
          (entries ++ proxyHeaders q originIp).flatMap headerLine ++ crlf ++ q.body := by
      simp only [forwardedText, requestLineText, List.append_assoc]
    rw [htext]
    exact h₄

/-! ## §3  The parser on a forwarded request -/

section reparse

variable {n : Nat}

theorem stream_cons_line {q : HttpRequest J} {line rest : Bytes} (hq : q.state ≠ .body)
    (hline : PlainLine line) :
    stream js n q (line ++ crlf ++ rest) =
      match lineStep q line with
      | .error e => .error e
      | .ok (false, q) => .ok (.badRequest, { q with state := .finish }, line ++ crlf ++ rest)
      | .ok (true, q) => stream js n q rest := by
  have hs : splitLine (line ++ crlf ++ rest) = some (line, rest) :=
    splitLine_eq_some.mpr ⟨by simp [crlf], fun h => (hline LF h).2 rfl⟩
  have h := @stream_line J js n q _ line rest hq hs
  rw [cstr_eq_self fun h => (hline NUL h).1 rfl] at h
  exact h

/-- The written request line is accepted and leaves the fields it was written
from. -/
theorem parseRequestLine_text {q₀ q : HttpRequest J} (hq : LineParsed q) :
    ∃ nuls, parseRequestLine q₀ (requestLineText q) =
      .ok (true, { q₀ with method := q.method, version := q.version, path := q.path,
                           state := .headers }, nuls) := by
  obtain ⟨tail, htail⟩ : ∃ tail, q.path = slash :: tail := by
    have hs := hq.path.start
    cases hp : q.path with
    | nil => simp [hp] at hs
    | cons a tail =>
        rw [hp] at hs
        obtain rfl : a = slash := by simpa using hs
        exact ⟨tail, rfl⟩
  have hmethod : (∀ c ∈ q.method, c ∉ blanks) ∧ methodOf q.method = some q.method := by
    rcases hq.method with h | h <;> rw [h] <;> decide +kernel
  have hversion : versionOf (ascii "HTTP/" ++ q.version) = some q.version := by
    rcases hq.version with h | h <;> rw [h] <;> decide +kernel
  have hpath : pathOf q.path = .ok (some q.path) := by
    rw [htail]
    simp [pathOf, skipDomain, strncasecmpEq, ascii, toupper, slash]
  have htext : requestLineText q =
      q.method ++ SP :: (q.path ++ SP :: (ascii "HTTP/" ++ q.version)) := by
    unfold requestLineText
    rw [show ascii " " = [SP] from rfl, show ascii " HTTP/" = SP :: ascii "HTTP/" from rfl]
    simp
  have hi : strpbrk (requestLineText q) blanks = some q.method.length := by
    rw [htext]
    exact strpbrk_append_cons hmethod.1 (by decide)
  have hdrop : (requestLineText q).drop (q.method.length + 1) =
      q.path ++ SP :: (ascii "HTTP/" ++ q.version) := by
    rw [htext, List.drop_append]
    simp
  have hurl : (requestLineText q).drop (q.method.length + 1 +
      strspn ((requestLineText q).drop (q.method.length + 1)) blanks) =
      q.path ++ SP :: (ascii "HTTP/" ++ q.version) := by
    rw [← List.drop_drop, drop_strspn_of_head, hdrop]
    intro c hc
    rw [hdrop, htail] at hc
    obtain rfl : slash = c := by simpa using hc
    decide
  have hj : strpbrk (q.path ++ SP :: (ascii "HTTP/" ++ q.version)) blanks =
      some q.path.length :=
    strpbrk_append_cons (fun c hc => (hq.path.plain c hc).2.2) (by decide)
  have hrest : (q.path ++ SP :: (ascii "HTTP/" ++ q.version)).drop (q.path.length + 1) =
      ascii "HTTP/" ++ q.version := by
    rw [List.drop_append]
    simp
  have hversion' : (ascii "HTTP/" ++ q.version).drop
      (strspn (ascii "HTTP/" ++ q.version) blanks) = ascii "HTTP/" ++ q.version := by
    apply drop_strspn_of_head
    intro c hc
    obtain rfl : 72 = c := by simpa [ascii] using hc
    decide
  have htake : (requestLineText q).take q.method.length = q.method := by
    rw [htext]
    simp
  have htakePath : (q.path ++ SP :: (ascii "HTTP/" ++ q.version)).take q.path.length = q.path := by
    simp
  unfold parseRequestLine
  simp only [hi, htake, hmethod.2, hurl, hj, hrest, hversion', hversion, htakePath, hpath]
  exact ⟨_, rfl⟩

/-- What is left of a printed value: the separators at its head are taken for those
behind the name. -/
def storedValue (value : Bytes) : Bytes := value.drop (strspn value separators)

/-- A printed header line is stored under its name in capitals. -/
theorem parseHeader_printed (q : HttpRequest J) {key : Bytes} (hk : ∀ c ∈ key, c ∉ separators)
    (value : Bytes) :
    (parseHeader q (key ++ ascii ": " ++ value)).1 = true ∧
      (parseHeader q (key ++ ascii ": " ++ value)).2.1 =
        { q with header := q.header.insert (strToupper key) (storedValue value) } := by
  have htext : key ++ ascii ": " ++ value = key ++ colon :: (SP :: value) := by
    rw [show ascii ": " = [colon, SP] from rfl]
    simp
  have hne : key ++ colon :: (SP :: value) ≠ [] := by simp
  have hi : strpbrk (key ++ colon :: (SP :: value)) separators = some key.length :=
    strpbrk_append_cons hk (by decide)
  have hdrop : (key ++ colon :: (SP :: value)).drop (key.length + 1) = SP :: value := by
    rw [List.drop_append]
    simp
  have hspn : (SP :: value).drop (strspn (SP :: value) separators) = storedValue value := by
    have hsp : strspn (SP :: value) separators = strspn value separators + 1 := by
      simp [strspn, separators]
    rw [hsp, List.drop_succ_cons, storedValue]
  rw [htext]
  unfold parseHeader
  rw [if_neg hne]
  simp only [hi, hdrop, hspn, List.take_left', and_self]

/-- A header that can be written and parsed back. -/
structure Writable (e : Bytes × Bytes) : Prop where
  name : ∀ c ∈ e.1, c ≠ NUL ∧ c ≠ LF ∧ c ∉ separators
  value : FieldValue e.2

theorem plainLine_printed {key value : Bytes} (hkey : PlainLine key) (hvalue : PlainLine value) :
    PlainLine (key ++ ascii ": " ++ value) := by
  intro c hc
  simp only [List.mem_append] at hc
  rcases hc with (hc | hc) | hc
  · exact hkey c hc
  · have hsep : ∀ c ∈ ascii ": ", c ≠ NUL ∧ c ≠ LF := by decide +kernel
    exact hsep c hc
  · exact hvalue c hc

/-- What parsing the headers `entries` does to `header_`. -/
def storeAll (m : HeaderMap) (entries : List (Bytes × Bytes)) : HeaderMap :=
  entries.foldl (fun m e => m.insert (strToupper e.1) e.2) m

/-- Printed header lines are parsed one after the other. -/
theorem stream_printedLines : ∀ (entries : List (Bytes × Bytes)) {q : HttpRequest J} (rest : Bytes),
    (∀ e ∈ entries, (∀ c ∈ e.1, c ≠ NUL ∧ c ≠ LF ∧ c ∉ separators) ∧ PlainLine e.2) →
    q.state = .headers →
    stream js n q (entries.flatMap headerLine ++ rest) =
      stream js n { q with
        header := storeAll q.header (entries.map fun e => (e.1, storedValue e.2)) } rest := by
  intro entries
  induction entries with
  | nil =>
      intro q rest _ _
      rfl
  | cons e entries ih =>
      intro q rest hw hq
      obtain ⟨hname, hvalue⟩ := hw e (by simp)
      have hbody : q.state ≠ .body := by simp [hq]
      obtain ⟨hok, hparsed⟩ := parseHeader_printed q (fun c hc => (hname c hc).2.2) e.2
      have hstep : lineStep q (e.1 ++ ascii ": " ++ e.2) =
          .ok (true, { q with header := q.header.insert (strToupper e.1) (storedValue e.2) }) := by
        simp only [lineStep, hq, hok, hparsed]
      have hsplit : (e :: entries).flatMap headerLine ++ rest =
          (e.1 ++ ascii ": " ++ e.2) ++ crlf ++ (entries.flatMap headerLine ++ rest) := by
        simp [headerLine]
      have hplain := plainLine_printed (fun c hc => ⟨(hname c hc).1, (hname c hc).2.1⟩) hvalue
      rw [hsplit, stream_cons_line hbody hplain, hstep]
      exact ih rest (fun e he => hw e (by simp [he])) hq

/-- Values that start with no separator come back whole. -/
theorem stream_headerLines (entries : List (Bytes × Bytes)) {q : HttpRequest J} (rest : Bytes)
    (hw : ∀ e ∈ entries, Writable e) (hq : q.state = .headers) :
    stream js n q (entries.flatMap headerLine ++ rest) =
      stream js n { q with header := storeAll q.header entries } rest := by
  rw [stream_printedLines entries rest (fun e he => ⟨(hw e he).name, (hw e he).value.plain⟩) hq]
  have hsame : entries.map (fun e => (e.1, storedValue e.2)) = entries := by
    conv_rhs => rw [← List.map_id entries]
    apply List.map_congr_left
    intro e he
    rw [storedValue, drop_strspn_of_head (hw e he).value.start]
    rfl
  rw [hsame]

end reparse

/-! ### Header maps -/

theorem lookup_storeAll_of_notMem {key : Bytes} : ∀ (entries : List (Bytes × Bytes))
    (m : HeaderMap), (∀ e ∈ entries, strToupper e.1 ≠ key) →
    (storeAll m entries).lookup key = m.lookup key := by
  intro entries
  induction entries with
  | nil => exact fun m _ => rfl
  | cons e entries ih =>
      intro m h
      show (storeAll (m.insert (strToupper e.1) e.2) entries).lookup key = _
      rw [ih _ fun e he => h e (by simp [he]),
        Finmap.lookup_insert_of_ne _ (h e (by simp)).symm]

/-- Storing the headers of a map in any order gives the map back. -/
theorem storeAll_iteration {entries : List (Bytes × Bytes)} {m : HeaderMap}
    (horder : IterationOrder entries m) (hm : Fields m) : storeAll ∅ entries = m := by
  have hupper : ∀ e ∈ entries, strToupper e.1 = e.1 := fun e he =>
    (hm e.1 e.2 ((horder.lookup e.1 e.2).mp he)).1.upper
  have hstored : ∀ (es : List (Bytes × Bytes)) (m₀ : HeaderMap),
      (∀ e ∈ es, strToupper e.1 = e.1) → (es.map Prod.fst).Nodup →
      ∀ key value, (key, value) ∈ es → (storeAll m₀ es).lookup key = some value := by
    intro es
    induction es with
    | nil =>
        intro _ _ _ key value h
        simp at h
    | cons e es ih =>
        intro m₀ hup hnd key value h
        rw [List.map_cons, List.nodup_cons] at hnd
        show (storeAll (m₀.insert (strToupper e.1) e.2) es).lookup key = _
        rcases List.mem_cons.mp h with rfl | h
        · rw [lookup_storeAll_of_notMem, hup _ (by simp), Finmap.lookup_insert]
          intro e he heq
          rw [hup e (by simp [he])] at heq
          exact hnd.1 (List.mem_map.mpr ⟨e, he, heq⟩)
        · exact ih _ (fun e he => hup e (by simp [he])) hnd.2 key value h
  apply Finmap.ext_lookup
  intro key
  cases hl : m.lookup key with
  | some value => exact hstored entries ∅ hupper horder.nodup key value ((horder.lookup _ _).mpr hl)
  | none =>
      rw [lookup_storeAll_of_notMem]
      · simp
      · intro e he heq
        rw [hupper e he] at heq
        have := (horder.lookup e.1 e.2).mp he
        rw [heq, hl] at this
        simp at this

/-- `header_` overridden by the headers of the proxy. -/
def forwardedHeader (q : HttpRequest J) (originIp : Bytes) : HeaderMap :=
  ((((q.header.insert (ascii "X-FORWARDED-FOR") originIp).insert
    (ascii "X-FORWARDED-HOST") (q.header.access host).1).insert
    (ascii "X-FORWARDED-PROTO") (ascii "http")).insert
    (ascii "FORWARDED")
      (ascii "for=" ++ originIp ++ ascii ";host=" ++ (q.header.access host).1 ++ ascii ";proto=http")).insert
    (ascii "VIA") (ascii "WhiteWebServer_Proxy")

theorem storeAll_proxyHeaders (q : HttpRequest J) (originIp : Bytes) :
    storeAll q.header (proxyHeaders q originIp) = forwardedHeader q originIp := by
  have h₁ : strToupper (ascii "X-Forwarded-For") = ascii "X-FORWARDED-FOR" := by decide
  have h₂ : strToupper (ascii "X-Forwarded-Host") = ascii "X-FORWARDED-HOST" := by decide
  have h₃ : strToupper (ascii "X-Forwarded-Proto") = ascii "X-FORWARDED-PROTO" := by decide
  have h₄ : strToupper (ascii "Forwarded") = ascii "FORWARDED" := by decide
  have h₅ : strToupper (ascii "via") = ascii "VIA" := by decide
  simp only [storeAll, proxyHeaders, forwardedHeader, List.foldl_cons, List.foldl_nil, h₁, h₂, h₃,
    h₄, h₅]

/-! ### Client addresses -/

theorem fieldValue_dottedQuad (a b c d : Byte) : FieldValue (dottedQuad a b c d) := by
  have hrange : ∀ x ∈ dottedQuad a b c d, 46 ≤ x.toNat ∧ x.toNat ≤ 57 := by
    intro x hx
    simp only [dottedQuad, List.mem_append, List.mem_singleton] at hx
    rcases hx with (((((hx | rfl) | hx) | rfl) | hx) | rfl) | hx
    case inl.inl.inl.inl.inl.inr => decide
    case inl.inl.inl.inr => decide
    case inl.inr => decide
    all_goals
      have := mem_decimal hx
      omega
  constructor
  · intro x hx
    have := hrange x hx
    constructor
    · rintro rfl
      exact absurd this.1 (by decide)
    · rintro rfl
      exact absurd this.1 (by decide)
  · intro x hx hsep
    have hx' := hrange x (List.mem_of_mem_head? hx)
    have hout : ∀ x ∈ separators, ¬ (46 ≤ x.toNat ∧ x.toNat ≤ 57) := by decide +kernel
    exact hout x hsep hx'

/-! ### The round trip -/

theorem init_progress {q q₀ : HttpRequest J} (h : init js q = .ok q₀) :
    Progress js q₀.post q₀ := by
  rw [init_blank h]
  constructor
  · intro key value hkv
    simp at hkv
  · exact fun h => absurd rfl h
  · exact fun _ => ⟨rfl, rfl⟩
  · simp
  · simp

theorem access_fieldValue {m : HeaderMap} {key : Bytes} (hm : Fields m) :
    FieldValue (m.access key).1 := by
  unfold HeaderMap.access
  split
  · rename_i value hval
    exact (hm key value hval).2
  · exact ⟨by simp, by simp⟩

/-- The headers of the proxy can be written for any client address. -/
theorem proxyHeaders_writable {q : HttpRequest J} (hq : Fields q.header) {originIp : Bytes}
    (hip : FieldValue originIp) : ∀ e ∈ proxyHeaders q originIp, Writable e := by
  have hhost : FieldValue (q.header.access host).1 := access_fieldValue hq
  have hname₁ : ∀ c ∈ ascii "X-Forwarded-For", c ≠ NUL ∧ c ≠ LF ∧ c ∉ separators := by decide +kernel
  have hname₂ : ∀ c ∈ ascii "X-Forwarded-Host", c ≠ NUL ∧ c ≠ LF ∧ c ∉ separators := by decide +kernel
  have hname₃ : ∀ c ∈ ascii "Forwarded", c ≠ NUL ∧ c ≠ LF ∧ c ∉ separators := by decide +kernel
  intro e he
  simp only [proxyHeaders, List.mem_cons, List.not_mem_nil, or_false] at he
  rcases he with rfl | rfl | rfl | rfl | rfl
  · exact ⟨hname₁, hip⟩
  · exact ⟨hname₂, hhost⟩
  · exact ⟨by decide +kernel, ⟨by decide +kernel, by decide +kernel⟩⟩
  · refine ⟨hname₃, ⟨?_, ?_⟩⟩
    · intro c hc
      simp only [List.mem_append] at hc
      have h₁ : ∀ c ∈ ascii "for=", c ≠ NUL ∧ c ≠ LF := by decide +kernel
      have h₂ : ∀ c ∈ ascii ";host=", c ≠ NUL ∧ c ≠ LF := by decide +kernel
      have h₃ : ∀ c ∈ ascii ";proto=http", c ≠ NUL ∧ c ≠ LF := by decide +kernel
      rcases hc with (((hc | hc) | hc) | hc) | hc
      · exact h₁ c hc
      · exact hip.plain c hc
      · exact h₂ c hc
      · exact hhost.plain c hc
      · exact h₃ c hc
    · intro c hc
      obtain rfl : 102 = c := by simpa [ascii] using hc
      decide
  · exact ⟨by decide +kernel, ⟨by decide +kernel, by decide +kernel⟩⟩

theorem entries_writable {m : HeaderMap} {entries : List (Bytes × Bytes)} (hm : Fields m)
    (horder : IterationOrder entries m) : ∀ e ∈ entries, Writable e := by
  intro e he
  obtain ⟨hk, hv⟩ := hm e.1 e.2 ((horder.lookup e.1 e.2).mp he)
  exact ⟨hk.plain, hv⟩

theorem requestLineText_plain {q : HttpRequest J} (hq : LineParsed q) :
    PlainLine (requestLineText q) := by
  have hmethod : PlainLine q.method := by
    rcases hq.method with h | h <;> rw [h] <;> decide +kernel
  have hversion : PlainLine q.version := by
    rcases hq.version with h | h <;> rw [h] <;> decide +kernel
  have h₁ : PlainLine (ascii " ") := by decide +kernel
  have h₂ : PlainLine (ascii " HTTP/") := by decide +kernel
  intro c hc
  simp only [requestLineText, List.mem_append] at hc
  rcases hc with (((hc | hc) | hc) | hc) | hc
  · exact hmethod c hc
  · exact h₁ c hc
  · exact ⟨(hq.path.plain c hc).1, (hq.path.plain c hc).2.1⟩
  · exact h₂ c hc
  · exact hversion c hc

/-- The head of a forwarded request, parsed on a fresh `HttpRequest`. -/
theorem stream_forwarded_head {q₀ q : HttpRequest J} {n : Nat} {entries : List (Bytes × Bytes)}
    {originIp : Bytes} (hq₀ : new js = .ok q₀) (hfields : Fields q.header)
    (hl : LineParsed q) (horder : IterationOrder entries q.header)
    (hip : FieldValue originIp) :
    stream js n q₀ (forwardedText q entries originIp) =
      stream js n { state := if contentLength ∈ forwardedHeader q originIp then .body else .finish,
                    method := q.method, path := q.path, version := q.version, body := [],
                    header := forwardedHeader q originIp, post := q₀.post } q.body := by
  obtain ⟨nuls, hrequest⟩ := @parseRequestLine_text J q₀ q hl
  have hstate : q₀.state = .requestLine := init_state hq₀
  have hline : lineStep q₀ (requestLineText q) =
      .ok (true, { q₀ with method := q.method, version := q.version, path := q.path,
                           state := .headers }) := by
    simp only [lineStep, hstate, hrequest]
  have hwritable : ∀ e ∈ entries ++ proxyHeaders q originIp, Writable e := by
    intro e he
    rcases List.mem_append.mp he with he | he
    · exact entries_writable hfields horder e he
    · exact proxyHeaders_writable hfields hip e he
  have hheader : storeAll ∅ (entries ++ proxyHeaders q originIp) = forwardedHeader q originIp := by
    calc storeAll ∅ (entries ++ proxyHeaders q originIp)
        = storeAll (storeAll ∅ entries) (proxyHeaders q originIp) := by
          simp [storeAll, List.foldl_append]
      _ = storeAll q.header (proxyHeaders q originIp) := by
          rw [storeAll_iteration horder hfields]
      _ = forwardedHeader q originIp := storeAll_proxyHeaders q originIp
  rw [forwardedText, stream_cons_line (by simp [hstate]) (requestLineText_plain hl), hline]
  simp only
  rw [stream_headerLines _ _ hwritable rfl, init_blank hq₀]
  simp only [hheader]
  rw [show crlf ++ q.body = [] ++ crlf ++ q.body from rfl,
    stream_cons_line (by simp) (by simp [PlainLine])]
  simp only [lineStep, parseHeader, if_true]

/-- What the proxy adds hides neither the length nor the type of the body. -/
theorem lookup_forwardedHeader {q : HttpRequest J} {originIp key : Bytes}
    (hkey : key = contentLength ∨ key = contentType) :
    (forwardedHeader q originIp).lookup key = q.header.lookup key := by
  unfold forwardedHeader
  rcases hkey with rfl | rfl
  · rw [Finmap.lookup_insert_of_ne _ (by decide), Finmap.lookup_insert_of_ne _ (by decide),
      Finmap.lookup_insert_of_ne _ (by decide), Finmap.lookup_insert_of_ne _ (by decide),
      Finmap.lookup_insert_of_ne _ (by decide)]
  · rw [Finmap.lookup_insert_of_ne _ (by decide), Finmap.lookup_insert_of_ne _ (by decide),
      Finmap.lookup_insert_of_ne _ (by decide), Finmap.lookup_insert_of_ne _ (by decide),
      Finmap.lookup_insert_of_ne _ (by decide)]

/-- What `ParsePost` makes of the body of the request `q` over the value `post`; without a
Content-Length it has none. -/
def bodyPost (js : JsonCpp J) (q : HttpRequest J) (post : J) : Except Fault J :=
  if contentLength ∈ q.header then postValue js (q.header.access contentType).1 q.body post
  else .ok post

/-- A finished request holds what its body made of the value it started with, and its
content type is bound where it has a body. -/
theorem BodyParsed.bodyPost {q : HttpRequest J} {post : J} (h : BodyParsed js post q) :
    bodyPost js q post = .ok q.post ∧
      (contentLength ∈ q.header → (q.header.access contentType).2 = q.header) := by
  unfold BodyParsed at h
  unfold HttpRequest.bodyPost
  by_cases hcl : contentLength ∈ q.header
  · rw [if_pos hcl] at h ⊢
    have hpost := h.2
    rw [parsePost_eq] at hpost
    cases hv : postValue js (q.header.access contentType).1 q.body post with
    | error e => simp [hv, Except.map] at hpost
    | ok p =>
        simp only [hv, Except.map, Except.ok.injEq] at hpost
        exact ⟨congrArg Except.ok (congrArg HttpRequest.post hpost),
          fun _ => congrArg HttpRequest.header hpost⟩
  · rw [if_neg hcl] at h ⊢
    exact ⟨congrArg Except.ok h.2.symm, fun hmem => absurd hmem hcl⟩

/-- The body of a forwarded request is parsed to itself, and `post_` to what it makes of the
value before. -/
theorem parseBody_forwarded {q : HttpRequest J} (post : J) {header : HeaderMap}
    {value : Bytes} (hfin : q.state = .finish)
    (hct : (q.header.access contentType).2 = q.header)
    (hheader : ∀ key, key = contentLength ∨ key = contentType →
      header.lookup key = q.header.lookup key)
    (hval : q.header.lookup contentLength = some value) (hlen : stoi value = .ok q.body.length) :
    parseBody js { state := .body, method := q.method, path := q.path, version := q.version,
                   body := [], header := header, post := post } q.body.length q.body =
      (bodyPost js q post).map fun post => (true, { q with header := header, post := post }) := by
  obtain ⟨ct, hlookup⟩ : ∃ ct, q.header.lookup contentType = some ct := by
    cases hl : q.header.lookup contentType with
    | some ct => exact ⟨ct, rfl⟩
    | none =>
        have : (q.header.access contentType).2.lookup contentType = some [] := by
          simp [HeaderMap.access, hl, Finmap.lookup_insert]
        rw [hct, hl] at this
        simp at this
  have hacc : header.access contentLength = (value, header) := by
    simp [HeaderMap.access, hheader _ (Or.inl rfl), hval]
  have hacc' : header.access contentType = (ct, header) := by
    simp [HeaderMap.access, hheader _ (Or.inr rfl), hlookup]
  have hcl : contentLength ∈ q.header := Finmap.mem_iff.mpr ⟨value, hval⟩
  have hpost : bodyPost js q post = postValue js ct q.body post := by
    rw [bodyPost, if_pos hcl]
    simp [HeaderMap.access, hlookup]
  have hle : toSize (q.body.length : Int) ≤ q.body.length := by
    have := (stoi_range hlen).2
    rw [toSize, Int.emod_eq_of_lt (by omega) (by omega)]
    omega
  rw [hpost]
  simp only [parseBody, hacc, hlen, bind, Except.bind, pure, Except.pure, if_pos hle,
    parsePost_eq, hacc']
  cases postValue js ct q.body post with
  | error e => rfl
  | ok p =>
      simp only [Except.map]
      rw [← hfin]

/-- **A forwarded request, parsed.** A finished request, written by `MakeProxyRequests` for any
iteration order of its headers and any client address, is parsed on a fresh `HttpRequest` to
the same fields, with its headers overridden by those of the proxy; `post_` is what the body
makes of the fresh one. -/
theorem parse_forwarded {q₀ q : HttpRequest J} {post : J} {out parsed : Buffer} {g g' : Byte}
    {n n' : Nat} {entries : List (Bytes × Bytes)} {originIp : Bytes} (hq₀ : new js = .ok q₀)
    (hq : Progress js post q) (hfin : q.state = .finish)
    (hlength : ∀ value, q.header.lookup contentLength = some value →
      stoi value = .ok q.body.length ∧ 1 ≤ q.body.length)
    (horder : IterationOrder entries q.header) (hip : FieldValue originIp)
    (hout : out.Holds g [] n)
    (hparsed : parsed.Holds g' (makeProxyRequests q entries out originIp).2.readable n')
    (hspare : 0 < n') :
    match bodyPost js q q₀.post with
    | .error e => parse js q₀ parsed = .error e
    | .ok post' => ∃ rest, parse js q₀ parsed =
        .ok (.getRequest, { q with header := forwardedHeader q originIp, post := post' }, rest) := by
  have hl := hq.line (by simp [hfin])
  have hbody := hq.finished hfin
  -- the text that was written, and where it starts
  obtain ⟨m, hwritten⟩ := makeProxyRequests_holds q entries originIp hout
  rw [hwritten.readable, List.nil_append] at hparsed
  have hhead : ∀ c, (forwardedText q entries originIp).head? = some c → c ≠ LF := by
    intro c hc
    rcases hl.method with h | h <;> simp [forwardedText, requestLineText, h, ascii] at hc <;>
      rw [← hc] <;> decide
  have hne : forwardedText q entries originIp ≠ [] := by
    simp [forwardedText, crlf]
  have hag := parse_stream js q₀ hparsed (fun _ hlf => hhead LF hlf rfl) hne
  suffices hstream : stream js n' q₀ (forwardedText q entries originIp) =
      (bodyPost js q q₀.post).map fun post =>
        (.getRequest, { q with header := forwardedHeader q originIp, post := post }, []) by
    rw [hstream] at hag
    cases hpost : bodyPost js q q₀.post with
    | error e =>
        rw [hpost] at hag
        exact hag
    | ok post' =>
        rw [hpost] at hag
        obtain ⟨rest, hrest, -⟩ := hag
        exact ⟨rest, hrest⟩
  rw [stream_forwarded_head hq₀ hq.fields hl horder hip]
  have hlookup := fun key => @lookup_forwardedHeader J q originIp key
  have hmem : contentLength ∈ forwardedHeader q originIp ↔ contentLength ∈ q.header := by
    rw [Finmap.mem_iff, Finmap.mem_iff, hlookup contentLength (Or.inl rfl)]
  by_cases hcl : contentLength ∈ q.header
  · -- with a body
    obtain ⟨value, hval⟩ := Finmap.mem_iff.mp hcl
    obtain ⟨hlen, hpos⟩ := hlength value hval
    have hct := hbody.bodyPost.2 hcl
    unfold BodyParsed at hbody
    rw [if_pos hcl] at hbody
    rw [if_pos (hmem.mpr hcl), stream_body (List.ne_nil_of_length_pos hpos) rfl,
      if_pos (Or.inr hspare), cstr_eq_self hbody.1,
      parseBody_forwarded q₀.post hfin hct hlookup hval hlen]
    cases bodyPost js q q₀.post <;> rfl
  · -- without a body
    unfold BodyParsed at hbody
    rw [if_neg hcl] at hbody
    rw [if_neg (fun h => hcl (hmem.mp h)), hbody.1, stream_nil, if_pos rfl, bodyPost, if_neg hcl]
    simp only [Except.map, Except.ok.injEq, Prod.mk.injEq, true_and, and_true]
    rw [← hfin, ← hbody.1]

/-- **Forwarding loses nothing but what `Init` left in `post_`.** A request `q` that the parser
accepted on an `HttpRequest` behind `Init`, whose body is as long as a Content-Length it has
says and not empty then, is parsed back from what `MakeProxyRequests` writes exactly if its
body makes the same of what `Init` left in `post_` as of the value in a fresh object. -/
theorem makeProxyRequests_round_trip_iff {q₀ q₁ q₂ q : HttpRequest J} {chunks : List Bytes}
    {b b' out parsed : Buffer} {g g' g'' : Byte} {u : Bytes} {n n' n'' : Nat}
    {entries : List (Bytes × Bytes)} (i₁ i₂ i₃ i₄ : Byte)
    (hinit : init js q₁ = .ok q₂) (hnew : new js = .ok q₀) (hb : b.Holds g u n)
    (haccepted : feed js chunks q₂ b = .ok (some .getRequest, q, b'))
    (hlength : ∀ value, q.header.lookup contentLength = some value →
      stoi value = .ok q.body.length ∧ 1 ≤ q.body.length)
    (horder : IterationOrder entries q.header) (hout : out.Holds g' [] n')
    (hparsed : parsed.Holds g''
      (makeProxyRequests q entries out (dottedQuad i₁ i₂ i₃ i₄)).2.readable n'')
    (hspare : 0 < n'') :
    (∃ rest, parse js q₀ parsed =
        .ok (.getRequest, { q with header := forwardedHeader q (dottedQuad i₁ i₂ i₃ i₄) }, rest)) ↔
      bodyPost js q q₂.post = bodyPost js q q₀.post := by
  obtain ⟨hq, hfin⟩ := feed_progress chunks (init_progress hinit) hb (fun _ => init_state hinit)
    haccepted
  have hparse := parse_forwarded hnew hq hfin hlength horder (fieldValue_dottedQuad i₁ i₂ i₃ i₄)
    hout hparsed hspare
  rw [(hq.finished hfin).bodyPost.1]
  cases hpost : bodyPost js q q₀.post with
  | error e =>
      rw [hpost] at hparse
      simp [hparse]
  | ok post' =>
      rw [hpost] at hparse
      obtain ⟨rest, hrest⟩ := hparse
      rw [hrest, Except.ok.injEq]
      constructor
      · rintro ⟨rest', h⟩
        exact (congrArg (fun r => r.2.1.post) (Except.ok.inj h)).symm
      · rintro rfl
        exact ⟨rest, rfl⟩

/-- A form with one pair. -/
def formPost : Bytes :=
  ascii "POST / HTTP/1.1\r\nContent-Type: application/x-www-form-urlencoded\r\n" ++
    ascii "Content-Length: 3\r\n\r\na=b"

/-- The form, parsed. -/
def pairRequest : HttpRequest (Option HeaderMap) :=
  { state := .finish, method := ascii "POST", path := ascii "/", version := ascii "1.1",
    body := ascii "a=b"
    header := ((∅ : HeaderMap).insert contentType (ascii "application/x-www-form-urlencoded")).insert
      contentLength (ascii "3")
    post := some ((∅ : HeaderMap).insert (ascii "a") (ascii "b")) }

/-- What `Init` makes of it: the members are gone, the object stays. -/
def clearedForm : HttpRequest (Option HeaderMap) := { blankForm with post := some ∅ }

/-- A request without a body on the object with the cleared form. -/
def plainGet : HttpRequest (Option HeaderMap) :=
  { clearedForm with state := .finish, method := ascii "GET", path := ascii "/" }

def pairEntries : List (Bytes × Bytes) :=
  [(contentLength, ascii "3"), (contentType, ascii "application/x-www-form-urlencoded")]

theorem pairRequest_order : IterationOrder pairEntries pairRequest.header := by
  constructor
  · decide
  · intro key value
    unfold pairRequest pairEntries
    have hne : contentType ≠ contentLength := by decide
    by_cases hcl : key = contentLength
    · subst hcl
      simp [Finmap.lookup_insert, hne.symm, eq_comm]
    · by_cases hct : key = contentType
      · subst hct
        simp [Finmap.lookup_insert_of_ne _ hne, Finmap.lookup_insert, hne, eq_comm]
      · simp [Finmap.lookup_insert_of_ne _ hct, Finmap.lookup_insert_of_ne _ hcl, hct, hcl]

/-- A buffer with the bytes `u` and one spare byte. -/
def bufferOf (u : Bytes) : Buffer :=
  { bufferContainer := NUL :: (u ++ [NUL]), readIdx := 1, writeIdx := 1 + u.length }

theorem bufferOf_holds (u : Bytes) : (bufferOf u).Holds NUL u 1 := ⟨[], rfl, rfl, by simp [bufferOf]⟩

/-- The form behind another one, forwarded for a client at 10.0.0.7: its pair makes the same of
the empty object that `Init` left as of the null value of a fresh object. -/
theorem makeProxyRequests_round_trip_form :
    ∃ out parsed rest,
      init membersJson pairRequest = .ok clearedForm ∧
      firstOutcome (feed membersJson [formPost] clearedForm (servedBuffer 1)) =
        .ok (some .getRequest, pairRequest) ∧
      parsed.readable = (makeProxyRequests pairRequest pairEntries out
        (dottedQuad 10 0 0 7)).2.readable ∧
      parse membersJson blankForm parsed =
        .ok (.getRequest,
          { pairRequest with header := forwardedHeader pairRequest (dottedQuad 10 0 0 7) },
          rest) := by
  have hinit : init membersJson pairRequest = .ok clearedForm := rfl
  have haccepted : firstOutcome (feed membersJson [formPost] clearedForm (servedBuffer 1)) =
      .ok (some .getRequest, pairRequest) := by
    decide +kernel
  obtain ⟨b', hfeed⟩ := of_firstOutcome haccepted
  have hlength : ∀ value, pairRequest.header.lookup contentLength = some value →
      stoi value = .ok pairRequest.body.length ∧ 1 ≤ pairRequest.body.length := by
    intro value hval
    rw [pairRequest, Finmap.lookup_insert, Option.some.injEq] at hval
    subst hval
    exact ⟨by decide +kernel, by decide +kernel⟩
  have hparsed := bufferOf_holds (makeProxyRequests pairRequest pairEntries (servedBuffer 1)
    (dottedQuad 10 0 0 7)).2.readable
  obtain ⟨rest, hrest⟩ := (makeProxyRequests_round_trip_iff 10 0 0 7 hinit
    (show new membersJson = .ok blankForm from rfl) (servedBuffer_holds 1) hfeed hlength
    pairRequest_order (servedBuffer_holds 1) hparsed one_pos).mpr (by decide +kernel)
  exact ⟨_, _, rest, hinit, haccepted, hparsed.readable, hrest⟩

/-- A request without a body behind a form on one connection: `post_` is an empty object, and
null once the request is forwarded. -/
theorem makeProxyRequests_not_round_trip :
    ¬ ∀ (q₀ q₁ q₂ q : HttpRequest (Option HeaderMap)) (first chunks : List Bytes) (size : Nat)
      (b₀ b b' out parsed : Buffer) (g g' : Byte) (n n' : Nat) (entries : List (Bytes × Bytes))
      (i₁ i₂ i₃ i₄ : Byte),
      new membersJson = .ok q₀ → Buffer.new size = .ok b₀ →
      feed membersJson first q₀ b₀ = .ok (some .getRequest, q₁, b) →
      init membersJson q₁ = .ok q₂ →
      feed membersJson chunks q₂ b = .ok (some .getRequest, q, b') →
      (∀ value, q.header.lookup contentLength = some value →
        stoi value = .ok q.body.length ∧ 1 ≤ q.body.length) →
      IterationOrder entries q.header → out.Holds g [] n →
      parsed.Holds g' (makeProxyRequests q entries out (dottedQuad i₁ i₂ i₃ i₄)).2.readable n' →
      0 < n' →
      ∃ rest, parse membersJson q₀ parsed =
        .ok (.getRequest, { q with header := forwardedHeader q (dottedQuad i₁ i₂ i₃ i₄) }, rest) := by
  intro h
  have hnew : Buffer.new 2 = .ok ⟨[NUL, NUL], 1, 1⟩ := rfl
  have hform : firstOutcome (feed membersJson [formPost] blankForm ⟨[NUL, NUL], 1, 1⟩) =
      .ok (some .getRequest, pairRequest) := by
    decide +kernel
  have hget : ((feed membersJson [formPost] blankForm ⟨[NUL, NUL], 1, 1⟩).bind fun r =>
      firstOutcome (feed membersJson [ascii "GET / HTTP/1.1\r\n\r\n"] clearedForm r.2.2)) =
      .ok (some .getRequest, plainGet) := by
    decide +kernel
  obtain ⟨b, hfirst⟩ := of_firstOutcome hform
  rw [hfirst] at hget
  obtain ⟨b', hsecond⟩ := of_firstOutcome hget
  have horder : IterationOrder [] plainGet.header :=
    ⟨List.nodup_nil, fun key value => by simp [plainGet, clearedForm, blankForm]⟩
  have hout := servedBuffer_holds 1
  obtain ⟨rest, hrest⟩ := h blankForm pairRequest clearedForm plainGet _ _ 2 _ b b' _ _ _ _ _ _ []
    10 0 0 7 rfl hnew hfirst rfl hsecond (fun value hval => by cases hval) horder hout
    (bufferOf_holds _) one_pos
  have hpost : (outcome (parse membersJson blankForm (bufferOf (makeProxyRequests plainGet []
      (servedBuffer 1) (dottedQuad 10 0 0 7)).2.readable))).map (fun r => r.2.post) = .ok none := by
    decide +kernel
  rw [hrest] at hpost
  cases hpost

end HttpRequest

end WhiteWebServer
