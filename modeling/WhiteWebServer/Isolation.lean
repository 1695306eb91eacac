import WhiteWebServer.ParseTrace
import WhiteWebServer.WireRequest

/-!
# What one request leaves to the next

`Init` resets every field of an `HttpRequest`; `post_` it only clears. §1 what
jsoncpp documents of the calls used; §2 `Parse` reads `post_` in one place, where
`ParsePost` takes the body; §3 two requests on one connection.
-/

namespace WhiteWebServer

/-! ## §1  jsoncpp -/

/-- The types of a `Json::Value`, all scalars in one. -/
inductive JsonKind where
  | null
  | scalar
  | array
  | object
deriving DecidableEq, Repr

/-- What jsoncpp documents: `clear` raises unless the value is null, an array or an object,
and keeps the type; a member is set in an object, and in a null value as in an empty
object; an array or a scalar raises. -/
structure JsonCpp.Documented {J : Type} (js : JsonCpp J) (kind : J → JsonKind) : Prop where
  kind_null : ∀ v, kind v = .null ↔ v = js.null
  clear_null : js.clear js.null = .ok js.null
  clear_scalar : ∀ v, kind v = .scalar → ∃ e, js.clear v = .error e
  clear_array : ∀ v, kind v = .array → ∃ v', js.clear v = .ok v' ∧ kind v' = .array
  clear_object : ∀ v, kind v = .object → ∃ v', js.clear v = .ok v' ∧ kind v' = .object
  setMember_array : ∀ v key x, kind v = .array → ∃ e, js.setMember v key x = .error e
  setMember_null : ∀ v v' key x, kind v = .object → js.clear v = .ok v' →
    js.setMember v' key x = js.setMember js.null key x

namespace HttpRequest

variable {J : Type} {js : JsonCpp J} {q q' : HttpRequest J} {b b' : Buffer} {g : Byte} {u : Bytes}
  {n : Nat}

/-! ## §2  Where `Parse` reads `post_` -/

/-- What `ParseBody` hands to `ParsePost` at the read position: the content type and the
body, when as many bytes are there as were announced. -/
def bodyTaken (q : HttpRequest J) (b : Buffer) : Option (Bytes × Bytes) :=
  if q.state = .body then
    match readCstring b, stoi (q.header.access contentLength).1 with
    | .ok text, .ok m =>
        if toSize m ≤ b.readableBytes then
          some (((q.header.access contentLength).2.access contentType).1, text)
        else none
    | _, _ => none
  else none

/-- The body that one call of `Parse` takes. -/
def parsedBody (js : JsonCpp J) (q : HttpRequest J) (b : Buffer) : Option (Bytes × Bytes) :=
  (standsOf js q b).findSome? fun p => bodyTaken p.1 p.2

def withPost {α : Type} (post : J) (r : α × HttpRequest J × Buffer) : α × HttpRequest J × Buffer :=
  (r.1, { r.2.1 with post := post }, r.2.2)

theorem parseStateLine_post (line : Bytes) (post : J) :
    parseStateLine { q with post := post } b line =
      (parseStateLine q b line).map (withPost post) := by
  unfold parseStateLine
  rw [parseRequestLine_post, parseHeader_post]
  generalize parseRequestLine q line = request
  generalize parseHeader q line = header
  obtain ⟨state, method, path, version, body, fields, post'⟩ := q
  cases state with
  | body => rfl
  | finish => rfl
  | headers => rfl
  | requestLine => rcases request with e | ⟨ok, q₁, nuls⟩ <;> rfl

/-- A turn with another value in `post_`. -/
def Turn.withPost (post : J) : Turn J → Turn J
  | .answers code q b => .answers code { q with post := post } b
  | .raises e => .raises e
  | .goesOn q b => .goesOn { q with post := post } b

theorem turn_post (hq : q.state ≠ .body) (post : J) :
    turn js { q with post := post } b = (turn js q b).withPost post := by
  have hline : parseLine { q with post := post } b = parseLine q b := rfl
  unfold turn
  rw [hline]
  rcases parseLine q b with ⟨status, len, b₁⟩
  cases status with
  | lineBad => rfl
  | lineOpen => rfl
  | lineOk =>
      simp only
      cases readCstring b₁ with
      | error e => rfl
      | ok line =>
          simp only [if_neg hq, parseStateLine_post]
          rcases parseStateLine q b₁ line with e | ⟨ok, q₁, b₂⟩
          · rfl
          · cases ok <;> rfl

/-- `post_` decides nothing but what becomes of it. -/
def PostOnly (js : JsonCpp J) (fuel : Nat) (q : HttpRequest J) (b : Buffer) : Prop :=
  match (stands js fuel q b).findSome? fun p => bodyTaken p.1 p.2 with
  | none => ∀ post, parseLoop js fuel { q with post := post } b =
      (parseLoop js fuel q b).map (withPost post)
  | some (ct, body) => ∃ r, r.1 = HttpCode.getRequest ∧
      ∀ post, parseLoop js fuel { q with post := post } b =
        (postValue js ct body post).map fun post => withPost post r

theorem bodyTaken_of_ne (hq : q.state ≠ .body) (b : Buffer) : bodyTaken q b = none := by
  rw [bodyTaken, if_neg hq]

/-- The loop at a body: it is taken whole, and the request is complete. -/
theorem parseLoop_at_body (fuel : Nat) (h : b.Holds g u n) (hu : u ≠ []) (hq : q.state = .body) :
    parseLoop js (fuel + 1) q b =
      if NUL ∈ u ∨ 0 < n then
        match stoi (q.header.access contentLength).1 with
        | .error e => .error e
        | .ok m =>
            if toSize m ≤ u.length then
              (postValue js ((q.header.access contentLength).2.access contentType).1 (cstr u)
                q.post).map fun post => (.getRequest, { q with
                  header := ((q.header.access contentLength).2.access contentType).2
                  body := cstr u, post := post, state := .finish }, b.retrieve u.length)
            else .ok (.noRequest, { q with header := (q.header.access contentLength).2 }, b)
      else .error .outOfBounds := by
  rw [parseLoop_succ js fuel q (h.readableBytes_ne hu), turn_body h hq]
  by_cases hends : NUL ∈ u ∨ 0 < n
  · rw [if_pos hends, if_pos hends, parseBody_eq]
    cases stoi (q.header.access contentLength).1 with
    | error e => rfl
    | ok m =>
        dsimp only
        by_cases hle : toSize m ≤ u.length
        · have hretrieve := (show b.Holds g (u ++ []) n from by rwa [List.append_nil]).retrieve
          rw [if_pos hle, if_pos hle]
          cases postValue js ((q.header.access contentLength).2.access contentType).1 (cstr u)
            q.post with
          | error e => rfl
          | ok post =>
              dsimp only [Except.map]
              rw [parseLoop_done _ _ hretrieve.readableBytes]
              rfl
        · rw [if_neg hle, if_neg hle]
  · rw [if_neg hends, if_neg hends]

theorem bodyTaken_at_body (h : b.Holds g u n) (hq : q.state = .body) :
    bodyTaken q b =
      if NUL ∈ u ∨ 0 < n then
        match stoi (q.header.access contentLength).1 with
        | .error _ => none
        | .ok m =>
            if toSize m ≤ u.length then
              some (((q.header.access contentLength).2.access contentType).1, cstr u)
            else none
      else none := by
  rw [bodyTaken, if_pos hq, readCstring_eq h, h.readableBytes]
  by_cases hends : NUL ∈ u ∨ 0 < n
  · rw [if_pos hends, if_pos hends]
    cases stoi (q.header.access contentLength).1 <;> rfl
  · rw [if_neg hends, if_neg hends]

/-- A body is the last thing the loop stands at. -/
theorem stands_at_body (fuel : Nat) (h : b.Holds g u n) (hu : u ≠ []) (hq : q.state = .body) :
    stands js (fuel + 1) q b = [(q, b)] := by
  rw [stands_cons fuel q h hu, turn_body h hq]
  by_cases hends : NUL ∈ u ∨ 0 < n
  · rw [if_pos hends]
    cases parseBody js q u.length (cstr u) with
    | error e => rfl
    | ok r =>
        obtain ⟨ok, q'⟩ := r
        cases ok with
        | false => rfl
        | true =>
            have hretrieve := (show b.Holds g (u ++ []) n from by rwa [List.append_nil]).retrieve
            simp only [stands_nil fuel q' hretrieve]
  · rw [if_neg hends]

theorem postOnly_body (fuel : Nat) (h : b.Holds g u n) (hu : u ≠ []) (hq : q.state = .body) :
    PostOnly js (fuel + 1) q b := by
  have hself := @parseLoop_at_body J js q b g u n fuel h hu hq
  have hloop := fun post => @parseLoop_at_body J js { q with post := post } b g u n fuel h hu hq
  rw [PostOnly, stands_at_body fuel h hu hq, List.findSome?_cons, List.findSome?_nil,
    bodyTaken_at_body h hq]
  by_cases hends : NUL ∈ u ∨ 0 < n
  · simp only [if_pos hends] at hloop hself ⊢
    cases hm : stoi (q.header.access contentLength).1 with
    | error e =>
        simp only [hm] at hloop hself
        intro post
        rw [hloop, hself]
        rfl
    | ok m =>
        simp only [hm] at hloop hself
        by_cases hle : toSize m ≤ u.length
        · simp only [if_pos hle] at hloop hself ⊢
          refine ⟨(.getRequest, { q with
            header := ((q.header.access contentLength).2.access contentType).2
            body := cstr u, state := .finish }, b.retrieve u.length), rfl, fun post => ?_⟩
          rw [hloop]
          rfl
        · simp only [if_neg hle] at hloop hself ⊢
          intro post
          rw [hloop, hself]
          rfl
  · simp only [if_neg hends] at hloop hself ⊢
    intro post
    rw [hloop, hself]
    rfl

theorem parseLoop_postOnly (fuel : Nat) (q : HttpRequest J) (h : b.Holds g u n)
    (hfuel : Enough fuel q u) : PostOnly js fuel q b := by
  refine parseLoop_induct js (M := fun fuel q b _ => PostOnly js fuel q b) ?_ ?_ ?_ ?_ fuel q h hfuel
  case refine_1 =>
    intro fuel q b g h
    rw [PostOnly, stands_nil fuel q h]
    intro post
    rw [parseLoop_done fuel _ h.readableBytes, parseLoop_done fuel _ h.readableBytes]
    rfl
  case refine_2 =>
    intro fuel q b g u code q' b' h hu hturn
    by_cases hq : q.state = .body
    · exact postOnly_body fuel h hu hq
    · rw [PostOnly, stands_cons fuel q h hu, hturn, List.findSome?_cons, bodyTaken_of_ne hq]
      intro post
      rw [parseLoop_succ js fuel _ (h.readableBytes_ne hu), parseLoop_succ js fuel _
        (h.readableBytes_ne hu), turn_post hq, hturn]
      rfl
  case refine_3 =>
    intro fuel q b g u e h hu hturn
    by_cases hq : q.state = .body
    · exact postOnly_body fuel h hu hq
    · rw [PostOnly, stands_cons fuel q h hu, hturn, List.findSome?_cons, bodyTaken_of_ne hq]
      intro post
      rw [parseLoop_succ js fuel _ (h.readableBytes_ne hu), parseLoop_succ js fuel _
        (h.readableBytes_ne hu), turn_post hq, hturn]
      rfl
  case refine_4 =>
    intro fuel q b g u q' b' g' u' h hu hturn h' hrest ih
    by_cases hq : q.state = .body
    · exact postOnly_body fuel h hu hq
    · have hloop : ∀ post, parseLoop js (fuel + 1) { q with post := post } b =
          parseLoop js fuel { q' with post := post } b' := by
        intro post
        rw [parseLoop_succ js fuel _ (h.readableBytes_ne hu), turn_post hq, hturn]
        rfl
      have hself : parseLoop js (fuel + 1) q b = parseLoop js fuel q' b' := by
        rw [parseLoop_succ js fuel _ (h.readableBytes_ne hu), hturn]
      rw [PostOnly, stands_cons fuel q h hu, hturn, List.findSome?_cons, bodyTaken_of_ne hq]
      simp only [hself]
      simp only [hloop]
      exact ih

/-- What a parser answers under every `post_`, by the body it takes: it is kept, or it is
what that body makes of it. -/
def AnswersUnder {α : Type} (js : JsonCpp J) (run : J → Except Fault (α × HttpRequest J × Buffer))
    (self : Except Fault (α × HttpRequest J × Buffer)) (code : α) : Option (Bytes × Bytes) → Prop
  | none => ∀ post, run post = self.map (withPost post)
  | some (ct, body) => ∃ r, r.1 = code ∧
      ∀ post, run post = (postValue js ct body post).map fun post => withPost post r

variable (js) in
/-- `post_` decides nothing of a call of `Parse` but what becomes of it. -/
theorem parse_postOnly (q : HttpRequest J) (h : b.Holds g u n) :
    AnswersUnder js (fun post => parse js { q with post := post } b) (parse js q b) .getRequest
      (parsedBody js q b) := by
  unfold parsedBody standsOf parse
  by_cases hb : b.readableBytes = 0
  · obtain rfl : u = [] := List.length_eq_zero_iff.mp (h.readableBytes ▸ hb)
    simp only [if_pos hb, stands_nil _ q h, List.findSome?_nil]
    exact fun _ => rfl
  · simp only [if_neg hb]
    have hloop : PostOnly js (b.readableBytes + 1) q b :=
      parseLoop_postOnly _ q h (Or.inl (by rw [h.readableBytes]; omega))
    unfold PostOnly at hloop
    cases hfind : (stands js (b.readableBytes + 1) q b).findSome? fun p => bodyTaken p.1 p.2 with
    | none =>
        rw [hfind] at hloop
        exact hloop
    | some taken =>
        rw [hfind] at hloop
        exact hloop

/-! ## §3  Two requests -/

/-- The body that is taken of a request that arrives in chunks. -/
def fedBody (js : JsonCpp J) : List Bytes → HttpRequest J → Buffer → Option (Bytes × Bytes)
  | [], _, _ => none
  | c :: cs, q, b =>
      match parsedBody js q (b.append c) with
      | some taken => some taken
      | none =>
          match parse js q (b.append c) with
          | .ok (.noRequest, q, b) => fedBody js cs q b
          | _ => none

variable (js) in
theorem feed_postOnly : ∀ (chunks : List Bytes) (q : HttpRequest J) {b : Buffer} {g : Byte}
    {u : Bytes} {n : Nat}, b.Holds g u n →
    AnswersUnder js (fun post => feed js chunks { q with post := post } b) (feed js chunks q b)
      (some .getRequest) (fedBody js chunks q b) := by
  intro chunks
  induction chunks with
  | nil => exact fun q b g u n h post => rfl
  | cons c chunks ih =>
      intro q b g u n h
      obtain ⟨m, h'⟩ := h.append c
      have hparse := parse_postOnly js q h'
      rw [fedBody]
      cases htaken : parsedBody js q (b.append c) with
      | some taken =>
          obtain ⟨ct, body⟩ := taken
          rw [htaken] at hparse
          obtain ⟨⟨code, q', b'⟩, rfl, hall⟩ := hparse
          refine ⟨(some .getRequest, q', b'), rfl, fun post => ?_⟩
          dsimp only at hall ⊢
          rw [feed, hall]
          cases postValue js ct body post <;> rfl
      | none =>
          rw [htaken] at hparse
          dsimp only [AnswersUnder] at hparse ⊢
          cases hresult : parse js q (b.append c) with
          | error e =>
              change ∀ post, feed js (c :: chunks) { q with post := post } b = _
              intro post
              rw [feed, feed, hparse, hresult]
              rfl
          | ok r =>
              obtain ⟨code, q', b'⟩ := r
              obtain ⟨g₁, u₁, h₁⟩ := parse_holds h' hresult
              cases code with
              | noRequest =>
                  have hself : feed js (c :: chunks) q b = feed js chunks q' b' := by
                    rw [feed, hresult]
                  have hfeed : ∀ post, feed js (c :: chunks) { q with post := post } b =
                      feed js chunks { q' with post := post } b' := by
                    intro post
                    rw [feed, hparse, hresult]
                    rfl
                  simp only [hself]
                  simp only [hfeed]
                  exact ih q' h₁
              | _ =>
                  change ∀ post, feed js (c :: chunks) { q with post := post } b = _
                  intro post
                  rw [feed, feed, hparse, hresult]
                  rfl

theorem feed_holds : ∀ (chunks : List Bytes) {q : HttpRequest J} {b : Buffer} {g : Byte} {u : Bytes}
    {n : Nat} {r : Option HttpCode × HttpRequest J × Buffer}, b.Holds g u n →
    feed js chunks q b = .ok r → r.2.2.Stored := by
  intro chunks
  induction chunks with
  | nil =>
      intro q b g u n r h hfeed
      obtain rfl := Except.ok.inj hfeed
      exact ⟨g, u, n, h⟩
  | cons c chunks ih =>
      intro q b g u n r h hfeed
      obtain ⟨m, h'⟩ := h.append c
      rw [feed] at hfeed
      cases hresult : parse js q (b.append c) with
      | error e => simp [hresult] at hfeed
      | ok p =>
          obtain ⟨code, q', b'⟩ := p
          obtain ⟨g₁, u₁, h₁⟩ := parse_holds h' hresult
          rw [hresult] at hfeed
          cases code with
          | noRequest => exact ih h₁ hfeed
          | _ =>
              obtain rfl := Except.ok.inj hfeed
              exact ⟨g₁, u₁, m, h₁⟩

/-- `Init` raises nothing, and the next request is parsed as on a fresh object. -/
def Isolated (js : JsonCpp J) (q₁ q₀ : HttpRequest J) (chunks : List Bytes) (b : Buffer) : Prop :=
  ∃ q, init js q₁ = .ok q ∧ firstOutcome (feed js chunks q b) = firstOutcome (feed js chunks q₀ b)

/-- Nothing of `post_` is left: it was null, or it can be cleared and the next body makes
of what is left what it makes of null. -/
def Forgotten (js : JsonCpp J) (kind : J → JsonKind) (post : J) (q₀ : HttpRequest J)
    (chunks : List Bytes) (b : Buffer) : Prop :=
  kind post = .null ∨ kind post ≠ .scalar ∧
    match fedBody js chunks q₀ b with
    | none => ∃ e, feed js chunks q₀ b = .error e
    | some (ct, body) => ∀ v, js.clear post = .ok v →
        postValue js ct body v = postValue js ct body js.null

theorem new_post {kind : J → JsonKind} (hjs : js.Documented kind) {q₀ : HttpRequest J}
    (hnew : new js = .ok q₀) : q₀.post = js.null := by
  unfold new init at hnew
  rw [hjs.clear_null] at hnew
  rw [← Except.ok.inj hnew]

theorem init_eq {q₀ : HttpRequest J} {v : J} (hnew : new js = .ok q₀) (hv : js.clear q.post = .ok v) :
    init js q = .ok { q₀ with post := v } := by
  rw [init_blank hnew, init, hv]

/-- What clearing leaves is null only where null was. -/
theorem clear_cases {kind : J → JsonKind} (hjs : js.Documented kind) (post : J) :
    (kind post = .null ∧ js.clear post = .ok js.null) ∨
      (kind post = .scalar ∧ ∃ e, js.clear post = .error e) ∨
      (kind post ≠ .null ∧ kind post ≠ .scalar ∧ ∃ v, js.clear post = .ok v ∧ v ≠ js.null) := by
  have hne : ∀ {v : J}, kind v ≠ .null → v ≠ js.null := fun hkind heq =>
    hkind ((hjs.kind_null _).mpr heq)
  cases hkind : kind post with
  | null =>
      rw [(hjs.kind_null post).mp hkind]
      exact Or.inl ⟨rfl, hjs.clear_null⟩
  | scalar => exact Or.inr (Or.inl ⟨rfl, hjs.clear_scalar post hkind⟩)
  | array =>
      obtain ⟨v, hv, hv'⟩ := hjs.clear_array post hkind
      exact Or.inr (Or.inr ⟨by simp, by simp, v, hv, hne (by rw [hv']; simp)⟩)
  | object =>
      obtain ⟨v, hv, hv'⟩ := hjs.clear_object post hkind
      exact Or.inr (Or.inr ⟨by simp, by simp, v, hv, hne (by rw [hv']; simp)⟩)

/-- Whether the next request is parsed as on a fresh object, by what is left in `post_`. -/
theorem firstOutcome_eq_iff {q₀ : HttpRequest J} (chunks : List Bytes) (h : b.Holds g u n) (v : J) :
    firstOutcome (feed js chunks { q₀ with post := v } b) = firstOutcome (feed js chunks q₀ b) ↔
      match fedBody js chunks q₀ b with
      | none => v = q₀.post ∨ ∃ e, feed js chunks q₀ b = .error e
      | some (ct, body) => postValue js ct body v = postValue js ct body q₀.post := by
  have hpost := feed_postOnly js chunks q₀ h
  cases htaken : fedBody js chunks q₀ b with
  | none =>
      rw [htaken] at hpost
      dsimp only [AnswersUnder] at hpost
      have hself : feed js chunks q₀ b = (feed js chunks q₀ b).map (withPost q₀.post) :=
        hpost q₀.post
      rw [hpost v]
      cases hfeed : feed js chunks q₀ b with
      | error e => simp [firstOutcome, Except.map]
      | ok r =>
          rw [hfeed] at hself
          have hr : r = withPost q₀.post r := Except.ok.inj hself
          have hrpost : r.2.1.post = q₀.post := by
            rw [hr]
            rfl
          simp only [firstOutcome, Except.map, withPost, Except.ok.injEq, Prod.mk.injEq, true_and,
            reduceCtorEq, exists_false, or_false]
          constructor
          · intro heq
            rw [← hrpost, ← heq]
          · rintro rfl
            rw [← hrpost]
  | some taken =>
      obtain ⟨ct, body⟩ := taken
      rw [htaken] at hpost
      dsimp only [AnswersUnder] at hpost
      obtain ⟨r, -, hall⟩ := hpost
      have hself : feed js chunks q₀ b =
          (postValue js ct body q₀.post).map fun post => withPost post r := hall q₀.post
      rw [hall v, hself]
      dsimp only
      generalize postValue js ct body v = x
      generalize postValue js ct body q₀.post = y
      constructor
      · intro heq
        -- the value that was taken can be read off the request
        have hread : ∀ z : Except Fault J,
            (firstOutcome (z.map fun post => withPost post r)).map (fun p => p.2.post) = z := by
          intro z
          cases z <;> rfl
        rw [← hread x, heq, hread]
      · rintro rfl
        rfl

/-- The next request on a connection is parsed as on a fresh `HttpRequest` exactly where
the one before it left `post_` null, or left an array or an object that the body of the next
replaces. Nothing is asked of the object and the buffer of the one before it: there may have
been others. -/
theorem init_isolated_iff {kind : J → JsonKind} (hjs : js.Documented kind)
    {q q₀ q₁ : HttpRequest J} (hnew : new js = .ok q₀)
    {b₀ b₁ : Buffer} {g : Byte} {u : Bytes} {n : Nat} (hb : b₀.Holds g u n)
    {first : List Bytes} (hfirst : feed js first q b₀ = .ok (some .getRequest, q₁, b₁))
    (second : List Bytes) :
    Isolated js q₁ q₀ second b₁ ↔ Forgotten js kind q₁.post q₀ second b₁ := by
  obtain ⟨g, u, n, h⟩ := feed_holds first hb hfirst
  have hnull : q₀.post = js.null := new_post hjs hnew
  unfold Isolated Forgotten
  rcases clear_cases hjs q₁.post with ⟨hkind, hclear⟩ | ⟨hkind, e, hclear⟩ | ⟨hne, hns, v, hclear, hv⟩
  · refine ⟨fun _ => Or.inl hkind, fun _ => ⟨_, init_eq hnew hclear, ?_⟩⟩
    rw [← hnull]
  · have herror : init js q₁ = .error e := by rw [init, hclear]
    simp [hkind, herror]
  · rw [init_eq hnew hclear]
    simp only [Except.ok.injEq, exists_eq_left', firstOutcome_eq_iff second h, hne, hns, hclear,
      false_or, ne_eq, not_false_eq_true, true_and, forall_eq', hnull]
    cases fedBody js second q₀ b₁ with
    | none => simp [hv]
    | some taken => rfl

/-! ### Values of one kind each -/

/-- Values as far as they are told apart here. -/
inductive JsonValue where
  | null
  | number (n : Nat)
  | array (size : Nat)
  | object (members : HeaderMap)
deriving DecidableEq

def JsonValue.kind : JsonValue → JsonKind
  | .null => .null
  | .number _ => .scalar
  | .array _ => .array
  | .object _ => .object

/-- jsoncpp on three documents. -/
def valuesJson : JsonCpp JsonValue where
  null := .null
  clear
    | .null => .ok .null
    | .number _ => .error .uncaught
    | .array _ => .ok (.array 0)
    | .object _ => .ok (.object ∅)
  setMember
    | .null, key, x => .ok (.object ((∅ : HeaderMap).insert key x))
    | .object members, key, x => .ok (.object (members.insert key x))
    | _, _, _ => .error .uncaught
  parse document v :=
    if document = ascii "1" then .ok (true, .number 1)
    else if document = ascii "[1]" then .ok (true, .array 1)
    else if document = ascii "{}" then .ok (true, .object ∅)
    else .ok (false, v)

theorem valuesJson_documented : valuesJson.Documented JsonValue.kind where
  kind_null v := by cases v <;> simp [JsonValue.kind, valuesJson]
  clear_null := rfl
  clear_scalar v h := by cases v <;> simp [JsonValue.kind] at h; exact ⟨_, rfl⟩
  clear_array v h := by cases v <;> simp [JsonValue.kind] at h; exact ⟨_, rfl, rfl⟩
  clear_object v h := by cases v <;> simp [JsonValue.kind] at h; exact ⟨_, rfl, rfl⟩
  setMember_array v key x h := by cases v <;> simp [JsonValue.kind] at h; exact ⟨_, rfl⟩
  setMember_null v v' key x h hclear := by
    cases v <;> simp [JsonValue.kind] at h
    obtain rfl := Except.ok.inj hclear
    rfl

def blankValues : HttpRequest JsonValue :=
  { state := .requestLine, method := [], path := [], version := ascii "1.1", body := [],
    header := ∅, post := .null }

def smallBuffer : Buffer := { bufferContainer := [NUL, NUL], readIdx := 1, writeIdx := 1 }

/-- A request with a JSON document of one byte. -/
def scalarPost : Bytes :=
  ascii "POST / HTTP/1.1\r\nContent-Type: application/json\r\nContent-Length: 1\r\n\r\n1"

theorem feed_of_post {r : Bytes} {v : JsonValue}
    (h : (firstOutcome (feed valuesJson [r] blankValues smallBuffer)).map
      (fun p => (p.1, p.2.post)) = .ok (some .getRequest, v)) :
    ∃ q b, feed valuesJson [r] blankValues smallBuffer = .ok (some .getRequest, q, b) ∧
      q.post = v := by
  obtain ⟨⟨code, q⟩, hfirst, heq⟩ := Outcome.map_eq_ok h
  obtain ⟨rfl, rfl⟩ := Prod.mk.inj heq
  obtain ⟨b, hfeed⟩ := of_firstOutcome hfirst
  exact ⟨q, b, hfeed, rfl⟩

/-- Two forms: the members of the first are gone. -/
theorem init_isolated_forms :
    ∃ q₁ b₁, feed valuesJson [formPost] blankValues smallBuffer = .ok (some .getRequest, q₁, b₁) ∧
      q₁.post = .object ((∅ : HeaderMap).insert (ascii "a") (ascii "b")) ∧
      Isolated valuesJson q₁ blankValues [formPost] b₁ := by
  obtain ⟨q₁, b₁, hfeed, hpost⟩ := @feed_of_post formPost
    (.object ((∅ : HeaderMap).insert (ascii "a") (ascii "b"))) (by decide +kernel)
  have hnew : new valuesJson = .ok blankValues := rfl
  have hb : Buffer.new 2 = .ok smallBuffer := rfl
  refine ⟨q₁, b₁, hfeed, hpost, (init_isolated_iff valuesJson_documented hnew
    (Buffer.holds_of_new hb) hfeed [formPost]).mpr (Or.inr ⟨by rw [hpost]; decide, ?_⟩)⟩
  have htaken : (match feed valuesJson [formPost] blankValues smallBuffer with
      | .ok (_, _, b) => fedBody valuesJson [formPost] blankValues b
      | .error _ => none) = some (ascii "application/x-www-form-urlencoded", ascii "a=b") := by
    decide +kernel
  rw [hfeed] at htaken
  simp only at htaken
  rw [htaken, hpost]
  rintro v hv
  obtain rfl := Except.ok.inj hv
  decide +kernel

/-- Behind a scalar `Init` raises. -/
theorem scalar_post_raises :
    ∃ q₁ b₁, feed valuesJson [scalarPost] blankValues smallBuffer =
        .ok (some .getRequest, q₁, b₁) ∧
      init valuesJson q₁ = .error .uncaught ∧
      ¬ Isolated valuesJson q₁ blankValues [formPost] b₁ := by
  obtain ⟨q₁, b₁, hfeed, hpost⟩ := @feed_of_post scalarPost (.number 1) (by decide +kernel)
  have hinit : init valuesJson q₁ = .error .uncaught := by
    rw [init, hpost]
    rfl
  refine ⟨q₁, b₁, hfeed, hinit, ?_⟩
  rintro ⟨q, hq, -⟩
  rw [hinit] at hq
  cases hq

end HttpRequest

end WhiteWebServer
