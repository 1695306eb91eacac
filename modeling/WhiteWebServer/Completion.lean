import WhiteWebServer.WireRequest
import WhiteWebServer.ParseTrace

/-!
# When a request is complete

A well-formed request arrives in chunks, with a parse after each. §1 the parser on the
body, where it can go wrong; §2 one chunk; §3 for which requests and chunks the answer is
NO_REQUEST up to the last byte and GET_REQUEST with it.
-/

namespace WhiteWebServer

namespace HttpRequest

variable {J : Type} {js : JsonCpp J} {q₀ parsed : HttpRequest J} {w : WireRequest} {post : J}

/-! ## §1  The body -/

theorem stoi_too_long {value : Bytes} {k : Nat} (h : announcedLength value = some k)
    (hk : 2 ^ 31 ≤ k) : stoi value = .error .uncaught := by
  unfold announcedLength at h
  by_cases hd : (strtolDigits value).2 = [] ∨ (strtolDigits value).1 = true
  · rw [if_pos hd] at h
    cases h
  · rw [if_neg hd, Option.some.injEq] at h
    rw [not_or, Bool.not_eq_true] at hd
    rw [stoi, if_neg hd.1, hd.2, h]
    show checkInt (k : Int) = _
    rw [checkInt, if_neg]
    rintro ⟨-, hlt⟩
    omega

/-- A request with a body announces it. -/
theorem WellFormed.announced (hw : WellFormed q₀ w parsed) (hbody : w.body ≠ []) :
    ∃ value, parsed.header.lookup contentLength = some value ∧
      announcedLength value = some w.body.length := by
  have hlength := hw.length
  cases hl : parsed.header.lookup contentLength with
  | none =>
      simp only [hl] at hlength
      exact absurd hlength hbody
  | some value =>
      simp only [hl] at hlength
      exact ⟨value, rfl, hlength⟩

/-- `ParseBody` behind the head. -/
theorem parseBody_afterHead {value : Bytes} (hl : parsed.header.lookup contentLength = some value)
    (k : Nat) (text : Bytes) :
    parseBody js (afterHead parsed post) k text =
      match stoi value with
      | .error e => .error e
      | .ok m =>
          if toSize m ≤ k then
            match postValue js (parsed.header.access contentType).1 text post with
            | .error e => .error e
            | .ok r => .ok (true, { parsed with
                state := .finish, body := text, post := r
                header := (parsed.header.access contentType).2 })
          else .ok (false, afterHead parsed post) := by
  have hacc : (afterHead parsed post).header.access contentLength = (value, parsed.header) := by
    simp [HeaderMap.access, afterHead, hl]
  rw [parseBody_eq, hacc]
  cases stoi value with
  | error e => rfl
  | ok m =>
      simp only
      split
      · rfl
      · simp only [afterHead]

theorem toSize_length {k : Nat} (hk : k < 2 ^ 31) : toSize (k : Int) = k := by
  rw [toSize, Int.emod_eq_of_lt (by omega) (by omega)]
  exact Int.toNat_natCast k

/-- A part of a body that is parsed without a fault ends as a C string, and its length
fits an `int`. -/
theorem stream_body_ok {n : Nat} {y : Bytes} {r : HttpCode × HttpRequest J × Bytes}
    (hw : WellFormed q₀ w parsed) (hbody : w.body ≠ []) (hy : y ≠ [])
    (h : stream js n (afterHead parsed post) y = .ok r) :
    (NUL ∈ y ∨ 0 < n) ∧ w.body.length < 2 ^ 31 := by
  obtain ⟨value, hl, hlength⟩ := hw.announced hbody
  have hcl : contentLength ∈ parsed.header := Finmap.mem_iff.mpr ⟨value, hl⟩
  rw [stream_body hy (by simp [afterHead, hcl])] at h
  split at h
  · rename_i hroom
    refine ⟨hroom, ?_⟩
    by_contra hlong
    rw [parseBody_afterHead hl, stoi_too_long hlength (Nat.not_lt.mp hlong)] at h
    cases h
  · cases h

/-- A body that finishes its request is in range, and `ParsePost` takes it. -/
theorem stream_body_done {n : Nat} {q : HttpRequest J} {rest : Bytes}
    (hw : WellFormed q₀ w parsed)
    (h : stream js n (afterHead parsed post) w.body = .ok (.getRequest, q, rest)) :
    BodyInRange parsed w ∧ ∃ r, postOver js parsed w post = .ok r := by
  unfold BodyInRange postOver
  by_cases hcl : contentLength ∈ parsed.header
  · have hstate : (afterHead parsed post).state = .body := by simp [afterHead, hcl]
    have hbody : w.body ≠ [] := by
      intro hnil
      rw [hnil, stream_nil, if_neg (by simp [hstate])] at h
      cases h
    obtain ⟨hroom, hrange⟩ := stream_body_ok hw hbody hbody h
    obtain ⟨value, hl, hlength⟩ := hw.announced hbody
    refine ⟨fun _ => ⟨List.length_pos_of_ne_nil hbody, hrange⟩, ?_⟩
    rw [if_pos hcl]
    rw [stream_body hbody hstate, if_pos hroom, parseBody_afterHead hl,
      announcedLength_stoi hlength hrange] at h
    simp only [toSize_length hrange, Nat.le_refl, if_true] at h
    cases hpost : postValue js (parsed.header.access contentType).1 (cstr w.body) post with
    | error e =>
        rw [hpost] at h
        cases h
    | ok r => exact ⟨r, rfl⟩
  · rw [if_neg hcl]
    exact ⟨fun hmem => absurd hmem hcl, _, rfl⟩

/-! ## §2  One chunk -/

/-- Where body bytes `y` are in the buffer, their C string ends inside of it. -/
def BodyEndsIn (w : WireRequest) (p : Bytes) (b : Buffer) : Prop :=
  ∀ y, p = w.head ++ y → y ≠ [] → NUL ∈ y ∨ 0 < b.writableBytes

/-- The buffer of a parser that was given the part `p` and left `rest` of it unread: a line
that was taken out left a NUL before them. -/
def ReadTo (p rest : Bytes) (b : Buffer) : Prop :=
  ∃ g k, b.Holds g rest k ∧ (g = NUL ∨ rest = p)

theorem ReadTo.start {g : Byte} {b : Buffer} {k : Nat} (hb : b.Holds g [] k) : ReadTo [] [] b :=
  ⟨g, k, hb, Or.inr rfl⟩

/-- A head does not start with an LF. -/
theorem head?_of_plain (hplain : ∀ line ∈ w.lines, PlainLine line ∧ line ≠ []) {p z : Bytes}
    (hp : p <+: w.head ++ z) : p.head? ≠ some LF := by
  obtain ⟨hline, hne⟩ := hplain w.requestLine List.mem_cons_self
  obtain ⟨c, line, hcons⟩ := List.exists_cons_of_ne_nil hne
  have hbytes : ∃ t, w.head ++ z = c :: t :=
    ⟨_, by rw [WireRequest.head, WireRequest.lines, hcons]; rfl⟩
  obtain ⟨t, ht⟩ := hbytes
  intro hlf
  obtain ⟨r, rfl⟩ := List.head?_eq_some_iff.mp hlf
  rw [ht] at hp
  rw [hcons] at hline
  exact (hline c List.mem_cons_self).2 (List.cons_prefix_cons.mp hp).1.symm

namespace Position

variable {q : HttpRequest J} {p rest : Bytes}

/-- What `Parse` makes of a chunk, from what the stream parser makes of it. -/
theorem parse_chunk (h : Position js q₀ parsed w post p q rest) (hq₀ : InHead q₀)
    (hw : WellFormed q₀ w parsed) {b : Buffer} (hb : ReadTo p rest b) {x z : Bytes}
    (hx : rest ++ x ≠ []) (hpart : p ++ x <+: w.head ++ z) :
    ∃ g, (g = NUL ∨ rest = p) ∧
      Agrees (b.append x).writableBytes g (rest ++ x)
        (stream js (b.append x).writableBytes { q₀ with post := post } (p ++ x))
        (parse js q (b.append x)) := by
  obtain ⟨g, k, hholds, hg⟩ := hb
  obtain ⟨m, hm⟩ := hholds.append x
  have hroom : (b.append x).writableBytes = m := hm.writableBytes
  refine ⟨g, hg, ?_⟩
  rw [hroom, ← h.stream_more hq₀ hw]
  refine parse_stream js q hm ?_ hx
  rintro rfl
  rcases hg with hg | rfl
  · exact absurd hg (by decide)
  · exact head?_of_plain hw.plain hpart

/-- A parser with nothing unread has no body bytes. -/
theorem body_nil_of_rest_nil (h : Position js q₀ parsed w post p q []) {y : Bytes}
    (hp : p = w.head ++ y) : y = [] := by
  cases h with
  | inHead hhead _ _ =>
      rw [hp] at hhead
      have hlength := hhead.length_le
      rw [List.length_append] at hlength
      exact List.eq_nil_of_length_eq_zero (by omega)
  | inBody _ _ => exact (List.append_cancel_left hp).symm

/-- A chunk up to which the request is not complete: if `Parse` answers at all it asks for
more, and this needs the C string to end and the length to fit an `int` where body bytes
are there. -/
theorem chunk_before (h : Position js q₀ parsed w post p q rest) (hq₀ : InHead q₀)
    (hw : WellFormed q₀ w parsed) {b : Buffer} (hb : ReadTo p rest b) {x : Bytes}
    (hx : p ++ x <+: w.bytes) (hne : p ++ x ≠ w.bytes) :
    ((∃ r, parse js q (b.append x) = .ok r) ↔ BodyEndsIn w (p ++ x) (b.append x) ∧
        (w.head.length < (p ++ x).length → w.body.length < 2 ^ 31)) ∧
      ∀ r, parse js q (b.append x) = .ok r → ∃ q' b' rest', r = (.noRequest, q', b') ∧
        Position js q₀ parsed w post (p ++ x) q' rest' ∧ ReadTo (p ++ x) rest' b' := by
  by_cases hempty : rest ++ x = []
  · obtain ⟨rfl, rfl⟩ := List.append_eq_nil_iff.mp hempty
    obtain ⟨g, k, hholds, hg⟩ := hb
    obtain ⟨m, hm⟩ := hholds.append []
    rw [List.append_nil] at hx hne ⊢
    rw [parse_nil js q hm]
    have hhead : w.head.length < p.length → w.body.length < 2 ^ 31 := by
      intro hlt
      exfalso
      rcases List.prefix_or_prefix_of_prefix hx (List.prefix_append w.head w.body) with hp | ⟨y, hy⟩
      · exact absurd hp.length_le (Nat.not_le.mpr hlt)
      · rw [← hy, h.body_nil_of_rest_nil hy.symm, List.append_nil] at hlt
        exact Nat.lt_irrefl _ hlt
    refine ⟨iff_of_true ⟨_, rfl⟩ ⟨fun y hy hyne => ?_, hhead⟩, ?_⟩
    · exact absurd (h.body_nil_of_rest_nil hy) hyne
    · rintro r ⟨⟩
      exact ⟨q, _, [], rfl, h, g, m, hm, hg⟩
  · obtain ⟨g, hg, hagrees⟩ := h.parse_chunk hq₀ hw hb hempty hx
    -- from the stream parser's answer to the rest
    have hgood : BodyEndsIn w (p ++ x) (b.append x) →
        (w.head.length < (p ++ x).length → w.body.length < 2 ^ 31) →
        ∃ q' b' rest', parse js q (b.append x) = .ok (.noRequest, q', b') ∧
          Position js q₀ parsed w post (p ++ x) q' rest' ∧ ReadTo (p ++ x) rest' b' := by
      intro hends hrange
      obtain ⟨q', rest', hstream, hposition⟩ := (h.step hq₀ hw hx hends hrange).1 hne
      rw [h.stream_more hq₀ hw] at hstream
      rw [hstream] at hagrees
      obtain ⟨b', hparse, hkept⟩ := hagrees
      obtain ⟨g', hb', hguard⟩ := hkept (by decide)
      refine ⟨q', b', rest', hparse, hposition, g', _, hb', ?_⟩
      rcases hguard rfl with hnul | ⟨rfl, rfl⟩
      · exact Or.inl hnul
      · exact hg.imp_right fun hrest => by rw [hrest]
    have hbad : (∃ r, parse js q (b.append x) = .ok r) →
        BodyEndsIn w (p ++ x) (b.append x) ∧
          (w.head.length < (p ++ x).length → w.body.length < 2 ^ 31) := by
      rintro ⟨r, hr⟩
      have hbytes : ∀ y, p ++ x = w.head ++ y → y ≠ [] →
          (NUL ∈ y ∨ 0 < (b.append x).writableBytes) ∧ w.body.length < 2 ^ 31 := by
        intro y hy hyne
        have hbody : w.body ≠ [] := by
          intro hnil
          rw [hy, WireRequest.bytes, hnil, List.append_nil] at hx
          have hlength := hx.length_le
          rw [List.length_append] at hlength
          exact hyne (List.eq_nil_of_length_eq_zero (by omega))
        rw [hy, stream_head_done hq₀ hw] at hagrees
        cases hstream : stream js (b.append x).writableBytes (afterHead parsed post) y with
        | error e =>
            rw [hstream, Agrees, hr] at hagrees
            cases hagrees
        | ok r' => exact stream_body_ok hw hbody hyne hstream
      refine ⟨fun y hy hyne => (hbytes y hy hyne).1, fun hlt => ?_⟩
      rcases List.prefix_or_prefix_of_prefix hx (List.prefix_append w.head w.body) with hp | ⟨y, hy⟩
      · exact absurd hp.length_le (Nat.not_le.mpr hlt)
      · refine (hbytes y hy.symm ?_).2
        rintro rfl
        rw [← hy, List.append_nil] at hlt
        exact Nat.lt_irrefl _ hlt
    refine ⟨⟨hbad, ?_⟩, fun r hr => ?_⟩
    · rintro ⟨hends, hrange⟩
      obtain ⟨q', b', rest', hparse, -⟩ := hgood hends hrange
      exact ⟨_, hparse⟩
    · obtain ⟨hends, hrange⟩ := hbad ⟨r, hr⟩
      obtain ⟨q', b', rest', hparse, hposition, hb'⟩ := hgood hends hrange
      exact ⟨q', b', rest', Except.ok.inj (hr.symm.trans hparse), hposition, hb'⟩

/-- Behind the head there is a body, and its length is in range. -/
theorem length_fits (hw : WellFormed q₀ w parsed) (hrange : BodyInRange parsed w) {part : Bytes}
    (hpart : part <+: w.bytes) (hlt : w.head.length < part.length) : w.body.length < 2 ^ 31 := by
  have hbody : w.body ≠ [] := by
    intro hnil
    have hlength := hpart.length_le
    rw [WireRequest.bytes, hnil, List.append_nil] at hlength
    exact absurd hlength (Nat.not_le.mpr hlt)
  obtain ⟨value, hl, -⟩ := hw.announced hbody
  exact (hrange (Finmap.mem_iff.mpr ⟨value, hl⟩)).2

/-- The chunk that completes the request. -/
theorem chunk_last (h : Position js q₀ parsed w post p q rest) (hq₀ : InHead q₀)
    (hw : WellFormed q₀ w parsed) {b : Buffer} (hb : ReadTo p rest b) {x : Bytes}
    (hx : p ++ x = w.bytes) (hne : x ≠ []) :
    (∃ q' b', parse js q (b.append x) = .ok (.getRequest, q', b')) ↔
      BodyEndsIn w (p ++ x) (b.append x) ∧ BodyInRange parsed w ∧
        ∃ r, postOver js parsed w post = .ok r := by
  have hall : p ++ x <+: w.head ++ w.body := by
    rw [hx]
    exact List.prefix_refl _
  obtain ⟨g, -, hagrees⟩ := h.parse_chunk hq₀ hw hb
    (fun hnil => hne (List.append_eq_nil_iff.mp hnil).2) hall
  constructor
  · rintro ⟨q', b', hparse⟩
    rw [hx, WireRequest.bytes, stream_head_done hq₀ hw] at hagrees
    cases hstream : stream js (b.append x).writableBytes (afterHead parsed post) w.body with
    | error e =>
        rw [hstream, Agrees, hparse] at hagrees
        cases hagrees
    | ok r =>
        obtain ⟨code, q'', rest'⟩ := r
        rw [hstream] at hagrees
        obtain ⟨b'', hparse', -⟩ := hagrees
        rw [hparse] at hparse'
        cases hparse'
        -- behind the whole head there is the whole body
        refine ⟨fun y hy hyne => ?_, stream_body_done hw hstream⟩
        have hbody : w.body = y := by
          rw [hx, WireRequest.bytes] at hy
          exact List.append_cancel_left hy
        exact hbody ▸ (stream_body_ok hw (hbody ▸ hyne) (hbody ▸ hyne) hstream).1
  · rintro ⟨hends, hrange, r, hr⟩
    have hpart : p ++ x <+: w.bytes := hx ▸ List.prefix_refl _
    have hstream := (h.step hq₀ hw hpart hends (length_fits hw hrange hpart)).2 hx hrange r hr
    rw [h.stream_more hq₀ hw] at hstream
    rw [hstream] at hagrees
    obtain ⟨b', hparse, -⟩ := hagrees
    exact ⟨_, b', hparse⟩

end Position

/-! ## §3  All chunks -/

/-- Each of the chunks behind the part `p` is answered as it should be: NO_REQUEST while
bytes are missing, GET_REQUEST with the last of them. -/
def CompletesFrom (js : JsonCpp J) (w : WireRequest) (p : Bytes) (chunks : List Bytes)
    (q : HttpRequest J) (b : Buffer) : Prop :=
  ∀ xs, xs <+: chunks → ∃ q' b', feed js xs q b =
    .ok (if p ++ xs.flatten = w.bytes then some .getRequest else none, q', b')

/-- At each call of `Parse`, the C string of the body bytes ends inside of the buffer. -/
def BodyEndsAtEach (js : JsonCpp J) (w : WireRequest) :
    Bytes → List Bytes → HttpRequest J → Buffer → Prop
  | _, [], _, _ => True
  | p, x :: xs, q, b => BodyEndsIn w (p ++ x) (b.append x) ∧
      ∀ q' b', parse js q (b.append x) = .ok (.noRequest, q', b') →
        BodyEndsAtEach js w (p ++ x) xs q' b'

theorem feed_cons_more {q q' : HttpRequest J} {b b' : Buffer} {x : Bytes}
    (h : parse js q (b.append x) = .ok (.noRequest, q', b')) (xs : List Bytes) :
    feed js (x :: xs) q b = feed js xs q' b' := by
  rw [feed, h]

theorem feed_cons_get {q q' : HttpRequest J} {b b' : Buffer} {x : Bytes}
    (h : parse js q (b.append x) = .ok (.getRequest, q', b')) (xs : List Bytes) :
    feed js (x :: xs) q b = .ok (some .getRequest, q', b') := by
  rw [feed, h]

/-- A parse that `feed` gets past answers with what `feed` goes on with. -/
theorem parse_of_feed_singleton {q q' : HttpRequest J} {b b' : Buffer} {x : Bytes}
    {r : Option HttpCode} (h : feed js [x] q b = .ok (r, q', b')) :
    parse js q (b.append x) = .ok (r.getD .noRequest, q', b') := by
  rw [feed] at h
  split at h
  · cases h
  · rename_i hparse
    cases h
    exact hparse
  · rename_i hparse
    cases h
    exact hparse

theorem feed_nil_completes {p : Bytes} (hp : p ≠ w.bytes) (q : HttpRequest J) (b : Buffer) :
    ∃ q' b', feed js [] q b =
      .ok (if p ++ ([] : List Bytes).flatten = w.bytes then some .getRequest else none, q', b') := by
  rw [List.flatten_nil, List.append_nil, if_neg hp]
  exact ⟨q, b, rfl⟩

/-- The chunk with the last byte is all that counts. -/
theorem completesFrom_last {p x : Bytes} {xs : List Bytes} {q : HttpRequest J} {b : Buffer}
    (hp : p ≠ w.bytes) (hlast : p ++ x = w.bytes) (hnone : xs.flatten = []) :
    CompletesFrom js w p (x :: xs) q b ↔
      ∃ q' b', parse js q (b.append x) = .ok (.getRequest, q', b') := by
  constructor
  · intro h
    obtain ⟨q', b', hfeed⟩ := h [x] (List.prefix_append [x] xs)
    rw [List.flatten_singleton, if_pos hlast] at hfeed
    exact ⟨q', b', parse_of_feed_singleton hfeed⟩
  · rintro ⟨q', b', hparse⟩ ys hys
    cases ys with
    | nil => exact feed_nil_completes hp q b
    | cons y ys =>
        obtain ⟨rfl, hsub⟩ := List.cons_prefix_cons.mp hys
        -- the chunks behind it are empty
        have hnil : ys.flatten = [] := by
          obtain ⟨zs, rfl⟩ := hsub
          rw [List.flatten_append] at hnone
          exact (List.append_eq_nil_iff.mp hnone).1
        rw [List.flatten_cons, hnil, List.append_nil, if_pos hlast]
        exact ⟨q', b', feed_cons_get hparse ys⟩

/-- Behind a chunk that is answered NO_REQUEST the others go on. -/
theorem completesFrom_more {p x : Bytes} {xs : List Bytes} {q q' : HttpRequest J} {b b' : Buffer}
    (hp : p ≠ w.bytes) (hparse : parse js q (b.append x) = .ok (.noRequest, q', b')) :
    CompletesFrom js w p (x :: xs) q b ↔ CompletesFrom js w (p ++ x) xs q' b' := by
  constructor
  · intro h ys hys
    obtain ⟨q'', b'', hfeed⟩ := h (x :: ys) (List.cons_prefix_cons.mpr ⟨rfl, hys⟩)
    rw [feed_cons_more hparse, List.flatten_cons, ← List.append_assoc] at hfeed
    exact ⟨q'', b'', hfeed⟩
  · intro h ys hys
    cases ys with
    | nil => exact feed_nil_completes hp q b
    | cons y ys =>
        obtain ⟨rfl, hsub⟩ := List.cons_prefix_cons.mp hys
        obtain ⟨q'', b'', hfeed⟩ := h ys hsub
        rw [feed_cons_more hparse, List.flatten_cons, ← List.append_assoc]
        exact ⟨q'', b'', hfeed⟩

theorem completes_from_iff (hq₀ : InHead q₀) (hw : WellFormed q₀ w parsed) :
    ∀ (chunks : List Bytes) {p : Bytes} {q : HttpRequest J} {rest : Bytes} {b : Buffer},
      Position js q₀ parsed w post p q rest → ReadTo p rest b → p ≠ w.bytes →
      p ++ chunks.flatten = w.bytes →
      (CompletesFrom js w p chunks q b ↔ BodyEndsAtEach js w p chunks q b ∧
        BodyInRange parsed w ∧ ∃ r, postOver js parsed w post = .ok r) := by
  intro chunks
  induction chunks with
  | nil =>
      intro p q rest b _ _ hp hall
      rw [List.flatten_nil, List.append_nil] at hall
      exact absurd hall hp
  | cons x xs ih =>
      intro p q rest b hposition hb hp hall
      rw [List.flatten_cons, ← List.append_assoc] at hall
      by_cases hlast : p ++ x = w.bytes
      · have hx : x ≠ [] := by
          rintro rfl
          exact hp (by rwa [List.append_nil] at hlast)
        have hchunk := hposition.chunk_last hq₀ hw hb hlast hx
        have hnone : xs.flatten = [] := by
          rw [hlast] at hall
          exact List.append_right_eq_self.mp hall
        rw [completesFrom_last hp hlast hnone, hchunk]
        constructor
        · rintro ⟨hends, hgood⟩
          -- there is no call behind the last one
          obtain ⟨q', b', hparse⟩ := hchunk.mpr ⟨hends, hgood⟩
          refine ⟨⟨hends, fun q'' b'' hmore => ?_⟩, hgood⟩
          rw [hparse] at hmore
          cases hmore
        · rintro ⟨⟨hends, -⟩, hgood⟩
          exact ⟨hends, hgood⟩
      · have hpart : p ++ x <+: w.bytes := ⟨_, hall⟩
        obtain ⟨hanswers, hmore⟩ := hposition.chunk_before hq₀ hw hb hpart hlast
        constructor
        · intro h
          obtain ⟨q₁, b₁, hfeed⟩ := h [x] (List.prefix_append [x] xs)
          have hparse := parse_of_feed_singleton hfeed
          obtain ⟨q', b', rest', heq, hposition', hb'⟩ := hmore _ hparse
          rw [heq] at hparse
          have hrest := (completesFrom_more hp hparse).mp h
          obtain ⟨heach, hgood⟩ := (ih hposition' hb' hlast hall).mp hrest
          refine ⟨⟨(hanswers.mp ⟨_, hparse⟩).1, fun q'' b'' hparse' => ?_⟩, hgood⟩
          rw [hparse] at hparse'
          cases hparse'
          exact heach
        · rintro ⟨⟨hends, heach⟩, hgood⟩
          obtain ⟨r, hr⟩ := hanswers.mpr ⟨hends, Position.length_fits hw hgood.1 hpart⟩
          obtain ⟨q', b', rest', rfl, hposition', hb'⟩ := hmore r hr
          have hrest := (ih hposition' hb' hlast hall).mpr ⟨heach q' b' hr, hgood⟩
          exact (completesFrom_more hp hr).mpr hrest

/-- **Completion.** A well-formed request on an `HttpRequest` behind `Init`, in an empty
buffer and in chunks of any sizes with a parse after each, is answered NO_REQUEST while bytes
are missing and GET_REQUEST with the last of them exactly if a Content-Length it has is
neither 0 nor beyond `int`, if `ParsePost` does not fault on its body, and if at each call the
body bytes end as a C string inside of the buffer. -/
theorem completes_iff {q : HttpRequest J} {b : Buffer} {g : Byte} {n : Nat} {chunks : List Bytes}
    (hq₀ : init js q = .ok q₀) (hb : b.Holds g [] n) (hw : WellFormed q₀ w parsed)
    (hchunks : chunks.flatten = w.bytes) :
    CompletesFrom js w [] chunks q₀ b ↔ BodyEndsAtEach js w [] chunks q₀ b ∧
      BodyInRange parsed w ∧ ∃ r, postOver js parsed w q₀.post = .ok r := by
  have hne : [] ≠ w.bytes := by
    intro hnil
    have hlength := congrArg List.length hnil
    simp [WireRequest.bytes, WireRequest.head, crlf] at hlength
  exact completes_from_iff (init_inHead hq₀) hw chunks (Position.start (init_inHead hq₀))
    (ReadTo.start hb) hne hchunks

/-- A writable byte at each call is enough for the C strings. -/
theorem bodyEndsAtEach_of_room : ∀ (chunks : List Bytes) {p : Bytes} {q : HttpRequest J}
    {b : Buffer}, roomAtEach js chunks q b = true → BodyEndsAtEach js w p chunks q b := by
  intro chunks
  induction chunks with
  | nil => exact fun _ => trivial
  | cons x xs ih =>
      intro p q b hroom
      rw [roomAtEach, Bool.and_eq_true] at hroom
      refine ⟨fun _ _ _ => Or.inr (of_decide_eq_true hroom.1), fun q' b' hparse => ?_⟩
      rw [hparse] at hroom
      exact ih hroom.2

/-- A form with `length` in its Content-Length. -/
def wireForm (length body : Bytes) : WireRequest :=
  { requestLine := ascii "POST / HTTP/1.1"
    headerLines := [ascii "Content-Length: " ++ length]
    body := body }

def wireFormParsed (length : Bytes) : HttpRequest (Option HeaderMap) :=
  { blankForm with
    state := .headers, method := ascii "POST", path := ascii "/"
    header := (∅ : HeaderMap).insert contentLength length }

theorem wireForm_one : WellFormed blankForm (wireForm (ascii "1") (ascii "a"))
    (wireFormParsed (ascii "1")) := by
  refine ⟨by decide +kernel, by decide +kernel, ?_⟩
  rw [wireFormParsed, Finmap.lookup_insert]
  decide +kernel

theorem wireForm_zero : WellFormed blankForm (wireForm (ascii "0") [])
    (wireFormParsed (ascii "0")) := by
  refine ⟨by decide +kernel, by decide +kernel, ?_⟩
  rw [wireFormParsed, Finmap.lookup_insert]
  decide +kernel

/-- The form of one byte in four pieces, behind another one. -/
theorem completes_form :
    CompletesFrom membersJson (wireForm (ascii "1") (ascii "a")) [] formChunks blankForm
      (servedBuffer 1) := by
  refine (completes_iff (show init membersJson servedForm = .ok blankForm from rfl)
    (servedBuffer_holds 1) wireForm_one (by decide +kernel)).mpr
      ⟨bodyEndsAtEach_of_room _ (by decide +kernel), ?_, ?_⟩
  · exact fun _ => ⟨by decide, by decide⟩
  · exact ⟨none, by decide +kernel⟩

/-- A body of length zero is waited for. -/
theorem completes_not_zero :
    ¬ ∀ (q₀ parsed : HttpRequest (Option HeaderMap)) (w : WireRequest) (size : Nat) (b : Buffer)
      (chunks : List Bytes), new membersJson = .ok q₀ → Buffer.new size = .ok b →
      WellFormed q₀ w parsed → chunks.flatten = w.bytes →
      CompletesFrom membersJson w [] chunks q₀ b := by
  intro h
  obtain ⟨q', b', hfeed⟩ := h blankForm _ _ 2 ⟨[0, 0], 1, 1⟩ [(wireForm (ascii "0") []).bytes]
    rfl rfl wireForm_zero (by decide +kernel) _ (List.prefix_refl _)
  have hnone : (firstOutcome (feed membersJson [(wireForm (ascii "0") []).bytes] blankForm
      ⟨[0, 0], 1, 1⟩)).map Prod.fst = .ok none := by
    decide +kernel
  have hall : [] ++ [(wireForm (ascii "0") []).bytes].flatten =
      (wireForm (ascii "0") []).bytes := by
    simp
  rw [hfeed, if_pos hall] at hnone
  cases hnone

end HttpRequest

end WhiteWebServer
