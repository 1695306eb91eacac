import WhiteWebServer.Completion

/-!
# Which bytes become the body

A head that announces `n` bytes, and any bytes behind it, in chunks of any sizes with a
parse after each. §1 the request cut off behind its `n` bytes; §2 the chunk that brings the
last of them; §3 the body is the C string of what has arrived then, and when that is the
`n` bytes.
-/

namespace WhiteWebServer

namespace HttpRequest

variable {J : Type} {js : JsonCpp J} {q₀ parsed q q' : HttpRequest J} {w : WireRequest}
  {post : J} {n : Nat}

/-! ## §1  The announced request -/

/-- The head of `w` is taken and announces `n` bytes. What stands behind it may be shorter
or longer. -/
structure Announces (q : HttpRequest J) (w : WireRequest) (parsed : HttpRequest J)
    (n : Nat) : Prop where
  plain : ∀ line ∈ w.lines, PlainLine line ∧ line ≠ []
  accepted : parseLines q w.lines = .ok (true, parsed)
  announced : ∃ value, parsed.header.lookup contentLength = some value ∧
    announcedLength value = some n

/-- `w` with `n` bytes behind its head: the first ones it has, then NULs. -/
def announcedPart (w : WireRequest) (n : Nat) : WireRequest :=
  { w with body := (w.body ++ List.replicate n NUL).take n }

theorem announcedPart_length (w : WireRequest) (n : Nat) :
    (announcedPart w n).body.length = n := by
  simp [announcedPart]

theorem Announces.wellFormed (h : Announces q₀ w parsed n) :
    WellFormed q₀ (announcedPart w n) parsed := by
  obtain ⟨value, hl, hlength⟩ := h.announced
  refine ⟨h.plain, h.accepted, ?_⟩
  simp only [hl]
  rw [announcedPart_length]
  exact hlength

/-- Fewer bytes than the announced ones are a proper part of the announced request. -/
theorem prefix_announcedPart {p : Bytes} (hp : p <+: w.bytes)
    (hlt : p.length < w.head.length + n) :
    p <+: (announcedPart w n).bytes ∧ p ≠ (announcedPart w n).bytes := by
  have hlength : (announcedPart w n).bytes.length = w.head.length + n := by
    rw [WireRequest.bytes, List.length_append, announcedPart_length]
    rfl
  have hpad : p <+: w.bytes ++ List.replicate n NUL := hp.trans (List.prefix_append _ _)
  have hpart : (announcedPart w n).bytes <+: w.bytes ++ List.replicate n NUL := by
    rw [WireRequest.bytes, WireRequest.bytes, List.append_assoc]
    exact (List.prefix_append_right_inj _).mpr (List.take_prefix _ _)
  refine ⟨List.prefix_of_prefix_length_le hpad hpart (by rw [hlength]; exact hlt.le), ?_⟩
  rintro rfl
  exact absurd hlength hlt.ne

/-! ## §2  The chunk with the last byte -/

/-- The chunks up to the one that brings byte number `k`. -/
def arrived : Nat → List Bytes → Bytes
  | _, [] => []
  | k, x :: xs => if k ≤ x.length then x else x ++ arrived (k - x.length) xs

theorem arrived_prefix : ∀ (chunks : List Bytes) (k : Nat), arrived k chunks <+: chunks.flatten := by
  intro chunks
  induction chunks with
  | nil => exact fun _ => List.nil_prefix
  | cons x xs ih =>
      intro k
      rw [arrived, List.flatten_cons]
      split
      · exact List.prefix_append _ _
      · exact (List.prefix_append_right_inj x).mpr (ih _)

theorem le_length_arrived : ∀ (chunks : List Bytes) {k : Nat}, k ≤ chunks.flatten.length →
    k ≤ (arrived k chunks).length := by
  intro chunks
  induction chunks with
  | nil => exact id
  | cons x xs ih =>
      intro k hk
      rw [arrived]
      split
      · assumption
      · rw [List.flatten_cons, List.length_append] at hk
        have hrest := ih (k := k - x.length) (Nat.sub_le_iff_le_add'.mpr hk)
        rw [List.length_append]
        exact Nat.sub_le_iff_le_add'.mp hrest

/-- Behind the part `p`: byte number `k` is in the next chunk, or in a later one. -/
theorem append_arrived_cons (p x : Bytes) (xs : List Bytes) (k : Nat) :
    p ++ arrived (k - p.length) (x :: xs) =
      if k ≤ (p ++ x).length then p ++ x
      else p ++ x ++ arrived (k - (p ++ x).length) xs := by
  rw [arrived, List.length_append]
  by_cases hk : k ≤ p.length + x.length
  · rw [if_pos hk, if_pos (Nat.sub_le_iff_le_add'.mpr hk)]
  · rw [if_neg hk, if_neg fun h => hk (Nat.sub_le_iff_le_add'.mp h), Nat.sub_sub,
      List.append_assoc]

/-- A parse behind which the announced bytes are there finishes the request; the body is the
C string of all that follows the head. -/
theorem Position.chunk_over {p rest x y : Bytes} {b b' : Buffer} {code : HttpCode}
    (h : Position js q₀ parsed w post p q rest) (hq₀ : InHead q₀)
    (hw : WellFormed q₀ w parsed) (hb : ReadTo p rest b) (hx : p ++ x = w.head ++ y)
    (hbody : w.body ≠ []) (hle : w.body.length ≤ y.length)
    (hparse : parse js q (b.append x) = .ok (code, q', b')) :
    code = .getRequest ∧ q'.body = cstr y := by
  have hpos : 0 < y.length := lt_of_lt_of_le (List.length_pos_of_ne_nil hbody) hle
  have hne : rest ++ x ≠ [] := by
    intro hnil
    obtain ⟨rfl, rfl⟩ := List.append_eq_nil_iff.mp hnil
    rw [List.append_nil] at hx
    rw [h.body_nil_of_rest_nil hx] at hpos
    exact Nat.lt_irrefl _ hpos
  have hall : p ++ x <+: w.head ++ y := by
    rw [hx]
  obtain ⟨g, -, hagrees⟩ := h.parse_chunk hq₀ hw hb hne hall
  obtain ⟨value, hl, hlength⟩ := hw.announced hbody
  have hcl : contentLength ∈ parsed.header := Finmap.mem_iff.mpr ⟨value, hl⟩
  have hstate : (afterHead parsed post).state = .body := by
    rw [afterHead, if_pos hcl]
  rw [hx, stream_head_done hq₀ hw, stream_body (List.ne_nil_of_length_pos hpos) hstate,
    parseBody_afterHead hl] at hagrees
  -- faults of the stream parser are faults of `parse`
  by_cases hroom : NUL ∈ y ∨ 0 < (b.append x).writableBytes
  · rw [if_pos hroom] at hagrees
    by_cases hrange : w.body.length < 2 ^ 31
    · rw [announcedLength_stoi hlength hrange] at hagrees
      simp only [toSize_length hrange, if_pos hle] at hagrees
      cases hpost : postValue js (parsed.header.access contentType).1 (cstr y) post with
      | error e =>
          rw [hpost, Agrees, hparse] at hagrees
          cases hagrees
      | ok r =>
          rw [hpost] at hagrees
          obtain ⟨b'', hparse', -⟩ := hagrees
          rw [hparse] at hparse'
          cases hparse'
          exact ⟨rfl, rfl⟩
    · rw [stoi_too_long hlength (Nat.not_lt.mp hrange), Agrees, hparse] at hagrees
      cases hagrees
  · rw [if_neg hroom, Agrees, hparse] at hagrees
    cases hagrees

/-! ## §3  The body -/

/-- An answer comes with the chunk that brings the last announced byte, and the body is
the C string of what is there behind the head. -/
theorem feed_body (hq₀ : InHead q₀) (hw : Announces q₀ w parsed n) (hn : 1 ≤ n) :
    ∀ (chunks : List Bytes) {p rest : Bytes} {q q' : HttpRequest J} {b b' : Buffer}
      {code : HttpCode}, Position js q₀ parsed (announcedPart w n) post p q rest →
      ReadTo p rest b → p.length < w.head.length + n → p ++ chunks.flatten = w.bytes →
      feed js chunks q b = .ok (some code, q', b') →
      w.head.length + n ≤ (p ++ chunks.flatten).length ∧ q'.body =
        cstr ((p ++ arrived (w.head.length + n - p.length) chunks).drop w.head.length) := by
  have hbody : (announcedPart w n).body ≠ [] := by
    intro hnil
    have hlength := announcedPart_length w n
    rw [hnil] at hlength
    exact absurd hlength.symm (Nat.one_le_iff_ne_zero.mp hn)
  intro chunks
  induction chunks with
  | nil =>
      intro p rest q q' b b' code _ _ _ _ hfeed
      rw [feed] at hfeed
      cases hfeed
  | cons x xs ih =>
      intro p rest q q' b b' code hposition hb hp hall hfeed
      rw [List.flatten_cons, ← List.append_assoc] at hall ⊢
      rw [append_arrived_cons]
      by_cases hlast : w.head.length + n ≤ (p ++ x).length
      · rw [if_pos hlast]
        have hhead : w.head <+: p ++ x := by
          refine List.prefix_of_prefix_length_le (List.prefix_append w.head w.body) ⟨_, hall⟩ ?_
          exact (Nat.le_add_right _ _).trans hlast
        obtain ⟨y, hy⟩ := hhead
        have hle : (announcedPart w n).body.length ≤ y.length := by
          rw [← hy, List.length_append] at hlast
          rw [announcedPart_length]
          exact Nat.le_of_add_le_add_left hlast
        have hlong : w.head.length + n ≤ (p ++ x ++ xs.flatten).length := by
          rw [List.length_append]
          exact Nat.le_add_right_of_le hlast
        refine ⟨hlong, ?_⟩
        rw [← hy, List.drop_left]
        -- one parse, which has to be the one that answers
        rw [feed] at hfeed
        split at hfeed
        · cases hfeed
        · rename_i hparse
          exact absurd (hposition.chunk_over hq₀ hw.wellFormed hb hy.symm hbody hle hparse).1
            (by decide)
        · rename_i hparse
          cases hfeed
          exact (hposition.chunk_over hq₀ hw.wellFormed hb hy.symm hbody hle hparse).2
      · rw [if_neg hlast]
        obtain ⟨hpart, hne⟩ := prefix_announcedPart ⟨_, hall⟩ (Nat.not_le.mp hlast)
        obtain ⟨-, hmore⟩ := hposition.chunk_before hq₀ hw.wellFormed hb hpart hne
        rw [feed] at hfeed
        split at hfeed
        · cases hfeed
        · rename_i hparse
          obtain ⟨q₁, b₁, rest₁, heq, hposition₁, hb₁⟩ := hmore _ hparse
          cases heq
          exact ih hposition₁ hb₁ (Nat.not_le.mp hlast) hall hfeed
        · rename_i hanswer hparse
          obtain ⟨q₁, b₁, rest₁, heq, -⟩ := hmore _ hparse
          cases heq
          exact absurd rfl hanswer

/-- A C string is a part of length `n` exactly if the first NUL is the byte behind it. -/
theorem cstr_eq_take_iff {y : Bytes} (hle : n ≤ y.length) :
    cstr y = y.take n ↔ NUL ∉ y.take n ∧ (y.length = n ∨ y[n]? = some NUL) := by
  constructor
  · intro h
    refine ⟨fun hmem => ?_, ?_⟩
    · rw [← h] at hmem
      exact absurd (List.mem_takeWhile_imp hmem) (by simp)
    · by_contra hne
      rw [not_or] at hne
      have hlt : n < y.length := lt_of_le_of_ne hle (Ne.symm hne.1)
      have hbyte : y[n] ≠ NUL := by
        intro heq
        exact hne.2 (by rw [List.getElem?_eq_getElem hlt, heq])
      have hall : ∀ c ∈ y.take n, (c != NUL) = true := by
        intro c hc
        rw [← h, cstr] at hc
        exact List.mem_takeWhile_imp (p := fun c => c != NUL) hc
      -- the C string goes on with a byte that is no NUL
      have hlonger : cstr y = y.take n ++ y[n] :: cstr (y.drop (n + 1)) := by
        calc cstr y = cstr (y.take n ++ y[n] :: y.drop (n + 1)) := by
              rw [List.getElem_cons_drop, List.take_append_drop]
          _ = _ := by
              rw [cstr, List.takeWhile_append_of_pos hall,
                List.takeWhile_cons_of_pos (p := fun c => c != NUL) (bne_iff_ne.mpr hbyte), cstr]
      rw [h] at hlonger
      exact absurd (List.append_right_eq_self.mp hlonger.symm) (List.cons_ne_nil _ _)
  · rintro ⟨hnul, hend⟩
    have hall : ∀ c ∈ y.take n, (c != NUL) = true := by
      intro c hc
      exact bne_iff_ne.mpr fun heq => hnul (heq ▸ hc)
    rcases hend with hend | hend
    · rw [List.take_of_length_le hend.le] at hall ⊢
      exact List.takeWhile_eq_self_iff.mpr hall
    · obtain ⟨hlt, hbyte⟩ := List.getElem?_eq_some_iff.mp hend
      have hsplit : y = y.take n ++ NUL :: y.drop (n + 1) := by
        rw [← hbyte, List.getElem_cons_drop, List.take_append_drop]
      calc cstr y = cstr (y.take n ++ NUL :: y.drop (n + 1)) := by rw [← hsplit]
        _ = cstr (y.take n) := cstr_append_nul _ _
        _ = y.take n := List.takeWhile_eq_self_iff.mpr hall

/-- **Body.** Where the head of a request announces `n` bytes and `Parse` answers
GET_REQUEST, `body_` is the first `n` bytes behind the blank line exactly if there is no NUL
among them and, where more than them has arrived by then, a NUL stands behind them. -/
theorem body_exact_iff {b b' : Buffer} {g : Byte} {k : Nat} {chunks : List Bytes}
    (hq₀ : InHead q₀) (hb : b.Holds g [] k) (hw : Announces q₀ w parsed n) (hn : 1 ≤ n)
    (hchunks : chunks.flatten = w.bytes)
    (hget : feed js chunks q₀ b = .ok (some .getRequest, q', b')) :
    q'.body = w.body.take n ↔ NUL ∉ w.body.take n ∧
      ((arrived (w.head.length + n) chunks).length = w.head.length + n ∨
        w.body[n]? = some NUL) := by
  obtain ⟨hlong, hbody⟩ := feed_body hq₀ hw hn chunks (Position.start hq₀) (ReadTo.start hb)
    (by rw [List.length_nil]; exact Nat.add_pos_right _ hn) hchunks hget
  rw [List.nil_append] at hlong hbody
  rw [List.length_nil, Nat.sub_zero] at hbody
  -- what has arrived is the head and the bytes `y`
  have harrived : w.head.length + n ≤ (arrived (w.head.length + n) chunks).length :=
    le_length_arrived chunks hlong
  have hprefix : arrived (w.head.length + n) chunks <+: w.head ++ w.body := by
    have h := arrived_prefix chunks (w.head.length + n)
    rwa [hchunks] at h
  have hhead : w.head <+: arrived (w.head.length + n) chunks :=
    List.prefix_of_prefix_length_le (List.prefix_append _ _) hprefix
      ((Nat.le_add_right _ _).trans harrived)
  obtain ⟨y, hy⟩ := hhead
  rw [← hy] at harrived hprefix hbody ⊢
  rw [List.length_append] at harrived ⊢
  have hle : n ≤ y.length := Nat.le_of_add_le_add_left harrived
  obtain ⟨z, hz⟩ := (List.prefix_append_right_inj _).mp hprefix
  have htake : w.body.take n = y.take n := by
    rw [← hz, List.take_append_of_le_length hle]
  rw [hbody, List.drop_left, htake, cstr_eq_take_iff hle]
  refine and_congr_right fun _ => ?_
  rw [Nat.add_left_cancel_iff]
  by_cases hlen : y.length = n
  · exact iff_of_true (Or.inl hlen) (Or.inl hlen)
  · have hlt : n < y.length := lt_of_le_of_ne hle (Ne.symm hlen)
    rw [← hz, List.getElem?_append_left hlt]

theorem announces_one (rest : Bytes) :
    Announces blankForm (wireForm (ascii "1") rest) (wireFormParsed (ascii "1")) 1 := by
  refine ⟨wireForm_one.plain, wireForm_one.accepted, ascii "1", ?_, by decide⟩
  rw [wireFormParsed, Finmap.lookup_insert]

theorem announces_three :
    Announces blankForm (wireForm (ascii "3") (ascii "a=b")) (wireFormParsed (ascii "3")) 3 := by
  refine ⟨by decide +kernel, by decide +kernel, ascii "3", ?_, by decide⟩
  rw [wireFormParsed, Finmap.lookup_insert]

/-- A form of three bytes: the first comes with the end of the head, each of the others in
a chunk of its own. -/
def bodyChunks : List Bytes :=
  [ascii "POST / HTTP/1.1\r\nContent-Le", ascii "ngth: 3\r\n\r\na", ascii "=", ascii "b"]

theorem body_exact_form : ∃ q' b',
    feed membersJson bodyChunks blankForm (servedBuffer 1) = .ok (some .getRequest, q', b') ∧
      q'.body = (ascii "a=b").take 3 := by
  have hget : ∃ q' b', feed membersJson bodyChunks blankForm (servedBuffer 1) =
      .ok (some .getRequest, q', b') := by
    have houtcome : (feed membersJson bodyChunks blankForm (servedBuffer 1)).map Prod.fst =
        .ok (some .getRequest) := by
      decide +kernel
    generalize feed membersJson _ _ _ = r at houtcome ⊢
    obtain e | ⟨code, q', b'⟩ := r
    · cases houtcome
    · cases houtcome
      exact ⟨q', b', rfl⟩
  obtain ⟨q', b', hfeed⟩ := hget
  exact ⟨q', b', hfeed, (body_exact_iff (Or.inl rfl) (servedBuffer_holds 1) announces_three
    (by decide) (by decide +kernel) hfeed).mpr ⟨by decide +kernel, Or.inl (by decide +kernel)⟩⟩

/-- A byte behind the body becomes a part of it. -/
theorem body_exact_not_surplus :
    ¬ ∀ (q₀ parsed q' : HttpRequest (Option HeaderMap)) (w : WireRequest) (n k : Nat)
      (b b' : Buffer) (chunks : List Bytes), InHead q₀ → b.Holds NUL [] k →
      Announces q₀ w parsed n → 1 ≤ n → chunks.flatten = w.bytes →
      feed membersJson chunks q₀ b = .ok (some .getRequest, q', b') →
      q'.body = w.body.take n := by
  intro h
  have houtcome : (feed membersJson [(wireForm (ascii "1") (ascii "ab")).bytes] blankForm
      ⟨[0, 0], 1, 1⟩).map (fun r => (r.1, r.2.1.body)) = .ok (some .getRequest, ascii "ab") := by
    decide +kernel
  have hnew : Buffer.new 2 = .ok ⟨[0, 0], 1, 1⟩ := rfl
  have hexact := fun q' b' => h blankForm _ q' (wireForm (ascii "1") (ascii "ab")) 1 _
    ⟨[0, 0], 1, 1⟩ b' [(wireForm (ascii "1") (ascii "ab")).bytes] (Or.inl rfl)
    (Buffer.holds_of_new hnew) (announces_one (ascii "ab")) (Nat.le_refl 1)
    (by decide +kernel)
  generalize feed membersJson _ _ _ = r at houtcome hexact
  obtain e | ⟨code, q', b'⟩ := r
  · cases houtcome
  · simp only [Except.map, Except.ok.injEq, Prod.mk.injEq] at houtcome
    obtain ⟨rfl, hbody⟩ := houtcome
    have htake := hexact q' b' rfl
    rw [hbody] at htake
    revert htake
    decide

end HttpRequest

end WhiteWebServer
