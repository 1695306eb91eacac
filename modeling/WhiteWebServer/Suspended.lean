import WhiteWebServer.RequestLine

/-!
# What a suspended parser waits for

After NO_REQUEST the parser is in some state, with some bytes unread. §1 what is known of
the two; §2 answers to more chunks are answers of the stream parser; §3 the body; §4 the
lines; §5 from which states more input leads to an answer.
-/

namespace WhiteWebServer

namespace HttpRequest

variable {J : Type} {js : JsonCpp J} {q q' : HttpRequest J} {r v u line rest : Bytes}
  {n k : Nat}

/-! ## §1  Suspended parsers -/

/-- A parser between two calls, up to its first answer, with `r` unread. -/
structure Suspended (q : HttpRequest J) (r : Bytes) : Prop where
  openLine : q.state ≠ .body → splitLine r = none
  unread : q.state = .finish → r ≠ []
  fresh : q.state = .requestLine → contentLength ∉ q.header

theorem new_suspended (h : new js = .ok q) : Suspended q [] := by
  rw [init_blank h]
  refine ⟨fun _ => rfl, ?_, fun _ => Finmap.notMem_empty⟩
  intro hfin
  cases hfin

/-- No line leads back to the request line. -/
theorem lineStep_ne_requestLine {line : Bytes} (h : lineStep q line = .ok (true, q')) :
    q'.state ≠ .requestLine := by
  unfold lineStep at h
  cases hst : q.state with
  | requestLine =>
      simp only [hst] at h
      split at h
      · cases h
      · rename_i hparse
        cases h
        simp [(parseRequestLine_state hparse).1]
  | headers =>
      simp only [hst, Except.ok.injEq, Prod.mk.injEq] at h
      rw [← h.2]
      unfold parseHeader
      split
      · simp only
        split <;> simp
      · split <;> simp [hst]
  | body =>
      simp only [hst, Except.ok.injEq, Prod.mk.injEq, true_and] at h
      simp [← h, hst]
  | finish =>
      simp only [hst, Except.ok.injEq, Prod.mk.injEq, true_and] at h
      simp [← h, hst]

theorem stream_suspended (hq : q.state = .requestLine → contentLength ∉ q.header)
    (h : stream js n q u = .ok (.noRequest, q', r)) : Suspended q' r := by
  induction hlen : u.length using Nat.strong_induction_on generalizing q u with
  | _ len ih =>
      by_cases hu : u = []
      · subst hu
        rw [stream_nil] at h
        split at h
        · cases h
        · rename_i hfin
          cases h
          exact ⟨fun _ => rfl, fun h => absurd h hfin, hq⟩
      · by_cases hbody : q.state = .body
        · rw [stream_body hu hbody] at h
          split at h
          · split at h
            · cases h
            · -- part of a body
              rename_i hparse
              cases h
              have hstate := (parseBody_false hparse).1.trans hbody
              refine ⟨fun hne => absurd hstate hne, ?_, ?_⟩ <;> simp [hstate]
            · cases h
          · cases h
        · cases hs : splitLine u with
          | none =>
              rw [stream_open hbody hs hu] at h
              cases h
              exact ⟨fun _ => hs, fun _ => hu, hq⟩
          | some p =>
              obtain ⟨line, rest⟩ := p
              rw [stream_line hbody hs] at h
              cases hl : lineStep q (cstr line) with
              | error e =>
                  rw [hl] at h
                  cases h
              | ok p =>
                  obtain ⟨ok, q₁⟩ := p
                  rw [hl] at h
                  cases ok with
                  | false => cases h
                  | true =>
                      exact ih _ (hlen ▸ splitLine_length hs)
                        (fun hst => absurd hst (lineStep_ne_requestLine hl)) h rfl

/-! ## §2  Answers -/

/-- The chunks `more` get an answer. -/
def Answers (js : JsonCpp J) (more : List Bytes) (q : HttpRequest J) (b : Buffer) : Prop :=
  ∃ code q' b', feed js more q b = .ok (some code, q', b') ∧
    (code = .getRequest ∨ code = .badRequest)

/-- Spare bytes do no harm. -/
theorem stream_room {a : HttpCode × HttpRequest J × Bytes} (h : stream js n q u = .ok a) :
    stream js 1 q u = .ok a := by
  rcases Nat.eq_zero_or_pos n with rfl | hn
  · -- without spare bytes only a body can fail
    induction hlen : u.length using Nat.strong_induction_on generalizing q u with
    | _ len ih =>
        by_cases hu : u = []
        · subst hu
          rwa [stream_nil] at h ⊢
        · by_cases hbody : q.state = .body
          · rw [stream_body hu hbody] at h ⊢
            split at h
            · rwa [if_pos (Or.inr Nat.one_pos)]
            · cases h
          · cases hs : splitLine u with
            | none => rwa [stream_open hbody hs hu] at h ⊢
            | some p =>
                obtain ⟨line, rest⟩ := p
                rw [stream_line hbody hs] at h ⊢
                cases hl : lineStep q (cstr line) with
                | error e =>
                    rw [hl] at h
                    cases h
                | ok p =>
                    obtain ⟨ok, q₁⟩ := p
                    rw [hl] at h
                    cases ok with
                    | false => exact h
                    | true => exact ih _ (hlen ▸ splitLine_length hs) h rfl
  · rw [← h]
    exact stream_spare Nat.one_pos hn q u

/-- One parse of a suspended parser is the stream parser on the unread bytes and the new
ones. -/
theorem stream_of_parse {b b' : Buffer} {x : Bytes} {code : HttpCode} (hb : b.Holds NUL r k)
    (hq : Suspended q r) (h : parse js q (b.append x) = .ok (code, q', b')) :
    ∃ rest, stream js 1 q (r ++ x) = .ok (code, q', rest) ∧
      (code = .noRequest → ∃ k', b'.Holds NUL rest k') := by
  obtain ⟨m, hm⟩ := hb.append x
  by_cases hx : r ++ x = []
  · obtain ⟨rfl, rfl⟩ := List.append_eq_nil_iff.mp hx
    rw [parse_nil js q hm] at h
    cases h
    refine ⟨[], ?_, fun _ => ⟨m, hm⟩⟩
    rw [List.append_nil, stream_nil, if_neg fun hfin => hq.unread hfin rfl]
  · have hagrees := parse_stream js q hm (fun hg => absurd hg (by decide)) hx
    cases hstream : stream js m q (r ++ x) with
    | error e =>
        rw [hstream, Agrees, h] at hagrees
        cases hagrees
    | ok p =>
        obtain ⟨code₁, q₁, rest⟩ := p
        rw [hstream] at hagrees
        obtain ⟨b₁, hparse, hkept⟩ := hagrees
        rw [h] at hparse
        cases hparse
        refine ⟨rest, stream_room hstream, ?_⟩
        rintro rfl
        obtain ⟨g, hb', hguard⟩ := hkept (by decide)
        obtain rfl : g = NUL := (hguard rfl).elim id And.left
        exact ⟨_, hb'⟩

/-- Up to its first answer the parser stays suspended. -/
theorem feed_suspended : ∀ (chunks : List Bytes) {q q' : HttpRequest J} {r : Bytes}
    {b b' : Buffer} {k : Nat}, b.Holds NUL r k → Suspended q r →
    feed js chunks q b = .ok (none, q', b') → ∃ r' k', b'.Holds NUL r' k' ∧ Suspended q' r' := by
  intro chunks
  induction chunks with
  | nil =>
      intro q q' r b b' k hb hq h
      cases h
      exact ⟨r, k, hb, hq⟩
  | cons x xs ih =>
      intro q q' r b b' k hb hq h
      rw [feed] at h
      split at h
      · cases h
      · rename_i hparse
        obtain ⟨rest, hstream, hkept⟩ := stream_of_parse hb hq hparse
        obtain ⟨k₁, hb₁⟩ := hkept rfl
        exact ih hb₁ (stream_suspended hq.fresh hstream) h
      · cases h

/-- An answer to more chunks answers a part of their bytes. -/
theorem stream_of_feed : ∀ (more : List Bytes) {q q' : HttpRequest J} {r : Bytes}
    {b b' : Buffer} {k : Nat} {code : HttpCode}, b.Holds NUL r k → Suspended q r →
    feed js more q b = .ok (some code, q', b') →
    ∃ v, v <+: more.flatten ∧ code ≠ .noRequest ∧
      ∃ q'' rest, stream js 1 q (r ++ v) = .ok (code, q'', rest) := by
  intro more
  induction more with
  | nil =>
      intro q q' r b b' k code _ _ h
      cases h
  | cons x xs ih =>
      intro q q' r b b' k code hb hq h
      rw [feed] at h
      rw [List.flatten_cons]
      split at h
      · cases h
      · rename_i hparse
        obtain ⟨r₁, hstream, hkept⟩ := stream_of_parse hb hq hparse
        obtain ⟨k₁, hb₁⟩ := hkept rfl
        obtain ⟨v, hv, hne, q'', rest, hanswer⟩ :=
          ih hb₁ (stream_suspended hq.fresh hstream) h
        refine ⟨x ++ v, (List.prefix_append_right_inj x).mpr hv, hne, q'', rest, ?_⟩
        rw [← List.append_assoc, stream_append q (r ++ x) v hstream]
        exact hanswer
      · rename_i hne hparse
        cases h
        obtain ⟨rest, hstream, -⟩ := stream_of_parse hb hq hparse
        exact ⟨x, List.prefix_append x _, hne, _, rest, hstream⟩

/-- Bytes that the stream parser answers, whatever room there is, are one chunk that gets
an answer. -/
theorem answers_of_stream {b : Buffer} (hb : b.Holds NUL r k) (hv : v ≠ [])
    (h : ∀ n, ∃ code q' rest, stream js n q (r ++ v) = .ok (code, q', rest) ∧
      (code = .getRequest ∨ code = .badRequest)) : Answers js [v] q b := by
  have hne : r ++ v ≠ [] := fun hnil => hv (List.append_eq_nil_iff.mp hnil).2
  obtain ⟨m, hm⟩ := hb.append v
  have hagrees := parse_stream js q hm (fun hg => absurd hg (by decide)) hne
  obtain ⟨code, q', rest, hstream, hcode⟩ := h m
  rw [hstream] at hagrees
  obtain ⟨b', hparse, -⟩ := hagrees
  refine ⟨code, q', b', ?_, hcode⟩
  rw [feed, hparse]
  rcases hcode with rfl | rfl <;> rfl

/-! ## §3  The body -/

/-- The announced length is a number that is not negative, and behind the bytes `r` some
others make a body that `ParsePost` takes. -/
def BodyPossible (js : JsonCpp J) (q : HttpRequest J) (r : Bytes) : Prop :=
  ∃ m v post, stoi (q.header.access contentLength).1 = .ok m ∧ 0 ≤ m ∧
    postValue js ((q.header.access contentLength).2.access contentType).1 (cstr (r ++ v))
      q.post = .ok post

/-- A negative `int` is a `size_t` that no input reaches. -/
theorem toSize_negative {m : Int} (hlow : -2 ^ 31 ≤ m) (hneg : m < 0) :
    2 ^ 64 - 2 ^ 31 ≤ toSize m := by
  have hwrap : m % 2 ^ 64 = m + 2 ^ 64 := by
    rw [← Int.add_emod_right, Int.emod_eq_of_lt] <;> omega
  rw [toSize, hwrap]
  omega

/-- Enough NULs behind a body that can be taken. -/
theorem stream_bodyPossible (hq : q.state = .body) (h : BodyPossible js q r) :
    ∃ v, v ≠ [] ∧ ∀ n, ∃ q' rest, stream js n q (r ++ v) = .ok (.getRequest, q', rest) := by
  obtain ⟨m, v, post, hstoi, hpos, hpost⟩ := h
  refine ⟨v ++ NUL :: List.replicate m.toNat NUL, by simp, fun n => ?_⟩
  have htext : cstr (r ++ (v ++ NUL :: List.replicate m.toNat NUL)) = cstr (r ++ v) := by
    rw [← List.append_assoc, cstr_append_nul]
  have hlong : toSize m ≤ (r ++ (v ++ NUL :: List.replicate m.toNat NUL)).length := by
    have hlt := (stoi_range hstoi).2
    have hsize : toSize m = m.toNat := by
      rw [toSize, Int.emod_eq_of_lt hpos (by omega)]
    simp only [List.length_append, List.length_cons, List.length_replicate, hsize]
    omega
  rw [stream_body (by simp) hq, if_pos (Or.inl (by simp)), parseBody_eq, hstoi, htext]
  simp only [if_pos hlong, hpost]
  exact ⟨_, _, rfl⟩

/-- An answer inside a body: it was possible, or its length is out of reach. -/
theorem bodyPossible_of_stream {code : HttpCode} {rest : Bytes} (hq : q.state = .body)
    (h : stream js n q (r ++ v) = .ok (code, q', rest)) (hcode : code ≠ .noRequest)
    (hlen : (r ++ v).length < 2 ^ 64 - 2 ^ 31) : BodyPossible js q r := by
  by_cases hne : r ++ v = []
  · rw [hne, stream_nil, if_neg (by simp [hq])] at h
    cases h
    exact absurd rfl hcode
  · rw [stream_body hne hq, parseBody_eq] at h
    split at h
    · cases hstoi : stoi (q.header.access contentLength).1 with
      | error e =>
          rw [hstoi] at h
          cases h
      | ok m =>
          simp only [hstoi] at h
          by_cases hsize : toSize m ≤ (r ++ v).length
          · rw [if_pos hsize] at h
            cases hpost : postValue js ((q.header.access contentLength).2.access contentType).1
                (cstr (r ++ v)) q.post with
            | error e =>
                rw [hpost] at h
                cases h
            | ok post =>
                -- a negative length would need more bytes than there are
                refine ⟨m, v, post, hstoi, ?_, hpost⟩
                by_contra hneg
                have hbig := toSize_negative (stoi_range hstoi).1 (not_le.mp hneg)
                exact absurd (hbig.trans hsize) (not_le.mpr hlen)
          · rw [if_neg hsize] at h
            cases h
            exact absurd rfl hcode
    · cases h

/-! ## §4  Lines -/

/-- The first LF has no CR before it, and this does not change. -/
theorem splitLine_bare : ∀ {r : Bytes}, splitLine r = none → LF ∈ r → ∀ v,
    splitLine (r ++ v) = none := by
  intro r
  induction r with
  | nil =>
      intro _ hlf
      cases hlf
  | cons c w ih =>
      intro hnone hlf v
      rw [splitLine] at hnone
      rw [List.cons_append, splitLine]
      by_cases hend : c = CR ∧ w.head? = some LF
      · rw [if_pos hend] at hnone
        cases hnone
      · rw [if_neg hend] at hnone
        by_cases hc : c = LF
        · rw [if_neg, if_pos hc]
          rintro ⟨rfl, -⟩
          exact lf_ne_cr hc.symm
        · rw [if_neg hc, Option.map_eq_none_iff] at hnone
          -- the LF is further on, so `w` is not empty and keeps its first byte
          have hw : LF ∈ w := (List.mem_cons.mp hlf).resolve_left (Ne.symm hc)
          have hhead : (w ++ v).head? = w.head? := by
            cases w with
            | nil => cases hw
            | cons d t => rfl
          rw [hhead, if_neg hend, if_neg hc, ih hnone hw v]
          rfl

theorem stream_bare (hq : q.state ≠ .body) (hnone : splitLine r = none) (hlf : LF ∈ r) (n : Nat)
    (v : Bytes) : stream js n q (r ++ v) = .ok (.noRequest, q, r ++ v) := by
  apply stream_open hq (splitLine_bare hnone hlf v)
  rintro hnil
  rw [(List.append_eq_nil_iff.mp hnil).1] at hlf
  cases hlf

theorem cstr_append_of_mem (h : NUL ∈ r) (v : Bytes) : cstr (r ++ v) = cstr r := by
  obtain ⟨x, y, rfl⟩ := List.append_of_mem h
  rw [List.append_assoc, List.cons_append, cstr_append_nul, cstr_append_nul]

/-- The line that more input makes of unread bytes with a NUL: its C string is there
already. -/
theorem cstr_line {line rest : Bytes} (hnul : NUL ∈ r) (hlf : LF ∉ r)
    (h : splitLine (r ++ v) = some (line, rest)) : cstr line = cstr r := by
  obtain ⟨hsplit, -⟩ := splitLine_eq_some.mp h
  have hprefix : r <+: line ++ [CR] := by
    have hr : r <+: (line ++ [CR]) ++ LF :: rest := ⟨v, by rw [hsplit]; simp⟩
    rcases List.prefix_or_prefix_of_prefix hr (List.prefix_append _ _) with hr' | ⟨t, rfl⟩
    · exact hr'
    · -- `r` does not reach the LF
      rcases List.prefix_cons_iff.mp ((List.prefix_append_right_inj _).mp hr) with rfl | ⟨t', rfl, -⟩
      · rw [List.append_nil]
      · simp at hlf
  have hmem : NUL ∈ line := by
    have hmem := hprefix.subset hnul
    rw [List.mem_append, List.mem_singleton] at hmem
    exact hmem.resolve_right (by decide)
  calc cstr line = cstr (line ++ CR :: LF :: rest) := (cstr_append_of_mem hmem _).symm
    _ = cstr (r ++ v) := by rw [hsplit]
    _ = cstr r := cstr_append_of_mem hnul v

/-- A request line does not end in a blank. -/
theorem requestTarget_blank (line : Bytes) : requestTarget (line ++ [SP]) = none := by
  cases htarget : requestTarget (line ++ [SP]) with
  | none => rfl
  | some target =>
      obtain ⟨method, gap₁, gap₂, version, hline, -, -, -, -, hversion⟩ :=
        requestTarget_eq_some.mp htarget
      have hne : version ≠ [] := by
        rintro rfl
        rcases hversion with h | h <;> revert h <;> decide
      have hlast : SP ∈ version := by
        rw [← List.append_assoc, ← List.append_assoc] at hline
        have hend := congrArg List.getLast? hline
        rw [List.getLast?_concat, List.getLast?_append_of_ne_nil _ hne] at hend
        exact List.mem_of_getLast? hend.symm
      exact absurd (by decide) (hversion.not_blank SP hlast)

/-- An open request line can be completed so that it is refused. -/
theorem stream_requestLine_blank (hq : q.state = .requestLine) (hlf : LF ∉ r) (hnul : NUL ∉ r)
    (n : Nat) :
    ∃ q' rest, stream js n q (r ++ (SP :: crlf)) = .ok (.badRequest, q', rest) := by
  have hs : splitLine (r ++ (SP :: crlf)) = some (r ++ [SP], []) := by
    refine splitLine_eq_some.mpr ⟨by simp [crlf], ?_⟩
    rw [List.mem_append, not_or]
    exact ⟨hlf, by decide⟩
  have hself : cstr (r ++ [SP]) = r ++ [SP] := by
    apply cstr_eq_self
    rw [List.mem_append, not_or]
    exact ⟨hnul, by decide⟩
  have hparse := parseRequestLine_target q (r ++ [SP])
  rw [requestTarget_blank] at hparse
  obtain ⟨q', nuls, hparse⟩ := hparse
  rw [stream_line (by simp [hq]) hs, hself, lineStep, hq]
  simp only [hparse]
  exact ⟨_, _, rfl⟩

/-- The empty line in front of a head without a Content-Length. -/
theorem stream_emptyLine (hq : q.state = .headers) (hcl : contentLength ∉ q.header)
    (hlf : LF ∉ r) (hempty : cstr r = []) (n : Nat) :
    ∃ q' rest, stream js n q (r ++ crlf) = .ok (.getRequest, q', rest) := by
  have hs : splitLine (r ++ crlf) = some (r, []) := splitLine_eq_some.mpr ⟨rfl, hlf⟩
  rw [stream_line (by simp [hq]) hs, hempty, lineStep, hq]
  simp only [parseHeader, if_pos, if_neg hcl]
  rw [stream_nil, if_pos rfl]
  exact ⟨_, _, rfl⟩

/-- A request line that a NUL has cut off is decided by the end of its line. -/
theorem stream_requestLine_nul (hq : q.state = .requestLine) (hcl : contentLength ∉ q.header)
    (hlf : LF ∉ r) (hbare : ¬ BareDomain (cstr r)) (n : Nat) :
    ∃ code q' rest, stream js n q (r ++ (crlf ++ crlf)) = .ok (code, q', rest) ∧
      (code = .getRequest ∨ code = .badRequest) := by
  have hs : splitLine (r ++ (crlf ++ crlf)) = some (r, crlf) :=
    splitLine_eq_some.mpr ⟨rfl, hlf⟩
  rw [stream_line (by simp [hq]) hs, lineStep, hq]
  rcases hparse : parseRequestLine q (cstr r) with e | ⟨ok, q₁, nuls⟩
  · exact absurd (parseRequestLine_eq_error.mp ⟨e, hparse⟩) hbare
  · cases ok with
    | false => exact ⟨_, _, _, rfl, Or.inr rfl⟩
    | true =>
        obtain ⟨-, hq₁⟩ := parseRequestLine_accepted (plainLine_cstr hlf) hparse
        have hheader : q₁.header = q.header := by rw [hq₁]
        have hstate : q₁.state = .headers := by rw [hq₁]
        obtain ⟨q', rest, hget⟩ := @stream_emptyLine J js q₁ [] hstate (hheader ▸ hcl)
          List.not_mem_nil rfl n
        exact ⟨_, q', rest, hget, Or.inl rfl⟩

/-- A header line that is not empty, and a line that is none. -/
theorem stream_header_refused (hq : q.state = .headers) (hlf : LF ∉ r)
    (hnul : r.head? ≠ some NUL) (n : Nat) :
    ∃ q' rest, stream js n q (r ++ (ascii "x" ++ crlf ++ (ascii "x" ++ crlf))) =
      .ok (.badRequest, q', rest) := by
  -- the second line has no separator
  have hrefused : ∀ q₁ : HttpRequest J, q₁.state = .headers →
      ∃ q' rest, stream js n q₁ (ascii "x" ++ crlf) = .ok (.badRequest, q', rest) := by
    intro q₁ hq₁
    have hs : splitLine (ascii "x" ++ crlf) = some (ascii "x", []) := by decide
    have hself : cstr (ascii "x") = ascii "x" := by decide
    have hnone : strpbrk (ascii "x") separators = none := by decide
    rw [stream_line (by simp [hq₁]) hs, hself, lineStep, hq₁]
    simp only [parseHeader, hnone, if_neg (show ascii "x" ≠ [] by decide)]
    exact ⟨_, _, rfl⟩
  have hs : splitLine (r ++ (ascii "x" ++ crlf ++ (ascii "x" ++ crlf))) =
      some (r ++ ascii "x", ascii "x" ++ crlf) := by
    refine splitLine_eq_some.mpr ⟨by simp [crlf], ?_⟩
    rw [List.mem_append, not_or]
    exact ⟨hlf, by decide⟩
  have hne : cstr (r ++ ascii "x") ≠ [] := by
    cases r with
    | nil => decide
    | cons c t =>
        have hc : (c != NUL) = true := bne_iff_ne.mpr fun h => hnul (by rw [h]; rfl)
        rw [cstr, List.cons_append, List.takeWhile_cons_of_pos (p := fun c => c != NUL) hc]
        exact List.cons_ne_nil _ _
  rw [stream_line (by simp [hq]) hs, lineStep, hq]
  simp only [parseHeader, if_neg hne]
  cases strpbrk (cstr (r ++ ascii "x")) separators with
  | none => exact ⟨_, _, rfl⟩
  | some i => exact hrefused _ hq

/-- Behind its head a request takes whole lines up to the end of the input. -/
theorem stream_finish (hq : q.state = .finish) (hlf : LF ∉ r) (n : Nat) :
    stream js n q (r ++ crlf) = .ok (.getRequest, q, []) := by
  have hs : splitLine (r ++ crlf) = some (r, []) := splitLine_eq_some.mpr ⟨rfl, hlf⟩
  rw [stream_line (by simp [hq]) hs, lineStep, hq]
  simp only
  rw [stream_nil, if_pos hq]

/-- The empty line in front of a body. -/
theorem stream_body_next (hq : q.state = .headers) (hcl : contentLength ∈ q.header)
    (hempty : cstr line = []) (hs : splitLine u = some (line, rest)) (n : Nat) :
    stream js n q u = stream js n { q with state := .body } rest := by
  rw [stream_line (by simp [hq]) hs, hempty, lineStep, hq]
  simp only [parseHeader, if_pos, if_pos hcl]

/-! ## §5  The states with a way on -/

/-- More input can still bring `q`, with `r` unread, to an answer. In front of a line: no bare
LF has come, and where a NUL has cut the line off, its C string is not a fault of
`ParseRequestLine`, or is not the end of a head whose body is impossible. -/
def Alive (js : JsonCpp J) (q : HttpRequest J) (r : Bytes) : Prop :=
  match q.state with
  | .requestLine => LF ∉ r ∧ (NUL ∈ r → ¬ BareDomain (cstr r))
  | .headers => LF ∉ r ∧ (r.head? = some NUL → contentLength ∈ q.header → BodyPossible js q [])
  | .body => BodyPossible js q r
  | .finish => LF ∉ r

/-- **A way on.** -/
theorem stream_of_alive (hq : Suspended q r) (h : Alive js q r) :
    ∃ v, v ≠ [] ∧ ∀ n, ∃ code q' rest, stream js n q (r ++ v) = .ok (code, q', rest) ∧
      (code = .getRequest ∨ code = .badRequest) := by
  unfold Alive at h
  cases hst : q.state with
  | requestLine =>
      simp only [hst] at h
      obtain ⟨hlf, hbare⟩ := h
      -- what a NUL has cut off cannot be changed any more, anything else can be spoilt
      by_cases hnul : NUL ∈ r
      · exact ⟨crlf ++ crlf, by decide,
          stream_requestLine_nul hst (hq.fresh hst) hlf (hbare hnul)⟩
      · refine ⟨SP :: crlf, by decide, fun n => ?_⟩
        obtain ⟨q', rest, hbad⟩ := stream_requestLine_blank hst hlf hnul n
        exact ⟨_, q', rest, hbad, Or.inr rfl⟩
  | headers =>
      simp only [hst] at h
      obtain ⟨hlf, hbody⟩ := h
      by_cases hnul : r.head? = some NUL
      · have hempty : cstr r = [] := by
          obtain ⟨t, rfl⟩ := List.head?_eq_some_iff.mp hnul
          rfl
        -- the line is the empty one, and the body follows
        by_cases hcl : contentLength ∈ q.header
        · obtain ⟨v, -, hstream⟩ :=
            @stream_bodyPossible J js { q with state := .body } [] rfl (hbody hnul hcl)
          refine ⟨crlf ++ v, by simp [crlf], fun n => ?_⟩
          obtain ⟨q', rest, hget⟩ := hstream n
          have hs : splitLine (r ++ (crlf ++ v)) = some (r, v) := splitLine_eq_some.mpr ⟨rfl, hlf⟩
          rw [stream_body_next hst hcl hempty hs]
          exact ⟨_, q', rest, hget, Or.inl rfl⟩
        · refine ⟨crlf, by decide, fun n => ?_⟩
          obtain ⟨q', rest, hget⟩ := stream_emptyLine hst hcl hlf hempty n
          exact ⟨_, q', rest, hget, Or.inl rfl⟩
      · refine ⟨ascii "x" ++ crlf ++ (ascii "x" ++ crlf), by decide, fun n => ?_⟩
        obtain ⟨q', rest, hbad⟩ := stream_header_refused hst hlf hnul n
        exact ⟨_, q', rest, hbad, Or.inr rfl⟩
  | body =>
      simp only [hst] at h
      obtain ⟨v, hne, hstream⟩ := stream_bodyPossible hst h
      refine ⟨v, hne, fun n => ?_⟩
      obtain ⟨q', rest, hget⟩ := hstream n
      exact ⟨_, q', rest, hget, Or.inl rfl⟩
  | finish =>
      simp only [hst] at h
      exact ⟨crlf, by decide, fun n => ⟨_, q, [], stream_finish hst h n, Or.inl rfl⟩⟩

/-- **No other way.** -/
theorem alive_of_stream {code : HttpCode} (hq : Suspended q r)
    (h : stream js n q (r ++ v) = .ok (code, q', rest)) (hcode : code ≠ .noRequest)
    (hlen : (r ++ v).length < 2 ^ 64 - 2 ^ 31) : Alive js q r := by
  have hlf : q.state ≠ .body → LF ∉ r := by
    intro hbody hmem
    rw [stream_bare hbody (hq.openLine hbody) hmem] at h
    cases h
    exact hcode rfl
  -- the line that the input completes
  have hline : q.state ≠ .body → r ≠ [] →
      ∃ line rest, splitLine (r ++ v) = some (line, rest) := by
    intro hbody hne
    cases hs : splitLine (r ++ v) with
    | some p => exact ⟨p.1, p.2, rfl⟩
    | none =>
        rw [stream_open hbody hs fun hnil => hne (List.append_eq_nil_iff.mp hnil).1] at h
        cases h
        exact absurd rfl hcode
  unfold Alive
  cases hst : q.state with
  | requestLine =>
      have hbody : q.state ≠ .body := by simp [hst]
      refine ⟨hlf hbody, fun hnul hbare => ?_⟩
      obtain ⟨line, rest', hs⟩ := hline hbody (List.ne_nil_of_mem hnul)
      obtain ⟨e, herror⟩ := (parseRequestLine_eq_error (q := q)).mpr hbare
      rw [stream_line hbody hs, cstr_line hnul (hlf hbody) hs, lineStep, hst] at h
      simp only [herror] at h
      cases h
  | headers =>
      have hbody : q.state ≠ .body := by simp [hst]
      refine ⟨hlf hbody, fun hnul hcl => ?_⟩
      have hmem : NUL ∈ r := List.mem_of_mem_head? hnul
      obtain ⟨line, rest', hs⟩ := hline hbody (List.ne_nil_of_mem hmem)
      have hempty : cstr line = [] := by
        rw [cstr_line hmem (hlf hbody) hs]
        obtain ⟨t, rfl⟩ := List.head?_eq_some_iff.mp hnul
        rfl
      rw [stream_body_next hst hcl hempty hs] at h
      have hshort : ([] ++ rest').length < 2 ^ 64 - 2 ^ 31 := (splitLine_length hs).trans hlen
      exact @bodyPossible_of_stream J js { q with state := .body } q' [] rest' n code rest rfl h
        hcode hshort
  | body => exact bodyPossible_of_stream hst h hcode hlen
  | finish => exact hlf (by simp [hst])

/-- **Never stuck.** A parser that has only answered NO_REQUEST can be brought to an answer
exactly if it is `Alive`: from any other state no continuation gets one, short of the
`2 ^ 64 - 2 ^ 31` bytes that a negative length asks for. -/
theorem never_stuck_iff {q₀ : HttpRequest J} {size : Nat} {b b' : Buffer} {chunks : List Bytes}
    (hq₀ : new js = .ok q₀) (hb : Buffer.new size = .ok b)
    (hfeed : feed js chunks q₀ b = .ok (none, q, b')) :
    (Alive js q b'.readable → ∃ more, Answers js more q b') ∧
      (¬ Alive js q b'.readable → ∀ more,
        (b'.readable ++ more.flatten).length < 2 ^ 64 - 2 ^ 31 → ¬ Answers js more q b') := by
  obtain ⟨r, k, hholds, hq⟩ :=
    feed_suspended chunks (Buffer.holds_of_new hb) (new_suspended hq₀) hfeed
  rw [hholds.readable]
  constructor
  · intro halive
    obtain ⟨v, hne, hstream⟩ := stream_of_alive hq halive
    exact ⟨[v], answers_of_stream hholds hne hstream⟩
  · rintro hdead more hlen ⟨code, q', b'', hanswer, -⟩
    obtain ⟨v, hv, hcode, q'', rest, hstream⟩ := stream_of_feed more hholds hq hanswer
    refine hdead (alive_of_stream hq hstream hcode (lt_of_le_of_lt ?_ hlen))
    rw [List.length_append, List.length_append]
    exact Nat.add_le_add_left hv.length_le _

/-- A part of a request line. -/
theorem never_stuck_part : ∃ q b',
    feed membersJson [ascii "GET /"] blankForm ⟨[0, 0], 1, 1⟩ = .ok (none, q, b') ∧
      ∃ more, Answers membersJson more q b' := by
  have houtcome : (feed membersJson [ascii "GET /"] blankForm ⟨[0, 0], 1, 1⟩).map
      (fun r => (r.1, r.2.1.state, r.2.2.readable)) =
        .ok (none, .requestLine, ascii "GET /") := by
    decide +kernel
  have hstuck := fun q b' => @never_stuck_iff _ membersJson q blankForm 2 ⟨[0, 0], 1, 1⟩ b'
    [ascii "GET /"] rfl rfl
  generalize feed membersJson _ _ _ = r at houtcome hstuck ⊢
  obtain e | ⟨code, q, b'⟩ := r
  · cases houtcome
  · simp only [Except.map, Except.ok.injEq, Prod.mk.injEq] at houtcome
    obtain ⟨rfl, hstate, hreadable⟩ := houtcome
    refine ⟨q, b', rfl, (hstuck q b' rfl).1 ?_⟩
    rw [hreadable, Alive]
    simp only [hstate]
    exact ⟨by decide, fun hnul => absurd hnul (by decide)⟩

/-- A request line that ends in a bare LF. -/
theorem never_stuck_not_lf :
    ¬ ∀ (size : Nat) (b b' : Buffer) (chunks : List Bytes) (q : HttpRequest (Option HeaderMap)),
      Buffer.new size = .ok b → feed membersJson chunks blankForm b = .ok (none, q, b') →
      ∃ more, Answers membersJson more q b' := by
  intro h
  have houtcome : (feed membersJson [ascii "GET / HTTP/1.1\n"] blankForm ⟨[0, 0], 1, 1⟩).map
      (fun r => (r.1, r.2.1.state, r.2.2.readable)) =
        .ok (none, .requestLine, ascii "GET / HTTP/1.1\n") := by
    decide +kernel
  have hnew : Buffer.new 2 = .ok ⟨[0, 0], 1, 1⟩ := rfl
  have hmore := fun q b' => h 2 ⟨[0, 0], 1, 1⟩ b' [ascii "GET / HTTP/1.1\n"] q hnew
  have hsuspended := fun q b' => @feed_suspended _ membersJson [ascii "GET / HTTP/1.1\n"]
    blankForm q [] ⟨[0, 0], 1, 1⟩ b' _ (Buffer.holds_of_new hnew)
    (new_suspended (show new membersJson = .ok blankForm from rfl))
  generalize feed membersJson _ _ _ = r at houtcome hmore hsuspended
  obtain e | ⟨code, q, b'⟩ := r
  · cases houtcome
  · simp only [Except.map, Except.ok.injEq, Prod.mk.injEq] at houtcome
    obtain ⟨rfl, hstate, hreadable⟩ := houtcome
    obtain ⟨r, k, hholds, hq⟩ := hsuspended q b' rfl
    obtain ⟨more, code, q', b'', hanswer, -⟩ := hmore q b' rfl
    obtain ⟨v, -, hcode, q'', rest, hstream⟩ := stream_of_feed more hholds hq hanswer
    have hbody : q.state ≠ .body := by simp [hstate]
    have hlf : LF ∈ r := by
      rw [← hholds.readable, hreadable]
      decide
    rw [stream_bare hbody (hq.openLine hbody) hlf] at hstream
    cases hstream
    exact hcode rfl

end HttpRequest

end WhiteWebServer
