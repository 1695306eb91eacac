import WhiteWebServer.Recovery

/-!
# The version and the path of a request

Whatever a connection has read, its request names a known version and a path without a
line end: §1 for one line, §2 for the turns of `Parse` and the calls of a connection.
-/

namespace WhiteWebServer

namespace HttpRequest

variable {J : Type} {js : JsonCpp J} {q q' : HttpRequest J} {b b' : Buffer} {g : Byte} {u : Bytes}
  {n : Nat}

/-! ## §1  One line -/

structure PlainHead (q : HttpRequest J) : Prop where
  version : q.version = ascii "1.1" ∨ q.version = ascii "1.0"
  path : LF ∉ q.path

theorem requestVersion_known {line version : Bytes} (h : requestVersion line = some version) :
    version = ascii "1.1" ∨ version = ascii "1.0" := by
  simp only [requestVersion, Option.bind_eq_bind, Option.bind_eq_some_iff] at h
  obtain ⟨i, -, method, -, j, -, hversion⟩ := h
  unfold versionOf at hversion
  split at hversion
  · exact Or.inl (Option.some.inj hversion).symm
  · split at hversion
    · exact Or.inr (Option.some.inj hversion).symm
    · cases hversion

theorem parseRequestLine_head {line : Bytes} {ok : Bool} {nuls : List Nat} (hq : PlainHead q)
    (hline : PlainLine line) (h : parseRequestLine q line = .ok (ok, q', nuls)) : PlainHead q' := by
  cases ok with
  | true =>
      obtain ⟨hparsed, -⟩ := parseRequestLine_accepted hline h
      exact ⟨hparsed.version, fun hlf => (hparsed.path.plain LF hlf).2.1 rfl⟩
  | false =>
      -- a refused line may have set the version
      obtain ⟨-, hversion, hpath⟩ := parseRequestLine_rejected h
      refine ⟨?_, hpath ▸ hq.path⟩
      rw [hversion]
      cases hnamed : requestVersion line with
      | none => exact hq.version
      | some version => exact requestVersion_known hnamed

theorem parseHeader_head (q : HttpRequest J) (line : Bytes) :
    (parseHeader q line).2.1.version = q.version ∧ (parseHeader q line).2.1.path = q.path := by
  unfold parseHeader
  split
  · exact ⟨rfl, rfl⟩
  · split <;> exact ⟨rfl, rfl⟩

theorem parseStateLine_head {line : Bytes} {ok : Bool} (hq : PlainHead q) (hline : PlainLine line)
    (h : parseStateLine q b line = .ok (ok, q', b')) : PlainHead q' := by
  unfold parseStateLine at h
  cases hst : q.state with
  | requestLine =>
      simp only [hst] at h
      rcases hp : parseRequestLine q line with e | ⟨ok', q₁, nuls⟩
      · rw [hp] at h
        cases h
      · simp only [hp, Except.ok.injEq, Prod.mk.injEq] at h
        obtain ⟨-, rfl, -⟩ := h
        exact parseRequestLine_head hq hline hp
  | headers =>
      simp only [hst, Except.ok.injEq, Prod.mk.injEq] at h
      obtain ⟨-, rfl, -⟩ := h
      obtain ⟨hversion, hpath⟩ := parseHeader_head q line
      exact ⟨hversion ▸ hq.version, hpath ▸ hq.path⟩
  | body =>
      simp only [hst, Except.ok.injEq, Prod.mk.injEq] at h
      exact h.2.1 ▸ hq
  | finish =>
      simp only [hst, Except.ok.injEq, Prod.mk.injEq] at h
      exact h.2.1 ▸ hq

theorem parseBody_head {k : Nat} {text : Bytes} {ok : Bool} (hq : PlainHead q)
    (h : parseBody js q k text = .ok (ok, q')) : PlainHead q' := by
  rw [parseBody_eq] at h
  split at h
  · cases h
  · split at h
    · split at h
      · cases h
      · simp only [Except.ok.injEq, Prod.mk.injEq] at h
        rw [← h.2]
        exact ⟨hq.version, hq.path⟩
    · simp only [Except.ok.injEq, Prod.mk.injEq] at h
      rw [← h.2]
      exact ⟨hq.version, hq.path⟩

/-- The line at the read position is handed on without its line end. -/
theorem lineAt_plain {line : Bytes} (h : b.Holds g u n) (hq : q.state ≠ .body)
    (hline : lineAt q b = some line) : PlainLine line := by
  unfold lineAt at hline
  rcases hparse : parseLine q b with ⟨status, len, b₁⟩
  rw [hparse] at hline
  cases status with
  | lineOk =>
      obtain ⟨g', u', h₁, -, hnul, hlf, -, -⟩ := parseLine_cut h hq hparse
      simp only [readCstring_eq h₁, if_pos (Or.inl hnul : NUL ∈ u' ∨ 0 < n)] at hline
      obtain rfl := Option.some.inj hline
      exact fun c hc => ⟨fun heq => nul_notMem_cstr u' (heq ▸ hc), fun heq => hlf (heq ▸ hc)⟩
  | lineBad => cases hline
  | lineOpen => cases hline

/-! ## §2  A run -/

/-- The request a turn leaves. -/
def Turn.request? : Turn J → Option (HttpRequest J)
  | .answers _ q _ => some q
  | .goesOn q _ => some q
  | .raises _ => none

theorem turn_head (h : b.Holds g u n) (hq : PlainHead q)
    (hturn : (turn js q b).request? = some q') : PlainHead q' := by
  by_cases hbody : q.state = .body
  · rw [turn_body h hbody] at hturn
    split at hturn
    · rcases hparse : parseBody js q u.length (cstr u) with e | ⟨ok, q₁⟩
      · rw [hparse] at hturn
        cases hturn
      · rw [hparse] at hturn
        have hq₁ := parseBody_head hq hparse
        cases ok <;> (cases hturn; exact hq₁)
    · cases hturn
  · rcases turn_cases js h hbody with ⟨-, b₁, hanswers⟩ | ⟨line, len, b₁, hline, hafter⟩
    · rw [hanswers] at hturn
      cases hturn
      exact hq
    · rw [hafter] at hturn
      rcases hstep : parseStateLine q b₁ line with e | ⟨ok, q₁, b₂⟩
      · rw [hstep] at hturn
        cases hturn
      · rw [hstep] at hturn
        have hq₁ := parseStateLine_head hq (lineAt_plain h hbody hline) hstep
        cases ok with
        | true =>
            cases hturn
            exact hq₁
        | false =>
            -- a refused line finishes the request
            cases hturn
            exact ⟨hq₁.version, hq₁.path⟩

theorem parse_head {code : HttpCode} (h : b.Stored) (hq : PlainHead q)
    (hparse : parse js q b = .ok (code, q', b')) : PlainHead q' := by
  obtain ⟨g, u, n, h⟩ := h
  unfold parse at hparse
  by_cases hb : b.readableBytes = 0
  · rw [if_pos hb] at hparse
    cases hparse
    exact hq
  · rw [if_neg hb] at hparse
    revert hparse hq
    refine parseLoop_induct js (M := fun fuel q b _ => PlainHead q →
      parseLoop js fuel q b = .ok (code, q', b') → PlainHead q') ?_ ?_ ?_ ?_ _ q h
      (Or.inl (by rw [h.readableBytes]; omega))
    case refine_1 =>
      intro fuel q b g h hq hloop
      rw [parseLoop_done fuel q h.readableBytes] at hloop
      cases hloop
      exact hq
    case refine_2 =>
      intro fuel q b g u code' q₁ b₁ h hu hturn hq hloop
      rw [parseLoop_succ js fuel q (h.readableBytes_ne hu), hturn] at hloop
      cases hloop
      exact turn_head h hq (by rw [hturn]; rfl)
    case refine_3 =>
      intro fuel q b g u e h hu hturn hq hloop
      rw [parseLoop_succ js fuel q (h.readableBytes_ne hu), hturn] at hloop
      cases hloop
    case refine_4 =>
      intro fuel q b g u q₁ b₁ g₁ u₁ h hu hturn h₁ hrest ih hq hloop
      rw [parseLoop_succ js fuel q (h.readableBytes_ne hu), hturn] at hloop
      exact ih (turn_head h hq (by rw [hturn]; rfl)) hloop

end HttpRequest

namespace HttpConn

open HttpRequest

variable {J : Type} {js : JsonCpp J} {webRoot : Bytes} {c : HttpConn J}

theorem plainHead_kept (js : JsonCpp J) : KeptByParse js PlainHead where
  init h := by
    unfold HttpRequest.init at h
    split at h
    · cases h
    · rw [← Except.ok.inj h]
      exact ⟨Or.inl rfl, List.not_mem_nil⟩
  parse hb hq h := parse_head hb hq h
  header _ hq := ⟨hq.version, hq.path⟩

theorem Reached.plainHead (h : Reached js webRoot c) : c.request.PlainHead :=
  h.kept (plainHead_kept js)

end HttpConn

end WhiteWebServer
