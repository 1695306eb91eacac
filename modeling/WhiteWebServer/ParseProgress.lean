import WhiteWebServer.Traversal
import WhiteWebServer.ParseSafety
import WhiteWebServer.Isolation
import WhiteWebServer.FormLoop

/-!
# When the `Parse` loop ends

A turn of the loop that goes on ends in `Retrieve(line_len)`, which does nothing where
`line_len` is too long. `ParseLine` counts one byte too many for an LF behind a CR that was
read before. And a turn that takes a form runs the loop of `ParsePost`. §1 where such a CR
can stand; §2 what a turn retrieves; §3 how a turn is left; §4 the loop; §5 a connection in
static mode.
-/

namespace WhiteWebServer

open Outcome

namespace HttpRequest

variable {J : Type} {js : JsonCpp J} {q q' : HttpRequest J} {b b' : Buffer} {g : Byte} {u : Bytes}
  {n : Nat}

/-! ## §1  The byte before the read position -/

/-- Between calls a CR stands before the read position only where a request line is awaited or
the request is finished. -/
def GuardKnown (q : HttpRequest J) (b : Buffer) : Prop :=
  b.guardByte = some CR → q.state = .requestLine ∨ q.state = .finish

/-- The same in front of a turn: a finished request has nothing left to read there. -/
def TurnGuard (q : HttpRequest J) (b : Buffer) : Prop :=
  b.guardByte = some CR → q.state = .requestLine ∨ (q.state = .finish ∧ b.readableBytes = 0)

theorem TurnGuard.known (h : TurnGuard q b) : GuardKnown q b := by
  intro hcr
  rcases h hcr with hrequest | ⟨hfinish, -⟩
  · exact Or.inl hrequest
  · exact Or.inr hfinish

/-- `line_len` of a turn. -/
def lineLen (q : HttpRequest J) (b : Buffer) : Nat := (parseLine q b).2.1

/-- The turn retrieves `len` bytes: at least one, and no more than there are. -/
structure Retrieves (b b' : Buffer) (len : Nat) : Prop where
  pos : 1 ≤ len
  le : len ≤ b.readableBytes
  rest : b'.readableBytes + len = b.readableBytes

/-! ## §2  A turn -/

/-- A line that is empty because its LF stands behind an earlier CR is no request line. -/
theorem turn_lf_first (h : b.Holds CR (LF :: u) n) (hq : q.state = .requestLine) :
    ∃ b', turn js q b = .answers .badRequest { q with state := .finish } b' := by
  have hbody : q.state ≠ .body := by
    rw [hq]
    decide
  have hscan : scanLine CR b.readIdx 0 (LF :: u) = (.lineOk, 2, [b.readIdx, b.readIdx - 1]) := by
    rw [scanLine.eq_def]
    dsimp only
    rw [if_neg lf_ne_cr, if_pos rfl, if_pos rfl]
  have hline : parseLine q b =
      (.lineOk, 2, putNuls b [b.readIdx, b.readIdx - 1]) := by
    rw [parseLine, if_neg hbody, h.guardByte, h.readable]
    simp only [Option.getD_some, hscan]
  obtain ⟨g', u', h₁, -, hnul, -, hlen, -⟩ := parseLine_cut h hbody hline
  have hempty : cstr u' = [] := List.eq_nil_of_length_eq_zero (by omega)
  refine ⟨putNuls (putNuls b [b.readIdx, b.readIdx - 1]) [], ?_⟩
  unfold turn
  simp only [hline, readCstring_eq h₁, if_pos (Or.inl hnul : NUL ∈ u' ∨ 0 < n), hempty,
    parseStateLine, hq, parseRequestLine, strpbrk, List.findIdx?_nil, List.map_nil, reduceCtorEq,
    if_false]

/-- A body that is taken finishes the request. -/
theorem parseBody_finishes {k : Nat} {text : Bytes}
    (h : parseBody js q k text = .ok (true, q')) : q'.state = .finish := by
  rw [parseBody_eq] at h
  split at h
  · cases h
  · split at h
    · split at h
      · cases h
      · obtain rfl := congrArg Prod.snd (Except.ok.inj h)
        rfl
    · cases congrArg Prod.fst (Except.ok.inj h)

/-- A turn that goes on at the body retrieves all there is. -/
theorem goesOn_body (h : b.Holds g u n) (hq : q.state = .body)
    (hturn : turn js q b = .goesOn q' b') :
    q'.state = .finish ∧ b'.Holds (u.getLastD g) [] n ∧ lineLen q b = u.length := by
  rw [turn_body h hq] at hturn
  split at hturn
  · split at hturn
    · cases hturn
    · cases hturn
    · rename_i q₁ hparse
      obtain ⟨rfl, rfl⟩ := Turn.goesOn.inj hturn
      refine ⟨parseBody_finishes hparse, Buffer.Holds.retrieve (by rwa [List.append_nil]), ?_⟩
      rw [lineLen, parseLine, if_pos hq, h.readableBytes]
  · cases hturn

/-- Where a turn goes on, an LF behind a CR is no line. -/
theorem goesOn_head (h : b.Holds g u n) (hu : u ≠ []) (hg : TurnGuard q b)
    (hturn : turn js q b = .goesOn q' b') : g = CR → u.head? ≠ some LF := by
  rintro rfl hlf
  obtain ⟨v, rfl⟩ : ∃ v, u = LF :: v := by
    cases u with
    | nil => cases hlf
    | cons d v => exact ⟨v, by rw [Option.some.inj hlf]⟩
  rcases hg h.guardByte with hrequest | ⟨-, hzero⟩
  · obtain ⟨b₁, hrejects⟩ := @turn_lf_first _ js q b v n h hrequest
    rw [hrejects] at hturn
    cases hturn
  · exact h.readableBytes_ne hu hzero

/-- A turn that goes on in front of the body retrieves a line and its end. -/
theorem goesOn_line (h : b.Holds g u n) (hhead : g = CR → u.head? ≠ some LF)
    (hq : q.state ≠ .body) (hturn : turn js q b = .goesOn q' b') :
    ∃ rest, b'.Holds NUL rest n ∧ 1 ≤ lineLen q b ∧ u.length = lineLen q b + rest.length := by
  cases hs : splitLine u with
  | none =>
      obtain ⟨status, len, hstatus, hline⟩ := parseLine_none h hhead hq hs
      unfold turn at hturn
      rw [hline] at hturn
      cases status with
      | lineOk => exact absurd rfl hstatus
      | lineBad => cases hturn
      | lineOpen => cases hturn
  | some r =>
      obtain ⟨line, rest⟩ := r
      obtain ⟨b₁, hline, h₁⟩ := parseLine_some h hhead hq hs
      have hread : readCstring b₁ = .ok (cstr line) := by
        rw [readCstring_eq h₁, if_pos (Or.inl (by simp)), cstr_append_nul]
      have hparse := parseStateLine_lineStep h₁ hq
      cases hstep : lineStep q (cstr line) with
      | error e =>
          rw [hstep] at hparse
          simp [turn, hline, hread, hq, hparse] at hturn
      | ok r =>
          obtain ⟨ok, q₁⟩ := r
          cases ok with
          | false =>
              rw [hstep] at hparse
              obtain ⟨b₂, line', -, hparse, -⟩ := hparse
              simp [turn, hline, hread, hq, hparse] at hturn
          | true =>
              obtain ⟨b₂, hturn₂, h₂⟩ := turn_line js h hhead hq hs hstep
              obtain ⟨rfl, rfl⟩ := Turn.goesOn.inj (hturn₂.symm.trans hturn)
              have hlen : lineLen q b = line.length + 2 := by rw [lineLen, hline]
              refine ⟨rest, h₂, by omega, ?_⟩
              rw [(splitLine_eq_some.mp hs).1, List.length_append, List.length_cons,
                List.length_cons, hlen]
              omega

/-- A turn that goes on retrieves its line, and leaves a CR before the read position only
behind a body. -/
theorem turn_retrieves (h : b.Holds g u n) (hu : u ≠ []) (hg : TurnGuard q b)
    (hturn : turn js q b = .goesOn q' b') :
    (∃ g' u', b'.Holds g' u' n ∧ u'.length < u.length) ∧ Retrieves b b' (lineLen q b) ∧
      TurnGuard q' b' := by
  by_cases hq : q.state = .body
  · obtain ⟨hfinish, h', hlen⟩ := goesOn_body h hq hturn
    have hpos : 0 < u.length := List.length_pos_iff.mpr hu
    refine ⟨⟨_, [], h', hpos⟩, ⟨?_, ?_, ?_⟩, fun _ => Or.inr ⟨hfinish, h'.readableBytes⟩⟩
    · rw [hlen]
      exact hpos
    · rw [hlen, h.readableBytes]
    · rw [hlen, h'.readableBytes, h.readableBytes, List.length_nil, Nat.zero_add]
  · obtain ⟨rest, h', hpos, hlen⟩ := goesOn_line h (goesOn_head h hu hg hturn) hq hturn
    refine ⟨⟨NUL, rest, h', by omega⟩, ⟨hpos, ?_, ?_⟩, fun hcr => ?_⟩
    · rw [h.readableBytes, hlen]
      exact Nat.le_add_right _ _
    · rw [h.readableBytes, h'.readableBytes, hlen]
      exact Nat.add_comm _ _
    · rw [h'.guardByte] at hcr
      cases hcr

theorem turn_answers_guard {code : HttpCode} (h : b.Holds g u n) (hg : TurnGuard q b)
    (hturn : turn js q b = .answers code q' b') : GuardKnown q' b' := by
  by_cases hq : q.state = .body
  · rw [turn_body h hq] at hturn
    split at hturn
    · split at hturn
      · cases hturn
      · obtain ⟨-, -, rfl⟩ := Turn.answers.inj hturn
        intro hcr
        rcases hg hcr with hstate | ⟨hstate, -⟩
        · rw [hq] at hstate
          cases hstate
        · rw [hq] at hstate
          cases hstate
      · cases hturn
    · cases hturn
  · unfold turn at hturn
    rcases hline : parseLine q b with ⟨status, len, b₁⟩
    rw [hline] at hturn
    cases status with
    | lineOk =>
        dsimp only at hturn
        split at hturn
        · cases hturn
        · rw [if_neg hq] at hturn
          split at hturn
          · cases hturn
          · obtain ⟨-, rfl, -⟩ := Turn.answers.inj hturn
            exact fun _ => Or.inr rfl
          · cases hturn
    | lineBad =>
        obtain ⟨-, rfl, rfl⟩ := Turn.answers.inj hturn
        rw [parseLine_open hq (by decide) hline]
        exact hg.known
    | lineOpen =>
        obtain ⟨-, rfl, rfl⟩ := Turn.answers.inj hturn
        rw [parseLine_open hq (by decide) hline]
        exact hg.known

/-! ## §3  How a turn is left -/

/-- If a turn takes a body here, `ParsePost` comes to its end. -/
def PostLeft (js : JsonCpp J) (q : HttpRequest J) (b : Buffer) : Prop :=
  ∀ ct body, bodyTaken q b = some (ct, body) → PostEnds js ct body q.post

theorem checkInt_error {value : Int} {e : Fault} (h : checkInt value = .error e) :
    e = .uncaught := by
  unfold checkInt at h
  split at h
  · cases h
  · exact (Except.error.inj h).symm

theorem stoi_error {value : Bytes} {e : Fault} (h : stoi value = .error e) : e = .uncaught := by
  unfold stoi at h
  split at h
  · exact (Except.error.inj h).symm
  · exact checkInt_error h

theorem pathOf_error {url : Bytes} {e : Fault} (h : pathOf url = .error e) : e = .nullPointer := by
  unfold pathOf at h
  split at h
  · exact (Except.error.inj h).symm
  · split at h
    · cases h
    · cases h

theorem parseRequestLine_error {line : Bytes} {e : Fault}
    (h : parseRequestLine q line = .error e) : e = .nullPointer := by
  unfold parseRequestLine at h
  split at h
  · cases h
  · split at h
    · cases h
    · dsimp only at h
      split at h
      · cases h
      · split at h
        · cases h
        · split at h
          · rename_i hpath
            obtain rfl := Except.error.inj h
            exact pathOf_error hpath
          · cases h
          · cases h

/-- In front of the body only a request line makes a turn raise. -/
theorem turn_head_raises (h : b.Holds g u n) (hq : q.state ≠ .body) {e : Fault}
    (hturn : turn js q b = .raises e) : e = .nullPointer := by
  cases hstate : q.state with
  | body => exact absurd hstate hq
  | headers => exact absurd hturn (turn_headers_ok h hstate e)
  | finish => exact absurd hturn (turn_finish_ok h hstate e)
  | requestLine =>
      rcases turn_cases js h hq with ⟨-, b', hanswers⟩ | ⟨line, len, b₁, -, hline⟩
      · rw [hanswers] at hturn
        cases hturn
      · rw [hline, afterLine_raises] at hturn
        simp only [parseStateLine, hstate] at hturn
        split at hturn
        · rename_i hrequest
          obtain rfl := Except.error.inj hturn
          exact parseRequestLine_error hrequest
        · cases hturn

/-- A turn answers, goes on or raises exactly if the body it takes, if it does, is one that
`ParsePost` comes to the end of. -/
theorem turn_leaves_iff (hjs : js.Returns) (h : b.Holds g u n) (hlen : u.length < 2 ^ 63) :
    (∀ e, turn js q b = .raises e → e.Leaves) ↔ PostLeft js q b := by
  by_cases hq : q.state = .body
  · have hcstr : (cstr u).length < 2 ^ 63 := lt_of_le_of_lt (isInfix_cstr u).length_le hlen
    unfold PostLeft
    rw [turn_body h hq, bodyTaken_at_body h hq, parseBody_eq]
    by_cases hends : NUL ∈ u ∨ 0 < n
    · rw [if_pos hends, if_pos hends]
      cases hlength : stoi (q.header.access contentLength).1 with
      | error e =>
          refine iff_of_true (fun e' he' => ?_) (fun ct body htaken => by cases htaken)
          obtain rfl := Turn.raises.inj he'
          exact Or.inl (stoi_error hlength)
      | ok m =>
          dsimp only
          by_cases hle : toSize m ≤ u.length
          · rw [if_pos hle, if_pos hle]
            have hpost := @postValue_ends_iff J js (cstr u) q.post hjs
              ((q.header.access contentLength).2.access contentType).1 hcstr
            simp only [Option.some.injEq, Prod.mk.injEq, and_imp, forall_apply_eq_imp_iff,
              forall_eq']
            rw [← hpost]
            cases postValue js ((q.header.access contentLength).2.access contentType).1 (cstr u)
              q.post with
            | error e => simp
            | ok v => simp
          · rw [if_neg hle, if_neg hle]
            exact iff_of_true (fun e he => by cases he) fun ct body htaken => by cases htaken
    · rw [if_neg hends, if_neg hends]
      refine iff_of_true (fun e he => ?_) fun ct body htaken => by cases htaken
      obtain rfl := Turn.raises.inj he
      exact Or.inr (Or.inl rfl)
  · refine iff_of_true (fun e he => Or.inr (Or.inr (turn_head_raises h hq he))) ?_
    intro ct body htaken
    rw [bodyTaken_of_ne hq] at htaken
    cases htaken

/-! ## §4  The loop -/

/-- As many turns as there are bytes are enough, and each turn that goes on retrieves some. -/
theorem parseLoop_retrieves (fuel : Nat) (q : HttpRequest J) (h : b.Holds g u n)
    (hg : TurnGuard q b) (hfuel : u.length ≤ fuel) :
    (∀ p ∈ stands js fuel q b, ∀ q' b', turn js p.1 p.2 = .goesOn q' b' →
        Retrieves p.2 b' (lineLen p.1 p.2)) ∧
      ∀ code q' b', parseLoop js fuel q b = .ok (code, q', b') → GuardKnown q' b' := by
  induction fuel generalizing q b g u with
  | zero =>
      obtain rfl : u = [] := List.eq_nil_of_length_eq_zero (Nat.le_zero.mp hfuel)
      refine ⟨fun p hp => absurd hp List.not_mem_nil, fun code q' b' hloop => ?_⟩
      rw [parseLoop_done 0 q h.readableBytes] at hloop
      obtain ⟨-, rfl, rfl⟩ : _ ∧ q = q' ∧ b = b' := by simpa using hloop
      exact hg.known
  | succ fuel ih =>
      by_cases hu : u = []
      · subst hu
        rw [stands_nil _ q h]
        refine ⟨fun p hp => absurd hp List.not_mem_nil, fun code q' b' hloop => ?_⟩
        rw [parseLoop_done _ q h.readableBytes] at hloop
        obtain ⟨-, rfl, rfl⟩ : _ ∧ q = q' ∧ b = b' := by simpa using hloop
        exact hg.known
      · rw [stands_cons fuel q h hu, parseLoop_succ js fuel q (h.readableBytes_ne hu)]
        cases hturn : turn js q b with
        | answers code q₁ b₁ =>
            refine ⟨fun p hp q' b' hgoes => ?_, fun code' q' b' hloop => ?_⟩
            · obtain rfl := List.mem_singleton.mp hp
              rw [hturn] at hgoes
              cases hgoes
            · obtain ⟨-, rfl, rfl⟩ : code = code' ∧ q₁ = q' ∧ b₁ = b' := by simpa using hloop
              exact turn_answers_guard h hg hturn
        | raises e =>
            refine ⟨fun p hp q' b' hgoes => ?_, fun code' q' b' hloop => by cases hloop⟩
            obtain rfl := List.mem_singleton.mp hp
            rw [hturn] at hgoes
            cases hgoes
        | goesOn q₁ b₁ =>
            obtain ⟨⟨g', u', h', hless⟩, hretrieves, hg'⟩ := turn_retrieves h hu hg hturn
            obtain ⟨hrest, hanswer⟩ := ih q₁ h' hg' (by omega)
            refine ⟨fun p hp q' b' hgoes => ?_, hanswer⟩
            rcases List.mem_cons.mp hp with rfl | hp
            · obtain ⟨rfl, rfl⟩ := Turn.goesOn.inj (hturn.symm.trans hgoes)
              exact hretrieves
            · exact hrest p hp q' b' hgoes

/-- Two bounds on the turns that both cover the bytes give the same. -/
theorem parseLoop_fuel (fuel fuel' : Nat) (q : HttpRequest J) (h : b.Holds g u n)
    (hg : TurnGuard q b) (hfuel : u.length ≤ fuel) (hfuel' : u.length ≤ fuel') :
    parseLoop js fuel q b = parseLoop js fuel' q b := by
  induction fuel generalizing fuel' q b g u with
  | zero =>
      obtain rfl : u = [] := List.eq_nil_of_length_eq_zero (Nat.le_zero.mp hfuel)
      rw [parseLoop_done 0 q h.readableBytes, parseLoop_done fuel' q h.readableBytes]
  | succ fuel ih =>
      by_cases hu : u = []
      · subst hu
        rw [parseLoop_done _ q h.readableBytes, parseLoop_done fuel' q h.readableBytes]
      · have hpos : 0 < u.length := List.length_pos_iff.mpr hu
        obtain ⟨k, rfl⟩ : ∃ k, fuel' = k + 1 := ⟨fuel' - 1, by omega⟩
        rw [parseLoop_succ js fuel q (h.readableBytes_ne hu),
          parseLoop_succ js k q (h.readableBytes_ne hu)]
        cases hturn : turn js q b with
        | answers code q₁ b₁ => rfl
        | raises e => rfl
        | goesOn q₁ b₁ =>
            obtain ⟨⟨g', u', h', hless⟩, -, hg'⟩ := turn_retrieves h hu hg hturn
            exact ih k q₁ h' hg' (by omega) (by omega)

/-- One call of `Parse`: each turn of its loop that goes on retrieves at least one byte and no
more than there are; whatever the bound on its turns, the loop ends in the same way; and the
call returns, or a turn leaves the loop by an exception, by an access outside an object or at
a null pointer. -/
structure LoopEnds (js : JsonCpp J) (q : HttpRequest J) (b : Buffer) : Prop where
  progress : ∀ p ∈ standsOf js q b, ∀ q' b', turn js p.1 p.2 = .goesOn q' b' →
    Retrieves p.2 b' (lineLen p.1 p.2)
  bounded : b.readableBytes ≠ 0 → ∀ fuel, b.readableBytes ≤ fuel →
    parseLoop js fuel q b = parse js q b
  ends : (∃ r, parse js q b = .ok r) ∨ ∃ p ∈ standsOf js q b, ∃ e : Fault, e.Leaves ∧
    turn js p.1 p.2 = .raises e ∧ parse js q b = .error e

theorem parse_loopEnds_iff (hjs : js.Returns) (q : HttpRequest J) (h : b.Holds g u n)
    (hg : TurnGuard q b) (hlen : u.length < 2 ^ 63) :
    LoopEnds js q b ↔ ∀ p ∈ standsOf js q b, PostLeft js p.1 p.2 := by
  have hshort : ∀ p ∈ standsOf js q b, ∃ g' u', p.2.Holds g' u' n ∧ u'.length < 2 ^ 63 := by
    intro p hp
    obtain ⟨g', u', hp', -, hpart⟩ := standsOf_part h hp
    refine ⟨g', u', hp', ?_⟩
    rcases hpart with hsuffix | rfl
    · exact lt_of_le_of_lt hsuffix.length_le hlen
    · exact Nat.lt_of_le_of_lt (Nat.le_refl 1) (by decide)
  constructor
  · rintro ⟨-, -, hends⟩ p hp
    obtain ⟨g', u', hp', hlen'⟩ := hshort p hp
    rw [← turn_leaves_iff hjs hp' hlen']
    intro e hturn
    have hparse : parse js q b = .error e := parse_of_stand hp (by rw [hturn]; rfl)
    rcases hends with ⟨r, hr⟩ | ⟨-, -, e', hleaves, -, he'⟩
    · rw [hparse] at hr
      cases hr
    · rw [hparse] at he'
      obtain rfl := Except.error.inj he'
      exact hleaves
  · intro hleft
    refine ⟨?_, ?_, ?_⟩
    · exact (parseLoop_retrieves _ q h hg (by rw [h.readableBytes]; omega)).1
    · intro hbytes fuel hfuel
      rw [h.readableBytes] at hfuel
      rw [parse, if_neg hbytes, h.readableBytes]
      exact parseLoop_fuel fuel _ q h hg hfuel (by omega)
    · have htraced := @parse_traced J js b g u n q h
      cases hparse : parse js q b with
      | ok r => exact Or.inl ⟨r, rfl⟩
      | error e =>
          rw [hparse] at htraced
          obtain ⟨p, hp, hraises⟩ := htraced
          obtain ⟨g', u', hp', hlen'⟩ := hshort p hp
          have hleaves := (turn_leaves_iff hjs hp' hlen').mpr (hleft p hp) e hraises
          exact Or.inr ⟨p, hp, e, hleaves, hraises, rfl⟩

theorem parse_guard {code : HttpCode} (h : b.Holds g u n) (hg : TurnGuard q b)
    (hparse : parse js q b = .ok (code, q', b')) : GuardKnown q' b' := by
  unfold parse at hparse
  split at hparse
  · obtain ⟨-, rfl, rfl⟩ : _ ∧ q = q' ∧ b = b' := by simpa using hparse
    exact hg.known
  · exact (parseLoop_retrieves _ q h hg (by rw [h.readableBytes]; omega)).2 code q' b' hparse

end HttpRequest

/-! ## §5  A connection in static mode -/

namespace HttpConn

open HttpRequest

variable {J : Type} {js : JsonCpp J} {fs : FileSystem} {webRoot : Bytes} {c c' : HttpConn J}

/-- Every call but `ProcessProxy`, which exchanges the two buffers. -/
def StaticCalls : ConnCall → Prop
  | .processProxy _ _ => False
  | _ => True

structure ReadsKnown (c : HttpConn J) : Prop where
  stored : c.readBuff.Stored
  guard : GuardKnown c.request c.readBuff

theorem nextRequest_guard {q : HttpRequest J} (hc : ReadsKnown c)
    (h : nextRequest js c.request = .ok q) : TurnGuard q c.readBuff := by
  intro hcr
  unfold nextRequest at h
  split at h
  · exact Or.inl (init_body h).2
  · rename_i hunfinished
    obtain rfl := Except.ok.inj h
    rcases hc.guard hcr with hrequest | hfinish
    · exact Or.inl hrequest
    · exact absurd (by rw [isFinish, hfinish]; rfl) hunfinished

/-- What `Process` leaves of the request and the read buffer. -/
theorem process_reads {result : ProcessState} (h : c.process js fs webRoot = .ok (result, c')) :
    ∃ q, nextRequest js c.request = .ok q ∧
      ((c'.request = q ∧ c'.readBuff = c.readBuff) ∨
        ∃ code q' b, q.parse js c.readBuff = .ok (code, q', b) ∧ c'.request = q' ∧
          c'.readBuff = b) := by
  obtain ⟨q, hnext, h⟩ := bind_eq_ok.mp h
  refine ⟨q, hnext, ?_⟩
  dsimp only at h
  split at h
  · obtain rfl := congrArg Prod.snd (Except.ok.inj h)
    exact Or.inl ⟨rfl, rfl⟩
  · obtain ⟨⟨code, q', b⟩, hparse, h⟩ := bind_eq_ok.mp h
    refine Or.inr ⟨code, q', b, hparse, ?_⟩
    dsimp only at h
    split at h
    · obtain rfl := congrArg Prod.snd (Except.ok.inj h)
      exact ⟨rfl, rfl⟩
    · obtain ⟨c₁, hrespond, h⟩ := bind_eq_ok.mp h
      obtain ⟨r, wb, rfl⟩ := respond_eq hrespond
      have hresult := congrArg Prod.snd (Except.ok.inj h)
      dsimp only at hresult
      rw [← hresult]
      split <;> exact ⟨rfl, rfl⟩

theorem process_known {result : ProcessState} (hc : ReadsKnown c)
    (h : c.process js fs webRoot = .ok (result, c')) : ReadsKnown c' := by
  obtain ⟨q, hnext, hreads⟩ := process_reads h
  have hguard := nextRequest_guard hc hnext
  obtain ⟨g, u, n, hb⟩ := hc.stored
  rcases hreads with ⟨hrequest, hbuff⟩ | ⟨code, q', b, hparse, hrequest, hbuff⟩
  · refine ⟨⟨g, u, n, by rw [hbuff]; exact hb⟩, ?_⟩
    rw [hrequest, hbuff]
    exact hguard.known
  · rw [← hrequest, ← hbuff] at hparse
    obtain ⟨g', u', hb'⟩ := parse_holds hb hparse
    exact ⟨⟨g', u', n, hb'⟩, parse_guard hb hguard hparse⟩

theorem readFromFd_known (hc : ReadsKnown c) (reads : List Bytes) :
    ReadsKnown (c.readFromFd reads) := by
  obtain ⟨g, u, n, hb⟩ := hc.stored
  obtain ⟨m, hb'⟩ := readFromFd_holds hb reads
  refine ⟨⟨g, _, m, hb'⟩, fun hcr => hc.guard ?_⟩
  have hguard : (c.readFromFd reads).readBuff.guardByte = some g := hb'.guardByte
  rw [hb.guardByte, ← hcr, hguard]

theorem connStep_known {call : ConnCall} (hstatic : StaticCalls call) (hc : ReadsKnown c)
    (h : connStep js webRoot c call = .ok c') : ReadsKnown c' := by
  cases call with
  | init fd addr proxyFd indexFile =>
      obtain rfl := Except.ok.inj h
      obtain ⟨g, u, n, hb⟩ := hc.stored
      refine ⟨⟨_, _, _, hb.clear⟩, fun hcr => ?_⟩
      rw [show (c.init fd addr proxyFd indexFile).readBuff = c.readBuff.clear from rfl,
        hb.clear.guardByte] at hcr
      cases hcr
  | readFromFd reads =>
      obtain rfl := Except.ok.inj h
      exact readFromFd_known hc reads
  | writeToFd last counts =>
      obtain rfl := Except.ok.inj h
      obtain ⟨hrequest, hbuff⟩ := writeToFd_kept last counts c
      refine ⟨by rw [hbuff]; exact hc.stored, ?_⟩
      rw [hrequest, hbuff]
      exact hc.guard
  | process fs =>
      obtain ⟨⟨result, c₁⟩, hprocess, rfl⟩ := map_eq_ok h
      exact process_known hc hprocess
  | processProxy fs entries => exact hstatic.elim
  | resetProxyFd newProxyFd =>
      obtain rfl := Except.ok.inj h
      exact ⟨hc.stored, hc.guard⟩
  | close =>
      rw [connStep, close] at h
      dsimp only at h
      split at h
      · obtain rfl := Except.ok.inj h
        exact ⟨hc.stored, hc.guard⟩
      · split at h
        · cases h
        · rename_i q hinit
          obtain rfl := Except.ok.inj h
          exact ⟨hc.stored, fun _ => Or.inl (init_body hinit).2⟩

theorem new_known {junk : Junk} (h : HttpConn.new js junk = .ok c) : ReadsKnown c := by
  refine ⟨(new_buffersStored h).readBuff, fun hcr => ?_⟩
  obtain ⟨readBuff, hread, h⟩ := bind_eq_ok.mp h
  obtain ⟨writeBuff, -, h⟩ := bind_eq_ok.mp h
  obtain ⟨request, -, h⟩ := bind_eq_ok.mp h
  obtain rfl := Except.ok.inj h
  rw [(Buffer.holds_of_new hread).guardByte] at hcr
  cases hcr

/-- **When the `Parse` loop ends.** Whatever a client sends, in whatever pieces and with
whatever calls of `Process` in between, and whatever else a connection in static mode did
before: in the `Parse` of the next `Process` each turn of the loop that goes on retrieves at
least one byte and no more than there are, and the loop ends, exactly if the body it takes is
no form, or a form in which no position wraps, or one on which a turn of `ParsePost` raises.
The read buffer is of a size that a vector can have. -/
theorem parse_loop_ends_iff (hjs : js.Returns) (webRoot : Bytes) {junk : Junk} {c₀ : HttpConn J}
    (hnew : HttpConn.new js junk = .ok c₀) {ls : List ConnCall}
    (hstatic : ∀ call ∈ ls, StaticCalls call) {os : List Unit}
    (hrun : (calls js webRoot c₀).run ls = some (c, os)) {q : HttpRequest J}
    (hnext : nextRequest js c.request = .ok q) (hsize : c.readBuff.readableBytes < 2 ^ 63) :
    LoopEnds js q c.readBuff ↔ ∀ p ∈ standsOf js q c.readBuff, PostLeft js p.1 p.2 := by
  have hknown : ReadsKnown c :=
    Machine.run_invariant_of_meets (P := fun _ call => StaticCalls call) (new_known hnew)
      (fun s call s' o hs hcall hstep => connStep_known hcall hs (calls_step hstep))
      (Machine.meets_of_forall fun call hcall _ => hstatic call hcall) hrun
  obtain ⟨g, u, n, hb⟩ := hknown.stored
  rw [hb.readableBytes] at hsize
  exact parse_loopEnds_iff hjs q hb (nextRequest_guard hknown hnext) hsize

theorem membersJson_returns : membersJson.Returns where
  setMember v key x e h := by cases h
  setMember_again v v' key x _ key' x' := ⟨_, rfl⟩
  parse document v e h := by cases h

/-- A body that is a CR, then an LF. -/
def splitEnding : List ConnCall :=
  [.init 5 ⟨10, 0, 0, 7⟩ (-1) (some []),
   .readFromFd [ascii "POST / HTTP/1.1\r\nContent-Length: 1\r\n\r\n\r"],
   .process worldReadable, .readFromFd [[LF]]]

theorem parse_loop_ends_split :
    ∃ c₀ c os q, HttpConn.new membersJson zeroed = .ok c₀ ∧
      (calls membersJson (ascii "/srv") c₀).run splitEnding = some (c, os) ∧
      c.readBuff.guardByte = some CR ∧ c.readBuff.readable = [LF] ∧
      nextRequest membersJson c.request = .ok q ∧ LoopEnds membersJson q c.readBuff := by
  have hbehind : (do
      let c₀ ← HttpConn.new membersJson zeroed
      match (calls membersJson (ascii "/srv") c₀).run splitEnding with
      | none => return none
      | some (c, _) => do
          let q ← nextRequest membersJson c.request
          return some (c.readBuff.guardByte, c.readBuff.readable, c.readBuff.readableBytes,
            (standsOf membersJson q c.readBuff).all fun p => (bodyTaken p.1 p.2).isNone)) =
        .ok (some (some CR, [LF], 1, true)) := by
    decide +kernel
  obtain ⟨c₀, hnew, hbehind⟩ := bind_eq_ok.mp hbehind
  split at hbehind
  · cases hbehind
  · rename_i c os hrun
    obtain ⟨q, hnext, hbehind⟩ := bind_eq_ok.mp hbehind
    simp only [pure, Except.pure, Except.ok.injEq, Option.some.injEq, Prod.mk.injEq] at hbehind
    obtain ⟨hguard, hreadable, hbytes, htaken⟩ := hbehind
    refine ⟨c₀, c, os, q, hnew, hrun, hguard, hreadable, hnext, ?_⟩
    refine (parse_loop_ends_iff membersJson_returns (ascii "/srv") hnew
      (by simp [splitEnding, StaticCalls]) hrun hnext (by rw [hbytes]; decide)).mpr ?_
    intro p hp ct body hbody
    have hnone := List.all_eq_true.mp htaken p hp
    rw [hbody] at hnone
    cases hnone

/-! ### A form that is too long -/

/-- A form request with the body `body`, of which it announces one byte. -/
def formOf (body : Bytes) : Bytes :=
  ascii "POST / HTTP/1.1" ++ CR :: LF ::
    (ascii "Content-Type: application/x-www-form-urlencoded" ++ CR :: LF ::
      (ascii "Content-Length: 1" ++ CR :: LF :: ([] ++ CR :: LF :: body)))

theorem formOf_ne_nil (body : Bytes) : formOf body ≠ [] :=
  List.append_ne_nil_of_right_ne_nil _ (List.cons_ne_nil _ _)

/-- `n` letters and an `&`. -/
def farForm (n : Nat) : Bytes := List.replicate n 97 ++ [ampersand]

theorem find_farForm {n k : Nat} (hk : k ≤ n) : find (farForm n) 38 k = n := by
  have hsplit : farForm n = List.replicate k 97 ++ (List.replicate (n - k) 97 ++ 38 :: []) := by
    rw [farForm, ← List.append_assoc, List.replicate_append_replicate, Nat.add_sub_cancel' hk]
    rfl
  have hletters : (38 : Byte) ∉ List.replicate (n - k) 97 := fun h =>
    absurd (List.eq_of_mem_replicate h) (by decide)
  have hfind := find_append (List.replicate k 97) [] hletters
  rw [← hsplit, List.length_replicate, List.length_replicate, Nat.add_sub_cancel' hk] at hfind
  exact hfind

theorem find_equals_farForm (n k : Nat) : find (farForm n) 61 k = npos := by
  have hnone : (61 : Byte) ∉ (farForm n).drop k := by
    intro h
    rcases List.mem_append.mp (List.mem_of_mem_drop h) with h | h
    · exact absurd (List.eq_of_mem_replicate h) (by decide)
    · exact absurd (List.mem_singleton.mp h) (by decide)
  rw [find, findIdx?_absent hnone]

/-- The `&` is at a position that is 0 as an `int`, so every turn starts at the first or the
second letter. -/
theorem start_farForm {n : Nat} (hn : toInt n = 0) (hpos : 1 ≤ n) (k : Nat) :
    (nextStart (farForm n))^[k] 0 = 0 ∨ (nextStart (farForm n))^[k] 0 = 1 := by
  induction k with
  | zero => exact Or.inl rfl
  | succ k ih =>
      right
      have hsize : toSize ((nextStart (farForm n))^[k] 0) ≤ n := by
        rcases ih with h | h
        · rw [h]
          exact Nat.zero_le n
        · rw [h]
          exact hpos
      rw [Function.iterate_succ_apply', nextStart, find_farForm hsize, hn]
      rfl

theorem farForm_turns {n : Nat} (hn : toInt n = 0) (hpos : 1 ≤ n) (k : Nat)
    (post : Option HeaderMap) :
    ∃ post', (firstTurns (farForm n) k 0).foldlM (bindTurn membersJson (farForm n)) post =
      .ok post' := by
  refine turns_ok membersJson_returns _ (fun key x => ⟨_, rfl⟩) ?_
  intro t ht
  obtain ⟨start, hstart, rfl⟩ := List.mem_map.mp ht
  obtain ⟨m, -, rfl⟩ := List.mem_iterate.mp hstart
  -- neither the key nor the value has a byte
  have hstart' := start_farForm hn hpos m
  have hsize : toSize ((nextStart (farForm n))^[m] 0) ≤ n := by
    rcases hstart' with h | h
    · rw [h]
      exact Nat.zero_le n
    · rw [h]
      exact hpos
  have hnonneg : -1 ≤ (nextStart (farForm n))^[m] 0 := by
    rcases hstart' with h | h <;> rw [h] <;> decide
  refine ⟨⟨[], convert_done ?_⟩, [], convert_done ?_⟩
  · simp only [turnAt, find_equals_farForm, toInt_npos]
    exact hnonneg
  · simp only [turnAt, find_equals_farForm, toInt_npos, find_farForm hsize, hn]
    decide

/-- `ParsePost` goes round and round. -/
theorem postLoop_farForm {n : Nat} (hn : toInt n = 0) (hlong : 2 ^ 31 ≤ n) (fuel : Nat)
    (post : Option HeaderMap) : postLoop membersJson (farForm n) fuel 0 post = .error .diverges := by
  have hwraps : ¬ FormEnds (farForm n) := by
    rw [FormEnds, find_farForm hlong, hn]
    decide
  obtain ⟨post', hturns⟩ := farForm_turns hn (by omega) fuel post
  rw [postLoop_forever hwraps fuel post le_rfl (by decide), hturns]
  rfl

/-- The request behind its head. -/
def formTaken : HttpRequest (Option HeaderMap) :=
  { formStarted with
    header := ((∅ : HeaderMap).insert contentType formType).insert contentLength (ascii "1") }

/-- What `ParsePost` raises `ParseBody` raises. -/
theorem parseBody_error {k : Nat} {m : Int} {text : Bytes} {e : Fault} {q : HttpRequest J}
    (hm : stoi (q.header.access contentLength).1 = .ok m) (hle : toSize m ≤ k)
    (hpost : postValue js ((q.header.access contentLength).2.access contentType).1 text q.post =
      .error e) : parseBody js q k text = .error e := by
  rw [parseBody_eq, hm]
  simp only [if_pos hle, hpost]

theorem stream_farForm {n m : Nat} (hn : toInt n = 0) (hlong : 2 ^ 31 ≤ n) :
    stream membersJson m blankForm (formOf (farForm n ++ [NUL])) = .error .diverges := by
  have hbody : farForm n ++ [NUL] ≠ [] := by simp
  have hnul : NUL ∉ farForm n := by
    intro h
    rcases List.mem_append.mp h with h | h
    · exact absurd (List.eq_of_mem_replicate h) (by decide)
    · exact absurd (List.mem_singleton.mp h) (by decide)
  have hcstr : cstr (farForm n ++ [NUL]) = farForm n := by
    rw [show farForm n ++ [NUL] = farForm n ++ NUL :: [] from rfl, cstr_append_nul,
      cstr_eq_self hnul]
  have hlength : stoi (formTaken.header.access contentLength).1 = .ok 1 := by decide +kernel
  have htype : ((formTaken.header.access contentLength).2.access contentType).1 = formType := by
    decide +kernel
  have hform : strncasecmpEq formType (ascii "application/x-www-form-urlencoded") 33 = true := by
    decide +kernel
  have hsize : toSize 1 = 1 := by decide
  have hle : toSize 1 ≤ (farForm n ++ [NUL]).length := by
    rw [hsize]
    exact List.length_pos_iff.mpr hbody
  have hpost : postValue membersJson ((formTaken.header.access contentLength).2.access
      contentType).1 (farForm n) none = .error .diverges := by
    rw [htype, postValue, if_pos hform, postLoop_farForm hn hlong]
  have hparse : parseBody membersJson { formTaken with state := .body }
      (farForm n ++ [NUL]).length (farForm n) = .error .diverges :=
    parseBody_error hlength hle hpost
  rw [formOf, stream_line (by decide) (splitLine_eq_some.mpr ⟨rfl, by decide⟩),
    show lineStep blankForm (cstr (ascii "POST / HTTP/1.1")) = .ok (true, formStarted) from by
      decide +kernel]
  dsimp only
  rw [stream_line (by decide) (splitLine_eq_some.mpr ⟨rfl, by decide⟩),
    show lineStep formStarted (cstr (ascii "Content-Type: application/x-www-form-urlencoded")) =
      .ok (true, { formStarted with header := (∅ : HeaderMap).insert contentType formType }) from by
      decide +kernel]
  dsimp only
  rw [stream_line (by decide) (splitLine_eq_some.mpr ⟨rfl, by decide⟩),
    show lineStep { formStarted with header := (∅ : HeaderMap).insert contentType formType }
      (cstr (ascii "Content-Length: 1")) = .ok (true, formTaken) from by decide +kernel]
  dsimp only
  rw [stream_line (by decide) (splitLine_eq_some.mpr ⟨rfl, by decide⟩),
    show lineStep formTaken (cstr []) = .ok (true, { formTaken with state := .body }) from by
      decide +kernel]
  dsimp only
  rw [stream_body hbody rfl, if_pos (Or.inl (by simp)), hcstr, hparse]

/-- An accepted connection after any reads. -/
theorem reads_of_new {q₀ : HttpRequest J} (hnew : HttpRequest.new js = .ok q₀) (webRoot : Bytes)
    (reads : List Bytes) :
    ∃ c₀ c n, HttpConn.new js zeroed = .ok c₀ ∧
      (calls js webRoot c₀).run [.init 5 ⟨10, 0, 0, 7⟩ (-1) (some []), .readFromFd reads] =
        some (c, [(), ()]) ∧
      c.request = q₀ ∧ c.readBuff.Holds NUL reads.flatten n := by
  obtain ⟨b, hb, hholds⟩ := Buffer.new_holds (show 2 ≤ 2048 from by decide)
  obtain ⟨c₀, hc₀, hrequest, hbuff⟩ := new_of_request hnew hb
  rw [← hbuff] at hholds
  obtain ⟨n, hread⟩ := readFromFd_holds hholds.clear reads
  exact ⟨c₀, (c₀.init 5 ⟨10, 0, 0, 7⟩ (-1) (some [])).readFromFd reads, n, hc₀, rfl, hrequest,
    hread⟩

/-- The request in pieces: its head, `m` times `n` letters, and the end of its body. -/
def farReads (m n : Nat) : List Bytes :=
  formOf [] :: (List.replicate m (List.replicate n 97) ++ [[ampersand, NUL]])

theorem flatten_farReads (m n : Nat) :
    (farReads m n).flatten = formOf (farForm (m * n) ++ [NUL]) := by
  rw [farReads, List.flatten_cons, List.flatten_append, List.flatten_replicate_replicate]
  simp [formOf, farForm]

/-- A body of 2 ^ 32 letters, an `&` and a NUL, read in pieces of 2 ^ 16 bytes behind its head:
`ParsePost` does not end. -/
theorem parse_loop_not_ends :
    ¬ ∀ (junk : Junk) (c₀ c : HttpConn (Option HeaderMap)) (webRoot : Bytes) (ls : List ConnCall)
      (os : List Unit) (q : HttpRequest (Option HeaderMap)),
      HttpConn.new membersJson junk = .ok c₀ → (∀ call ∈ ls, StaticCalls call) →
      (calls membersJson webRoot c₀).run ls = some (c, os) →
      nextRequest membersJson c.request = .ok q → LoopEnds membersJson q c.readBuff := by
  intro h
  obtain ⟨c₀, c, n, hnew, hrun, hrequest, hholds⟩ := reads_of_new
    (show HttpRequest.new membersJson = .ok blankForm from rfl) [] (farReads 65536 65536)
  have hstatic : ∀ call ∈ [ConnCall.init 5 ⟨10, 0, 0, 7⟩ (-1) (some []),
      .readFromFd (farReads 65536 65536)], StaticCalls call := by
    intro call hcall
    rcases List.mem_pair.mp hcall with rfl | rfl <;> exact trivial
  have hnext : nextRequest membersJson c.request = .ok blankForm := by
    rw [hrequest]
    rfl
  have hends := h zeroed c₀ c [] _ _ blankForm hnew hstatic hrun hnext
  rw [flatten_farReads] at hholds
  have hparse := parse_stream membersJson blankForm hholds (fun hcr => absurd hcr (by decide))
    (formOf_ne_nil _)
  rw [stream_farForm (by decide) (by decide)] at hparse
  rcases hends.ends with ⟨r, hr⟩ | ⟨-, -, e, hleaves, -, he⟩
  · exact absurd (hr.symm.trans hparse) (by simp)
  · have hdiverges : e = .diverges := Except.error.inj (he.symm.trans hparse)
    exact Fault.leaves_iff.mp hleaves hdiverges

end HttpConn

end WhiteWebServer
