import WhiteWebServer.Forwarding

/-!
# Where the parser stands

`Parse` takes one line in each turn of its loop, and its C-string reads all
start at the read position it has then. `stands` lists these positions for any
buffer, also one left behind by a rejected line or by a body that ends in a CR.
-/

namespace WhiteWebServer

/-- The spare bytes are zero and the indices are in order. -/
def Buffer.Stored (b : Buffer) : Prop := ∃ g u n, b.Holds g u n

theorem Buffer.Holds.readableBytes_ne {b : Buffer} {g : Byte} {u : Bytes} {n : Nat}
    (h : b.Holds g u n) (hu : u ≠ []) : b.readableBytes ≠ 0 := by
  rw [h.readableBytes]
  exact fun hzero => hu (List.length_eq_zero_iff.mp hzero)

namespace HttpRequest

variable {J : Type} {js : JsonCpp J} {q q' : HttpRequest J} {b b' : Buffer} {g : Byte} {u : Bytes}
  {n : Nat}

/-! ## `ParseLine` on any buffer -/

/-- A line that the scan finds: up to the first CR LF, or to an LF behind the CR
that is before the bytes. -/
theorem scanLine_ok : ∀ {u : Bytes} {prev : Byte} {i lineLen k : Nat} {nuls : List Nat},
    scanLine prev i lineLen u = (.lineOk, k, nuls) →
    (∃ x y, u = x ++ CR :: LF :: y ∧ LF ∉ x ∧ k = lineLen + x.length + 2 ∧
      nuls = [i + x.length, i + x.length + 1]) ∨
    (prev = CR ∧ ∃ y, u = LF :: y ∧ k = lineLen + 2 ∧ nuls = [i, i - 1]) := by
  intro u
  induction u with
  | nil =>
      intro prev i lineLen k nuls h
      cases h
  | cons c rest ih =>
      intro prev i lineLen k nuls h
      have hlater : c ≠ LF → scanLine c (i + 1) (lineLen + 1) rest = (.lineOk, k, nuls) →
          (c = CR → rest.head? ≠ some LF) →
          ∃ x y, c :: rest = x ++ CR :: LF :: y ∧ LF ∉ x ∧ k = lineLen + x.length + 2 ∧
            nuls = [i + x.length, i + x.length + 1] := by
        intro hlf hscan hcr
        rcases ih hscan with ⟨x, y, rfl, hx, rfl, rfl⟩ | ⟨hc, y, rfl, -, -⟩
        · refine ⟨c :: x, y, rfl, ?_, ?_, ?_⟩
          · rw [List.mem_cons, not_or]
            exact ⟨hlf.symm, hx⟩
          · rw [List.length_cons]
            omega
          · rw [List.length_cons]
            congr 1
            · omega
            · congr 1
              omega
        · exact absurd rfl (hcr hc)
      rw [scanLine.eq_def] at h
      simp only at h
      by_cases hcr : c = CR
      · rw [if_pos hcr] at h
        cases rest with
        | nil => cases h
        | cons d tail =>
            by_cases hd : d = LF
            · simp only [if_pos hd, Prod.mk.injEq, true_and] at h
              obtain ⟨rfl, rfl⟩ := h
              exact Or.inl ⟨[], tail, by rw [hcr, hd]; rfl, List.not_mem_nil, rfl, rfl⟩
            · simp only [if_neg hd] at h
              refine Or.inl (hlater (by rw [hcr]; exact lf_ne_cr.symm) h fun _ hhead => ?_)
              exact hd (Option.some.inj hhead)
      · rw [if_neg hcr] at h
        by_cases hlf : c = LF
        · rw [if_pos hlf] at h
          by_cases hprev : prev = CR
          · simp only [if_pos hprev, Prod.mk.injEq, true_and] at h
            obtain ⟨rfl, rfl⟩ := h
            exact Or.inr ⟨hprev, rest, by rw [hlf], rfl, rfl⟩
          · simp [if_neg hprev] at h
        · rw [if_neg hlf] at h
          exact Or.inl (hlater hlf h fun hc => absurd hc hcr)

/-- A NUL over the byte before the read position. -/
theorem holds_putNul_before (h : b.Holds g u n) : (putNuls b [b.readIdx - 1]).Holds NUL u n := by
  obtain ⟨pre, hc, hr, hw⟩ := h
  refine ⟨pre, ?_, hr, hw⟩
  show b.bufferContainer.set (b.readIdx - 1) NUL = _
  rw [hc, hr, Nat.add_sub_cancel, List.append_assoc, List.set_append_right _ _ (le_refl _)]
  simp

/-- What `ParseLine` leaves of a buffer when it has a line of `len` bytes. -/
structure Cut (g : Byte) (u : Bytes) (n len : Nat) (b' : Buffer) : Prop where
  line : ∃ g' u', b'.Holds g' u' n ∧ u'.length = u.length ∧ NUL ∈ u' ∧ LF ∉ cstr u' ∧
    (cstr u').length + 2 ≤ len ∧
      (len ≤ u.length ∧ u'.drop len = u.drop len ∨ u = [LF] ∧ u' = [NUL])

theorem parseLine_cut {len : Nat} (h : b.Holds g u n) (hq : q.state ≠ .body)
    (hline : parseLine q b = (.lineOk, len, b')) : Cut g u n len b' := by
  rw [parseLine, if_neg hq, h.guardByte, h.readable] at hline
  cases hscan : scanLine g b.readIdx 0 u with
  | mk status r =>
      obtain ⟨k, nuls⟩ := r
      simp only [Option.getD_some, hscan, Prod.mk.injEq] at hline
      obtain ⟨rfl, rfl, rfl⟩ := hline
      rcases scanLine_ok hscan with ⟨x, y, rfl, hx, rfl, rfl⟩ | ⟨rfl, y, rfl, rfl, rfl⟩
      · have h₁ := holds_putNul h
        rw [show x ++ NUL :: LF :: y = (x ++ [NUL]) ++ LF :: y from by simp] at h₁
        have h₂ := holds_putNul h₁
        rw [List.length_append, List.length_singleton, putNuls_readIdx, ← Nat.add_assoc] at h₂
        refine ⟨g, (x ++ [NUL]) ++ NUL :: y, ?_, by simp, by simp, ?_, ?_, Or.inl ⟨by simp, ?_⟩⟩
        · rw [putNuls_cons]
          exact h₂
        · rw [List.append_assoc, List.singleton_append, cstr_append_nul]
          exact fun hlf => hx ((List.takeWhile_prefix _).subset hlf)
        · have hle : (cstr x).length ≤ x.length := (List.takeWhile_prefix _).length_le
          rw [List.append_assoc, List.singleton_append, cstr_append_nul]
          omega
        · rw [Nat.zero_add, List.append_assoc, List.drop_append, List.drop_append]
          simp
      · have h₁ := @holds_putNul b CR n [] y LF h
        have h₂ := holds_putNul_before h₁
        rw [putNuls_readIdx] at h₂
        refine ⟨NUL, NUL :: y, ?_, by simp, by simp, by simp [cstr], by simp [cstr], ?_⟩
        · rw [putNuls_cons]
          exact h₂
        · cases y with
          | nil => exact Or.inr ⟨rfl, rfl⟩
          | cons d y => exact Or.inl ⟨by simp, rfl⟩

theorem parseLine_open {status : LineStatus} {len : Nat} (hq : q.state ≠ .body)
    (hstatus : status ≠ .lineOk) (hline : parseLine q b = (status, len, b')) : b' = b := by
  have hnuls : ∀ (u : Bytes) (prev : Byte) (i lineLen : Nat),
      (scanLine prev i lineLen u).1 ≠ .lineOk → (scanLine prev i lineLen u).2.2 = [] := by
    intro u
    induction u with
    | nil => exact fun _ _ _ _ => rfl
    | cons c rest ih =>
        intro prev i lineLen
        rw [scanLine.eq_def]
        simp only
        split
        · split
          · exact fun _ => rfl
          · split
            · exact fun hne => absurd rfl hne
            · exact ih _ _ _
        · split
          · split
            · exact fun hne => absurd rfl hne
            · exact fun _ => rfl
          · exact ih _ _ _
  rw [parseLine, if_neg hq] at hline
  simp only [Prod.mk.injEq] at hline
  obtain ⟨rfl, -, rfl⟩ := hline
  rw [hnuls _ _ _ _ hstatus, putNuls_nil]

/-- A line parser writes its NULs in front of the NUL that ends its line. -/
theorem parseStateLine_keeps {line : Bytes} {ok : Bool} (h : b.Holds g u n)
    (hlen : line.length ≤ u.length) (hstep : parseStateLine q b line = .ok (ok, q', b')) :
    ∃ u', b'.Holds g u' n ∧ u'.length = u.length ∧ u'.drop line.length = u.drop line.length := by
  have hput : ∀ nuls : List Nat, (∀ i ∈ nuls, i < line.length) →
      ∃ u', (putNuls b (nuls.map (b.readIdx + ·))).Holds g u' n ∧ u'.length = u.length ∧
        u'.drop line.length = u.drop line.length := by
    intro nuls hlt
    rw [← List.take_append_drop line.length u] at h
    obtain ⟨x', hx', hh⟩ := holds_putNuls h fun i hi => by
      rw [List.length_take_of_le hlen]
      exact hlt i hi
    rw [List.length_take_of_le hlen] at hx'
    refine ⟨x' ++ u.drop line.length, hh, by simp [hx']; omega, ?_⟩
    rw [← hx', List.drop_left]
  unfold parseStateLine at hstep
  cases hst : q.state with
  | requestLine =>
      simp only [hst] at hstep
      cases hp : parseRequestLine q line with
      | error e => simp [hp] at hstep
      | ok r =>
          obtain ⟨ok', q₁, nuls⟩ := r
          simp only [hp, Except.ok.injEq, Prod.mk.injEq] at hstep
          obtain ⟨-, -, rfl⟩ := hstep
          exact hput nuls (parseRequestLine_nuls_lt hp)
  | headers =>
      simp only [hst, Except.ok.injEq, Prod.mk.injEq] at hstep
      obtain ⟨-, -, rfl⟩ := hstep
      exact hput _ (parseHeader_nuls_lt q line)
  | body =>
      simp only [hst, Except.ok.injEq, Prod.mk.injEq] at hstep
      obtain ⟨-, -, rfl⟩ := hstep
      exact ⟨u, h, rfl, rfl⟩
  | finish =>
      simp only [hst, Except.ok.injEq, Prod.mk.injEq] at hstep
      obtain ⟨-, -, rfl⟩ := hstep
      exact ⟨u, h, rfl, rfl⟩

/-! ## The turns of the loop -/

/-- What a turn of the loop comes to. -/
inductive Turn (J : Type) where
  | answers (code : HttpCode) (q : HttpRequest J) (b : Buffer)
  | raises (e : Fault)
  | goesOn (q : HttpRequest J) (b : Buffer)

def turn (js : JsonCpp J) (q : HttpRequest J) (b : Buffer) : Turn J :=
  match parseLine q b with
  | (.lineOk, len, b) =>
      match readCstring b with
      | .error e => .raises e
      | .ok line =>
          if q.state = .body then
            match parseBody js q b.readableBytes line with
            | .error e => .raises e
            | .ok (false, q) => .answers .noRequest q b
            | .ok (true, q) => .goesOn q (b.retrieve len)
          else
            match parseStateLine q b line with
            | .error e => .raises e
            | .ok (false, q, b) => .answers .badRequest { q with state := .finish } b
            | .ok (true, q, b) => .goesOn q (b.retrieve len)
  | (_, _, b) => .answers .noRequest q b

theorem parseLoop_succ (js : JsonCpp J) (fuel : Nat) (q : HttpRequest J) {b : Buffer}
    (h : b.readableBytes ≠ 0) :
    parseLoop js (fuel + 1) q b =
      match turn js q b with
      | .answers code q b => .ok (code, q, b)
      | .raises e => .error e
      | .goesOn q b => parseLoop js fuel q b := by
  rw [parseLoop, if_neg h]
  unfold turn
  rcases parseLine q b with ⟨status, len, b₁⟩
  cases status with
  | lineOk =>
      simp only
      cases readCstring b₁ with
      | error e => rfl
      | ok line =>
          simp only
          split
          · rcases parseBody js q b₁.readableBytes line with e | ⟨ok, q₁⟩
            · rfl
            · cases ok <;> rfl
          · rcases parseStateLine q b₁ line with e | ⟨ok, q₁, b₂⟩
            · rfl
            · cases ok <;> rfl
  | lineBad => rfl
  | lineOpen => rfl

/-- Where the loop stands at the start of each turn. -/
def stands (js : JsonCpp J) : Nat → HttpRequest J → Buffer → List (HttpRequest J × Buffer)
  | 0, _, _ => []
  | fuel + 1, q, b =>
      if b.readableBytes = 0 then []
      else (q, b) ::
        match turn js q b with
        | .goesOn q b => stands js fuel q b
        | _ => []

/-- The turns of one call of `Parse`. -/
def standsOf (js : JsonCpp J) (q : HttpRequest J) (b : Buffer) : List (HttpRequest J × Buffer) :=
  stands js (b.readableBytes + 1) q b

/-- What is left to read when a turn goes on: a part of what was, or one NUL where
an LF stood behind a CR that was read before. -/
inductive Rest (q' : HttpRequest J) (u : Bytes) : Bytes → Prop
  | dropped {u' : Bytes} (hsuf : u' <:+ u) (hlt : u'.length < u.length) : Rest q' u u'
  | stuck (hlen : u.length = 1) (hstate : ¬ InHead q') : Rest q' u [NUL]

/-- The empty line ends a head. -/
theorem parseStateLine_nil {ok : Bool} (hq : q.state ≠ .body)
    (hstep : parseStateLine q b [] = .ok (ok, q', b')) :
    b' = b ∧ (ok = true → ¬ InHead q') := by
  have hnot : ∀ {q : HttpRequest J}, q.state = .body ∨ q.state = .finish → ¬ InHead q := by
    rintro q (hs | hs) (hi | hi) <;> rw [hs] at hi <;> cases hi
  unfold parseStateLine at hstep
  cases hst : q.state with
  | requestLine =>
      simp only [hst, parseRequestLine, strpbrk, List.findIdx?_nil, Except.ok.injEq,
        Prod.mk.injEq, List.map_nil, putNuls_nil] at hstep
      obtain ⟨rfl, -, rfl⟩ := hstep
      exact ⟨rfl, fun h => by cases h⟩
  | headers =>
      simp only [hst, parseHeader, if_true, Except.ok.injEq, Prod.mk.injEq, List.map_nil,
        putNuls_nil] at hstep
      obtain ⟨rfl, rfl, rfl⟩ := hstep
      refine ⟨rfl, fun _ => hnot ?_⟩
      simp only
      split
      · exact Or.inl rfl
      · exact Or.inr rfl
  | body => exact absurd hst hq
  | finish =>
      simp only [hst, Except.ok.injEq, Prod.mk.injEq] at hstep
      obtain ⟨-, rfl, rfl⟩ := hstep
      exact ⟨rfl, fun _ => hnot (Or.inr hst)⟩

theorem turn_body (h : b.Holds g u n) (hq : q.state = .body) :
    turn js q b =
      if NUL ∈ u ∨ 0 < n then
        match parseBody js q u.length (cstr u) with
        | .error e => .raises e
        | .ok (false, q) => .answers .noRequest q b
        | .ok (true, q) => .goesOn q (b.retrieve u.length)
      else .raises .outOfBounds := by
  unfold turn parseLine
  rw [if_pos hq]
  dsimp only
  rw [readCstring_eq h, h.readableBytes]
  by_cases hn : NUL ∈ u ∨ 0 < n
  · rw [if_pos hn, if_pos hn]
    simp only [if_pos hq]
  · rw [if_neg hn, if_neg hn]

variable (js) in
/-- An accepted line leaves a NUL before what is behind it. -/
theorem turn_line {line rest : Bytes} (h : b.Holds g u n) (hg : g = CR → u.head? ≠ some LF)
    (hq : q.state ≠ .body) (hs : splitLine u = some (line, rest))
    (hstep : lineStep q (cstr line) = .ok (true, q')) :
    ∃ b', turn js q b = .goesOn q' b' ∧ b'.Holds NUL rest n := by
  obtain ⟨b₁, hline, h₁⟩ := parseLine_some h hg hq hs
  have hread : readCstring b₁ = .ok (cstr line) := by
    rw [readCstring_eq h₁, if_pos (Or.inl (by simp)), cstr_append_nul]
  have hparse := parseStateLine_lineStep h₁ hq
  rw [hstep] at hparse
  obtain ⟨b₂, line', hlen, hparse, h₂⟩ := hparse
  rw [show line' ++ NUL :: NUL :: rest = (line' ++ [NUL] ++ [NUL]) ++ rest from by simp] at h₂
  have h₃ := h₂.retrieve
  rw [List.getLastD_concat] at h₃
  simp only [List.length_append, List.length_cons, List.length_nil, hlen] at h₃
  refine ⟨_, ?_, h₃⟩
  unfold turn
  rw [hline]
  simp only [hread, if_neg hq, hparse]

theorem turn_goesOn (h : b.Holds g u n) (hu : u ≠ []) (hturn : turn js q b = .goesOn q' b') :
    ∃ g' u', b'.Holds g' u' n ∧ Rest q' u u' := by
  by_cases hq : q.state = .body
  · -- the body takes everything
    rw [turn_body h hq] at hturn
    split at hturn
    · split at hturn
      · cases hturn
      · cases hturn
      · rename_i q₁ hbody
        simp only [Turn.goesOn.injEq] at hturn
        obtain ⟨-, rfl⟩ := hturn
        rw [← List.append_nil u] at h
        exact ⟨_, [], h.retrieve, Rest.dropped (List.nil_suffix) (List.length_pos_iff.mpr hu)⟩
    · cases hturn
  · unfold turn at hturn
    cases hline : parseLine q b with
    | mk status r =>
        obtain ⟨len, b₁⟩ := r
        cases status with
        | lineBad => simp [hline] at hturn
        | lineOpen => simp [hline] at hturn
        | lineOk =>
            obtain ⟨g', u', h₁, hlen, hnul, -, hle, hcut⟩ := parseLine_cut h hq hline
            simp only [hline, readCstring_eq h₁, if_pos (Or.inl hnul : NUL ∈ u' ∨ 0 < n),
              if_neg hq] at hturn
            have hcstr : (cstr u').length ≤ u'.length := (List.takeWhile_prefix _).length_le
            cases hstep : parseStateLine q b₁ (cstr u') with
            | error e => simp [hstep] at hturn
            | ok r =>
                obtain ⟨ok, q₁, b₂⟩ := r
                cases ok with
                | false => simp [hstep] at hturn
                | true =>
                    simp only [hstep, Turn.goesOn.injEq] at hturn
                    obtain ⟨rfl, rfl⟩ := hturn
                    rcases hcut with ⟨hin, hdrop⟩ | ⟨rfl, rfl⟩
                    · obtain ⟨u₂, h₂, hlen₂, hdrop₂⟩ := parseStateLine_keeps h₁ hcstr hstep
                      have hrest : u₂.drop len = u.drop len := by
                        rw [← hdrop, show len = (cstr u').length + (len - (cstr u').length) from by
                          omega, ← List.drop_drop, hdrop₂, List.drop_drop]
                      rw [← List.take_append_drop len u₂] at h₂
                      have htake : (u₂.take len).length = len :=
                        List.length_take_of_le (by omega)
                      have hret := h₂.retrieve
                      rw [htake, hrest] at hret
                      refine ⟨_, _, hret, Rest.dropped (List.drop_suffix _ _) ?_⟩
                      rw [List.length_drop]
                      omega
                    · obtain ⟨rfl, hstate⟩ := parseStateLine_nil hq hstep
                      rw [Buffer.retrieve_of_gt h₁ (by simp; omega)]
                      exact ⟨g', _, h₁, Rest.stuck rfl (hstate rfl)⟩

/-! ## The whole loop -/

/-- As many turns as the loop can take. -/
def Enough (fuel : Nat) (q : HttpRequest J) (u : Bytes) : Prop :=
  u.length < fuel ∨ u = [] ∨ u = [NUL] ∧ ¬ InHead q ∧ 0 < fuel

theorem turn_nul (h : b.Holds g [NUL] n) (hturn : turn js q b = .goesOn q' b') :
    ∃ g', b'.Holds g' [] n := by
  by_cases hbody : q.state = .body
  · rw [turn_body h hbody, if_pos (Or.inl (by simp))] at hturn
    split at hturn
    · cases hturn
    · cases hturn
    · simp only [Turn.goesOn.injEq] at hturn
      obtain ⟨-, rfl⟩ := hturn
      exact ⟨_, Buffer.Holds.retrieve (p := [NUL]) (r := []) h⟩
  · have hline : parseLine q b = (.lineOpen, 0, b) := by
      rw [parseLine, if_neg hbody, h.readable]
      rfl
    simp [turn, hline] at hturn

/-- Induction along the turns of the loop. -/
theorem parseLoop_induct (js : JsonCpp J) {M : Nat → HttpRequest J → Buffer → Bytes → Prop}
    (done : ∀ {fuel q b g}, b.Holds g [] n → M fuel q b [])
    (answers : ∀ {fuel q b g u code q' b'}, b.Holds g u n → u ≠ [] →
      turn js q b = .answers code q' b' → M (fuel + 1) q b u)
    (raises : ∀ {fuel q b g u e}, b.Holds g u n → u ≠ [] → turn js q b = .raises e →
      M (fuel + 1) q b u)
    (goesOn : ∀ {fuel q b g u q' b' g' u'}, b.Holds g u n → u ≠ [] →
      turn js q b = .goesOn q' b' → b'.Holds g' u' n → Rest q' u u' → M fuel q' b' u' →
      M (fuel + 1) q b u) :
    ∀ (fuel : Nat) (q : HttpRequest J) {b : Buffer} {g : Byte} {u : Bytes}, b.Holds g u n →
      Enough fuel q u → M fuel q b u := by
  intro fuel
  induction fuel with
  | zero =>
      intro q b g u h hfuel
      rcases hfuel with hlt | rfl | ⟨-, -, hpos⟩
      · exact absurd hlt (Nat.not_lt_zero _)
      · exact done h
      · exact absurd hpos (Nat.lt_irrefl 0)
  | succ fuel ih =>
      intro q b g u h hfuel
      by_cases hu : u = []
      · subst hu
        exact done h
      cases hturn : turn js q b with
      | answers code q' b' => exact answers h hu hturn
      | raises e => exact raises h hu hturn
      | goesOn q' b' =>
          rcases hfuel with hlt | rfl | ⟨rfl, -, -⟩
          · obtain ⟨g', u', h', hrest⟩ := turn_goesOn h hu hturn
            refine goesOn h hu hturn h' hrest (ih q' h' ?_)
            cases hrest with
            | dropped hsuf hless => exact Or.inl (by omega)
            | stuck hlen hstate => exact Or.inr (Or.inr ⟨rfl, hstate, by omega⟩)
          · exact absurd rfl hu
          · obtain ⟨g', h'⟩ := turn_nul h hturn
            exact goesOn h hu hturn h' (Rest.dropped List.nil_suffix (by simp))
              (ih q' h' (Or.inr (Or.inl rfl)))

theorem stands_nil (fuel : Nat) (q : HttpRequest J) (h : b.Holds g [] n) :
    stands js fuel q b = [] := by
  cases fuel with
  | zero => rfl
  | succ fuel => rw [stands, if_pos (by rw [h.readableBytes]; rfl)]

theorem stands_cons (fuel : Nat) (q : HttpRequest J) (h : b.Holds g u n) (hu : u ≠ []) :
    stands js (fuel + 1) q b = (q, b) ::
      match turn js q b with
      | .goesOn q b => stands js fuel q b
      | _ => [] := by
  rw [stands, if_neg (h.readableBytes_ne hu)]

theorem mem_stands_self (fuel : Nat) (q : HttpRequest J) (h : b.Holds g u n) (hu : u ≠ []) :
    (q, b) ∈ stands js (fuel + 1) q b := by
  rw [stands_cons fuel q h hu]
  exact List.mem_cons_self

theorem mem_stands_later {fuel : Nat} {p : HttpRequest J × Buffer} (h : b.Holds g u n)
    (hu : u ≠ []) (hturn : turn js q b = .goesOn q' b') (hp : p ∈ stands js fuel q' b') :
    p ∈ stands js (fuel + 1) q b := by
  rw [stands_cons fuel q h hu, hturn]
  exact List.mem_cons_of_mem _ hp

/-- The loop fails where one of its turns does, and otherwise leaves a buffer that
stores its bytes as before. -/
def Traced (js : JsonCpp J) (n fuel : Nat) (q : HttpRequest J) (b : Buffer) : Prop :=
  match parseLoop js fuel q b with
  | .error e => ∃ p ∈ stands js fuel q b, turn js p.1 p.2 = .raises e
  | .ok (_, _, b') => (∀ p ∈ stands js fuel q b, ∀ e, turn js p.1 p.2 ≠ .raises e) ∧
      ∃ g' u', b'.Holds g' u' n

theorem turn_answers_holds {code : HttpCode} (h : b.Holds g u n)
    (hturn : turn js q b = .answers code q' b') : ∃ g' u', b'.Holds g' u' n := by
  by_cases hq : q.state = .body
  · rw [turn_body h hq] at hturn
    split at hturn
    · split at hturn
      · cases hturn
      · simp only [Turn.answers.injEq] at hturn
        obtain ⟨-, -, rfl⟩ := hturn
        exact ⟨g, u, h⟩
      · cases hturn
    · cases hturn
  · unfold turn at hturn
    rcases hline : parseLine q b with ⟨status, len, b₁⟩
    by_cases hstatus : status = .lineOk
    · subst hstatus
      obtain ⟨g', u', h₁, -, hnul, -, -, -⟩ := parseLine_cut h hq hline
      simp only [hline, readCstring_eq h₁, if_pos (Or.inl hnul : NUL ∈ u' ∨ 0 < n),
        if_neg hq] at hturn
      have hcstr : (cstr u').length ≤ u'.length := (List.takeWhile_prefix _).length_le
      cases hstep : parseStateLine q b₁ (cstr u') with
      | error e => simp [hstep] at hturn
      | ok r =>
          obtain ⟨ok, q₁, b₂⟩ := r
          cases ok with
          | true => simp [hstep] at hturn
          | false =>
              simp only [hstep, Turn.answers.injEq] at hturn
              obtain ⟨-, -, rfl⟩ := hturn
              obtain ⟨u₂, h₂, -, -⟩ := parseStateLine_keeps h₁ hcstr hstep
              exact ⟨g', u₂, h₂⟩
    · have hkeep := parseLine_open hq hstatus hline
      rw [hline] at hturn
      cases status with
      | lineOk => exact absurd rfl hstatus
      | lineBad =>
          simp only [Turn.answers.injEq] at hturn
          obtain ⟨-, -, rfl⟩ := hturn
          exact ⟨g, u, hkeep ▸ h⟩
      | lineOpen =>
          simp only [Turn.answers.injEq] at hturn
          obtain ⟨-, -, rfl⟩ := hturn
          exact ⟨g, u, hkeep ▸ h⟩

theorem parseLoop_traced (fuel : Nat) (q : HttpRequest J) (h : b.Holds g u n)
    (hfuel : Enough fuel q u) : Traced js n fuel q b := by
  refine parseLoop_induct js (M := fun fuel q b _ => Traced js n fuel q b) ?_ ?_ ?_ ?_ fuel q h hfuel
  case refine_1 =>
    intro fuel q b g h
    rw [Traced, parseLoop_done fuel q h.readableBytes, stands_nil fuel q h]
    exact ⟨by simp, g, [], h⟩
  case refine_2 =>
    intro fuel q b g u code q' b' h hu hturn
    rw [Traced, parseLoop_succ js fuel q (h.readableBytes_ne hu), stands_cons fuel q h hu, hturn]
    refine ⟨?_, turn_answers_holds h hturn⟩
    intro p hp e
    obtain rfl : p = (q, b) := by simpa using hp
    simp [hturn]
  case refine_3 =>
    intro fuel q b g u e h hu hturn
    rw [Traced, parseLoop_succ js fuel q (h.readableBytes_ne hu), stands_cons fuel q h hu, hturn]
    exact ⟨(q, b), by simp, hturn⟩
  case refine_4 =>
    intro fuel q b g u q' b' g' u' h hu hturn h' hrest ih
    rw [Traced, parseLoop_succ js fuel q (h.readableBytes_ne hu), stands_cons fuel q h hu, hturn]
    rw [Traced] at ih
    dsimp only
    cases hloop : parseLoop js fuel q' b' with
    | error e =>
        rw [hloop] at ih
        obtain ⟨p, hp, hraises⟩ := ih
        exact ⟨p, List.mem_cons_of_mem _ hp, hraises⟩
    | ok r =>
        rw [hloop] at ih
        refine ⟨?_, ih.2⟩
        intro p hp e
        rcases List.mem_cons.mp hp with rfl | hp
        · simp [hturn]
        · exact ih.1 p hp e

/-- How the loop ends with a turn that does not go on. -/
def Turn.ending : Turn J → Option (Except Fault (HttpCode × HttpRequest J × Buffer))
  | .answers code q b => some (.ok (code, q, b))
  | .raises e => some (.error e)
  | .goesOn _ _ => none

/-- The turn that does not go on is the end of the loop. -/
theorem parseLoop_of_stand {p : HttpRequest J × Buffer}
    {r : Except Fault (HttpCode × HttpRequest J × Buffer)}
    (hturn : (turn js p.1 p.2).ending = some r) : ∀ (fuel : Nat) {q : HttpRequest J} {b : Buffer},
    p ∈ stands js fuel q b → parseLoop js fuel q b = r := by
  intro fuel
  induction fuel with
  | zero =>
      intro q b hp
      cases hp
  | succ fuel ih =>
      intro q b hp
      rw [stands] at hp
      split at hp
      · cases hp
      · rename_i hbytes
        rw [parseLoop_succ js fuel q hbytes]
        rcases List.mem_cons.mp hp with rfl | hp
        · cases hstep : turn js q b with
          | answers code q₁ b₁ =>
              rw [hstep] at hturn
              exact Option.some.inj hturn
          | raises e =>
              rw [hstep] at hturn
              exact Option.some.inj hturn
          | goesOn q₁ b₁ =>
              rw [hstep] at hturn
              cases hturn
        · cases hstep : turn js q b with
          | answers code q₁ b₁ =>
              rw [hstep] at hp
              cases hp
          | raises e =>
              rw [hstep] at hp
              cases hp
          | goesOn q₁ b₁ =>
              rw [hstep] at hp
              exact ih hp

/-- A rejection is the answer of a turn. -/
theorem parseLoop_badRequest (fuel : Nat) (q : HttpRequest J) (h : b.Holds g u n)
    (hfuel : Enough fuel q u) (hloop : parseLoop js fuel q b = .ok (.badRequest, q', b')) :
    ∃ p ∈ stands js fuel q b, turn js p.1 p.2 = .answers .badRequest q' b' := by
  revert hloop
  refine parseLoop_induct js (M := fun fuel q b _ =>
    parseLoop js fuel q b = .ok (.badRequest, q', b') →
      ∃ p ∈ stands js fuel q b, turn js p.1 p.2 = .answers .badRequest q' b')
    ?_ ?_ ?_ ?_ fuel q h hfuel
  case refine_1 =>
    intro fuel q b g h hloop
    rw [parseLoop_done fuel q h.readableBytes] at hloop
    split at hloop <;> cases hloop
  case refine_2 =>
    intro fuel q b g u code₁ q₁ b₁ h hu hturn hloop
    rw [parseLoop_succ js fuel q (h.readableBytes_ne hu), hturn] at hloop
    simp only [Except.ok.injEq, Prod.mk.injEq] at hloop
    obtain ⟨rfl, rfl, rfl⟩ := hloop
    exact ⟨(q, b), mem_stands_self fuel q h hu, hturn⟩
  case refine_3 =>
    intro fuel q b g u e h hu hturn hloop
    rw [parseLoop_succ js fuel q (h.readableBytes_ne hu), hturn] at hloop
    cases hloop
  case refine_4 =>
    intro fuel q b g u q₁ b₁ g₁ u₁ h hu hturn h₁ hrest ih hloop
    rw [parseLoop_succ js fuel q (h.readableBytes_ne hu), hturn] at hloop
    obtain ⟨p, hp, hbad⟩ := ih hloop
    exact ⟨p, mem_stands_later h hu hturn hp, hbad⟩

/-- Every turn finds a part of the unread bytes, or the one NUL. -/
theorem stands_part (fuel : Nat) (q : HttpRequest J) (h : b.Holds g u n)
    (hfuel : Enough fuel q u) {p : HttpRequest J × Buffer} (hp : p ∈ stands js fuel q b) :
    ∃ g' u', p.2.Holds g' u' n ∧ u' ≠ [] ∧ (u' <:+ u ∨ u' = [NUL]) := by
  revert p
  refine parseLoop_induct js (M := fun fuel q b u => ∀ {p}, p ∈ stands js fuel q b →
    ∃ g' u', p.2.Holds g' u' n ∧ u' ≠ [] ∧ (u' <:+ u ∨ u' = [NUL])) ?_ ?_ ?_ ?_ fuel q h hfuel
  case refine_1 =>
    intro fuel q b g h p hp
    rw [stands_nil fuel q h] at hp
    cases hp
  case refine_2 =>
    intro fuel q b g u code q' b' h hu hturn p hp
    rw [stands_cons fuel q h hu, hturn] at hp
    obtain rfl : p = (q, b) := by simpa using hp
    exact ⟨g, u, h, hu, Or.inl (List.suffix_refl u)⟩
  case refine_3 =>
    intro fuel q b g u e h hu hturn p hp
    rw [stands_cons fuel q h hu, hturn] at hp
    obtain rfl : p = (q, b) := by simpa using hp
    exact ⟨g, u, h, hu, Or.inl (List.suffix_refl u)⟩
  case refine_4 =>
    intro fuel q b g u q' b' g' u' h hu hturn h' hrest ih p hp
    rw [stands_cons fuel q h hu, hturn] at hp
    rcases List.mem_cons.mp hp with rfl | hp
    · exact ⟨g, u, h, hu, Or.inl (List.suffix_refl u)⟩
    · obtain ⟨g₁, u₁, h₁, hu₁, hpart⟩ := ih hp
      refine ⟨g₁, u₁, h₁, hu₁, ?_⟩
      cases hrest with
      | dropped hsuf hlt => exact hpart.imp_left fun hs => hs.trans hsuf
      | stuck hlen hstate =>
          refine Or.inr (hpart.elim (fun hs => ?_) id)
          rcases List.suffix_cons_iff.mp hs with rfl | hs
          · rfl
          · exact absurd (List.suffix_nil.mp hs) hu₁

/-! ## One call of `Parse` -/

theorem parse_traced (q : HttpRequest J) (h : b.Holds g u n) :
    match parse js q b with
    | .error e => ∃ p ∈ standsOf js q b, turn js p.1 p.2 = .raises e
    | .ok (_, _, b') => (∀ p ∈ standsOf js q b, ∀ e, turn js p.1 p.2 ≠ .raises e) ∧
        ∃ g' u', b'.Holds g' u' n := by
  unfold parse standsOf
  by_cases hb : b.readableBytes = 0
  · obtain rfl : u = [] := List.length_eq_zero_iff.mp (h.readableBytes ▸ hb)
    rw [if_pos hb, stands_nil _ q h]
    exact ⟨by simp, g, [], h⟩
  · rw [if_neg hb]
    exact parseLoop_traced _ q h (Or.inl (by rw [h.readableBytes]; omega))

theorem standsOf_part (h : b.Holds g u n) {p : HttpRequest J × Buffer}
    (hp : p ∈ standsOf js q b) :
    ∃ g' u', p.2.Holds g' u' n ∧ u' ≠ [] ∧ (u' <:+ u ∨ u' = [NUL]) :=
  stands_part _ q h (Or.inl (by rw [h.readableBytes]; omega)) hp

theorem parse_of_stand {p : HttpRequest J × Buffer}
    {r : Except Fault (HttpCode × HttpRequest J × Buffer)} (hp : p ∈ standsOf js q b)
    (hturn : (turn js p.1 p.2).ending = some r) : parse js q b = r := by
  have hne : b.readableBytes ≠ 0 := by
    intro hzero
    rw [standsOf, stands, if_pos hzero] at hp
    cases hp
  rw [parse, if_neg hne]
  exact parseLoop_of_stand hturn _ hp

theorem parse_badRequest (h : b.Holds g u n) (hparse : parse js q b = .ok (.badRequest, q', b')) :
    ∃ p ∈ standsOf js q b, turn js p.1 p.2 = .answers .badRequest q' b' := by
  unfold parse at hparse
  by_cases hb : b.readableBytes = 0
  · simp [if_pos hb] at hparse
  · rw [if_neg hb] at hparse
    exact parseLoop_badRequest _ q h (Or.inl (by rw [h.readableBytes]; omega)) hparse

theorem parse_holds {code : HttpCode} (h : b.Holds g u n)
    (hparse : parse js q b = .ok (code, q', b')) : ∃ g' u', b'.Holds g' u' n := by
  have htraced := @parse_traced J js b g u n q h
  rw [hparse] at htraced
  exact htraced.2

/-- The request has no body yet, or is finished. -/
def BodyOpen (q : HttpRequest J) : Prop := q.state ≠ .finish → q.body = []

theorem parseStateLine_body {line : Bytes} {ok : Bool}
    (hstep : parseStateLine q b line = .ok (ok, q', b')) :
    q'.body = q.body ∧ (q.state = .finish → q'.state = .finish) := by
  unfold parseStateLine at hstep
  cases hst : q.state with
  | requestLine =>
      simp only [hst] at hstep
      cases hp : parseRequestLine q line with
      | error e => simp [hp] at hstep
      | ok r =>
          obtain ⟨ok', q₁, nuls⟩ := r
          simp only [hp, Except.ok.injEq, Prod.mk.injEq] at hstep
          obtain ⟨-, rfl, -⟩ := hstep
          refine ⟨?_, fun hfinish => by cases hfinish⟩
          unfold parseRequestLine at hp
          split at hp
          · simp only [Except.ok.injEq, Prod.mk.injEq] at hp
            rw [← hp.2.1]
          · split at hp
            · simp only [Except.ok.injEq, Prod.mk.injEq] at hp
              rw [← hp.2.1]
            · simp only at hp
              split at hp
              · simp only [Except.ok.injEq, Prod.mk.injEq] at hp
                rw [← hp.2.1]
              · split at hp
                · simp only [Except.ok.injEq, Prod.mk.injEq] at hp
                  rw [← hp.2.1]
                · split at hp
                  · cases hp
                  · simp only [Except.ok.injEq, Prod.mk.injEq] at hp
                    rw [← hp.2.1]
                  · simp only [Except.ok.injEq, Prod.mk.injEq] at hp
                    rw [← hp.2.1]
  | headers =>
      simp only [hst, Except.ok.injEq, Prod.mk.injEq] at hstep
      obtain ⟨-, rfl, -⟩ := hstep
      refine ⟨?_, fun hfinish => by cases hfinish⟩
      unfold parseHeader
      split
      · rfl
      · split <;> rfl
  | body =>
      simp only [hst, Except.ok.injEq, Prod.mk.injEq] at hstep
      rw [← hstep.2.1]
      exact ⟨rfl, fun hfinish => by cases hfinish⟩
  | finish =>
      simp only [hst, Except.ok.injEq, Prod.mk.injEq] at hstep
      rw [← hstep.2.1]
      exact ⟨rfl, fun _ => hst⟩

/-- `ParseBody` without the binds: the length the header announces, and the body
when all of it is there. -/
theorem parseBody_eq (js : JsonCpp J) (q : HttpRequest J) (readable : Nat) (text : Bytes) :
    parseBody js q readable text =
      match stoi (q.header.access contentLength).1 with
      | .error e => .error e
      | .ok m =>
          if toSize m ≤ readable then
            match postValue js ((q.header.access contentLength).2.access contentType).1 text q.post with
            | .error e => .error e
            | .ok post => .ok (true, { q with
                header := ((q.header.access contentLength).2.access contentType).2
                body := text, post := post, state := .finish })
          else .ok (false, { q with header := (q.header.access contentLength).2 }) := by
  unfold parseBody
  cases hm : stoi (q.header.access contentLength).1 with
  | error e => simp [hm, bind, Except.bind]
  | ok m =>
      simp only [hm, bind, Except.bind, pure, Except.pure, parsePost_eq]
      split
      · cases hv : postValue js ((q.header.access contentLength).2.access contentType).1 text
            q.post with
        | error e => rfl
        | ok post => rfl
      · rfl

/-- A turn leaves `body_` alone or makes it the C string it stands at. -/
theorem turn_goesOn_body (h : b.Holds g u n) (hturn : turn js q b = .goesOn q' b') :
    q'.body = q.body ∧ (q.state = .finish → q'.state = .finish) ∨
      q'.body = cstr u ∧ q'.state = .finish := by
  by_cases hq : q.state = .body
  · rw [turn_body h hq] at hturn
    split at hturn
    · split at hturn
      · cases hturn
      · cases hturn
      · rename_i q₁ hbody
        simp only [Turn.goesOn.injEq] at hturn
        obtain ⟨rfl, -⟩ := hturn
        rw [parseBody_eq] at hbody
        split at hbody
        · cases hbody
        · split at hbody
          · split at hbody
            · cases hbody
            · simp only [Except.ok.injEq, Prod.mk.injEq, true_and] at hbody
              exact Or.inr (by rw [← hbody]; exact ⟨rfl, rfl⟩)
          · simp at hbody
    · cases hturn
  · unfold turn at hturn
    rcases hline : parseLine q b with ⟨status, len, b₁⟩
    cases status with
    | lineBad => simp [hline] at hturn
    | lineOpen => simp [hline] at hturn
    | lineOk =>
        cases hread : readCstring b₁ with
        | error e => simp [hline, hread] at hturn
        | ok line =>
            cases hstep : parseStateLine q b₁ line with
            | error e => simp [hline, hread, hq, hstep] at hturn
            | ok r =>
                obtain ⟨ok, q₁, b₂⟩ := r
                cases ok with
                | false => simp [hline, hread, hq, hstep] at hturn
                | true =>
                    simp only [hline, hread, if_neg hq, hstep, Turn.goesOn.injEq] at hturn
                    obtain ⟨rfl, -⟩ := hturn
                    exact Or.inl (parseStateLine_body hstep)

theorem turn_answers_body {code : HttpCode} (h : b.Holds g u n)
    (hturn : turn js q b = .answers code q' b') :
    q'.body = q.body ∧ (q.state = .finish → q'.state = .finish) := by
  by_cases hq : q.state = .body
  · rw [turn_body h hq] at hturn
    split at hturn
    · split at hturn
      · cases hturn
      · rename_i q₁ hbody
        simp only [Turn.answers.injEq] at hturn
        obtain ⟨-, rfl, -⟩ := hturn
        rw [parseBody_eq] at hbody
        split at hbody
        · cases hbody
        · split at hbody
          · split at hbody
            · cases hbody
            · simp at hbody
          · simp only [Except.ok.injEq, Prod.mk.injEq, true_and] at hbody
            rw [← hbody]
            exact ⟨rfl, id⟩
      · cases hturn
    · cases hturn
  · unfold turn at hturn
    rcases hline : parseLine q b with ⟨status, len, b₁⟩
    cases status with
    | lineBad =>
        simp only [hline, Turn.answers.injEq] at hturn
        rw [← hturn.2.1]
        exact ⟨rfl, id⟩
    | lineOpen =>
        simp only [hline, Turn.answers.injEq] at hturn
        rw [← hturn.2.1]
        exact ⟨rfl, id⟩
    | lineOk =>
        cases hread : readCstring b₁ with
        | error e => simp [hline, hread] at hturn
        | ok line =>
            cases hstep : parseStateLine q b₁ line with
            | error e => simp [hline, hread, hq, hstep] at hturn
            | ok r =>
                obtain ⟨ok, q₁, b₂⟩ := r
                cases ok with
                | true => simp [hline, hread, hq, hstep] at hturn
                | false =>
                    simp only [hline, hread, if_neg hq, hstep, Turn.answers.injEq] at hturn
                    obtain ⟨-, rfl, -⟩ := hturn
                    exact ⟨(parseStateLine_body hstep).1, fun _ => rfl⟩

theorem isInfix_cstr (u : Bytes) : cstr u <:+: u := (List.takeWhile_prefix _).isInfix

theorem parseLoop_body (fuel : Nat) (q : HttpRequest J) (h : b.Holds g u n)
    (hfuel : Enough fuel q u) {code : HttpCode} {q' : HttpRequest J} {b' : Buffer}
    (hloop : parseLoop js fuel q b = .ok (code, q', b')) (hopen : BodyOpen q) :
    BodyOpen q' ∧ (q'.body = q.body ∨ q'.body <:+: u ∧ NUL ∉ q'.body) := by
  revert code q' b' hopen
  refine parseLoop_induct js (M := fun fuel q b u => ∀ {code q' b'},
    parseLoop js fuel q b = .ok (code, q', b') → BodyOpen q →
      BodyOpen q' ∧ (q'.body = q.body ∨ q'.body <:+: u ∧ NUL ∉ q'.body)) ?_ ?_ ?_ ?_ fuel q h hfuel
  case refine_1 =>
    intro fuel q b g h code q' b' hloop hopen
    rw [parseLoop_done fuel q h.readableBytes] at hloop
    simp only [Except.ok.injEq, Prod.mk.injEq] at hloop
    obtain ⟨-, rfl, -⟩ := hloop
    exact ⟨hopen, Or.inl rfl⟩
  case refine_2 =>
    intro fuel q b g u code q₁ b₁ h hu hturn code' q' b' hloop hopen
    rw [parseLoop_succ js fuel q (h.readableBytes_ne hu), hturn] at hloop
    simp only [Except.ok.injEq, Prod.mk.injEq] at hloop
    obtain ⟨-, rfl, -⟩ := hloop
    obtain ⟨hbody, hfinish⟩ := turn_answers_body h hturn
    exact ⟨fun hne => hbody.trans (hopen fun hq => hne (hfinish hq)), Or.inl hbody⟩
  case refine_3 =>
    intro fuel q b g u e h hu hturn code' q' b' hloop hopen
    rw [parseLoop_succ js fuel q (h.readableBytes_ne hu), hturn] at hloop
    cases hloop
  case refine_4 =>
    intro fuel q b g u q₁ b₁ g₁ u₁ h hu hturn h₁ hrest ih code' q' b' hloop hopen
    rw [parseLoop_succ js fuel q (h.readableBytes_ne hu), hturn] at hloop
    have hbody := turn_goesOn_body h hturn
    have hopen₁ : BodyOpen q₁ := by
      intro hne
      rcases hbody with ⟨heq, hfinish⟩ | ⟨-, hq₁⟩
      · rw [heq]
        exact hopen fun hq => hne (hfinish hq)
      · exact absurd hq₁ hne
    obtain ⟨hopen', heq | ⟨hinside, hnul⟩⟩ := ih hloop hopen₁
    · refine ⟨hopen', ?_⟩
      rw [heq]
      refine hbody.imp And.left fun hbody => ?_
      rw [hbody.1]
      exact ⟨isInfix_cstr u, nul_notMem_cstr u⟩
    · refine ⟨hopen', Or.inr ⟨?_, hnul⟩⟩
      cases hrest with
      | dropped hsuf hlt => exact hinside.trans hsuf.isInfix
      | stuck hlen hstate =>
          -- what is in `[NUL]` and has no NUL is empty
          have hempty : q'.body = [] := List.eq_nil_iff_forall_not_mem.mpr fun c hc => by
            obtain rfl : c = NUL := by simpa using hinside.subset hc
            exact hnul hc
          rw [hempty]
          exact List.nil_infix

/-- `body_` is what it was, or bytes that were received. -/
theorem parse_body {code : HttpCode} (h : b.Holds g u n)
    (hparse : parse js q b = .ok (code, q', b')) (hopen : BodyOpen q) :
    BodyOpen q' ∧ (q'.body = q.body ∨ q'.body <:+: u ∧ NUL ∉ q'.body) := by
  unfold parse at hparse
  by_cases hb : b.readableBytes = 0
  · simp only [if_pos hb, Except.ok.injEq, Prod.mk.injEq] at hparse
    obtain ⟨-, rfl, -⟩ := hparse
    exact ⟨hopen, Or.inl rfl⟩
  · rw [if_neg hb] at hparse
    exact parseLoop_body _ q h (Or.inl (by rw [h.readableBytes]; omega)) hparse hopen

end HttpRequest

end WhiteWebServer
