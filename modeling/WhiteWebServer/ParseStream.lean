import WhiteWebServer.HttpRequest

/-!
# The parser as a function of the unread bytes

`HttpRequest.parse` works on a buffer: it scans storage, writes NULs into it
and moves an index. `stream` is what that amounts to on the unread bytes
alone. `parse_stream` says so: a parse of a buffer that holds the unread bytes
`u` and `n` spare bytes answers what `stream` answers on `u`. The spare bytes
matter in one place only: the C string a body is read as has to end.

The byte before the unread bytes must not be a CR with an LF behind it; a
parser that consumes whole lines leaves a NUL there.
-/

namespace WhiteWebServer

namespace HttpRequest

variable {J : Type}

/-! ## Lines -/

/-- The first line of `u` without its CR LF, and what follows; `none` when no
line is complete or the first LF has no CR before it. -/
def splitLine : Bytes → Option (Bytes × Bytes)
  | [] => none
  | c :: rest =>
      if c = CR ∧ rest.head? = some LF then some ([], rest.tail)
      else if c = LF then none
      else (splitLine rest).map fun r => (c :: r.1, r.2)

theorem lf_ne_cr : LF ≠ CR := by decide

theorem splitLine_eq_some : ∀ {u line rest : Bytes},
    splitLine u = some (line, rest) ↔ u = line ++ CR :: LF :: rest ∧ LF ∉ line
  | [], line, rest => by simp [splitLine]
  | c :: w, line, rest => by
      have ih := @splitLine_eq_some w
      rw [splitLine]
      by_cases hend : c = CR ∧ w.head? = some LF
      · obtain ⟨rfl, hw⟩ := hend
        rw [if_pos ⟨rfl, hw⟩]
        obtain ⟨tail, rfl⟩ : ∃ tail, w = LF :: tail := by
          cases w with
          | nil => simp at hw
          | cons d tail => exact ⟨tail, by simpa using hw⟩
        rcases line with - | ⟨a, - | ⟨a', line⟩⟩
        · simp
        · simp [lf_ne_cr]
        · -- a longer first line would contain the LF
          simp only [List.tail_cons, Option.some.injEq, Prod.mk.injEq, List.cons_append,
            List.cons.injEq]
          constructor
          · intro h
            simp at h
          · rintro ⟨⟨-, rfl, -⟩, hnot⟩
            simp at hnot
      · rw [if_neg hend]
        by_cases hlf : c = LF
        · rw [if_pos hlf]
          subst hlf
          simp only [reduceCtorEq, false_iff, not_and]
          intro h
          rcases line with - | ⟨a, line⟩
          · simp [lf_ne_cr] at h
          · simp only [List.cons_append, List.cons.injEq] at h
            simp [← h.1]
        · rw [if_neg hlf]
          simp only [Option.map_eq_some_iff, Prod.mk.injEq, Prod.exists]
          constructor
          · rintro ⟨l, r, h, rfl, rfl⟩
            obtain ⟨hu, hnot⟩ := ih.mp h
            refine ⟨by rw [hu]; rfl, ?_⟩
            simp only [List.mem_cons, not_or]
            exact ⟨fun h => hlf h.symm, hnot⟩
          · rintro ⟨h, hnot⟩
            rcases line with - | ⟨a, line⟩
            · simp only [List.nil_append, List.cons.injEq] at h
              exact absurd ⟨h.1, by simp [h.2]⟩ hend
            · simp only [List.cons_append, List.cons.injEq] at h
              simp only [List.mem_cons, not_or] at hnot
              exact ⟨line, rest, ih.mpr ⟨h.2, hnot.2⟩, by rw [h.1], rfl⟩

theorem splitLine_length {u line rest : Bytes} (h : splitLine u = some (line, rest)) :
    rest.length < u.length := by
  rw [(splitLine_eq_some.mp h).1]
  simp
  omega

/-- The scan of `ParseLine` finds the first line, unless a CR before the bytes
and an LF at their head make one. -/
theorem scanLine_eq : ∀ {u : Bytes} {prev : Byte} {i len : Nat},
    (prev = CR → u.head? ≠ some LF) →
    match splitLine u with
    | some (line, _) => scanLine prev i len u =
        (.lineOk, len + line.length + 2, [i + line.length, i + line.length + 1])
    | none => ∃ status, status ≠ .lineOk ∧ scanLine prev i len u = (status, 0, [])
  | [], prev, i, len, _ => ⟨.lineOpen, by simp, rfl⟩
  | c :: w, prev, i, len, hprev => by
      rw [splitLine]
      by_cases hend : c = CR ∧ w.head? = some LF
      · rw [if_pos hend]
        obtain ⟨rfl, hw⟩ := hend
        cases w with
        | nil => simp at hw
        | cons d tail =>
            obtain rfl : d = LF := by simpa using hw
            simp [scanLine]
      · rw [if_neg hend]
        by_cases hlf : c = LF
        · have hp : prev ≠ CR := fun hp => hprev hp (by simp [hlf])
          rw [if_pos hlf]
          exact ⟨.lineBad, by simp, by simp [scanLine.eq_def, hlf, lf_ne_cr, hp]⟩
        · rw [if_neg hlf]
          have hcr : c = CR → w.head? ≠ some LF := fun hc hw => hend ⟨hc, hw⟩
          by_cases hopen : c = CR ∧ w = []
          · obtain ⟨rfl, rfl⟩ := hopen
            exact ⟨.lineOpen, by simp, by simp [scanLine]⟩
          · have hstep : scanLine prev i len (c :: w) = scanLine c (i + 1) (len + 1) w := by
              rw [scanLine.eq_def]
              by_cases hc : c = CR
              · cases w with
                | nil => exact absurd ⟨hc, rfl⟩ hopen
                | cons d tail =>
                    have hd : d ≠ LF := by simpa using hcr hc
                    simp [hc, hd]
              · simp [hc, hlf]
            rw [hstep]
            have ih := @scanLine_eq w c (i + 1) (len + 1) hcr
            cases hs : splitLine w with
            | none => simpa [hs] using ih
            | some r =>
                obtain ⟨line, rest⟩ := r
                simp only [hs] at ih
                simp only [Option.map_some, ih, List.length_cons]
                refine Prod.ext rfl (Prod.ext (by simp; omega) ?_)
                simp only [List.cons.injEq, and_true]
                omega

/-! ## The parser on unread bytes -/

/-- The C string in front of the first NUL of `s`, or `s` up to the NUL behind
it. -/
def cstr (s : Bytes) : Bytes := s.takeWhile (· != NUL)

/-- One line by the state of the parser. -/
def lineStep (q : HttpRequest J) (line : Bytes) : Except Fault (Bool × HttpRequest J) :=
  match q.state with
  | .requestLine =>
      match parseRequestLine q line with
      | .error e => .error e
      | .ok (ok, q, _) => .ok (ok, q)
  | .headers => .ok ((parseHeader q line).1, (parseHeader q line).2.1)
  | _ => .ok (true, q)

/-- `parse` on the unread bytes `u` with `n` spare zero bytes behind them: the
answer, the request and the bytes left unread. -/
def stream (js : JsonCpp J) (n : Nat) (q : HttpRequest J) (u : Bytes) :
    Except Fault (HttpCode × HttpRequest J × Bytes) :=
  if u = [] then .ok (if q.state = .finish then .getRequest else .noRequest, q, [])
  else if q.state = .body then
    if NUL ∈ u ∨ 0 < n then
      match parseBody js q u.length (cstr u) with
      | .error e => .error e
      | .ok (false, q) => .ok (.noRequest, q, u)
      | .ok (true, q) => .ok (.getRequest, q, [])
    else .error .outOfBounds
  else
    match _h : splitLine u with
    | none => .ok (.noRequest, q, u)
    | some (line, rest) =>
        match lineStep q (cstr line) with
        | .error e => .error e
        | .ok (false, q) => .ok (.badRequest, { q with state := .finish }, u)
        | .ok (true, q) => stream js n q rest
termination_by u.length
decreasing_by exact splitLine_length _h

section unfold

variable {js : JsonCpp J} {n : Nat} {q : HttpRequest J} {u line rest : Bytes}

@[simp] theorem stream_nil : stream js n q [] =
    .ok (if q.state = .finish then .getRequest else .noRequest, q, []) := by
  rw [stream, if_pos rfl]

theorem stream_body (hu : u ≠ []) (hq : q.state = .body) :
    stream js n q u =
      if NUL ∈ u ∨ 0 < n then
        match parseBody js q u.length (cstr u) with
        | .error e => .error e
        | .ok (false, q) => .ok (.noRequest, q, u)
        | .ok (true, q) => .ok (.getRequest, q, [])
      else .error .outOfBounds := by
  rw [stream, if_neg hu, if_pos hq]

theorem stream_open (hq : q.state ≠ .body) (h : splitLine u = none) (hu : u ≠ []) :
    stream js n q u = .ok (.noRequest, q, u) := by
  rw [stream, if_neg hu, if_neg hq]
  split
  · rfl
  · simp_all

theorem stream_line (hq : q.state ≠ .body) (h : splitLine u = some (line, rest)) :
    stream js n q u =
      match lineStep q (cstr line) with
      | .error e => .error e
      | .ok (false, q) => .ok (.badRequest, { q with state := .finish }, u)
      | .ok (true, q) => stream js n q rest := by
  have hu : u ≠ [] := by
    rintro rfl
    simp [splitLine] at h
  rw [stream, if_neg hu, if_neg hq]
  split
  · simp_all
  · rename_i line' rest' h'
    rw [h] at h'
    obtain ⟨rfl, rfl⟩ : line = line' ∧ rest = rest' := by simpa using h'
    rfl

end unfold

/-! ## NULs in the storage -/

section storage

variable {b : Buffer} {g : Byte} {n : Nat}

@[simp] theorem putNuls_nil : putNuls b [] = b := rfl

theorem putNuls_cons (i : Nat) (is : List Nat) :
    putNuls b (i :: is) = putNuls (putNuls b [i]) is := rfl

@[simp] theorem putNuls_readIdx (is : List Nat) : (putNuls b is).readIdx = b.readIdx := rfl

/-- A NUL written over the unread byte `c`. -/
theorem holds_putNul {x y : Bytes} {c : Byte} (h : b.Holds g (x ++ c :: y) n) :
    (putNuls b [b.readIdx + x.length]).Holds g (x ++ NUL :: y) n := by
  obtain ⟨pre, hc, hr, hw⟩ := h
  refine ⟨pre, ?_, hr, by rw [show (putNuls b _).writeIdx = b.writeIdx from rfl, hw]; simp⟩
  show (b.bufferContainer.set (b.readIdx + x.length) NUL) = _
  rw [hc, hr, show pre ++ [g] ++ (x ++ c :: y ++ List.replicate n NUL) =
    (pre ++ [g] ++ x) ++ (c :: (y ++ List.replicate n NUL)) from by simp,
    List.set_append_right _ _ (by simp; omega)]
  have : pre.length + 1 + x.length - (pre ++ [g] ++ x).length = 0 := by simp; omega
  rw [this]
  simp

/-- NULs written inside the unread bytes `x` change nothing outside them. -/
theorem holds_putNuls {y : Bytes} : ∀ {is : List Nat} {b : Buffer} {x : Bytes},
    b.Holds g (x ++ y) n → (∀ i ∈ is, i < x.length) →
    ∃ x', x'.length = x.length ∧
      (putNuls b (is.map (b.readIdx + ·))).Holds g (x' ++ y) n
  | [], b, x, h, _ => ⟨x, rfl, h⟩
  | i :: is, b, x, h, hlt => by
      have hi : i < x.length := hlt i (by simp)
      have hsplit : x ++ y = x.take i ++ x[i] :: (x.drop (i + 1) ++ y) := by
        calc x ++ y = (x.take i ++ x.drop i) ++ y := by rw [List.take_append_drop]
          _ = _ := by rw [List.drop_eq_getElem_cons hi, List.append_assoc, List.cons_append]
      rw [hsplit] at h
      have h' := holds_putNul h
      rw [List.length_take_of_le (by omega)] at h'
      rw [show x.take i ++ NUL :: (x.drop (i + 1) ++ y) =
        (x.take i ++ NUL :: x.drop (i + 1)) ++ y from by simp] at h'
      obtain ⟨x', hx', hh⟩ := holds_putNuls (y := y) h' (fun j (hj : j ∈ is) => by
        have := hlt j (by simp [hj])
        simp
        omega)
      refine ⟨x', by rw [hx']; simp; omega, ?_⟩
      rw [List.map_cons, putNuls_cons]
      exact hh

/-- The C string at the read position, when a NUL ends it. -/
theorem readCstring_eq {u : Bytes} (h : b.Holds g u n) :
    readCstring b = if NUL ∈ u ∨ 0 < n then .ok (cstr u) else .error .outOfBounds := by
  rw [readCstring, h.drop_readIdx, cstring]
  have hmem : (u ++ List.replicate n NUL).contains NUL = true ↔ NUL ∈ u ∨ 0 < n := by
    simp only [List.contains_iff_mem, List.mem_append, List.mem_replicate, and_true]
    exact or_congr_right (by omega)
  have htake : (u ++ List.replicate n NUL).takeWhile (· != NUL) = cstr u := by
    rw [cstr, List.takeWhile_append]
    split
    · rename_i hall
      rw [List.takeWhile_replicate]
      simp only [bne_self_eq_false, Bool.false_eq_true, if_false, List.append_nil]
      exact (List.takeWhile_eq_self_iff.mpr (by
        intro a ha
        have := List.takeWhile_eq_self_iff.mp
          ((List.takeWhile_prefix (p := (· != NUL)) (l := u)).eq_of_length hall)
        exact this a ha)).symm
    · rfl
  by_cases hn : NUL ∈ u ∨ 0 < n
  · rw [if_pos (hmem.mpr hn), if_pos hn, htake]
  · rw [if_neg (fun h => hn (hmem.mp h)), if_neg hn]

/-- The line parsers write their NULs inside the line. -/
theorem parseRequestLine_nuls_lt {q q' : HttpRequest J} {line : Bytes} {ok : Bool}
    {nuls : List Nat} (h : parseRequestLine q line = .ok (ok, q', nuls)) :
    ∀ i ∈ nuls, i < line.length := by
  have hfind : ∀ {s accept : Bytes} {i : Nat}, strpbrk s accept = some i → i < s.length := by
    intro s accept i hi
    exact (List.findIdx?_eq_some_iff_findIdx_eq.mp hi).1
  unfold parseRequestLine at h
  cases hi : strpbrk line blanks with
  | none => simp_all
  | some i =>
      have hlt := hfind hi
      simp only [hi] at h
      cases hm : methodOf (line.take i) with
      | none =>
          simp only [hm, Except.ok.injEq, Prod.mk.injEq] at h
          obtain ⟨-, -, rfl⟩ := h
          simpa using hlt
      | some m =>
          simp only [hm] at h
          cases hj : strpbrk (line.drop (i + 1 + strspn (line.drop (i + 1)) blanks)) blanks with
          | none =>
              simp only [hj, Except.ok.injEq, Prod.mk.injEq] at h
              obtain ⟨-, -, rfl⟩ := h
              simpa using hlt
          | some j =>
              have hltj := hfind hj
              rw [List.length_drop] at hltj
              simp only [hj] at h
              have hnuls : nuls = [i, i + 1 + strspn (line.drop (i + 1)) blanks + j] := by
                split at h
                · simp_all
                · split at h <;> simp_all
              rw [hnuls]
              intro k hk
              simp only [List.mem_cons, List.not_mem_nil, or_false] at hk
              rcases hk with rfl | rfl <;> omega

theorem parseHeader_nuls_lt (q : HttpRequest J) (line : Bytes) :
    ∀ i ∈ (parseHeader q line).2.2, i < line.length := by
  unfold parseHeader
  split
  · simp
  · split
    · simp
    · rename_i i hi
      intro k hk
      rw [List.mem_singleton] at hk
      exact hk ▸ (List.findIdx?_eq_some_iff_findIdx_eq.mp hi).1

end storage

/-! ## The two agree -/

/-- A line cut off the front leaves a NUL before the rest. -/
theorem parseLine_some {q : HttpRequest J} {b : Buffer} {g : Byte} {u line rest : Bytes}
    {n : Nat} (h : b.Holds g u n) (hg : g = CR → u.head? ≠ some LF) (hq : q.state ≠ .body)
    (hs : splitLine u = some (line, rest)) :
    ∃ b', parseLine q b = (.lineOk, line.length + 2, b') ∧
      b'.Holds g (line ++ NUL :: NUL :: rest) n := by
  have hscan := @scanLine_eq u g b.readIdx 0 hg
  simp only [hs, Nat.zero_add] at hscan
  refine ⟨putNuls b [b.readIdx + line.length, b.readIdx + line.length + 1], ?_, ?_⟩
  · rw [parseLine, if_neg hq, h.guardByte, h.readable]
    simp only [Option.getD_some, hscan]
  · rw [(splitLine_eq_some.mp hs).1] at h
    have h₁ := holds_putNul h
    rw [show line ++ NUL :: LF :: rest = (line ++ [NUL]) ++ LF :: rest from by simp] at h₁
    have h₂ := holds_putNul h₁
    rw [putNuls_cons]
    simpa [Nat.add_assoc] using h₂

theorem parseLine_none {q : HttpRequest J} {b : Buffer} {g : Byte} {u : Bytes}
    {n : Nat} (h : b.Holds g u n) (hg : g = CR → u.head? ≠ some LF) (hq : q.state ≠ .body)
    (hs : splitLine u = none) :
    ∃ status len, status ≠ .lineOk ∧ parseLine q b = (status, len, b) := by
  have hscan := @scanLine_eq u g b.readIdx 0 hg
  simp only [hs] at hscan
  obtain ⟨status, hne, hscan⟩ := hscan
  refine ⟨status, 0, hne, ?_⟩
  rw [parseLine, if_neg hq, h.guardByte, h.readable]
  simp only [Option.getD_some, hscan, putNuls_nil]

/-- A line that was cut off and parsed: the bytes behind it are as they were. -/
theorem parseStateLine_lineStep {q : HttpRequest J} {b : Buffer} {g : Byte}
    {line rest : Bytes} {n : Nat} (h : b.Holds g (line ++ rest) n) (hq : q.state ≠ .body) :
    match lineStep q (cstr line) with
    | .error e => parseStateLine q b (cstr line) = .error e
    | .ok (ok, q') => ∃ b' line', line'.length = line.length ∧
        parseStateLine q b (cstr line) = .ok (ok, q', b') ∧ b'.Holds g (line' ++ rest) n := by
  have hle : (cstr line).length ≤ line.length := by
    rw [cstr]
    exact (List.takeWhile_prefix _).length_le
  unfold lineStep parseStateLine
  cases hst : q.state with
  | body => exact absurd hst hq
  | finish => exact ⟨b, line, rfl, rfl, h⟩
  | requestLine =>
      simp only
      cases hp : parseRequestLine q (cstr line) with
      | error e => rfl
      | ok r =>
          obtain ⟨ok, q', nuls⟩ := r
          obtain ⟨line', hlen, hh⟩ := holds_putNuls (y := rest) h
            (fun i hi => lt_of_lt_of_le (parseRequestLine_nuls_lt hp i hi) hle)
          exact ⟨_, line', hlen, rfl, hh⟩
  | headers =>
      obtain ⟨line', hlen, hh⟩ := holds_putNuls (y := rest) h
        (fun i hi => lt_of_lt_of_le (parseHeader_nuls_lt q _ i hi) hle)
      exact ⟨_, line', hlen, rfl, hh⟩

theorem cstr_append_nul (line rest : Bytes) : cstr (line ++ NUL :: rest) = cstr line := by
  rw [cstr, cstr, List.takeWhile_append]
  split
  · rename_i hall
    have hself := (List.takeWhile_prefix (p := (· != NUL)) (l := line)).eq_of_length hall
    rw [List.takeWhile_cons]
    simp [hself]
  · rfl

/-- The answer `r` of the buffer's parser is the answer `t` of the stream parser
on the unread bytes `u` behind the byte `g`. Unless a line was rejected the
buffer holds what the stream parser leaves, behind a NUL if a line was taken
out. -/
def Agrees (n : Nat) (g : Byte) (u : Bytes)
    (t : Except Fault (HttpCode × HttpRequest J × Bytes))
    (r : Except Fault (HttpCode × HttpRequest J × Buffer)) : Prop :=
  match t with
  | .error e => r = .error e
  | .ok (code, q, rest) => ∃ b, r = .ok (code, q, b) ∧
      (code ≠ .badRequest → ∃ g', b.Holds g' rest n ∧
        (code = .noRequest → g' = NUL ∨ (g' = g ∧ rest = u)))

theorem Agrees.of_line {n : Nat} {g : Byte} {u rest : Bytes}
    {t : Except Fault (HttpCode × HttpRequest J × Bytes)}
    {r : Except Fault (HttpCode × HttpRequest J × Buffer)} (h : Agrees n NUL rest t r) :
    Agrees n g u t r := by
  unfold Agrees at h ⊢
  split
  · exact h
  · obtain ⟨b, hr, hh⟩ := h
    refine ⟨b, hr, fun hc => ?_⟩
    obtain ⟨g', hb, hg'⟩ := hh hc
    exact ⟨g', hb, fun hn => Or.inl ((hg' hn).elim id And.left)⟩

theorem parseLoop_done {js : JsonCpp J} (fuel : Nat) (q : HttpRequest J) {b : Buffer}
    (h : b.readableBytes = 0) : parseLoop js fuel q b =
      .ok (if q.state = .finish then .getRequest else .noRequest, q, b) := by
  cases fuel <;> simp [parseLoop, h]

/-- The loop inside a body. -/
theorem parseLoop_stream_body {js : JsonCpp J} {n fuel : Nat} {q : HttpRequest J} {u : Bytes}
    {b : Buffer} {g : Byte} (h : b.Holds g u n) (hu : u ≠ []) (hq : q.state = .body) :
    Agrees n g u (stream js n q u) (parseLoop js (fuel + 1) q b) := by
  have hrd : b.readableBytes ≠ 0 := by
    rw [h.readableBytes]
    simpa using hu
  have hline : parseLine q b = (.lineOk, u.length, b) := by
    rw [parseLine, if_pos hq, h.readableBytes]
  rw [stream_body hu hq, parseLoop, if_neg hrd, hline]
  simp only [readCstring_eq h]
  by_cases hn : NUL ∈ u ∨ 0 < n
  · rw [if_pos hn, if_pos hn]
    simp only [hq, if_true, h.readableBytes]
    cases hp : parseBody js q u.length (cstr u) with
    | error e => rfl
    | ok r =>
        obtain ⟨ok, q'⟩ := r
        cases ok with
        | false => exact ⟨b, rfl, fun _ => ⟨g, h, fun _ => Or.inr ⟨rfl, rfl⟩⟩⟩
        | true =>
            have hfin : q'.state = .finish := by
              simp only [parseBody, bind, Except.bind, pure, Except.pure] at hp
              split at hp
              · simp at hp
              · split at hp
                · split at hp
                  · simp at hp
                  · simp only [Except.ok.injEq, Prod.mk.injEq, true_and] at hp
                    rw [← hp]
                · simp at hp
            have hr := (show b.Holds g (u ++ []) n by simpa using h).retrieve
            refine ⟨b.retrieve u.length, ?_, fun _ => ⟨_, hr, fun hc => by simp at hc⟩⟩
            show parseLoop js fuel q' (b.retrieve u.length) = _
            rw [parseLoop_done _ _ (by rw [hr.readableBytes]; rfl), if_pos hfin]
  · rw [if_neg hn, if_neg hn]
    rfl

/-- **The loop on a buffer is the stream parser.** -/
theorem parseLoop_stream {js : JsonCpp J} {n : Nat} (q : HttpRequest J) (u : Bytes) :
    ∀ (fuel : Nat) (b : Buffer) (g : Byte), b.Holds g u n →
      (g = CR → u.head? ≠ some LF) → u.length ≤ fuel →
      Agrees n g u (stream js n q u) (parseLoop js fuel q b) := by
  induction hlen : u.length using Nat.strong_induction_on generalizing q u with
  | _ len ih =>
      intro fuel b g h hg hfuel
      by_cases hu : u = []
      · subst hu
        rw [stream_nil, parseLoop_done _ _ (by rw [h.readableBytes]; rfl)]
        exact ⟨b, rfl, fun _ => ⟨g, h, fun _ => Or.inr ⟨rfl, rfl⟩⟩⟩
      · obtain ⟨fuel, rfl⟩ : ∃ k, fuel = k + 1 := by
          have : u.length ≠ 0 := by simpa using hu
          exact ⟨fuel - 1, by omega⟩
        by_cases hq : q.state = .body
        · exact parseLoop_stream_body h hu hq
        · have hrd : b.readableBytes ≠ 0 := by
            rw [h.readableBytes]
            simpa using hu
          cases hs : splitLine u with
          | none =>
              obtain ⟨status, k, hne, hline⟩ := parseLine_none h hg hq hs
              rw [stream_open hq hs hu, parseLoop, if_neg hrd, hline]
              refine ⟨b, ?_, fun _ => ⟨g, h, fun _ => Or.inr ⟨rfl, rfl⟩⟩⟩
              cases status with
              | lineOk => exact absurd rfl hne
              | lineBad => rfl
              | lineOpen => rfl
          | some r =>
              obtain ⟨line, rest⟩ := r
              obtain ⟨b₁, hline, h₁⟩ := parseLine_some h hg hq hs
              have hread : readCstring b₁ = .ok (cstr line) := by
                rw [readCstring_eq h₁, if_pos (Or.inl (by simp)), cstr_append_nul]
              have hstep := parseStateLine_lineStep h₁ hq
              rw [stream_line hq hs, parseLoop, if_neg hrd, hline]
              simp only [hread, if_neg hq]
              cases hl : lineStep q (cstr line) with
              | error e =>
                  rw [hl] at hstep
                  simp only [hstep]
                  rfl
              | ok r =>
                  obtain ⟨ok, q'⟩ := r
                  rw [hl] at hstep
                  obtain ⟨b₂, line', hlen', hparse, h₂⟩ := hstep
                  simp only [hparse]
                  cases ok with
                  | false => exact ⟨b₂, rfl, fun hc => absurd rfl hc⟩
                  | true =>
                      rw [show line' ++ NUL :: NUL :: rest = (line' ++ [NUL, NUL]) ++ rest
                        from by simp] at h₂
                      have h₃ := h₂.retrieve
                      simp only [List.length_append, List.length_cons, List.length_nil,
                        hlen'] at h₃
                      have hlt := splitLine_length hs
                      rw [show (line' ++ [NUL, NUL]).getLastD g = NUL from by
                        rw [show line' ++ [NUL, NUL] = (line' ++ [NUL]) ++ [NUL] from by simp,
                          List.getLastD_concat]] at h₃
                      exact (ih rest.length (by omega) q' rest rfl fuel _ NUL h₃
                        (fun hc => absurd hc (by decide)) (by omega)).of_line

/-- **`parse` is the stream parser.** -/
theorem parse_stream (js : JsonCpp J) {n : Nat} (q : HttpRequest J) {u : Bytes} {b : Buffer}
    {g : Byte} (h : b.Holds g u n) (hg : g = CR → u.head? ≠ some LF) (hu : u ≠ []) :
    Agrees n g u (stream js n q u) (parse js q b) := by
  have hrd : b.readableBytes ≠ 0 := by
    rw [h.readableBytes]
    simpa using hu
  rw [parse, if_neg hrd]
  exact parseLoop_stream q u _ b g h hg (by rw [h.readableBytes]; omega)

/-- An empty buffer is not parsed. -/
theorem parse_nil (js : JsonCpp J) {n : Nat} (q : HttpRequest J) {b : Buffer} {g : Byte}
    (h : b.Holds g [] n) : parse js q b = .ok (.noRequest, q, b) := by
  rw [parse, if_pos (by rw [h.readableBytes]; rfl)]

end HttpRequest

end WhiteWebServer
