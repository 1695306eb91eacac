import WhiteWebServer.RequestLine

/-!
# Printed headers read back

`AddCustomHeader` prints a header as `name: value`; `ParseHeader` separates the two with a
set of bytes. §1 lists of headers and the map they are to become; §2 what the parser makes
of a printed head; §3 what a body adds; §4 when the map comes back.
-/

namespace WhiteWebServer

namespace HttpRequest

variable {J : Type} {js : JsonCpp J}

/-! ## §1  Headers to print -/

/-- A name and a value that can be printed on one line; the value may be empty. -/
structure Printable (e : Bytes × Bytes) : Prop where
  nonempty : e.1 ≠ []
  name : ∀ c ∈ e.1, c ≠ NUL ∧ c ≠ LF ∧ c ≠ CR ∧ c ∉ separators
  value : ∀ c ∈ e.2, c ≠ NUL ∧ c ≠ LF ∧ c ≠ CR
  start : ∀ c, e.2.head? = some c → c ∉ blanks

/-- The value of the last pair whose name is `key` in capitals. -/
def lastValue (key : Bytes) : List (Bytes × Bytes) → Option Bytes
  | [] => none
  | e :: entries => (lastValue key entries).or (if strToupper e.1 = key then some e.2 else none)

/-- Each name is bound to its last value, and no other name is bound. -/
def Decoded (entries : List (Bytes × Bytes)) (m : HeaderMap) : Prop :=
  ∀ key, m.lookup key = lastValue key entries

/-- The same but for the entry that `ParsePost` makes when no type was sent. -/
def DecodedBehind (entries : List (Bytes × Bytes)) (m : HeaderMap) : Prop :=
  ∀ key, m.lookup key = lastValue key entries ∨
    (key = contentType ∧ lastValue key entries = none ∧ m.lookup key = some [])

/-- The text: a request line, the headers as `AddCustomHeader` prints them, an empty
line. -/
def printedHead (line : Bytes) (entries : List (Bytes × Bytes)) : Bytes :=
  line ++ crlf ++ (entries.flatMap headerLine ++ crlf)

theorem lookup_storeAll (key : Bytes) : ∀ (entries : List (Bytes × Bytes)) (m : HeaderMap),
    (storeAll m entries).lookup key = (lastValue key entries).or (m.lookup key) := by
  intro entries
  induction entries with
  | nil => exact fun m => rfl
  | cons e entries ih =>
      intro m
      have hstep : storeAll m (e :: entries) = storeAll (m.insert (strToupper e.1) e.2) entries := rfl
      rw [hstep, ih, lastValue, Option.or_assoc]
      by_cases hkey : strToupper e.1 = key
      · rw [if_pos hkey, ← hkey, Finmap.lookup_insert]
        rfl
      · rw [if_neg hkey, Finmap.lookup_insert_of_ne m (Ne.symm hkey)]
        rfl

theorem lastValue_mem {key value : Bytes} : ∀ {entries : List (Bytes × Bytes)},
    lastValue key entries = some value → ∃ e ∈ entries, e.2 = value := by
  intro entries
  induction entries with
  | nil =>
      intro h
      cases h
  | cons e entries ih =>
      intro h
      rw [lastValue, Option.or_eq_some_iff] at h
      rcases h with h | ⟨-, h⟩
      · obtain ⟨d, hd, hvalue⟩ := ih h
        exact ⟨d, List.mem_cons_of_mem e hd, hvalue⟩
      · split at h
        · exact ⟨e, List.mem_cons_self, Option.some.inj h⟩
        · cases h

theorem lastValue_map (f : Bytes → Bytes) (key : Bytes) : ∀ (entries : List (Bytes × Bytes)),
    lastValue key (entries.map fun e => (e.1, f e.2)) = (lastValue key entries).map f := by
  intro entries
  induction entries with
  | nil => rfl
  | cons e entries ih =>
      rw [List.map_cons, lastValue, ih, lastValue]
      cases lastValue key entries with
      | some value => rfl
      | none =>
          simp only [Option.map_none, Option.none_or]
          split <;> rfl

/-- A printed value comes back unless it starts with a colon. -/
theorem storedValue_eq_self {value : Bytes} (h : ∀ c, value.head? = some c → c ∉ blanks) :
    storedValue value = value ↔ value.head? ≠ some colon := by
  constructor
  · intro hsame hcolon
    have hhead := @head_drop_strspn value separators colon
    change (storedValue value).head? = some colon → colon ∉ separators at hhead
    rw [hsame] at hhead
    exact hhead hcolon (by decide)
  · intro hcolon
    apply drop_strspn_of_head
    intro c hc hmem
    rcases List.mem_cons.mp hmem with rfl | hblank
    · exact hcolon hc
    · exact h c hc hblank

/-! ## §2  A printed head -/

/-- A request line of the grammar is accepted. -/
theorem RequestLine.accepted {line path : Bytes} (h : RequestLine line path)
    (hplain : PlainLine line) (q : HttpRequest J) :
    ∃ method version nuls, parseRequestLine q line = .ok (true,
      { q with method := method, version := version, path := path, state := .headers }, nuls) := by
  obtain ⟨target, hframes, htarget⟩ := h
  have hparse := parseRequestLine_target q line
  simp only [requestTarget_eq_some.mpr hframes, pathOf_eq_ok.mpr htarget] at hparse
  obtain ⟨q', nuls, hparse, hpath⟩ := hparse
  obtain ⟨-, hq'⟩ := parseRequestLine_accepted hplain hparse
  refine ⟨q'.method, q'.version, nuls, ?_⟩
  rw [hparse, ← hpath, ← hq']

/-- The request behind a printed head. -/
theorem stream_printedHead {q q₀ : HttpRequest J} {line path : Bytes}
    {entries : List (Bytes × Bytes)} (hq₀ : init js q = .ok q₀) (hline : RequestLine line path)
    (hplain : PlainLine line) (hentries : ∀ e ∈ entries, Printable e) (n : Nat) :
    ∃ q code, stream js n q₀ (printedHead line entries) = .ok (code, q, []) ∧
      q.header = storeAll ∅ (entries.map fun e => (e.1, storedValue e.2)) ∧
      (code = .noRequest → q.state = .body ∧ contentLength ∈ q.header) := by
  obtain ⟨method, version, nuls, haccepted⟩ := hline.accepted hplain q₀
  have hbody : q₀.state ≠ .body := by
    rw [init_state hq₀]
    exact ParseState.noConfusion
  have hheader : q₀.header = ∅ := by rw [init_blank hq₀]
  have hstep : lineStep q₀ line = .ok (true,
      { q₀ with method := method, version := version, path := path, state := .headers }) := by
    simp only [lineStep, init_state hq₀, haccepted]
  have hwritable : ∀ e ∈ entries,
      (∀ c ∈ e.1, c ≠ NUL ∧ c ≠ LF ∧ c ∉ separators) ∧ PlainLine e.2 := by
    intro e he
    refine ⟨fun c hc => ?_, fun c hc => ?_⟩
    · obtain ⟨hnul, hlf, -, hsep⟩ := (hentries e he).name c hc
      exact ⟨hnul, hlf, hsep⟩
    · obtain ⟨hnul, hlf, -⟩ := (hentries e he).value c hc
      exact ⟨hnul, hlf⟩
  -- the empty line
  have hend : ∀ q : HttpRequest J, q.state = .headers →
      stream js n q crlf = .ok (if contentLength ∈ q.header then .noRequest else .getRequest,
        { q with state := if contentLength ∈ q.header then .body else .finish }, []) := by
    intro q hq
    have hne : q.state ≠ .body := by
      rw [hq]
      exact ParseState.noConfusion
    have hempty := @stream_cons_line J js n q [] [] hne (fun c hc => absurd hc List.not_mem_nil)
    rw [List.nil_append, List.append_nil] at hempty
    rw [hempty]
    simp only [lineStep, hq, parseHeader, if_true, stream_nil]
    split <;> rfl
  obtain ⟨q, hq⟩ : ∃ q : HttpRequest J, q = { q₀ with
      method := method, version := version, path := path, state := .headers,
      header := storeAll q₀.header (entries.map fun e => (e.1, storedValue e.2)) } := ⟨_, rfl⟩
  have hstate : q.state = .headers := by rw [hq]
  refine ⟨{ q with state := if contentLength ∈ q.header then .body else .finish },
    if contentLength ∈ q.header then .noRequest else .getRequest, ?_, ?_, ?_⟩
  · rw [printedHead, stream_cons_line hbody hplain, hstep]
    simp only
    rw [stream_printedLines entries crlf hwritable rfl, ← hq]
    exact hend q hstate
  · show q.header = _
    rw [hq, hheader]
  · intro hcode
    split at hcode
    · rename_i hmem
      exact ⟨if_pos hmem, hmem⟩
    · cases hcode

/-- One parse of a printed head: each name is bound to what is stored of its last value. -/
theorem parse_printedHead {q q₀ : HttpRequest J} {line path : Bytes}
    {entries : List (Bytes × Bytes)} {b : Buffer} {g : Byte} {n : Nat}
    (hq₀ : init js q = .ok q₀) (hline : RequestLine line path) (hplain : PlainLine line)
    (hentries : ∀ e ∈ entries, Printable e) (hb : b.Holds g (printedHead line entries) n) :
    ∃ code q b', parse js q₀ b = .ok (code, q, b') ∧
      (∀ key, q.header.lookup key = (lastValue key entries).map storedValue) ∧
      (code = .noRequest → q.state = .body ∧ contentLength ∈ q.header ∧ b'.Holds NUL [] n) := by
  obtain ⟨q, code, hstream, hheader, hmore⟩ :=
    stream_printedHead hq₀ hline hplain hentries n
  have hne : printedHead line entries ≠ [] := by simp [printedHead, crlf]
  -- a CR before the head does not make a line end with it
  have hguard : g = CR → (printedHead line entries).head? ≠ some LF := by
    intro _ hhead
    cases line with
    | nil => simp [printedHead, crlf, CR, LF] at hhead
    | cons c line =>
        obtain rfl : c = LF := by simpa [printedHead] using hhead
        exact (hplain LF List.mem_cons_self).2 rfl
  have hagrees := parse_stream js q₀ hb hguard hne
  rw [hstream] at hagrees
  obtain ⟨b', hparse, hholds⟩ := hagrees
  refine ⟨code, q, b', hparse, fun key => ?_, fun hcode => ?_⟩
  · rw [hheader, lookup_storeAll, lastValue_map, Finmap.lookup_empty, Option.or_none]
  · subst hcode
    obtain ⟨hstate, hlength⟩ := hmore rfl
    obtain ⟨g', hb', hguard'⟩ := hholds HttpCode.noConfusion
    rcases hguard' rfl with rfl | ⟨-, hnil⟩
    · exact ⟨hstate, hlength, hb'⟩
    · exact absurd hnil.symm hne

/-! ## §3  A body -/

/-- `operator[]` binds at most the empty string. -/
theorem DecodedBehind.access {entries : List (Bytes × Bytes)} {m : HeaderMap}
    (h : DecodedBehind entries m) : DecodedBehind entries (m.access contentType).2 := by
  unfold HeaderMap.access
  cases hlookup : m.lookup contentType with
  | some v => exact h
  | none =>
      intro key
      by_cases hkey : key = contentType
      · subst hkey
        right
        refine ⟨rfl, ?_, Finmap.lookup_insert m⟩
        rcases h contentType with heq | ⟨-, -, hbound⟩
        · rw [← heq, hlookup]
        · rw [hlookup] at hbound
          cases hbound
      · rw [Finmap.lookup_insert_of_ne m hkey]
        exact h key

theorem access_of_mem {m : HeaderMap} {key : Bytes} (h : key ∈ m) : (m.access key).2 = m := by
  obtain ⟨v, hv⟩ := Finmap.mem_iff.mp h
  rw [HeaderMap.access, hv]

/-- `ParseBody` changes no header but the type. -/
theorem parseBody_decoded {entries : List (Bytes × Bytes)} {q q' : HttpRequest J} {k : Nat}
    {text : Bytes} {ok : Bool} (hlength : contentLength ∈ q.header)
    (h : DecodedBehind entries q.header) (hparse : parseBody js q k text = .ok (ok, q')) :
    DecodedBehind entries q'.header ∧ (ok = false → q' = q) := by
  rw [parseBody_eq, access_of_mem hlength] at hparse
  split at hparse
  · cases hparse
  · split at hparse
    · split at hparse
      · cases hparse
      · cases hparse
        exact ⟨h.access, fun hok => Bool.noConfusion hok⟩
    · cases hparse
      exact ⟨h, fun _ => rfl⟩

/-- Whatever comes behind the head, in whatever pieces. -/
theorem feed_decoded {entries : List (Bytes × Bytes)} (chunks : List Bytes)
    {q q' : HttpRequest J} {b b' : Buffer} {u : Bytes} {n : Nat} {r : Option HttpCode}
    (hq : q.state = .body) (hlength : contentLength ∈ q.header)
    (h : DecodedBehind entries q.header) (hb : b.Holds NUL u n)
    (hfeed : feed js chunks q b = .ok (r, q', b')) : DecodedBehind entries q'.header := by
  induction chunks generalizing b u n with
  | nil =>
      cases hfeed
      exact h
  | cons chunk chunks ih =>
      obtain ⟨m, hbuffer⟩ := hb.append chunk
      rw [feed] at hfeed
      by_cases hempty : u ++ chunk = []
      · rw [hempty] at hbuffer
        rw [parse_nil js q hbuffer] at hfeed
        exact ih hbuffer hfeed
      · have hagrees := parse_stream js q hbuffer (fun hg => absurd hg (by decide)) hempty
        rw [stream_body hempty hq] at hagrees
        split at hagrees
        · cases hbody : parseBody js q (u ++ chunk).length (cstr (u ++ chunk)) with
          | error e =>
              simp only [hbody, Agrees] at hagrees
              rw [hagrees] at hfeed
              cases hfeed
          | ok answer =>
              obtain ⟨ok, q₁⟩ := answer
              obtain ⟨hdecoded, hsame⟩ := parseBody_decoded hlength h hbody
              cases ok with
              | false =>
                  -- a body that is not complete changes nothing
                  obtain rfl := hsame rfl
                  simp only [hbody, Agrees] at hagrees
                  obtain ⟨b₁, hparse, hholds⟩ := hagrees
                  obtain ⟨g', hb₁, hguard⟩ := hholds HttpCode.noConfusion
                  obtain rfl : g' = NUL := (hguard trivial).elim id And.left
                  rw [hparse] at hfeed
                  exact ih hb₁ hfeed
              | true =>
                  simp only [hbody, Agrees] at hagrees
                  obtain ⟨b₁, hparse, -⟩ := hagrees
                  rw [hparse] at hfeed
                  cases hfeed
                  exact hdecoded
        · rw [Agrees] at hagrees
          rw [hagrees] at hfeed
          cases hfeed

/-! ## §4  The round trip -/

/-- The printed headers come back: from the head, and for whatever body follows. -/
def ReadsBack (js : JsonCpp J) (q₀ : HttpRequest J) (b : Buffer)
    (entries : List (Bytes × Bytes)) : Prop :=
  ∃ code q b', parse js q₀ b = .ok (code, q, b') ∧ Decoded entries q.header ∧
    (code = .noRequest → ∀ chunks r q' b'', feed js chunks q b' = .ok (r, q', b'') →
      DecodedBehind entries q'.header)

/-- **Header decoding.** For every list of headers that can be printed behind a request line
and every `HttpRequest` behind `Init`, the parser's map binds each name to its last value and
no other name exactly if no name's last value starts with a colon. -/
theorem header_decoding_iff {q q₀ : HttpRequest J} {line path : Bytes}
    {entries : List (Bytes × Bytes)} {b : Buffer} {g : Byte} {n : Nat}
    (hq₀ : init js q = .ok q₀) (hline : RequestLine line path) (hplain : PlainLine line)
    (hentries : ∀ e ∈ entries, Printable e) (hb : b.Holds g (printedHead line entries) n) :
    ReadsBack js q₀ b entries ↔
      ∀ key value, lastValue key entries = some value → value.head? ≠ some colon := by
  obtain ⟨code, q, b', hparse, hstored, hmore⟩ :=
    parse_printedHead hq₀ hline hplain hentries hb
  -- the head alone decides
  have hdecoded : Decoded entries q.header ↔
      ∀ key value, lastValue key entries = some value → value.head? ≠ some colon := by
    have hkept : ∀ {key value : Bytes}, lastValue key entries = some value →
        (storedValue value = value ↔ value.head? ≠ some colon) := by
      intro key value hvalue
      obtain ⟨e, he, rfl⟩ := lastValue_mem hvalue
      exact storedValue_eq_self (hentries e he).start
    constructor
    · intro h key value hvalue
      have hkey := h key
      rw [hstored, hvalue, Option.map_some, Option.some.injEq] at hkey
      exact (hkept hvalue).mp hkey
    · intro h key
      rw [hstored]
      cases hvalue : lastValue key entries with
      | none => rfl
      | some value => rw [Option.map_some, (hkept hvalue).mpr (h key value hvalue)]
  rw [← hdecoded]
  constructor
  · rintro ⟨code', q', b'', hparse', hq', -⟩
    rw [hparse] at hparse'
    cases hparse'
    exact hq'
  · intro h
    refine ⟨code, q, b', hparse, h, ?_⟩
    intro hcode chunks r q' b'' hfeed
    obtain ⟨hstate, hlength, hb'⟩ := hmore hcode
    exact feed_decoded chunks hstate hlength (fun key => Or.inl (h key)) hb' hfeed

theorem requestLine_get : RequestLine (ascii "GET / HTTP/1.1") (ascii "/") := by
  refine ⟨ascii "/", ⟨ascii "GET", ascii " ", ascii " ", ascii "HTTP/1.1", by decide +kernel,
    Or.inl (by decide +kernel), ⟨by decide +kernel, by decide +kernel⟩,
    ⟨by decide +kernel, by decide +kernel⟩, ⟨by decide +kernel, by decide +kernel⟩,
    Or.inr (by decide +kernel)⟩, ?_⟩
  exact Target.origin []

/-- A name that comes twice, with a port in its last value, and one without a value; the
request is not the first on its object. -/
theorem header_decoding_hosts :
    ∃ b : Buffer, b.readable = printedHead (ascii "GET / HTTP/1.1")
        [(ascii "Host", ascii ":a"), (ascii "X", []), (ascii "host", ascii "b:1")] ∧
      ReadsBack membersJson blankForm b
        [(ascii "Host", ascii ":a"), (ascii "X", []), (ascii "host", ascii "b:1")] := by
  obtain ⟨n, hb⟩ := (Buffer.holds_of_new (show Buffer.new 2 = _ from rfl)).append
    (printedHead (ascii "GET / HTTP/1.1") [(ascii "Host", ascii ":a"), (ascii "X", []), (ascii "host", ascii "b:1")])
  rw [List.nil_append] at hb
  have hentries : ∀ e ∈ [(ascii "Host", ascii ":a"), (ascii "X", []), (ascii "host", ascii "b:1")],
      Printable e := by
    intro e he
    have hname : ∀ e ∈ [(ascii "Host", ascii ":a"), (ascii "X", []), (ascii "host", ascii "b:1")],
        e.1 ≠ [] ∧ (∀ c ∈ e.1, c ≠ NUL ∧ c ≠ LF ∧ c ≠ CR ∧ c ∉ separators) ∧
          (∀ c ∈ e.2, c ≠ NUL ∧ c ≠ LF ∧ c ≠ CR) ∧ ∀ c ∈ e.2.head?, c ∉ blanks := by
      decide +kernel
    obtain ⟨hne, hn, hv, hs⟩ := hname e he
    exact ⟨hne, hn, hv, hs⟩
  refine ⟨_, hb.readable, (header_decoding_iff (show init membersJson servedForm = _ from rfl)
    requestLine_get (by decide +kernel) hentries hb).mpr ?_⟩
  intro key value hvalue
  simp only [lastValue, Option.none_or] at hvalue
  by_cases hhost : strToupper (ascii "host") = key
  · rw [if_pos hhost] at hvalue
    obtain rfl : ascii "b:1" = value := Option.some.inj hvalue
    decide +kernel
  · have hhost' : strToupper (ascii "Host") ≠ key := by
      rintro rfl
      exact hhost (by decide +kernel)
    rw [if_neg hhost, if_neg hhost', Option.none_or, Option.or_none] at hvalue
    split at hvalue
    · obtain rfl : [] = value := Option.some.inj hvalue
      decide
    · cases hvalue

/-- An address that starts with a colon loses it. -/
theorem header_decoding_colon :
    ¬ ∀ (q₀ : HttpRequest (Option HeaderMap)) (line path : Bytes)
      (entries : List (Bytes × Bytes)) (b : Buffer) (g : Byte) (n : Nat),
      new membersJson = .ok q₀ → RequestLine line path → PlainLine line →
      (∀ e ∈ entries, Printable e) → b.Holds g (printedHead line entries) n →
      ReadsBack membersJson q₀ b entries := by
  intro h
  have hentries : ∀ e ∈ [(ascii "Host", ascii "::1")], Printable e := by
    intro e he
    obtain rfl := List.mem_singleton.mp he
    exact ⟨by decide +kernel, by decide +kernel, by decide +kernel, by
      intro c hc
      obtain rfl : colon = c := Option.some.inj hc
      decide⟩
  obtain ⟨n, hb⟩ := (Buffer.holds_of_new (show Buffer.new 2 = _ from rfl)).append
    (printedHead (ascii "GET / HTTP/1.1") [(ascii "Host", ascii "::1")])
  rw [List.nil_append] at hb
  have hplain : PlainLine (ascii "GET / HTTP/1.1") := by decide +kernel
  obtain ⟨code, q, b', hparse, hdecoded, -⟩ :=
    h blankForm _ _ _ _ _ _ rfl requestLine_get hplain hentries hb
  obtain ⟨code', q', b'', hparse', hstored, -⟩ :=
    parse_printedHead (show new membersJson = .ok blankForm from rfl) requestLine_get hplain
      hentries hb
  rw [hparse] at hparse'
  cases hparse'
  have hhost := (hdecoded (ascii "HOST")).symm.trans (hstored (ascii "HOST"))
  revert hhost
  decide +kernel

end HttpRequest

end WhiteWebServer
