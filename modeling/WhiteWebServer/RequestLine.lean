import WhiteWebServer.ParseSafety

/-!
# The grammar of the request line

`ParseRequestLine` cuts its line with a chain of string searches. §1 the grammar, in its
own terms; §2 the searches on a line that is words with gaps between them; §3 the targets;
§4 on which lines the function decides the grammar.
-/

namespace WhiteWebServer

/-! ## §1  The grammar -/

/-- One or more spaces and tabs. -/
structure Gap (gap : Bytes) : Prop where
  nonempty : gap ≠ []
  blank : ∀ c ∈ gap, c ∈ HttpRequest.blanks

namespace HttpRequest

/-- METHOD and VERSION, in any letter case. -/
def IsMethod (word : Bytes) : Prop :=
  strcasecmpEq word (ascii "GET") ∨ strcasecmpEq word (ascii "POST")

def IsVersion (word : Bytes) : Prop :=
  strcasecmpEq word (ascii "HTTP/1.0") ∨ strcasecmpEq word (ascii "HTTP/1.1")

/-- A word without spaces and tabs. -/
structure Word (word : Bytes) : Prop where
  nonempty : word ≠ []
  plain : ∀ c ∈ word, c ∉ blanks

/-- `line` is METHOD, a gap, `target`, a gap and VERSION. -/
def Frames (line target : Bytes) : Prop :=
  ∃ method gap₁ gap₂ version, line = method ++ gap₁ ++ (target ++ gap₂ ++ version) ∧
    IsMethod method ∧ Gap gap₁ ∧ Word target ∧ Gap gap₂ ∧ IsVersion version

/-- The two forms of TARGET, and the path each names. -/
inductive Target : Bytes → Bytes → Prop
  | origin (rest : Bytes) : Target (slash :: rest) (slash :: rest)
  | absolute (scheme authority rest : Bytes) :
      strcasecmpEq scheme (ascii "http://") ∨ strcasecmpEq scheme (ascii "https://") →
      slash ∉ authority → Target (scheme ++ authority ++ slash :: rest) (slash :: rest)

/-- `line` is a request line for `path`. -/
def RequestLine (line path : Bytes) : Prop := ∃ target, Frames line target ∧ Target target path

/-- A line that is a request line but for its target, which is `http://A` with no `/`
behind the authority `A`. -/
def BareHttp (line : Bytes) : Prop :=
  ∃ scheme authority, Frames line (scheme ++ authority) ∧
    strcasecmpEq scheme (ascii "http://") ∧ slash ∉ authority

end HttpRequest

/-! ## §2  Words and gaps -/

section words

variable {s accept : Bytes}

/-- A search that finds something cuts off a word: its accepted bytes are the gap, and
what follows starts with no accepted byte. -/
theorem strpbrk_word {i : Nat} (h : strpbrk s accept = some i) :
    ∃ gap, s = s.take i ++ gap ++ s.drop (i + 1 + strspn (s.drop (i + 1)) accept) ∧
      gap ≠ [] ∧ ∀ c ∈ gap, c ∈ accept := by
  obtain ⟨hlt, hfound, -⟩ := List.findIdx?_eq_some_iff_getElem.mp h
  have hrest : s.drop (i + 1) = (s.drop (i + 1)).takeWhile (accept.contains ·) ++
      s.drop (i + 1 + strspn (s.drop (i + 1)) accept) := by
    rw [← @List.drop_drop _ _ (i + 1) s, drop_strspn, List.takeWhile_append_dropWhile]
  refine ⟨s[i] :: (s.drop (i + 1)).takeWhile (accept.contains ·), ?_, List.cons_ne_nil _ _, ?_⟩
  · calc s = s.take i ++ s.drop i := (List.take_append_drop i s).symm
      _ = s.take i ++ (s[i] :: s.drop (i + 1)) := by rw [List.drop_eq_getElem_cons hlt]
      _ = _ := by
          rw [List.append_assoc, List.cons_append, ← hrest]
  · intro c hc
    rcases List.mem_cons.mp hc with rfl | hc
    · simpa using hfound
    · simpa using List.mem_takeWhile_imp hc

/-- The search on a word, a gap and what follows it. -/
theorem strpbrk_gap {word gap rest : Bytes} (hword : ∀ c ∈ word, c ∉ accept) (hgap : gap ≠ [])
    (hblank : ∀ c ∈ gap, c ∈ accept) : strpbrk (word ++ gap ++ rest) accept = some word.length := by
  cases gap with
  | nil => exact absurd rfl hgap
  | cons c gap =>
      rw [List.append_assoc, List.cons_append]
      exact strpbrk_append_cons hword (hblank c List.mem_cons_self)

/-- Behind the word, the gap is skipped. -/
theorem drop_gap {word gap rest : Bytes} (hgap : gap ≠ []) (hblank : ∀ c ∈ gap, c ∈ accept)
    (hrest : ∀ c, rest.head? = some c → c ∉ accept) :
    (word ++ gap ++ rest).drop (word.length + 1 +
      strspn ((word ++ gap ++ rest).drop (word.length + 1)) accept) = rest := by
  cases gap with
  | nil => exact absurd rfl hgap
  | cons c gap =>
      have hdrop : (word ++ c :: gap ++ rest).drop (word.length + 1) = gap ++ rest := by
        rw [List.append_assoc, List.cons_append, List.drop_append]
        simp
      have hskip : ∀ c ∈ gap, c ∈ accept := fun c hc => hblank c (List.mem_cons_of_mem _ hc)
      rw [← List.drop_drop, hdrop, drop_strspn, List.dropWhile_append_of_pos]
      · rw [← drop_strspn]
        exact drop_strspn_of_head hrest
      · intro c hc
        simpa using hskip c hc

end words

namespace HttpRequest

theorem not_blank_of_strcasecmp {word name : Bytes} (h : strcasecmpEq word name)
    (hname : ∀ c ∈ name, toupper c ∉ blanks) : ∀ c ∈ word, c ∉ blanks := by
  have hmap : word.map toupper = name.map toupper := by simpa [strcasecmpEq] using h
  intro c hc hblank
  have hsmall : ∀ c ∈ blanks, toupper c = c := by decide +kernel
  have hmem : toupper c ∈ name.map toupper := hmap ▸ List.mem_map_of_mem hc
  obtain ⟨d, hd, heq⟩ := List.mem_map.mp hmem
  apply hname d hd
  rw [heq, hsmall c hblank]
  exact hblank

theorem IsMethod.not_blank {word : Bytes} (h : IsMethod word) : ∀ c ∈ word, c ∉ blanks := by
  rcases h with h | h
  · exact not_blank_of_strcasecmp h (by decide +kernel)
  · exact not_blank_of_strcasecmp h (by decide +kernel)

theorem IsVersion.not_blank {word : Bytes} (h : IsVersion word) : ∀ c ∈ word, c ∉ blanks := by
  rcases h with h | h
  · exact not_blank_of_strcasecmp h (by decide +kernel)
  · exact not_blank_of_strcasecmp h (by decide +kernel)

theorem methodOf_isSome {word : Bytes} : (∃ m, methodOf word = some m) ↔ IsMethod word := by
  unfold methodOf IsMethod
  split
  · rename_i hget
    exact iff_of_true ⟨_, rfl⟩ (Or.inl hget)
  · rename_i hget
    split
    · rename_i hpost
      exact iff_of_true ⟨_, rfl⟩ (Or.inr hpost)
    · rename_i hpost
      simp [hget, hpost]

theorem versionOf_isSome {word : Bytes} : (∃ v, versionOf word = some v) ↔ IsVersion word := by
  unfold versionOf IsVersion
  split
  · rename_i hone
    exact iff_of_true ⟨_, rfl⟩ (Or.inr hone)
  · rename_i hone
    split
    · rename_i hzero
      exact iff_of_true ⟨_, rfl⟩ (Or.inl hzero)
    · rename_i hzero
      simp [hone, hzero]

/-- The searches find the target of the lines that frame one, and only of these. -/
theorem requestTarget_eq_some {line target : Bytes} :
    requestTarget line = some target ↔ Frames line target := by
  constructor
  · intro h
    simp only [requestTarget, Option.bind_eq_bind, Option.bind_eq_some_iff, Option.pure_def,
      Option.some.injEq] at h
    obtain ⟨i, hi, m, hm, j, hj, v, hv, rfl⟩ := h
    obtain ⟨gap₁, hline, hne₁, hblank₁⟩ := strpbrk_word hi
    have hhead := @head_drop_strspn (line.drop (i + 1)) blanks
    rw [List.drop_drop] at hhead
    generalize line.drop (i + 1 + strspn (line.drop (i + 1)) blanks) = url at hline hj hv hhead ⊢
    obtain ⟨gap₂, hurl, hne₂, hblank₂⟩ := strpbrk_word hj
    rw [List.drop_drop] at hv
    refine ⟨line.take i, gap₁, gap₂, _, ?_, methodOf_isSome.mp ⟨m, hm⟩, ⟨hne₁, hblank₁⟩,
      ⟨?_, not_mem_of_strpbrk hj⟩, ⟨hne₂, hblank₂⟩, versionOf_isSome.mp ⟨v, hv⟩⟩
    · rw [← hurl]
      exact hline
    · -- the gap before it was skipped to its end
      intro hnil
      rw [hnil, List.nil_append] at hurl
      obtain ⟨c, gap, rfl⟩ := List.exists_cons_of_ne_nil hne₂
      refine hhead c ?_ (hblank₂ c List.mem_cons_self)
      rw [hurl]
      rfl
  · rintro ⟨method, gap₁, gap₂, version, rfl, hmethod, hgap₁, htarget, hgap₂, hversion⟩
    obtain ⟨m, hm⟩ := methodOf_isSome.mpr hmethod
    obtain ⟨v, hv⟩ := versionOf_isSome.mpr hversion
    have hurl : ∀ c, (target ++ gap₂ ++ version).head? = some c → c ∉ blanks := by
      obtain ⟨c, target, rfl⟩ := List.exists_cons_of_ne_nil htarget.nonempty
      intro d hd
      cases hd
      exact htarget.plain c List.mem_cons_self
    have hhead : ∀ c, version.head? = some c → c ∉ blanks :=
      fun c hc => hversion.not_blank c (List.mem_of_mem_head? hc)
    -- the searches stop at the gaps
    have hi : strpbrk (method ++ gap₁ ++ (target ++ gap₂ ++ version)) blanks = _ :=
      strpbrk_gap hmethod.not_blank hgap₁.nonempty hgap₁.blank
    have hj : strpbrk (target ++ gap₂ ++ version) blanks = _ :=
      strpbrk_gap htarget.plain hgap₂.nonempty hgap₂.blank
    have hrest := @drop_gap blanks method _ _ hgap₁.nonempty hgap₁.blank hurl
    have hlast : ((target ++ gap₂ ++ version).drop (target.length + 1)).drop
        (strspn ((target ++ gap₂ ++ version).drop (target.length + 1)) blanks) = version := by
      rw [List.drop_drop]
      exact drop_gap hgap₂.nonempty hgap₂.blank hhead
    have htake : (method ++ gap₁ ++ (target ++ gap₂ ++ version)).take method.length = method := by
      rw [List.append_assoc]
      exact List.take_left' rfl
    have htake' : (target ++ gap₂ ++ version).take target.length = target := by
      rw [List.append_assoc]
      exact List.take_left' rfl
    simp only [requestTarget, hi, Option.bind_eq_bind, Option.bind_some, htake, hm, hrest, hj,
      hlast, hv, htake', Option.pure_def]

/-! ## §3  Targets -/

theorem strchr_authority {authority rest : Bytes} (h : slash ∉ authority) :
    strchr (authority ++ slash :: rest) slash = some (slash :: rest) := by
  unfold strchr
  induction authority with
  | nil => rfl
  | cons c authority ih =>
      have hc : c ≠ slash := fun heq => h (heq ▸ List.mem_cons_self)
      have hrest := ih fun hmem => h (List.mem_cons_of_mem c hmem)
      obtain ⟨i, hi, hdrop⟩ := Option.map_eq_some_iff.mp hrest
      rw [List.cons_append, List.findIdx?_cons, if_neg (by simpa using hc), hi]
      exact congrArg some hdrop

theorem strchr_eq_none {s : Bytes} : strchr s slash = none ↔ slash ∉ s := by
  simp only [strchr, Option.map_eq_none_iff, List.findIdx?_eq_none_iff, beq_eq_false_iff_ne]
  exact ⟨fun h hmem => h slash hmem rfl, fun h c hc heq => h (heq ▸ hc)⟩

theorem strchr_eq_some {s t : Bytes} (h : strchr s slash = some t) :
    ∃ authority rest, s = authority ++ slash :: rest ∧ t = slash :: rest ∧ slash ∉ authority := by
  obtain ⟨i, hi, rfl⟩ := Option.map_eq_some_iff.mp h
  obtain ⟨hlt, hfound, hbefore⟩ := List.findIdx?_eq_some_iff_getElem.mp hi
  have hslash : s[i] = slash := by simpa using hfound
  have hdrop : s.drop i = slash :: s.drop (i + 1) := by
    rw [List.drop_eq_getElem_cons hlt, hslash]
  refine ⟨s.take i, s.drop (i + 1), ?_, hdrop, ?_⟩
  · rw [← hdrop, List.take_append_drop]
  · intro hmem
    obtain ⟨j, hj, heq⟩ := List.mem_take_iff_getElem.mp hmem
    have hnot := hbefore j (by omega)
    exact hnot (by simpa using heq)

/-- Where the scheme is there, the rest from the first `/` behind it. -/
theorem skipDomain_of_scheme {scheme word tail : Bytes} (h : strcasecmpEq word scheme) :
    skipDomain (word ++ tail) scheme = strchr tail slash := by
  have hmap : word.map toupper = scheme.map toupper := by simpa [strcasecmpEq] using h
  have hlength : word.length = scheme.length := by simpa using congrArg List.length hmap
  have hprefix : strncasecmpEq (word ++ tail) scheme scheme.length := by
    rw [strncasecmpEq, ← hlength, List.take_left' rfl, hlength, List.take_length, hmap]
    exact beq_self_eq_true _
  rw [skipDomain, if_pos hprefix, ← hlength, List.drop_left' rfl]

theorem skipDomain_of_not {url scheme : Bytes}
    (h : strncasecmpEq url scheme scheme.length = false) : skipDomain url scheme = some url := by
  rw [skipDomain, if_neg (by simpa using h)]

/-- The scheme is not there, nothing but the authority is behind it, or a `/` is. -/
theorem skipDomain_cases (target scheme : Bytes) :
    (strncasecmpEq target scheme scheme.length = false ∧ skipDomain target scheme = some target) ∨
      ∃ word tail, target = word ++ tail ∧ strcasecmpEq word scheme ∧
        (slash ∉ tail ∧ skipDomain target scheme = none ∨
          ∃ authority rest, tail = authority ++ slash :: rest ∧ slash ∉ authority ∧
            skipDomain target scheme = some (slash :: rest)) := by
  cases hfound : strncasecmpEq target scheme scheme.length with
  | false => exact Or.inl ⟨rfl, skipDomain_of_not hfound⟩
  | true =>
      right
      have hword : strcasecmpEq (target.take scheme.length) scheme := by
        rw [strncasecmpEq, List.take_length] at hfound
        exact hfound
      have hsplit := List.take_append_drop scheme.length target
      have hskip := @skipDomain_of_scheme _ _ (target.drop scheme.length) hword
      rw [hsplit] at hskip
      refine ⟨_, _, hsplit.symm, hword, ?_⟩
      rw [hskip]
      cases hstr : strchr (target.drop scheme.length) slash with
      | none => exact Or.inl ⟨strchr_eq_none.mp hstr, rfl⟩
      | some t =>
          obtain ⟨authority, rest, htail, rfl, hnot⟩ := strchr_eq_some hstr
          exact Or.inr ⟨authority, rest, htail, hnot, rfl⟩

/-- Neither scheme starts with a `/`. -/
theorem strncasecmp_slash {scheme rest : Bytes}
    (hscheme : ∃ c t, scheme = c :: t ∧ toupper slash ≠ toupper c) :
    strncasecmpEq (slash :: rest) scheme scheme.length = false := by
  obtain ⟨c, t, rfl, hne⟩ := hscheme
  simp only [strncasecmpEq, List.length_cons, List.take_succ_cons, List.map_cons,
    beq_eq_false_iff_ne, ne_eq, List.cons.injEq, not_and]
  exact fun heq => absurd heq hne

/-- `https://` is not taken for `http://`. -/
theorem strncasecmp_https {word tail : Bytes} (h : strcasecmpEq word (ascii "https://")) :
    strncasecmpEq (word ++ tail) (ascii "http://") (ascii "http://").length = false := by
  have hmap : word.map toupper = (ascii "https://").map toupper := by simpa [strcasecmpEq] using h
  have hlength : word.length = 8 := by
    rw [← @List.length_map _ _ word toupper, hmap]
    rfl
  have htake : ((word ++ tail).take 7).map toupper = ((ascii "https://").map toupper).take 7 := by
    rw [List.take_append_of_le_length (by omega), List.map_take, hmap]
  rw [strncasecmpEq, show (ascii "http://").length = 7 from rfl, htake]
  decide +kernel

/-- A target names a path exactly if it has one of the two forms. -/
theorem pathOf_eq_ok {target path : Bytes} :
    pathOf target = .ok (some path) ↔ Target target path := by
  have hslash : ∀ rest, skipDomain (slash :: rest) (ascii "https://") = some (slash :: rest) :=
    fun rest => skipDomain_of_not
      (@strncasecmp_slash (ascii "https://") rest ⟨_, _, rfl, by decide⟩)
  constructor
  · intro h
    unfold pathOf at h
    -- `http://` first, then `https://` in what is left
    rcases skipDomain_cases target (ascii "http://") with
      ⟨-, hskip⟩ | ⟨scheme, tail, rfl, hscheme, ⟨-, hskip⟩ | ⟨authority, rest, rfl, hnot, hskip⟩⟩
    · rw [hskip] at h
      rcases skipDomain_cases target (ascii "https://") with
        ⟨-, hskip'⟩ | ⟨scheme, tail, rfl, hscheme, ⟨-, hskip'⟩ | ⟨authority, rest, rfl, hnot, hskip'⟩⟩
      · simp only [hskip', Except.ok.injEq] at h
        split at h
        · rename_i hhead
          obtain ⟨rest, rfl⟩ := List.head?_eq_some_iff.mp hhead
          cases h
          exact Target.origin rest
        · cases h
      · simp only [hskip'] at h
        cases h
      · simp only [hskip', List.head?_cons, if_true, Except.ok.injEq, Option.some.injEq] at h
        rw [← h, ← List.append_assoc]
        exact Target.absolute scheme authority rest (Or.inr hscheme) hnot
    · rw [hskip] at h
      cases h
    · simp only [hskip, hslash, List.head?_cons, if_true, Except.ok.injEq, Option.some.injEq] at h
      rw [← h, ← List.append_assoc]
      exact Target.absolute scheme authority rest (Or.inl hscheme) hnot
  · intro h
    unfold pathOf
    cases h with
    | origin rest =>
        rw [skipDomain_of_not (@strncasecmp_slash (ascii "http://") rest ⟨_, _, rfl, by decide⟩)]
        simp only [hslash, List.head?_cons, if_true]
    | absolute scheme authority rest hscheme hnot =>
        rw [List.append_assoc]
        rcases hscheme with hscheme | hscheme
        · rw [skipDomain_of_scheme hscheme, strchr_authority hnot]
          simp only [hslash, List.head?_cons, if_true]
        · rw [skipDomain_of_not (strncasecmp_https hscheme)]
          simp only [skipDomain_of_scheme hscheme, strchr_authority hnot, List.head?_cons, if_true]

/-- The null pointer: `http://` and an authority that ends the target. -/
theorem skipDomain_eq_none {target : Bytes} :
    skipDomain target (ascii "http://") = none ↔
      ∃ scheme authority, target = scheme ++ authority ∧
        strcasecmpEq scheme (ascii "http://") ∧ slash ∉ authority := by
  constructor
  · intro h
    rcases skipDomain_cases target (ascii "http://") with
      ⟨-, hskip⟩ | ⟨scheme, tail, hsplit, hscheme, ⟨hnot, -⟩ | ⟨authority, rest, -, -, hskip⟩⟩
    · rw [h] at hskip
      cases hskip
    · exact ⟨scheme, tail, hsplit, hscheme, hnot⟩
    · rw [h] at hskip
      cases hskip
  · rintro ⟨scheme, authority, rfl, hscheme, hnot⟩
    rw [skipDomain_of_scheme hscheme]
    exact strchr_eq_none.mpr hnot

/-! ## §4  The function -/

variable {J : Type}

/-- What `ParseRequestLine` does with the target it has found. -/
theorem parseRequestLine_target (q : HttpRequest J) (line : Bytes) :
    match requestTarget line with
    | none => ∃ q' nuls, parseRequestLine q line = .ok (false, q', nuls)
    | some target =>
        match pathOf target with
        | .error e => parseRequestLine q line = .error e
        | .ok none => ∃ q' nuls, parseRequestLine q line = .ok (false, q', nuls)
        | .ok (some path) => ∃ q' nuls, parseRequestLine q line = .ok (true, q', nuls) ∧
            q'.path = path := by
  unfold requestTarget parseRequestLine
  cases strpbrk line blanks with
  | none => exact ⟨_, _, rfl⟩
  | some i =>
      simp only [Option.bind_eq_bind, Option.bind_some]
      cases methodOf (line.take i) with
      | none => exact ⟨_, _, rfl⟩
      | some method =>
          simp only [Option.bind_some]
          generalize line.drop (i + 1 + strspn (line.drop (i + 1)) blanks) = url
          cases strpbrk url blanks with
          | none => exact ⟨_, _, rfl⟩
          | some j =>
              simp only [Option.bind_some]
              generalize (url.drop (j + 1)).drop (strspn (url.drop (j + 1)) blanks) = token
              cases versionOf token with
              | none => exact ⟨_, _, rfl⟩
              | some version =>
                  simp only [Option.bind_some, Option.pure_def]
                  rcases pathOf (url.take j) with e | (- | path)
                  · rfl
                  · exact ⟨_, _, rfl⟩
                  · exact ⟨_, _, rfl, rfl⟩

/-- `ParseRequestLine` answers whether the line is a request line, and stores its path. -/
def DecidesGrammar (q : HttpRequest J) (line : Bytes) : Prop :=
  ∃ ok q' nuls, parseRequestLine q line = .ok (ok, q', nuls) ∧
    (ok = true ↔ ∃ path, RequestLine line path) ∧ ∀ path, RequestLine line path → q'.path = path

/-- **The request line.** Of every C string `ParseRequestLine` says whether it is a request
line, and stores the path it names, except for a line whose target is `http://` with an
authority and nothing behind it; there it goes on through a null pointer. -/
theorem parseRequestLine_grammar_iff (q : HttpRequest J) (line : Bytes) :
    DecidesGrammar q line ↔ ¬ BareHttp line := by
  have hparse := parseRequestLine_target q line
  cases htarget : requestTarget line with
  | none =>
      have hnone : ∀ target, ¬ Frames line target := by
        intro target hframes
        rw [requestTarget_eq_some.mpr hframes] at htarget
        cases htarget
      rw [htarget] at hparse
      obtain ⟨q', nuls, hparse⟩ := hparse
      refine iff_of_true ⟨false, q', nuls, hparse, ?_, ?_⟩ ?_
      · apply iff_of_false Bool.false_ne_true
        rintro ⟨path, target, hframes, -⟩
        exact hnone target hframes
      · rintro path ⟨target, hframes, -⟩
        exact absurd hframes (hnone target)
      · rintro ⟨scheme, authority, hframes, -⟩
        exact hnone _ hframes
  | some target =>
      have hframes := requestTarget_eq_some.mp htarget
      -- a line frames one target
      have honly : ∀ other, Frames line other → other = target := by
        intro other hother
        exact Option.some.inj ((requestTarget_eq_some.mpr hother).symm.trans htarget)
      have hline : ∀ path, RequestLine line path ↔ pathOf target = .ok (some path) := by
        intro path
        rw [pathOf_eq_ok]
        constructor
        · rintro ⟨other, hother, hpath⟩
          exact honly other hother ▸ hpath
        · exact fun hpath => ⟨target, hframes, hpath⟩
      have hbare : BareHttp line ↔ ∃ e, pathOf target = .error e := by
        rw [pathOf_eq_error, skipDomain_eq_none]
        constructor
        · rintro ⟨scheme, authority, hother, hscheme, hnot⟩
          exact ⟨scheme, authority, (honly _ hother).symm, hscheme, hnot⟩
        · rintro ⟨scheme, authority, rfl, hscheme, hnot⟩
          exact ⟨scheme, authority, hframes, hscheme, hnot⟩
      rw [htarget] at hparse
      rw [hbare]
      simp only [DecidesGrammar, hline]
      rcases hpath : pathOf target with e | (- | path)
      · -- the null pointer
        simp only [hpath] at hparse
        refine iff_of_false ?_ (fun hnot => hnot ⟨e, rfl⟩)
        rintro ⟨ok, q', nuls, hok, -⟩
        rw [hparse] at hok
        cases hok
      · simp only [hpath] at hparse
        obtain ⟨q', nuls, hparse⟩ := hparse
        exact iff_of_true ⟨false, q', nuls, hparse, by simp, by simp⟩ (by simp)
      · simp only [hpath] at hparse
        obtain ⟨q', nuls, hparse, hstored⟩ := hparse
        refine iff_of_true ⟨true, q', nuls, hparse, by simp, ?_⟩ (by simp)
        intro other hother
        cases hother
        exact hstored

/-- A target that ends with its authority. -/
theorem parseRequestLine_null :
    ¬ ∀ (q : HttpRequest (Option HeaderMap)) (line : Bytes), NUL ∉ line →
      DecidesGrammar q line := by
  intro h
  obtain ⟨ok, q', nuls, hparse, -⟩ :=
    h blankForm (ascii "GET http://a HTTP/1.1") (by decide +kernel)
  have hnull : (parseRequestLine blankForm (ascii "GET http://a HTTP/1.1")).isOk = false := by
    decide +kernel
  rw [hparse] at hnull
  cases hnull

end HttpRequest

end WhiteWebServer
