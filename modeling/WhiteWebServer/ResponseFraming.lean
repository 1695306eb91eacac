import WhiteWebServer.ResponseText
import WhiteWebServer.Suspended
import WhiteWebServer.RequestHead

/-!
# The length a response announces

The Content-Length of a response should count the bytes behind its header block. §1 a header
block as a client reads it; §2 what can be in front of the Content-Length that `AddContent`
writes; §3 the lengths; §4 for which files and names the response frames its body.
-/

namespace WhiteWebServer

open HttpRequest Outcome

/-! ## §1  Reading a header block -/

/-- The lines up to the first empty one, and what follows that. -/
def headBlock (text : Bytes) : Option (List Bytes × Bytes) :=
  match _h : splitLine text with
  | none => none
  | some (line, rest) =>
      if line = [] then some ([], rest)
      else (headBlock rest).map fun block => (line :: block.1, block.2)
termination_by text.length
decreasing_by exact splitLine_length _h

/-- The value of a line `Content-Length: value`, the name in any letter case. -/
def lengthField (line : Bytes) : Option Bytes :=
  if colon ∈ line ∧ strcasecmpEq (line.takeWhile (· != colon)) (ascii "Content-Length") then
    some (((line.dropWhile (· != colon)).drop 1).dropWhile (blanks.contains ·))
  else none

/-- `value` is the number `n` in decimal digits. -/
structure IsNumber (value : Bytes) (n : Nat) : Prop where
  nonempty : value ≠ []
  digits : ∀ c ∈ value, isdigit c
  value : digitsValue value = n

/-- There is exactly one Content-Length, and it is `n`. -/
def OneLength (lines : List Bytes) (n : Nat) : Prop :=
  ∃ value, lines.filterMap lengthField = [value] ∧ IsNumber value n

/-- The one Content-Length in the header block counts the bytes behind it and `mapped` more. -/
def Frames (text : Bytes) (mapped : Nat) : Prop :=
  ∃ lines body, headBlock text = some (lines, body) ∧ OneLength lines (body.length + mapped)

section reading

variable {text line rest u v : Bytes} {lines : List Bytes}

theorem headBlock_none (h : splitLine text = none) : headBlock text = none := by
  rw [headBlock]
  split
  · rfl
  · simp_all

theorem headBlock_some (h : splitLine text = some (line, rest)) :
    headBlock text =
      if line = [] then some ([], rest)
      else (headBlock rest).map fun block => (line :: block.1, block.2) := by
  rw [headBlock]
  split
  · simp_all
  · rename_i line' rest' h'
    rw [h] at h'
    obtain ⟨rfl, rfl⟩ : line = line' ∧ rest = rest' := by simpa using h'
    rfl

/-- `text` is whole lines, none of them empty. -/
structure OpenHead (text : Bytes) (lines : List Bytes) : Prop where
  text : text = WireRequest.joinLines lines
  plain : ∀ line ∈ lines, line ≠ [] ∧ LF ∉ line

theorem OpenHead.block_append : ∀ {lines : List Bytes} {text : Bytes}, OpenHead text lines → ∀ v,
    headBlock (text ++ v) = (headBlock v).map fun block => (lines ++ block.1, block.2) := by
  intro lines
  induction lines with
  | nil =>
      rintro text ⟨rfl, -⟩ v
      show headBlock v = _
      cases headBlock v <;> rfl
  | cons line lines ih =>
      rintro text ⟨rfl, hplain⟩ v
      obtain ⟨hne, hlf⟩ := hplain line (by simp)
      have hs : splitLine (WireRequest.joinLines (line :: lines) ++ v) =
          some (line, WireRequest.joinLines lines ++ v) := by
        refine splitLine_eq_some.mpr ⟨?_, hlf⟩
        simp [WireRequest.joinLines, crlf]
      rw [headBlock_some hs, if_neg hne, ih ⟨rfl, fun l hl => hplain l (by simp [hl])⟩ v]
      cases headBlock v <;> rfl

theorem OpenHead.unfinished (h : OpenHead text lines) : headBlock text = none := by
  have hblock := h.block_append []
  rwa [List.append_nil, headBlock_none (show splitLine [] = none from rfl)] at hblock

/-- A complete header block is read whatever follows it. -/
theorem headBlock_append {lines : List Bytes} {rest : Bytes} (h : headBlock u = some (lines, rest))
    (v : Bytes) : headBlock (u ++ v) = some (lines, rest ++ v) := by
  induction hlen : u.length using Nat.strong_induction_on generalizing u lines with
  | _ len ih =>
      cases hs : splitLine u with
      | none =>
          rw [headBlock_none hs] at h
          cases h
      | some p =>
          obtain ⟨line, tail⟩ := p
          rw [headBlock_some hs] at h
          rw [headBlock_some (splitLine_append hs v)]
          by_cases hline : line = []
          · rw [if_pos hline] at h ⊢
            cases h
            rfl
          · rw [if_neg hline, Option.map_eq_some_iff] at h
            obtain ⟨⟨lines', rest'⟩, htail, heq⟩ := h
            cases heq
            rw [if_neg hline, ih _ (hlen ▸ splitLine_length hs) htail rfl]
            rfl

/-- What ends in an LF is whole lines, or holds an empty line, or has a bare LF that no
reader gets past. -/
theorem headBlock_cases (h : text ≠ [] → text.getLast? = some LF) :
    (∃ lines, OpenHead text lines) ∨ (∃ block, headBlock text = some block) ∨
      ∀ v, headBlock (text ++ v) = none := by
  induction hlen : text.length using Nat.strong_induction_on generalizing text with
  | _ len ih =>
      cases hs : splitLine text with
      | none =>
          by_cases hnil : text = []
          · subst hnil
            exact Or.inl ⟨[], rfl, by simp⟩
          · have hlf : LF ∈ text := List.mem_of_getLast? (h hnil)
            exact Or.inr (Or.inr fun v => headBlock_none (splitLine_bare hs hlf v))
      | some p =>
          obtain ⟨line, rest⟩ := p
          obtain ⟨hsplit, hlf⟩ := splitLine_eq_some.mp hs
          by_cases hline : line = []
          · exact Or.inr (Or.inl ⟨([], rest), by rw [headBlock_some hs, if_pos hline]⟩)
          · -- what is behind the line ends as the whole does
            have hrest : rest ≠ [] → rest.getLast? = some LF := by
              intro hne
              have hlast := h (by rw [hsplit]; simp)
              rw [hsplit, List.getLast?_append_of_ne_nil _ (by simp), List.getLast?_cons_cons,
                List.getLast?_cons_of_ne_nil hne] at hlast
              exact hlast
            rcases ih _ (hlen ▸ splitLine_length hs) hrest rfl with
              ⟨lines, hopen⟩ | ⟨block, hblock⟩ | hbroken
            · refine Or.inl ⟨line :: lines, ?_, ?_⟩
              · rw [hsplit, hopen.text]
                simp [WireRequest.joinLines, crlf]
              · intro l hl
                rcases List.mem_cons.mp hl with rfl | hl
                · exact ⟨hline, hlf⟩
                · exact hopen.plain l hl
            · refine Or.inr (Or.inl ⟨(line :: block.1, block.2), ?_⟩)
              rw [headBlock_some hs, if_neg hline, hblock]
              rfl
            · refine Or.inr (Or.inr fun v => ?_)
              rw [headBlock_some (splitLine_append hs v), if_neg hline, hbroken v]
              rfl

/-- A header line is read as its name and value. -/
theorem lengthField_line {name value : Bytes} (hname : colon ∉ name) :
    lengthField (name ++ ascii ": " ++ value) =
      if strcasecmpEq name (ascii "Content-Length") then
        some (value.dropWhile (blanks.contains ·))
      else none := by
  have hall : ∀ c ∈ name, (c != colon) = true := by
    intro c hc
    exact bne_iff_ne.mpr fun heq => hname (heq ▸ hc)
  have hline : name ++ ascii ": " ++ value = name ++ colon :: SP :: value := by
    rw [List.append_assoc]
    rfl
  have hfalse : ¬ (colon != colon) = true := by simp
  rw [hline, lengthField, List.takeWhile_append_of_pos hall, List.dropWhile_append_of_pos hall,
    List.takeWhile_cons_of_neg (p := fun c => c != colon) hfalse,
    List.dropWhile_cons_of_neg (p := fun c => c != colon) hfalse, List.append_nil]
  have hmem : colon ∈ name ++ colon :: SP :: value := by simp
  have hblank : (SP :: value).dropWhile (blanks.contains ·) = value.dropWhile (blanks.contains ·) :=
    List.dropWhile_cons_of_pos (by decide)
  simp only [hmem, true_and, List.drop_succ_cons, List.drop_zero, hblank]

end reading

/-! ## §2  In front of the Content-Length -/

section frames

variable {text body value : Bytes} {lines : List Bytes} {mapped : Nat}

/-- The end of a header block: a Content-Length, the empty line and the body. -/
def lengthEnd (value body : Bytes) : Bytes :=
  HttpResponse.headerText (ascii "Content-Length") (value ++ crlf) ++ body

theorem lengthEnd_eq (value body : Bytes) :
    lengthEnd value body =
      (ascii "Content-Length" ++ ascii ": " ++ value) ++ crlf ++ (crlf ++ body) := by
  simp only [lengthEnd, HttpResponse.headerText, List.append_assoc]

theorem headBlock_lengthEnd (hvalue : LF ∉ value) (body : Bytes) :
    headBlock (lengthEnd value body) =
      some ([ascii "Content-Length" ++ ascii ": " ++ value], body) := by
  have hline : LF ∉ ascii "Content-Length" ++ ascii ": " ++ value := by
    rw [List.mem_append, not_or]
    exact ⟨by decide, hvalue⟩
  have hs : splitLine (lengthEnd value body) =
      some (ascii "Content-Length" ++ ascii ": " ++ value, crlf ++ body) := by
    refine splitLine_eq_some.mpr ⟨?_, hline⟩
    rw [lengthEnd_eq, List.append_assoc]
    rfl
  have hempty : splitLine (crlf ++ body) = some ([], body) :=
    splitLine_eq_some.mpr ⟨rfl, List.not_mem_nil⟩
  rw [headBlock_some hs, if_neg (by simp [ascii]), headBlock_some hempty, if_pos rfl]
  rfl

/-- Behind whole lines, the Content-Length is read if it is the only one. -/
theorem OpenHead.frames_iff (h : OpenHead text lines) (hne : value ≠ [])
    (hdigits : ∀ c ∈ value, isdigit c) :
    Frames (text ++ lengthEnd value body) mapped ↔
      lines.filterMap lengthField = [] ∧ digitsValue value = body.length + mapped := by
  have hvalue : LF ∉ value := fun hmem => absurd (hdigits LF hmem) (by decide)
  -- digits are no blanks
  have hfield : lengthField (ascii "Content-Length" ++ ascii ": " ++ value) = some value := by
    rw [lengthField_line (by decide), if_pos (by decide)]
    congr 1
    cases value with
    | nil => rfl
    | cons c value =>
        have hc : ¬ blanks.contains c = true := by
          have hdigit := hdigits c (by simp)
          intro hblank
          have hmem : c ∈ blanks := by simpa using hblank
          simp only [blanks, List.mem_cons, List.not_mem_nil, or_false] at hmem
          rcases hmem with rfl | rfl <;> revert hdigit <;> decide
        exact List.dropWhile_cons_of_neg hc
  have hblock : headBlock (text ++ lengthEnd value body) =
      some (lines ++ [ascii "Content-Length" ++ ascii ": " ++ value], body) := by
    rw [h.block_append, headBlock_lengthEnd hvalue]
    rfl
  have hfields : (lines ++ [ascii "Content-Length" ++ ascii ": " ++ value]).filterMap lengthField =
      lines.filterMap lengthField ++ [value] := by
    rw [List.filterMap_append, List.filterMap_cons_some hfield, List.filterMap_nil]
  constructor
  · rintro ⟨lines', body', hread, value', hone, hnumber⟩
    rw [hblock] at hread
    cases hread
    rw [hfields] at hone
    obtain ⟨hnil, hsame⟩ : lines.filterMap lengthField = [] ∧ value = value' := by
      cases hl : lines.filterMap lengthField with
      | nil =>
          rw [hl] at hone
          exact ⟨rfl, by simpa using hone⟩
      | cons a l =>
          rw [hl] at hone
          simp at hone
    exact ⟨hnil, hsame ▸ hnumber.value⟩
  · rintro ⟨hnil, hcount⟩
    refine ⟨_, body, hblock, value, ?_, hne, hdigits, hcount⟩
    rw [hfields, hnil, List.nil_append]

/-- A block that ends before is read without it. -/
theorem frames_of_block {rest more : Bytes} (h : headBlock text = some (lines, rest)) :
    Frames (text ++ more) mapped ↔ OneLength lines ((rest ++ more).length + mapped) := by
  constructor
  · rintro ⟨lines', body', hread, hone⟩
    rw [headBlock_append h] at hread
    cases hread
    exact hone
  · exact fun hone => ⟨lines, rest ++ more, headBlock_append h more, hone⟩

end frames

/-! ## §3  The lengths -/

namespace HttpResponse

variable {fs : FileSystem} {r : HttpResponse}

/-- The bytes of the mapped file that `iov_[1]` offers. -/
def mappedLength (fs : FileSystem) (r : HttpResponse) : Nat :=
  if errorPage fs r = none then toSize (toInt r.fileStat.size) else 0

/-- The number `AddContent` prints. -/
def printedLength (fs : FileSystem) (r : HttpResponse) : Bytes :=
  match errorPage fs r with
  | some page => decimal page.length
  | none => toString r.fileStat.size

theorem contentText_eq (fs : FileSystem) (r : HttpResponse) :
    contentText fs r = lengthEnd (printedLength fs r) ((errorPage fs r).getD []) := by
  unfold contentText printedLength lengthEnd
  cases errorPage fs r with
  | some page => rfl
  | none => exact (List.append_nil _).symm

/-- An `int` holds a file size below `2 ^ 31`, and no other is what it was. -/
theorem toSize_toInt_iff {size : Int} (hpos : 0 ≤ size) (hoff : size < 2 ^ 63) :
    toSize (toInt size) = size.toNat ↔ size < 2 ^ 31 := by
  rw [toSize, toInt, Int.bmod]
  omega

theorem isNumber_decimal (n : Nat) : IsNumber (decimal n) n := by
  refine ⟨?_, fun c hc => ?_, digitsValue_decimal n⟩
  · rw [decimal, ne_eq, List.map_eq_nil_iff]
    exact Nat.toDigits_ne_nil
  · obtain ⟨hlow, hhigh⟩ := mem_decimal hc
    rw [isdigit, Bool.and_eq_true, decide_eq_true_eq, decide_eq_true_eq]
    exact ⟨hlow, hhigh⟩

/-- What is printed counts the page, or is the size of the file. -/
theorem printedLength_number (hsize : errorPage fs r = none → 0 ≤ r.fileStat.size) :
    IsNumber (printedLength fs r)
      (match errorPage fs r with
      | some page => page.length
      | none => r.fileStat.size.toNat) := by
  unfold printedLength
  cases hpage : errorPage fs r with
  | some page => exact isNumber_decimal page.length
  | none =>
      simp only
      rw [toString, if_neg (not_lt.mpr (hsize hpage))]
      exact isNumber_decimal _

/-- The printed length is the scheduled one unless the file is too long for an `int`. -/
theorem printedLength_iff
    (hsize : errorPage fs r = none → 0 ≤ r.fileStat.size ∧ r.fileStat.size < 2 ^ 63) :
    digitsValue (printedLength fs r) = ((errorPage fs r).getD []).length + mappedLength fs r ↔
      (errorPage fs r = none → r.fileStat.size < 2 ^ 31) := by
  rw [(printedLength_number fun h => (hsize h).1).value, mappedLength]
  cases hpage : errorPage fs r with
  | some page => simp
  | none =>
      obtain ⟨hpos, hoff⟩ := hsize hpage
      simp only [Option.getD_none, List.length_nil, Nat.zero_add, if_true, forall_const]
      rw [eq_comm, toSize_toInt_iff hpos hoff]

/-! ## §4  Framed responses -/

/-- Every header in front of Content-Length is a line, none of them a Content-Length, and a
mapped file is shorter than `2 ^ 31` bytes. Or the headers hold an empty line, which only a
Location can bring, and the one Content-Length before it counts what is behind it. -/
def FramingHolds (fs : FileSystem) (r : HttpResponse) : Prop :=
  (∃ lines, OpenHead (headersText r) lines ∧ lines.filterMap lengthField = [] ∧
    (errorPage fs r = none → r.fileStat.size < 2 ^ 31)) ∨
  ∃ lines rest, headBlock (headersText r) = some (lines, rest) ∧
    OneLength lines ((rest ++ contentText fs r).length + mappedLength fs r)

theorem headersText_crlf (r : HttpResponse) : ∃ t, headersText r = t ++ crlf := by
  unfold headersText fields
  simp only [fieldsText_append, fieldsText_cons, fieldsText_nil, List.append_nil, headerText,
    ← List.append_assoc]
  exact ⟨_, rfl⟩

theorem frames_iff
    (hsize : errorPage fs r = none → 0 ≤ r.fileStat.size ∧ r.fileStat.size < 2 ^ 63) :
    Frames (headersText r ++ contentText fs r) (mappedLength fs r) ↔ FramingHolds fs r := by
  have hnumber := printedLength_number fun h => (hsize h).1
  have hlast : headersText r ≠ [] → (headersText r).getLast? = some LF := by
    obtain ⟨t, ht⟩ := headersText_crlf r
    intro _
    rw [ht, List.getLast?_append_of_ne_nil _ (by decide)]
    rfl
  unfold FramingHolds
  rcases headBlock_cases hlast with ⟨lines, hopen⟩ | ⟨⟨lines, rest⟩, hblock⟩ | hbroken
  · rw [contentText_eq, hopen.frames_iff hnumber.nonempty hnumber.digits, printedLength_iff hsize]
    constructor
    · exact fun h => Or.inl ⟨lines, hopen, h⟩
    · rintro (⟨lines', hopen', h⟩ | ⟨lines', rest, hblock, -⟩)
      · -- the text has one division into lines
        have hsame : lines' = lines := by
          have h₁ := hopen.block_append (lengthEnd [] [])
          rw [hopen'.block_append, headBlock_lengthEnd (by decide)] at h₁
          simp only [Option.map_some, Option.some.injEq, Prod.mk.injEq, and_true] at h₁
          exact List.append_cancel_right h₁
        exact hsame ▸ h
      · rw [hopen.unfinished] at hblock
        cases hblock
  · rw [frames_of_block hblock]
    constructor
    · exact fun hone => Or.inr ⟨lines, rest, hblock, hone⟩
    · rintro (⟨lines', hopen, -⟩ | ⟨lines', rest', hblock', hone⟩)
      · rw [hopen.unfinished] at hblock
        cases hblock
      · rw [hblock] at hblock'
        cases hblock'
        exact hone
  · apply iff_of_false
    · rintro ⟨lines, body, hread, -⟩
      rw [hbroken] at hread
      cases hread
    · rintro (⟨lines, hopen, -⟩ | ⟨lines, rest, hblock, -⟩)
      · have hread := hbroken (lengthEnd [] [])
        rw [hopen.block_append, headBlock_lengthEnd (by decide)] at hread
        cases hread
      · have hread := hbroken []
        rw [List.append_nil, hblock] at hread
        cases hread

/-! ### Without a line end in the name -/

/-- The headers that are the same in every response that has them. -/
def fixedFields : List (Bytes × Bytes) :=
  [(ascii "Connection", ascii "Close"), (ascii "Connection", ascii "keep-alive"),
    (ascii "keep-alive", ascii "max=6, timeout=120"),
    (ascii "Cache-Control", ascii "max-age=31536000"), (ascii "Server", ascii "WhiteWebServer")]

theorem mem_connectionFields {f : Bytes × Bytes} (h : f ∈ connectionFields r) :
    f = (ascii "Location", r.path) ∨ f ∈ fixedFields := by
  unfold connectionFields at h
  unfold fixedFields
  split at h
  · right
    simp_all
  · split at h
    · rcases List.mem_append.mp h with h | h
      · split at h
        · left
          simpa using h
        · cases h
      · right
        split at h
        · cases h
        · split at h
          · exact List.mem_cons_of_mem _ (List.mem_append_left [_, _] h)
          · exact List.mem_append_left [_, _, _, _] h
    · cases h

theorem mem_fields {f : Bytes × Bytes} (h : f ∈ fields r) :
    f = (ascii "Location", r.path) ∨ f = (ascii "Content-type", r.getFileType) ∨
      f ∈ fixedFields := by
  unfold fields at h
  rcases List.mem_append.mp h with h | h
  · exact (mem_connectionFields h).imp_right Or.inr
  · right
    rcases List.mem_cons.mp h with h | h
    · exact Or.inl h
    · right
      unfold fixedFields
      rcases List.mem_append.mp h with h | h
      · split at h <;> simp_all
      · simp_all

theorem mem_of_lookup {α β : Type} [BEq α] [LawfulBEq α] {table : List (α × β)} {key : α}
    {value : β} (h : table.lookup key = some value) : (key, value) ∈ table := by
  obtain ⟨before, behind, rfl, -⟩ := List.lookup_eq_some_iff.mp h
  simp

theorem getFileType_lf (r : HttpResponse) : LF ∉ r.getFileType := by
  have htable : ∀ f ∈ kSuffixType, LF ∉ f.2 := by decide
  unfold getFileType
  split
  · decide
  · split
    · decide
    · rename_i suffix _
      cases hlookup : kSuffixType.lookup suffix with
      | none => decide
      | some value => exact htable _ (mem_of_lookup hlookup)

theorem decimal_lf (n : Nat) : LF ∉ decimal n := by
  intro hmem
  have hlow := (mem_decimal hmem).1
  revert hlow
  decide

theorem toString_lf (n : Int) : LF ∉ toString n := by
  unfold toString
  split
  · rw [List.mem_cons, not_or]
    exact ⟨by decide, decimal_lf _⟩
  · exact decimal_lf _

theorem statusLine_lf (h : LF ∉ r.version) : LF ∉ statusLine r := by
  have htable : ∀ f ∈ kCodeStatus, LF ∉ f.2 := by decide
  have hcode : LF ∉ toString r.responseCode := toString_lf _
  have hstatus : LF ∉ (kCodeStatus.lookup r.responseCode).getD (ascii "Bad Request") := by
    cases hlookup : kCodeStatus.lookup r.responseCode with
    | none => decide
    | some status => exact htable _ (mem_of_lookup hlookup)
  have hhttp : LF ∉ ascii "HTTP/" := by decide
  have hspace : LF ∉ ascii " " := by decide
  simp only [statusLine, List.mem_append, not_or]
  exact ⟨⟨⟨⟨⟨hhttp, h⟩, hspace⟩, hcode⟩, hspace⟩, hstatus⟩

theorem lengthField_statusLine (r : HttpResponse) : lengthField (statusLine r) = none := by
  unfold lengthField
  rw [if_neg]
  rintro ⟨-, hname⟩
  have hstart : ∃ t, statusLine r = 72 :: t := by
    simp only [statusLine, List.append_assoc]
    exact ⟨_, rfl⟩
  obtain ⟨t, ht⟩ := hstart
  rw [ht, List.takeWhile_cons_of_pos (by decide)] at hname
  simp only [strcasecmpEq, List.map_cons, ascii] at hname
  have hhead := (List.cons.inj (beq_iff_eq.mp hname)).1
  revert hhead
  decide

/-- No name that `AddHeader` writes is that of a Content-Length. -/
theorem fields_name_plain {f : Bytes × Bytes} (h : f ∈ fields r) :
    colon ∉ f.1 ∧ strcasecmpEq f.1 (ascii "Content-Length") = false ∧ LF ∉ f.1 := by
  have hfixed : ∀ f ∈ fixedFields,
      colon ∉ f.1 ∧ strcasecmpEq f.1 (ascii "Content-Length") = false ∧ LF ∉ f.1 := by
    decide
  have hlocation : colon ∉ ascii "Location" ∧
      strcasecmpEq (ascii "Location") (ascii "Content-Length") = false ∧ LF ∉ ascii "Location" := by
    decide
  have htype : colon ∉ ascii "Content-type" ∧
      strcasecmpEq (ascii "Content-type") (ascii "Content-Length") = false ∧
      LF ∉ ascii "Content-type" := by
    decide
  rcases mem_fields h with rfl | rfl | h
  · exact hlocation
  · exact htype
  · exact hfixed f h

/-- Only a Location can hold a line end. -/
theorem fields_value_lf {f : Bytes × Bytes} (h : f ∈ fields r) (hpath : LF ∉ r.path) :
    LF ∉ f.2 := by
  have hfixed : ∀ f ∈ fixedFields, LF ∉ f.2 := by decide
  rcases mem_fields h with rfl | rfl | h
  · exact hpath
  · exact getFileType_lf r
  · exact hfixed f h

/-- The lines of the headers. -/
def headerLines (r : HttpResponse) : List Bytes := (fields r).map fun f => f.1 ++ ascii ": " ++ f.2

/-- Where neither the version nor the path has an LF, every header is a line. -/
theorem openHead_headersText (hversion : LF ∉ r.version) (hpath : LF ∉ r.path) :
    OpenHead (headersText r) (statusLine r :: headerLines r) ∧
      (statusLine r :: headerLines r).filterMap lengthField = [] := by
  refine ⟨⟨?_, ?_⟩, ?_⟩
  · rw [headerLines, headersText, fieldsText, WireRequest.joinLines, List.flatMap_cons, List.flatMap_map]
    rfl
  · intro line hline
    rcases List.mem_cons.mp hline with rfl | hline
    · refine ⟨?_, statusLine_lf hversion⟩
      simp [statusLine, ascii]
    · obtain ⟨f, hf, rfl⟩ := List.mem_map.mp hline
      obtain ⟨-, -, hname⟩ := fields_name_plain hf
      have hvalue := fields_value_lf hf hpath
      have hcolon : LF ∉ ascii ": " := by decide
      refine ⟨by simp [ascii], ?_⟩
      rw [List.mem_append, List.mem_append, not_or, not_or]
      exact ⟨⟨hname, hcolon⟩, hvalue⟩
  · rw [List.filterMap_cons_none (lengthField_statusLine r), List.filterMap_eq_nil_iff]
    intro line hline
    obtain ⟨f, hf, rfl⟩ := List.mem_map.mp hline
    obtain ⟨hcolon, hname, -⟩ := fields_name_plain hf
    rw [lengthField_line hcolon, if_neg (by simp [hname])]

/-- Then a client reads these lines, and a Content-Length. -/
theorem headBlock_response (hversion : LF ∉ r.version) (hpath : LF ∉ r.path) :
    headBlock (headersText r ++ contentText fs r) =
      some (statusLine r :: headerLines r ++ [ascii "Content-Length" ++ ascii ": " ++ printedLength fs r],
        (errorPage fs r).getD []) := by
  have hvalue : LF ∉ printedLength fs r := by
    unfold printedLength
    split
    · exact decimal_lf _
    · exact toString_lf _
  rw [contentText_eq, (openHead_headersText hversion hpath).1.block_append,
    headBlock_lengthEnd hvalue]
  rfl

/-- Then the size of a mapped file alone decides. -/
theorem framingHolds_of_plain (hversion : LF ∉ r.version) (hpath : LF ∉ r.path) :
    FramingHolds fs r ↔ (errorPage fs r = none → r.fileStat.size < 2 ^ 31) := by
  obtain ⟨hopen, hnone⟩ := @openHead_headersText r hversion hpath
  constructor
  · rintro (⟨lines', -, -, hsize⟩ | ⟨lines', rest, hblock, -⟩)
    · exact hsize
    · rw [hopen.unfinished] at hblock
      cases hblock
  · exact fun hsize => Or.inl ⟨_, hopen, hnone, hsize⟩

end HttpResponse

/-! ### `Process` -/

namespace HttpConn

open HttpResponse HttpRequest

variable {J : Type} {js : JsonCpp J} {fs : FileSystem} {webRoot : Bytes} {c c' : HttpConn J}
  {q : HttpRequest J} {r : HttpResponse}

/-- A file that is mapped has the size `stat` gave. -/
theorem Answering.stat (h : Answering js fs webRoot c q r) (hpage : errorPage fs r = none) :
    ∃ path, fs.stat path = some r.fileStat := by
  obtain ⟨q₀, code, b, r₀, -, -, -, -, hlocated⟩ := h
  have hserves : servesFile r.responseCode = true := by
    by_contra hserves
    rw [errorPage, if_neg hserves] at hpage
    cases hpage
  rcases located_cases hlocated with ⟨-, r₁, -, hchecked⟩ | ⟨hnot, rfl⟩
  · cases hchecked with
    | missing => exact absurd hserves (show ¬ servesFile 404 = true by decide)
    | directory hstat => exact ⟨_, hstat⟩
    | unreadable hstat => exact ⟨_, hstat⟩
    | readable hstat => exact ⟨_, hstat⟩
  · rw [hnot] at hserves
    cases hserves

/-- Behind index files without a line end in their names, neither the version nor the path of
an answer has one. -/
theorem Answering.plain (hc : Reached js webRoot c) (h : Answering js fs webRoot c q r)
    (hindex : ∀ file ∈ c.indexFile.getD [], LF ∉ file) : LF ∉ r.version ∧ LF ∉ r.path := by
  have hversion := h.kept.1
  obtain ⟨q₀, code, b, r₀, hnext, hparse, -, hinit, hlocated⟩ := h
  have hhead : q.PlainHead :=
    parse_head hc.buffersStored.readBuff ((plainHead_kept js).next hc.plainHead hnext) hparse
  obtain ⟨-, -, hpath, hfiles, -⟩ := init_eq hinit
  constructor
  · rw [hversion]
    rcases hhead.version with h | h <;> rw [h] <;> decide
  · obtain ⟨-, hnames⟩ := located_names hlocated
    rw [hpath, hfiles] at hnames
    generalize r.path = path at hnames ⊢
    cases hnames with
    | self => exact hhead.path
    | index hlast hfile =>
        rw [List.mem_append, not_or]
        exact ⟨hhead.path, hindex _ hfile⟩

/-- **Framing.** What `Process` appends to `write_buff_` has one Content-Length, counting the
bytes behind the header block and those of the mapped file, exactly if `FramingHolds`: for
index files without a line end in their names, if a mapped file is shorter than `2 ^ 31`
bytes. -/
theorem process_frames_iff (hc : Reached js webRoot c)
    (hstat : ∀ path st, fs.stat path = some st → 0 ≤ st.size ∧ st.size < 2 ^ 63)
    (hprocess : process js fs webRoot c = .ok (.finish, c')) :
    ∃ q r text, Answering js fs webRoot c q r ∧
      c'.writeBuff.readable = c.writeBuff.readable ++ text ∧
      (Frames text (if c'.iovCnt = 2 then c'.iov₁.len else 0) ↔ FramingHolds fs r) ∧
      ((∀ file ∈ c.indexFile.getD [], LF ∉ file) →
        (FramingHolds fs r ↔ (errorPage fs r = none → r.fileStat.size < 2 ^ 31))) := by
  obtain ⟨g, u, n, hb⟩ := hc.buffersStored.writeBuff
  obtain ⟨q, r, hanswer, hanswered⟩ := process_answered hb hprocess
  have hmapped : (if c'.iovCnt = 2 then c'.iov₁.len else 0) = mappedLength fs r := by
    unfold mappedLength
    by_cases hpage : errorPage fs r = none
    · obtain ⟨hcnt, hlen⟩ := hanswered.file hpage
      rw [if_pos hcnt, if_pos hpage, hlen]
    · rw [if_neg (by rw [hanswered.page hpage]; decide), if_neg hpage]
  refine ⟨q, r, headersText r ++ contentText fs r, hanswer, ?_, ?_, ?_⟩
  · rw [hanswered.text, hb.readable, List.append_assoc]
  · rw [hmapped]
    refine frames_iff fun hpage => ?_
    obtain ⟨path, hpath⟩ := hanswer.stat hpage
    exact hstat path _ hpath
  · intro hindex
    obtain ⟨hversion, hpath⟩ := hanswer.plain hc hindex
    exact framingHolds_of_plain hversion hpath

/-! ### A small and a large file -/

/-- A client's first bytes: the connection before `Process` and after it, and `iov_cnt_`. -/
theorem reached_answer {data webRoot : Bytes} {cnt : Int}
    (h : (do
      let c ← HttpServer.afterFirst data
      let p ← c.process membersJson fs webRoot
      return (p.1, p.2.iovCnt, c.writeBuff.readable)) = .ok (.finish, cnt, [])) :
    ∃ c c', Reached membersJson webRoot c ∧ c.indexFile = some [] ∧ c.writeBuff.readable = [] ∧
      c.process membersJson fs webRoot = .ok (.finish, c') ∧ c'.iovCnt = cnt := by
  obtain ⟨c, hc, h⟩ := bind_eq_ok.mp h
  obtain ⟨⟨result, c'⟩, hprocess, h⟩ := bind_eq_ok.mp h
  simp only [pure, Except.pure, Except.ok.injEq, Prod.mk.injEq] at h
  obtain ⟨rfl, hcnt, hempty⟩ := h
  obtain ⟨hreached, hindex⟩ := HttpServer.afterFirst_reached hc webRoot
  exact ⟨c, c', hreached, hindex, hempty, hprocess, hcnt⟩

/-- A file of one byte. -/
theorem process_frames_small :
    ∃ c c', Reached membersJson (ascii "/srv") c ∧ c.writeBuff.readable = [] ∧
      c.process membersJson worldReadable (ascii "/srv") = .ok (.finish, c') ∧
      Frames c'.writeBuff.readable (if c'.iovCnt = 2 then c'.iov₁.len else 0) := by
  obtain ⟨c, c', hc, hindex, hempty, hprocess, -⟩ := @reached_answer worldReadable
    (ascii "GET /a HTTP/1.1\r\n\r\n") (ascii "/srv") 2 (by decide +kernel)
  have hsize : ∀ path st, worldReadable.stat path = some st → st.size = 1 := by
    intro path st hst
    rw [← Option.some.inj hst]
  obtain ⟨q, r, text, hanswer, htext, hframes, hplain⟩ := process_frames_iff hc (by
    intro path st hst
    rw [hsize path st hst]
    decide) hprocess
  refine ⟨c, c', hc, hempty, hprocess, ?_⟩
  rw [htext, hempty, List.nil_append, hframes, hplain (by rw [hindex]; simp)]
  intro hpage
  obtain ⟨path, hpath⟩ := hanswer.stat hpage
  rw [hsize path _ hpath]
  decide

/-- Every path is a file of `2 ^ 31` bytes. -/
def largeFiles : FileSystem :=
  { access := fun _ => true, stat := fun _ => some ⟨false, true, 2 ^ 31⟩, canOpen := fun _ => true,
    mmap := fun _ size => some (List.replicate size.toNat NUL) }

/-- The Content-Length is `2147483648`, and `iov_[1].iov_len` is `2 ^ 64 - 2 ^ 31`. -/
theorem process_frames_not_large :
    ∃ c c', Reached membersJson (ascii "/srv") c ∧ c.writeBuff.readable = [] ∧
      c.process membersJson largeFiles (ascii "/srv") = .ok (.finish, c') ∧
      c'.iovCnt = 2 ∧ c'.iov₁.len = 2 ^ 64 - 2 ^ 31 ∧
      ¬ Frames c'.writeBuff.readable (if c'.iovCnt = 2 then c'.iov₁.len else 0) := by
  obtain ⟨c, c', hc, hindex, hempty, hprocess, hcnt⟩ := @reached_answer largeFiles
    (ascii "GET /a HTTP/1.1\r\n\r\n") (ascii "/srv") 2 (by decide +kernel)
  obtain ⟨g, u, n, hb⟩ := hc.buffersStored.writeBuff
  obtain ⟨q, r, hanswer, hanswered⟩ := process_answered hb hprocess
  -- two vectors: the file was mapped
  have hpage : errorPage largeFiles r = none := by
    by_contra hpage
    have hone := hanswered.page hpage
    rw [hcnt] at hone
    revert hone
    decide
  have hsize : r.fileStat.size = 2 ^ 31 := by
    obtain ⟨path, hpath⟩ := hanswer.stat hpage
    rw [← Option.some.inj hpath]
  have hlen : c'.iov₁.len = 2 ^ 64 - 2 ^ 31 := by
    rw [(hanswered.file hpage).2, hsize]
    decide
  obtain ⟨hversion, hpath⟩ := hanswer.plain hc (by rw [hindex]; simp)
  have hmapped : c'.iov₁.len = mappedLength largeFiles r := by
    rw [(hanswered.file hpage).2, mappedLength, if_pos hpage]
  refine ⟨c, c', hc, hempty, hprocess, hcnt, hlen, ?_⟩
  rw [if_pos hcnt, hmapped, hanswered.text, ← hb.readable, hempty, List.nil_append,
    frames_iff (fun _ => by rw [hsize]; decide), framingHolds_of_plain hversion hpath, hsize]
  exact fun hsmall => absurd (hsmall hpage) (by decide)

end HttpConn

end WhiteWebServer
