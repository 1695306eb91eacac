import WhiteWebServer.ResponseText

/-!
# Status line and content

The status line is in the buffer before the file is opened and mapped. §1 what a response
announces; §2 the code behind `AddContent`; §3 when the two agree.
-/

namespace WhiteWebServer

namespace HttpResponse

variable {fs : FileSystem} {r₀ r r' r₁ : HttpResponse} {b b' : Buffer} {text version : Bytes}
  {code code' : Int}

/-! ## §1  The announced status -/

/-- The text starts with the version and a status line for this code. -/
def Announced (text version : Bytes) (code : Int) : Prop :=
  ∃ rest, text = ascii "HTTP/" ++ version ++ ascii " " ++ toString code ++ ascii " " ++ rest

theorem toString_plain (n : Int) : SP ∉ toString n := by
  have hdecimal : ∀ k : Nat, SP ∉ decimal k := by
    intro k hmem
    have := (mem_decimal hmem).1
    revert this
    decide
  unfold toString
  split
  · rw [List.mem_cons, not_or]
    exact ⟨by decide, hdecimal _⟩
  · exact hdecimal _

theorem toString_injective : Function.Injective toString := by
  have hsign : ∀ (k : Nat) (ds : Bytes), decimal k ≠ 45 :: ds := by
    intro k ds h
    have := (mem_decimal (show (45 : Byte) ∈ decimal k by rw [h]; exact List.mem_cons_self)).1
    revert this
    decide
  intro m n h
  unfold toString at h
  split at h <;> split at h
  · have := decimal_injective (List.cons.inj h).2
    omega
  · exact absurd h.symm (hsign _ _)
  · exact absurd h (hsign _ _)
  · have := decimal_injective h
    omega

/-- A text announces one code. -/
theorem Announced.unique (h : Announced text version code) (h' : Announced text version code') :
    code = code' := by
  obtain ⟨rest, h⟩ := h
  obtain ⟨rest', h'⟩ := h'
  rw [h] at h'
  simp only [List.append_assoc] at h'
  have htail := List.append_cancel_left (List.append_cancel_left (List.append_cancel_left h'))
  have hcut : ∀ (n : Int) (rest : Bytes),
      (toString n ++ (ascii " " ++ rest)).takeWhile (· != SP) = toString n := by
    intro n rest
    rw [List.takeWhile_append_of_pos fun c hc => by
      rw [bne_iff_ne]
      rintro rfl
      exact toString_plain n hc]
    exact List.append_nil _
  apply toString_injective
  rw [← hcut code rest, htail, hcut]

/-! ## §2  Behind the header -/

/-- The response with a code that has a text. -/
def known (r : HttpResponse) : HttpResponse :=
  if (kCodeStatus.lookup r.responseCode).isSome then r else { r with responseCode := 400 }

theorem addStateLine_known (r : HttpResponse) (b : Buffer) :
    r.addStateLine b = (known r).addStateLine b := by
  unfold known
  split
  · rfl
  · rename_i h
    have hnone : kCodeStatus.lookup r.responseCode = none :=
      Option.not_isSome_iff_eq_none.mp h
    unfold addStateLine
    rw [hnone]
    rfl

theorem known_isSome (r : HttpResponse) : (kCodeStatus.lookup (known r).responseCode).isSome := by
  unfold known
  split
  · assumption
  · exact show (kCodeStatus.lookup 400).isSome by decide

theorem isSome_of_serves (h : servesFile code = true) : (kCodeStatus.lookup code).isSome := by
  simp only [servesFile, List.contains_iff_mem, List.mem_cons, List.not_mem_nil, or_false] at h
  rcases h with rfl | rfl | rfl | rfl | rfl <;> decide

theorem known_serves : servesFile (known r).responseCode = servesFile r.responseCode := by
  unfold known
  split
  · rfl
  · rename_i h
    cases hserves : servesFile r.responseCode with
    | true => exact absurd (isSome_of_serves hserves) h
    | false => exact show servesFile 400 = false by decide

theorem known_of_serves (h : servesFile r.responseCode = true) : known r = r :=
  if_pos (isSome_of_serves h)

/-- The file was found, and then it is not opened or not mapped. -/
def FailsLate (fs : FileSystem) (r : HttpResponse) : Prop :=
  servesFile r.responseCode = true ∧ errorPage fs r ≠ none

/-- What `AddContent` makes of the code and of the mapping. -/
theorem addContent_result (fs : FileSystem) (r : HttpResponse) (b : Buffer) :
    (FailsLate fs r → (addContent fs r b).1.responseCode = 500) ∧
      (¬ FailsLate fs r → (addContent fs r b).1.responseCode = r.responseCode) ∧
      (errorPage fs r = none → ∃ file, fs.mmap (r.srcDir ++ r.path) r.fileStat.size = some file ∧
        (addContent fs r b).1.fileAddress = some file) := by
  unfold FailsLate addContent errorPage
  by_cases hserves : servesFile r.responseCode = true
  · simp only [hserves, true_and]
    by_cases hopen : ¬ fs.canOpen (r.srcDir ++ r.path) = true
    · simp [hopen]
    · simp only [if_neg hopen]
      cases fs.mmap (r.srcDir ++ r.path) r.fileStat.size with
      | none => simp
      | some file => simp
  · simp [hserves]

theorem failsLate_known : FailsLate fs (known r) ↔ FailsLate fs r := by
  unfold FailsLate
  rw [known_serves]
  refine and_congr_right fun hserves => ?_
  rw [known_of_serves hserves]

/-- `MakeResponse` from the file found on: the text, the code and the mapping. -/
theorem makeResponse_result {g : Byte} {u : Bytes} {n : Nat} (h : b.Holds g u n)
    (hlocated : located fs r = .ok r₁) (hmake : makeResponse fs r b = .ok (r', b')) :
    b'.readable = u ++ (headersText (known r₁) ++ contentText fs (known r₁)) ∧
      (FailsLate fs r₁ → r'.responseCode = 500) ∧
      (¬ FailsLate fs r₁ → r'.responseCode = (known r₁).responseCode) ∧
      (errorPage fs (known r₁) = none → ∃ file, fs.mmap ((known r₁).srcDir ++ (known r₁).path)
        (known r₁).fileStat.size = some file ∧ r'.fileAddress = some file) := by
  rw [makeResponse_located, hlocated] at hmake
  have heq := Except.ok.inj hmake
  dsimp only at heq
  rw [addStateLine_known] at heq
  obtain ⟨hstate, m₁, h₁⟩ := addStateLine_text h (known_isSome r₁)
  rw [hstate] at heq
  obtain ⟨⟨k, hk⟩, m₂, h₂⟩ := @addHeader_text (known r₁) _ g _ m₁ h₁
  obtain ⟨⟨m₃, h₃⟩, -, -⟩ :=
    @addContent_text fs (addHeader (known r₁) ((known r₁).addStateLine b).2).1 _ g _ m₂ h₂
  obtain ⟨hlate, hcode, hfile⟩ := addContent_result fs
    (addHeader (known r₁) ((known r₁).addStateLine b).2).1
    (addHeader (known r₁) ((known r₁).addStateLine b).2).2
  rw [heq] at h₃ hlate hcode hfile
  rw [hk] at h₃ hlate hcode hfile
  refine ⟨?_, fun h => hlate (failsLate_known.mpr h), fun h => hcode (fun h' => h ?_), hfile⟩
  · rw [h₃.readable, headersText]
    simp only [List.append_assoc]
    rfl
  · exact failsLate_known.mp h'

/-! ## §3  When they agree -/

/-- The response announces the code it has, and where that is 200 its text ends with the
header block and the file requested is mapped. -/
structure StatusAgrees (fs : FileSystem) (r r' : HttpResponse) (text : Bytes) : Prop where
  code : Announced text r.version r'.responseCode
  content : Announced text r.version 200 →
    ∃ st file head, fs.stat (r.srcDir ++ r.path) = some st ∧
      fs.mmap (r.srcDir ++ r.path) st.size = some file ∧ r'.fileAddress = some file ∧
      text = head ++ headerText (ascii "Content-Length") (toString st.size ++ crlf)

/-- A file that `stat` shows and all may read is opened and mapped: the one requested, or the
index file in its place. -/
def FoundIsServed (fs : FileSystem) (r : HttpResponse) : Prop :=
  servesFile r.responseCode = true → ∀ r₁, addIndexFile fs r = .ok r₁ →
    ∀ st, fs.stat (r₁.srcDir ++ r₁.path) = some st → st.isDir = false → st.othersRead = true →
      fs.canOpen (r₁.srcDir ++ r₁.path) = true ∧ fs.mmap (r₁.srcDir ++ r₁.path) st.size ≠ none

theorem errorPage_none_iff (hserves : servesFile r.responseCode = true) :
    errorPage fs r = none ↔ fs.canOpen (r.srcDir ++ r.path) = true ∧
      fs.mmap (r.srcDir ++ r.path) r.fileStat.size ≠ none := by
  unfold errorPage
  rw [if_pos hserves]
  by_cases hopen : fs.canOpen (r.srcDir ++ r.path) = true
  · rw [if_neg (not_not_intro hopen)]
    by_cases hmap : fs.mmap (r.srcDir ++ r.path) r.fileStat.size = none
    · simp [hmap]
    · simp [hmap, hopen]
  · simp [hopen]

/-- A file found and not served is a late failure, and there is no other. -/
theorem foundIsServed_iff (hlocated : located fs r = .ok r₁) :
    FoundIsServed fs r ↔ ¬ FailsLate fs r₁ := by
  rcases located_cases hlocated with ⟨hserves, r₂, hadd, hchecked⟩ | ⟨hnot, rfl⟩
  · have hserves₂ : servesFile r₂.responseCode = true := by
      rcases addIndexFile_cases hadd with rfl | ⟨file, -, -, rfl⟩
      · exact hserves
      · exact show servesFile 301 = true by decide
    have hnotLate : ∀ {code : Int} {r₃ : HttpResponse}, r₃.responseCode = code →
        servesFile code = false → ¬ FailsLate fs r₃ := by
      rintro code r₃ rfl hcode ⟨hserves₃, -⟩
      rw [hcode] at hserves₃
      cases hserves₃
    have hadded : ∀ r₃, addIndexFile fs r = .ok r₃ → r₃ = r₂ := fun r₃ h₃ =>
      Except.ok.inj (h₃.symm.trans hadd)
    cases hchecked with
    | missing hstat =>
        refine iff_of_true (fun _ r₃ h₃ st hst => ?_)
          (hnotLate rfl (show servesFile 404 = false by decide))
        rw [hadded r₃ h₃, hstat] at hst
        cases hst
    | directory hstat hdir =>
        refine iff_of_true (fun _ r₃ h₃ st hst hfile => ?_)
          (hnotLate rfl (show servesFile 404 = false by decide))
        rw [hadded r₃ h₃, hstat] at hst
        rw [← Option.some.inj hst, hdir] at hfile
        cases hfile
    | unreadable hstat hdir hread =>
        refine iff_of_true (fun _ r₃ h₃ st hst _ hreads => ?_)
          (hnotLate rfl (show servesFile 403 = false by decide))
        rw [hadded r₃ h₃, hstat] at hst
        rw [← Option.some.inj hst, hread] at hreads
        cases hreads
    | @readable st hstat hdir hread =>
        have hcode : servesFile (if r₂.responseCode = -1 then 200 else r₂.responseCode) = true := by
          split
          · decide
          · exact hserves₂
        have hpage := @errorPage_none_iff fs { r₂ with
          fileStat := st
          responseCode := if r₂.responseCode = -1 then 200 else r₂.responseCode } hcode
        constructor
        · rintro hfound ⟨-, hlate⟩
          exact hlate (hpage.mpr (hfound hserves r₂ hadd st hstat hdir hread))
        · intro hlate _ r₃ h₃ st' hst' hdir' hread'
          rw [hadded r₃ h₃] at hst' ⊢
          obtain rfl := Option.some.inj (hstat.symm.trans hst')
          exact hpage.mp (not_not.mp fun h => hlate ⟨hcode, h⟩)
  · refine iff_of_true (fun hserves => ?_) ?_
    · rw [hnot] at hserves
      cases hserves
    · rintro ⟨hserves, -⟩
      rw [hnot] at hserves
      cases hserves

/-- Only the file requested is announced with 200. -/
theorem located_ok (hlocated : located fs r = .ok r₁) (hcode : r₁.responseCode = 200) :
    fs.stat (r.srcDir ++ r.path) = some r₁.fileStat ∧ r₁.srcDir = r.srcDir ∧ r₁.path = r.path := by
  rcases located_cases hlocated with ⟨hserves, r₂, hadd, hchecked⟩ | ⟨hnot, rfl⟩
  · cases hchecked with
    | missing => simp at hcode
    | directory => simp at hcode
    | unreadable => simp at hcode
    | readable hstat =>
        rcases addIndexFile_cases hadd with rfl | ⟨file, -, -, rfl⟩
        · exact ⟨hstat, rfl, rfl⟩
        · simp at hcode
  · rw [hcode] at hnot
    cases hnot

/-- **Status and content.** `MakeResponse` announces the code it ends with, and a 200 carries
the file requested and no page, exactly when a file that `stat` shows is also opened and
mapped. -/
theorem status_agrees_iff {g : Byte} {u : Bytes} {n : Nat} (h : b.Holds g u n)
    (hmake : makeResponse fs r b = .ok (r', b')) :
    ∃ text, b'.readable = u ++ text ∧ (StatusAgrees fs r r' text ↔ FoundIsServed fs r) := by
  obtain ⟨r₁, hlocated⟩ : ∃ r₁, located fs r = .ok r₁ := by
    cases hlocated : located fs r with
    | error e =>
        rw [makeResponse_located, hlocated] at hmake
        cases hmake
    | ok r₁ => exact ⟨r₁, rfl⟩
  obtain ⟨htext, hlate, hcode, hfile⟩ := makeResponse_result h hlocated hmake
  have hversion : (known r₁).version = r.version := by
    rw [← (located_kept hlocated).1, known]
    split <;> rfl
  have hannounced : Announced (headersText (known r₁) ++ contentText fs (known r₁)) r.version
      (known r₁).responseCode := by
    refine ⟨(kCodeStatus.lookup (known r₁).responseCode).getD (ascii "Bad Request") ++ crlf ++
      fieldsText (fields (known r₁)) ++ contentText fs (known r₁), ?_⟩
    rw [headersText, statusLine, hversion]
    simp only [List.append_assoc]
  refine ⟨_, htext, ?_⟩
  rw [foundIsServed_iff hlocated]
  constructor
  · rintro hagrees hfails
    have hcode₁ := hagrees.code.unique hannounced
    rw [hlate hfails, known_of_serves hfails.1] at hcode₁
    have hserves := hfails.1
    rw [← hcode₁] at hserves
    cases hserves
  · intro hserved
    refine ⟨by rwa [hcode hserved], fun hok => ?_⟩
    have hserves : servesFile r₁.responseCode = true := by
      rw [← known_serves, ← hok.unique hannounced]
      decide
    rw [known_of_serves hserves] at hok hannounced hfile ⊢
    have hok₁ : r₁.responseCode = 200 := (hok.unique hannounced).symm
    obtain ⟨hstat, hsrcDir, hpath⟩ := located_ok hlocated hok₁
    have hpage : errorPage fs r₁ = none := not_not.mp fun h => hserved ⟨hserves, h⟩
    obtain ⟨file, hmap, haddress⟩ := hfile hpage
    rw [hsrcDir, hpath] at hmap
    refine ⟨r₁.fileStat, file, headersText r₁, hstat, hmap, haddress, ?_⟩
    rw [contentText, hpage]

/-- A response set up for `/f`. -/
def requested : HttpResponse :=
  { HttpResponse.new ⟨false, false, 0⟩ with
    responseCode := 200, path := ascii "/f", srcDir := ascii "/srv", version := ascii "1.1",
    indexFile := some [] }

/-- Every file holds `size` zero bytes; a mapping of no bytes is refused. -/
def zeroFiles (size : Int) : FileSystem :=
  { access := fun _ => false, stat := fun _ => some ⟨false, true, size⟩, canOpen := fun _ => true,
    mmap := fun _ size => if size = 0 then none else some (List.replicate size.toNat NUL) }

theorem status_agrees_file :
    ∃ r' b' text, makeResponse (zeroFiles 3) requested ⟨[0, 0], 1, 1⟩ = .ok (r', b') ∧
      b'.readable = [] ++ text ∧ StatusAgrees (zeroFiles 3) requested r' text := by
  obtain ⟨r', b', hmake⟩ := makeResponse_total (zeroFiles 3) requested ⟨[0, 0], 1, 1⟩
    (by decide) (by decide)
  obtain ⟨text, htext, hagrees⟩ := status_agrees_iff
    (Buffer.holds_of_new (show Buffer.new 2 = .ok ⟨[0, 0], 1, 1⟩ from rfl)) hmake
  refine ⟨r', b', text, hmake, htext, hagrees.mpr ?_⟩
  intro _ r₁ _ st hst _ _
  obtain rfl := Option.some.inj hst
  exact ⟨rfl, by simp [zeroFiles]⟩

/-- An empty file: `HTTP/1.1 200 OK`, and the page of a 500. -/
theorem status_disagrees_empty :
    ∃ r' b', makeResponse (zeroFiles 0) requested ⟨[0, 0], 1, 1⟩ = .ok (r', b') ∧
      r'.responseCode = 500 ∧ Announced b'.readable requested.version 200 ∧
      ¬ ∃ text, b'.readable = [] ++ text ∧ StatusAgrees (zeroFiles 0) requested r' text := by
  obtain ⟨r', b', hmake⟩ := makeResponse_total (zeroFiles 0) requested ⟨[0, 0], 1, 1⟩
    (by decide) (by decide)
  have hresult : (makeResponse (zeroFiles 0) requested ⟨[0, 0], 1, 1⟩).map
      (fun p => (p.1.responseCode, p.2.readable.take 13)) = .ok (500, ascii "HTTP/1.1 200 ") := by
    decide +kernel
  rw [hmake] at hresult
  obtain ⟨hcode, hline⟩ := Prod.mk.inj (Except.ok.inj hresult)
  have hannounced : Announced b'.readable requested.version 200 := by
    refine ⟨b'.readable.drop 13, ?_⟩
    conv_lhs => rw [← List.take_append_drop 13 b'.readable]
    rw [show b'.readable.take 13 = ascii "HTTP/1.1 200 " from hline]
    rfl
  refine ⟨r', b', hmake, hcode, hannounced, ?_⟩
  rintro ⟨text, htext, hagrees⟩
  rw [htext, List.nil_append] at hannounced
  have hcodes := hagrees.code.unique hannounced
  rw [show r'.responseCode = 500 from hcode] at hcodes
  cases hcodes

end HttpResponse

end WhiteWebServer
