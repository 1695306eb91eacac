import WhiteWebServer.ProxyWaits
import WhiteWebServer.Traversal

/-!
# The text of a response

`MakeResponse` appends its text to `write_buff_` piece by piece. §1 the pieces, for a
response whose file has been looked for; §2 `MakeResponse` writes them; §3 so does
`Process`, for the request it has parsed.
-/

namespace WhiteWebServer

open Outcome

namespace HttpResponse

variable {fs : FileSystem} {r r' r₁ : HttpResponse} {b b' : Buffer} {g : Byte} {u : Bytes} {n : Nat}

/-! ## §1  The pieces -/

def statusLine (r : HttpResponse) : Bytes :=
  ascii "HTTP/" ++ r.version ++ ascii " " ++ toString r.responseCode ++ ascii " " ++
    (kCodeStatus.lookup r.responseCode).getD (ascii "Bad Request")

/-- The headers of `AddHeader` about the connection. -/
def connectionFields (r : HttpResponse) : List (Bytes × Bytes) :=
  if r.responseCode = 404 then [(ascii "Connection", ascii "Close")]
  else if servesFile r.responseCode then
    (if r.responseCode = 301 then [(ascii "Location", r.path)] else []) ++
      (if r.version = ascii "1.1" ∧ r.isKeepalive then []
      else if r.isKeepalive then
        [(ascii "Connection", ascii "keep-alive"), (ascii "keep-alive", ascii "max=6, timeout=120")]
      else [(ascii "Connection", ascii "Close")])
  else []

/-- All headers of `AddHeader`. -/
def fields (r : HttpResponse) : List (Bytes × Bytes) :=
  connectionFields r ++ (ascii "Content-type", r.getFileType) ::
    ((if r.version = ascii "1.1" then [(ascii "Cache-Control", ascii "max-age=31536000")] else []) ++
      [(ascii "Server", ascii "WhiteWebServer")])

def fieldsText (fields : List (Bytes × Bytes)) : Bytes := fields.flatMap fun f => headerText f.1 f.2

/-- What stands in front of Content-Length. -/
def headersText (r : HttpResponse) : Bytes := statusLine r ++ crlf ++ fieldsText (fields r)

/-- The page `AddContent` generates, unless it maps the file. -/
def errorPage (fs : FileSystem) (r : HttpResponse) : Option Bytes :=
  if servesFile r.responseCode then
    if ¬ fs.canOpen (r.srcDir ++ r.path) then
      some (errorBody 500 (ascii "Cannot open specific file"))
    else if fs.mmap (r.srcDir ++ r.path) r.fileStat.size = none then
      some (errorBody 500 (ascii "Cannot map specific file"))
    else none
  else some (errorBody r.responseCode (ascii "Cannot open specific file"))

/-- Content-Length, the empty line and the page. -/
def contentText (fs : FileSystem) (r : HttpResponse) : Bytes :=
  match errorPage fs r with
  | some page => headerText (ascii "Content-Length") (decimal page.length ++ crlf) ++ page
  | none => headerText (ascii "Content-Length") (toString r.fileStat.size ++ crlf)

/-! ## §2  `MakeResponse` -/

@[simp] theorem fieldsText_nil : fieldsText [] = [] := rfl

@[simp] theorem fieldsText_cons (f : Bytes × Bytes) (fs : List (Bytes × Bytes)) :
    fieldsText (f :: fs) = headerText f.1 f.2 ++ fieldsText fs := List.flatMap_cons

@[simp] theorem fieldsText_append (fs₁ fs₂ : List (Bytes × Bytes)) :
    fieldsText (fs₁ ++ fs₂) = fieldsText fs₁ ++ fieldsText fs₂ := List.flatMap_append

/-- A state line for a code that has a text. -/
theorem addStateLine_text (h : b.Holds g u n) (hcode : (kCodeStatus.lookup r.responseCode).isSome) :
    (r.addStateLine b).1 = r ∧ ∃ m, (r.addStateLine b).2.Holds g (u ++ (statusLine r ++ crlf)) m := by
  obtain ⟨status, hstatus⟩ := Option.isSome_iff_exists.mp hcode
  unfold addStateLine statusLine
  rw [hstatus]
  exact ⟨rfl, h.append _⟩

theorem addConnection_text (h : b.Holds g u n) :
    (∃ k, (addConnection r b).1 = { r with isKeepalive := k }) ∧
      ∃ m, (addConnection r b).2.Holds g (u ++ fieldsText (connectionFields r)) m := by
  unfold addConnection connectionFields
  by_cases hmissing : r.responseCode = 404
  · rw [if_pos hmissing, if_pos hmissing, fieldsText_cons, fieldsText_nil, List.append_nil]
    exact ⟨⟨false, rfl⟩, addCustomHeader_holds h _ _⟩
  · rw [if_neg hmissing, if_neg hmissing]
    by_cases hserves : servesFile r.responseCode = true
    · rw [if_pos hserves, if_pos hserves]
      -- the header a redirection has in front of the others
      obtain ⟨m₁, h₁⟩ : ∃ m, (if r.responseCode = 301 then
          HttpRequest.addCustomHeader b (ascii "Location") r.path else b).Holds g
          (u ++ fieldsText (if r.responseCode = 301 then [(ascii "Location", r.path)] else [])) m := by
        split
        · rw [fieldsText_cons, fieldsText_nil, List.append_nil]
          exact addCustomHeader_holds h _ _
        · rw [fieldsText_nil, List.append_nil]
          exact ⟨n, h⟩
      rw [fieldsText_append, ← List.append_assoc]
      dsimp only
      generalize (if r.responseCode = 301 then HttpRequest.addCustomHeader b (ascii "Location") r.path
        else b) = b₁ at h₁ ⊢
      generalize u ++ fieldsText (if r.responseCode = 301 then [(ascii "Location", r.path)] else [])
        = u₁ at h₁ ⊢
      by_cases hpersistent : r.version = ascii "1.1" ∧ r.isKeepalive = true
      · rw [if_pos hpersistent, if_pos hpersistent, fieldsText_nil, List.append_nil]
        exact ⟨⟨_, rfl⟩, m₁, h₁⟩
      · rw [if_neg hpersistent, if_neg hpersistent]
        by_cases hkeep : r.isKeepalive = true
        · obtain ⟨m₂, h₂⟩ := addCustomHeader_holds h₁ (ascii "Connection") (ascii "keep-alive")
          obtain ⟨m₃, h₃⟩ :=
            addCustomHeader_holds h₂ (ascii "keep-alive") (ascii "max=6, timeout=120")
          rw [if_pos hkeep, if_pos hkeep, fieldsText_cons, fieldsText_cons, fieldsText_nil,
            List.append_nil, ← List.append_assoc]
          exact ⟨⟨_, rfl⟩, m₃, h₃⟩
        · rw [if_neg hkeep, if_neg hkeep, fieldsText_cons, fieldsText_nil, List.append_nil]
          exact ⟨⟨_, rfl⟩, addCustomHeader_holds h₁ _ _⟩
    · rw [if_neg hserves, if_neg hserves, fieldsText_nil, List.append_nil]
      exact ⟨⟨_, rfl⟩, n, h⟩

theorem addHeader_text (h : b.Holds g u n) :
    (∃ k, (addHeader r b).1 = { r with isKeepalive := k }) ∧
      ∃ m, (addHeader r b).2.Holds g (u ++ fieldsText (fields r)) m := by
  obtain ⟨⟨k, hk⟩, m₁, h₁⟩ := @addConnection_text r b g u n h
  have htype : (addConnection r b).1.getFileType = r.getFileType := by
    rw [hk]
    rfl
  have hversion : (addConnection r b).1.version = r.version := by rw [hk]
  unfold addHeader fields
  dsimp only
  rw [htype, hversion]
  refine ⟨⟨k, hk⟩, ?_⟩
  obtain ⟨m₂, h₂⟩ := addCustomHeader_holds h₁ (ascii "Content-type") r.getFileType
  simp only [fieldsText_append, fieldsText_cons, fieldsText_nil, List.append_nil,
    ← List.append_assoc]
  by_cases hversion : r.version = ascii "1.1"
  · obtain ⟨m₃, h₃⟩ := addCustomHeader_holds h₂ (ascii "Cache-Control") (ascii "max-age=31536000")
    rw [if_pos hversion, if_pos hversion, fieldsText_cons, fieldsText_nil, List.append_nil]
    exact addCustomHeader_holds h₃ _ _
  · rw [if_neg hversion, if_neg hversion, fieldsText_nil, List.append_nil]
    exact addCustomHeader_holds h₂ _ _

/-- `AddContent` maps the file or generates a page. -/
theorem addContent_text (h : b.Holds g u n) :
    (∃ m, (addContent fs r b).2.Holds g (u ++ contentText fs r) m) ∧
      (addContent fs r b).1.fileStat = r.fileStat ∧
      (r.fileAddress = none → ((addContent fs r b).1.hasFile = true ↔ errorPage fs r = none)) := by
  have hpage : ∀ (code : Int) (message : Bytes), ∃ m,
      (generateErrorContent { r with responseCode := code } b message).Holds g
        (u ++ (headerText (ascii "Content-Length")
          (decimal (errorBody code message).length ++ crlf) ++ errorBody code message)) m := by
    intro code message
    obtain ⟨m₁, h₁⟩ := addCustomHeader_holds h (ascii "Content-Length")
      (decimal (errorBody code message).length ++ crlf)
    obtain ⟨m₂, h₂⟩ := h₁.append (errorBody code message)
    rw [List.append_assoc] at h₂
    exact ⟨m₂, h₂⟩
  unfold addContent contentText errorPage
  by_cases hserves : servesFile r.responseCode = true
  · rw [if_pos hserves, if_pos hserves]
    by_cases hopen : ¬ fs.canOpen (r.srcDir ++ r.path) = true
    · rw [if_pos hopen, if_pos hopen]
      refine ⟨hpage _ _, rfl, fun hnone => ?_⟩
      simp [hasFile, hnone]
    · rw [if_neg hopen, if_neg hopen]
      cases hmap : fs.mmap (r.srcDir ++ r.path) r.fileStat.size with
      | none =>
          -- the page of a file that cannot be mapped
          refine ⟨hpage _ _, rfl, fun hnone => ?_⟩
          simp [hasFile, hnone]
      | some file =>
          refine ⟨addCustomHeader_holds h _ _, rfl, fun _ => ?_⟩
          simp [hasFile]
  · rw [if_neg hserves, if_neg hserves]
    refine ⟨hpage _ _, rfl, fun hnone => ?_⟩
    simp [hasFile, hnone]

/-- **The text.** -/
theorem makeResponse_text (h : b.Holds g u n) (hlocated : located fs r = .ok r₁)
    (hcode : (kCodeStatus.lookup r₁.responseCode).isSome)
    (hmake : makeResponse fs r b = .ok (r', b')) :
    (∃ m, b'.Holds g (u ++ headersText r₁ ++ contentText fs r₁) m) ∧
      r'.fileStat = r₁.fileStat ∧
      (r₁.fileAddress = none → (r'.hasFile = true ↔ errorPage fs r₁ = none)) := by
  rw [makeResponse_located, hlocated] at hmake
  have heq := Except.ok.inj hmake
  dsimp only at heq
  obtain ⟨hstate, m₁, h₁⟩ := addStateLine_text h hcode
  rw [hstate] at heq
  obtain ⟨⟨k, hk⟩, m₂, h₂⟩ := @addHeader_text r₁ _ g _ m₁ h₁
  obtain ⟨⟨m₃, h₃⟩, hstat, hfile⟩ :=
    @addContent_text fs (addHeader r₁ (r₁.addStateLine b).2).1 _ g _ m₂ h₂
  rw [heq] at h₃ hstat hfile
  rw [hk] at h₃ hstat hfile
  refine ⟨⟨m₃, ?_⟩, hstat, hfile⟩
  rw [headersText, ← List.append_assoc u]
  exact h₃

/-- The codes behind `Process`. -/
def answeredCodes : List Int := [200, 301, 400, 403, 404]

theorem located_code (h : located fs r = .ok r₁) (hcode : r.responseCode = 200 ∨ r.responseCode = 400) :
    r₁.responseCode ∈ answeredCodes := by
  have hmissing : (404 : Int) ∈ answeredCodes := by decide
  have hforbidden : (403 : Int) ∈ answeredCodes := by decide
  rcases located_cases h with ⟨hserves, r₂, hadd, hchecked⟩ | ⟨-, rfl⟩
  · have hok : r.responseCode = 200 := by
      refine hcode.resolve_right fun hbad => ?_
      rw [hbad] at hserves
      revert hserves
      decide
    -- an index file makes it a redirection
    have hcode₂ : r₂.responseCode = 200 ∨ r₂.responseCode = 301 := by
      rcases addIndexFile_cases hadd with rfl | ⟨file, -, -, rfl⟩
      · exact Or.inl hok
      · exact Or.inr rfl
    cases hchecked with
    | missing => exact hmissing
    | directory => exact hmissing
    | unreadable => exact hforbidden
    | readable =>
        dsimp only
        rcases hcode₂ with h | h <;> rw [h] <;> decide
  · rcases hcode with h | h <;> rw [h] <;> decide

/-- Looking for the file changes neither the version nor the persistence. -/
theorem located_kept (h : located fs r = .ok r₁) :
    r₁.version = r.version ∧ r₁.isKeepalive = r.isKeepalive ∧ r₁.fileAddress = r.fileAddress := by
  rcases located_cases h with ⟨-, r₂, hadd, hchecked⟩ | ⟨-, rfl⟩
  · obtain ⟨-, -, hversion, hkeep, hfile⟩ := hchecked.kept
    rw [hversion, hkeep, hfile]
    rcases addIndexFile_cases hadd with rfl | ⟨file, -, -, rfl⟩ <;> exact ⟨rfl, rfl, rfl⟩
  · exact ⟨rfl, rfl, rfl⟩

theorem init_kept {webRoot path version : Bytes} {indexFile : Option (List Bytes)}
    {isKeepAlive : Bool} {code : Int}
    (h : r.init webRoot path indexFile version isKeepAlive code = .ok r₁) :
    r₁.version = version ∧ r₁.isKeepalive = isKeepAlive ∧ r₁.responseCode = code ∧
      r₁.fileAddress = none := by
  unfold init at h
  split at h
  · cases h
  · rw [← Except.ok.inj h]
    refine ⟨rfl, rfl, rfl, ?_⟩
    dsimp only
    split
    · rfl
    · rename_i hnone
      simpa [hasFile] using hnone

end HttpResponse

/-! ## §3  `Process` -/

namespace HttpConn

open HttpResponse

variable {J : Type} {js : JsonCpp J} {fs : FileSystem} {webRoot : Bytes} {c c' : HttpConn J}
  {q : HttpRequest J} {r : HttpResponse}

/-- `Process` has parsed the request `q` and answers it with `r`, for which it has looked for
the file. -/
structure Answering (js : JsonCpp J) (fs : FileSystem) (webRoot : Bytes) (c : HttpConn J)
    (q : HttpRequest J) (r : HttpResponse) : Prop where
  parsed : ∃ q₀ code b r₀, nextRequest js c.request = .ok q₀ ∧
    q₀.parse js c.readBuff = .ok (code, q, b) ∧ code ≠ .noRequest ∧
    c.response.init webRoot q.path c.indexFile q.version q.isKeepAlive
      (if code = .getRequest then 200 else 400) = .ok r₀ ∧
    located fs r₀ = .ok r

theorem Answering.kept (h : Answering js fs webRoot c q r) :
    r.version = q.version ∧ r.isKeepalive = q.isKeepAlive ∧ r.fileAddress = none ∧
      r.responseCode ∈ answeredCodes := by
  obtain ⟨q₀, code, b, r₀, -, -, -, hinit, hlocated⟩ := h
  obtain ⟨hversion, hkeep, hfile⟩ := located_kept hlocated
  obtain ⟨hversion₀, hkeep₀, hcode₀, hfile₀⟩ := init_kept hinit
  refine ⟨hversion.trans hversion₀, hkeep.trans hkeep₀, hfile.trans hfile₀, ?_⟩
  apply located_code hlocated
  rw [hcode₀]
  split
  · exact Or.inl rfl
  · exact Or.inr rfl

/-- What `Process` leaves of an answer: its text behind the bytes `u` that were in
`write_buff_`, and the vectors in front of both. -/
structure Answered (fs : FileSystem) (u : Bytes) (q : HttpRequest J) (r : HttpResponse)
    (c' : HttpConn J) : Prop where
  text : c'.writeBuff.readable = u ++ headersText r ++ contentText fs r
  request : c'.request = q
  page : errorPage fs r ≠ none → c'.iovCnt = 1
  file : errorPage fs r = none → c'.iovCnt = 2 ∧ c'.iov₁.len = toSize (toInt r.fileStat.size)

/-- What `respond` leaves of a request: the text of the response behind `u`. -/
theorem respond_text {g : Byte} {u : Bytes} {n : Nat} {code : Int} (hb : c.writeBuff.Holds g u n)
    (hcode : code = 200 ∨ code = 400) (h : respond fs webRoot code c = .ok c') :
    ∃ r₀ r, c.response.init webRoot c.request.path c.indexFile c.request.version
        c.request.isKeepAlive code = .ok r₀ ∧
      located fs r₀ = .ok r ∧ c'.request = c.request ∧
      c'.writeBuff.readable = u ++ headersText r ++ contentText fs r ∧
      c'.response.fileStat = r.fileStat ∧ (c'.response.hasFile = true ↔ errorPage fs r = none) := by
  obtain ⟨r₀, hinit, h⟩ := bind_eq_ok.mp h
  obtain ⟨⟨r', b'⟩, hmake, h⟩ := bind_eq_ok.mp h
  cases hlocated : located fs r₀ with
  | error e =>
      rw [makeResponse_located, hlocated] at hmake
      cases hmake
  | ok r =>
      obtain ⟨-, -, hcode₀, hnone⟩ := init_kept hinit
      have hknown := located_code hlocated (by rwa [hcode₀])
      have hlookup : (kCodeStatus.lookup r.responseCode).isSome := by
        generalize r.responseCode = code at hknown
        simp only [answeredCodes, List.mem_cons, List.not_mem_nil, or_false] at hknown
        rcases hknown with rfl | rfl | rfl | rfl | rfl <;> decide
      obtain ⟨⟨m, hm⟩, hstat, hfile⟩ := makeResponse_text hb hlocated hlookup hmake
      obtain rfl := Except.ok.inj h
      exact ⟨r₀, r, hinit, hlocated, rfl, hm.readable, hstat,
        hfile ((located_kept hlocated).2.2.trans hnone)⟩

/-- Every answer of `Process` is one of these. -/
theorem process_answered {g : Byte} {u : Bytes} {n : Nat} (hb : c.writeBuff.Holds g u n)
    (h : process js fs webRoot c = .ok (.finish, c')) :
    ∃ q r, Answering js fs webRoot c q r ∧ Answered fs u q r c' := by
  obtain ⟨q₀, hnext, h⟩ := bind_eq_ok.mp h
  dsimp only at h
  split at h
  · cases h
  · obtain ⟨⟨code, q, b⟩, hparse, h⟩ := bind_eq_ok.mp h
    dsimp only at h
    split at h
    · cases h
    · rename_i hcode
      obtain ⟨c₁, hrespond, h⟩ := bind_eq_ok.mp h
      have hresponse : (if code = .getRequest then (200 : Int) else 400) = 200 ∨
          (if code = .getRequest then (200 : Int) else 400) = 400 := by
        split
        · exact Or.inl rfl
        · exact Or.inr rfl
      obtain ⟨r₀, r, hinit, hlocated, hrequest, htext, hstat, hfile⟩ :=
        @respond_text J fs webRoot { c with request := q, readBuff := b } c₁ g u n _ hb hresponse
          hrespond
      refine ⟨q, r, ⟨q₀, code, b, r₀, hnext, hparse, hcode, hinit, hlocated⟩, ?_⟩
      simp only [pure, Except.pure, Except.ok.injEq, Prod.mk.injEq] at h
      obtain ⟨-, rfl⟩ := h
      -- the second vector is there exactly if the file was mapped
      refine ⟨?_, ?_, fun hpage => ?_, fun hpage => ?_⟩
      · split <;> exact htext
      · split <;> exact hrequest
      · split
        · rename_i hhas
          exact absurd (hfile.mp hhas) hpage
        · rfl
      · split
        · rw [← hstat]
          exact ⟨rfl, rfl⟩
        · rename_i hhas
          exact absurd (hfile.mpr hpage) hhas

/-- So is the answer of `ProcessProxy` to a request that is rejected. -/
theorem processProxy_answered {g : Byte} {u : Bytes} {n : Nat}
    {entries : HeaderMap → List (Bytes × Bytes)} {result : ProxyProcessState}
    {q₀ : HttpRequest J} {b : Buffer} (hb : c.writeBuff.Holds g u n)
    (hstate : c.proxyProcessState = .pendingReadFromClient)
    (hnext : nextRequest js c.request = .ok q₀)
    (hparse : q₀.parse js c.readBuff = .ok (.badRequest, q, b))
    (h : processProxy js fs webRoot entries c = .ok (result, c')) :
    ∃ r, Answering js fs webRoot c q r ∧ Answered fs u q r c' := by
  unfold processProxy at h
  split at h
  · obtain ⟨q₁, hq₁, h⟩ := bind_eq_ok.mp h
    obtain rfl := Except.ok.inj (hnext.symm.trans hq₁)
    obtain ⟨⟨code, q', b'⟩, hparse', h⟩ := bind_eq_ok.mp h
    obtain ⟨rfl, rfl, rfl⟩ : HttpCode.badRequest = code ∧ q = q' ∧ b = b' := by
      simpa using Except.ok.inj (hparse.symm.trans hparse')
    obtain ⟨c₁, hrespond, h⟩ := bind_eq_ok.mp h
    obtain ⟨r₀, r, hinit, hlocated, hrequest, htext, -, -⟩ :=
      @respond_text J fs webRoot { c with request := q, readBuff := b } c₁ g u n _ hb (Or.inr rfl)
        hrespond
    -- a 400 serves no file
    have hpage : errorPage fs r ≠ none := by
      have hserves : servesFile r₀.responseCode = false := by
        rw [(init_kept hinit).2.2.1]
        decide
      rcases located_cases hlocated with ⟨hserves', -⟩ | ⟨-, rfl⟩
      · rw [hserves] at hserves'
        cases hserves'
      · rw [errorPage, if_neg (by rw [hserves]; decide)]
        simp
    simp only [pure, Except.pure, Except.ok.injEq, Prod.mk.injEq] at h
    obtain ⟨-, rfl⟩ := h
    exact ⟨r, ⟨q₀, .badRequest, b, r₀, hnext, hparse, by decide, hinit, hlocated⟩,
      htext, hrequest, fun _ => rfl, fun hnone => absurd hnone hpage⟩
  · rename_i hserver
    rw [hstate] at hserver
    cases hserver
  · rename_i hclient hserver
    exact absurd hstate hclient

end HttpConn

end WhiteWebServer
