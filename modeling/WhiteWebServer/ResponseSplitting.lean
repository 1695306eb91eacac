import WhiteWebServer.ResponseFraming

/-!
# The header block of a response

The status line and the headers of a response hold bytes that a client sent: the version, and
behind a redirection the path. §1 header blocks without a line end in their lines; §2 the one
`MakeResponse` appends.
-/

namespace WhiteWebServer

open Outcome

/-! ## §1  Header blocks -/

/-- A status line and the names and values of headers; no line has a line end in it. -/
structure HeaderBlock where
  status : Bytes
  fields : List (Bytes × Bytes)
  status_line : status ≠ [] ∧ LF ∉ status
  field_lines : ∀ f ∈ fields, colon ∉ f.1 ∧ LF ∉ f.1 ∧ LF ∉ f.2

namespace HeaderBlock

def lines (h : HeaderBlock) : List Bytes :=
  h.status :: h.fields.map fun f => f.1 ++ ascii ": " ++ f.2

/-- The lines, each with its CRLF, and the empty line. -/
def text (h : HeaderBlock) : Bytes := WireRequest.joinLines h.lines ++ crlf

theorem openHead (h : HeaderBlock) : OpenHead (WireRequest.joinLines h.lines) h.lines := by
  refine ⟨rfl, fun line hline => ?_⟩
  rcases List.mem_cons.mp hline with rfl | hline
  · exact h.status_line
  · obtain ⟨f, hf, rfl⟩ := List.mem_map.mp hline
    obtain ⟨-, hname, hvalue⟩ := h.field_lines f hf
    refine ⟨by simp [ascii], ?_⟩
    rw [List.mem_append, List.mem_append, not_or, not_or]
    exact ⟨⟨hname, by decide⟩, hvalue⟩

/-- A client reads these lines and no more. -/
theorem headBlock_text (h : HeaderBlock) (body : Bytes) :
    headBlock (h.text ++ body) = some (h.lines, body) := by
  have hempty : HttpRequest.splitLine (crlf ++ body) = some ([], body) :=
    HttpRequest.splitLine_eq_some.mpr ⟨rfl, List.not_mem_nil⟩
  rw [text, List.append_assoc, h.openHead.block_append, headBlock_some hempty, if_pos rfl]
  simp

theorem count_joinLines : ∀ {lines : List Bytes}, (∀ line ∈ lines, LF ∉ line) →
    (WireRequest.joinLines lines).count LF = lines.length := by
  intro lines
  induction lines with
  | nil => exact fun _ => rfl
  | cons line lines ih =>
      intro h
      have hline : line.count LF = 0 := List.count_eq_zero.mpr (h line List.mem_cons_self)
      have hrest := ih fun line' hline' => h line' (List.mem_cons_of_mem _ hline')
      rw [WireRequest.joinLines] at hrest
      rw [WireRequest.joinLines, List.flatMap_cons, List.count_append, List.count_append, hline,
        hrest, show crlf.count LF = 1 from rfl, List.length_cons]
      omega

/-- No LF but those that end the status line, the headers and the block. -/
theorem count_text (h : HeaderBlock) : h.text.count LF = h.fields.length + 2 := by
  rw [text, List.count_append, count_joinLines fun line hline => (h.openHead.plain line hline).2,
    show crlf.count LF = 1 from rfl, lines, List.length_cons, List.length_map]

end HeaderBlock

/-! ## §2  What `MakeResponse` appends -/

namespace HttpResponse

variable {fs : FileSystem} {r : HttpResponse}

/-- The headers of `AddHeader`, then that of `AddContent`. -/
def allFields (fs : FileSystem) (r : HttpResponse) : List (Bytes × Bytes) :=
  fields r ++ [(ascii "Content-Length", printedLength fs r)]

theorem printedLength_lf (fs : FileSystem) (r : HttpResponse) : LF ∉ printedLength fs r := by
  unfold printedLength
  split
  · exact decimal_lf _
  · exact toString_lf _

/-- The block of a response without a line end in the version or the path. -/
def headerBlock (fs : FileSystem) (r : HttpResponse) (hversion : LF ∉ r.version)
    (hpath : LF ∉ r.path) : HeaderBlock where
  status := statusLine r
  fields := allFields fs r
  status_line := ⟨by simp [statusLine, ascii], statusLine_lf hversion⟩
  field_lines f hf := by
    rcases List.mem_append.mp hf with hf | hf
    · obtain ⟨hcolon, -, hname⟩ := fields_name_plain hf
      exact ⟨hcolon, hname, fields_value_lf hf hpath⟩
    · obtain rfl := List.mem_singleton.mp hf
      exact ⟨show colon ∉ ascii "Content-Length" by decide,
        show LF ∉ ascii "Content-Length" by decide, printedLength_lf fs r⟩

theorem headerBlock_text (hversion : LF ∉ r.version) (hpath : LF ∉ r.path) :
    headersText r ++ contentText fs r =
      (headerBlock fs r hversion hpath).text ++ (errorPage fs r).getD [] := by
  rw [(openHead_headersText hversion hpath).1.text, contentText_eq, lengthEnd_eq]
  simp [HeaderBlock.text, HeaderBlock.lines, headerBlock, allFields, headerLines,
    WireRequest.joinLines, List.append_assoc]

/-- The names of the headers, and how many there are, do not depend on the path. -/
theorem fields_names (r : HttpResponse) (path : Bytes) :
    (fields { r with path := path }).map Prod.fst = (fields r).map Prod.fst := by
  have hconnection : (connectionFields { r with path := path }).map Prod.fst =
      (connectionFields r).map Prod.fst := by
    unfold connectionFields
    dsimp only
    split
    · rfl
    · split
      · split <;> rfl
      · rfl
  simp only [fields, List.map_append, List.map_cons, hconnection]

/-- `text` is a header block and a body. A client reads the lines of the block, each LF in it
is one that ends a line, and no path gives other headers or more of them. -/
structure Unsplit (fs : FileSystem) (r : HttpResponse) (text : Bytes) : Prop where
  block : ∃ (head : HeaderBlock) (body : Bytes), text = head.text ++ body ∧
    head.status = statusLine r ∧ head.fields = allFields fs r ∧
    headBlock text = some (head.lines, body) ∧ head.text.count LF = head.fields.length + 2
  names : ∀ path, (allFields fs r).map Prod.fst =
    (fields { r with path := path }).map Prod.fst ++ [ascii "Content-Length"]

theorem unsplit_of_plain (hversion : LF ∉ r.version) (hpath : LF ∉ r.path) :
    Unsplit fs r (headersText r ++ contentText fs r) := by
  refine ⟨⟨headerBlock fs r hversion hpath, (errorPage fs r).getD [], ?_, rfl, rfl, ?_, ?_⟩, ?_⟩
  · exact headerBlock_text hversion hpath
  · rw [headerBlock_text hversion hpath]
    exact HeaderBlock.headBlock_text _ _
  · exact HeaderBlock.count_text _
  · intro path
    rw [fields_names, allFields, List.map_append]
    rfl

end HttpResponse

namespace HttpConn

open HttpResponse

variable {J : Type} {js : JsonCpp J} {fs : FileSystem} {webRoot : Bytes} {c c' : HttpConn J}

/-- `MakeResponse` was called for the request `q`, and has appended the text of `r`. -/
theorem answered_unsplit {g : Byte} {u : Bytes} {n : Nat} {q : HttpRequest J} {r : HttpResponse}
    (hc : Reached js webRoot c) (hindex : ∀ file ∈ c.indexFile.getD [], LF ∉ file)
    (hb : c.writeBuff.Holds g u n) (hanswer : Answering js fs webRoot c q r)
    (hanswered : Answered fs u q r c') :
    ∃ text, c'.writeBuff.readable = c.writeBuff.readable ++ text ∧ Unsplit fs r text := by
  obtain ⟨hversion, hpath⟩ := hanswer.plain hc hindex
  refine ⟨headersText r ++ contentText fs r, ?_, unsplit_of_plain hversion hpath⟩
  rw [hanswered.text, hb.readable, List.append_assoc]

/-- **No response splitting.** Whatever a client sends, in whatever pieces, and whatever the
file system answers, for index files without a line end in their names: what `Process`
appends to `write_buff_`, and `ProcessProxy` for a request it rejects, is one header block
and a body. -/
theorem process_unsplit (hc : Reached js webRoot c)
    (hindex : ∀ file ∈ c.indexFile.getD [], LF ∉ file) :
    (∀ c', process js fs webRoot c = .ok (.finish, c') →
      ∃ q r text, Answering js fs webRoot c q r ∧
        c'.writeBuff.readable = c.writeBuff.readable ++ text ∧ Unsplit fs r text) ∧
    (∀ entries result q₀ q b c', c.proxyProcessState = .pendingReadFromClient →
      nextRequest js c.request = .ok q₀ →
      q₀.parse js c.readBuff = .ok (.badRequest, q, b) →
      processProxy js fs webRoot entries c = .ok (result, c') →
      ∃ r text, Answering js fs webRoot c q r ∧
        c'.writeBuff.readable = c.writeBuff.readable ++ text ∧ Unsplit fs r text) := by
  obtain ⟨g, u, n, hb⟩ := hc.buffersStored.writeBuff
  constructor
  · intro c' hprocess
    obtain ⟨q, r, hanswer, hanswered⟩ := process_answered hb hprocess
    obtain ⟨text, htext, hunsplit⟩ := answered_unsplit hc hindex hb hanswer hanswered
    exact ⟨q, r, text, hanswer, htext, hunsplit⟩
  · intro entries result q₀ q b c' hstate hnext hparse hprocess
    obtain ⟨r, hanswer, hanswered⟩ := processProxy_answered hb hstate hnext hparse hprocess
    obtain ⟨text, htext, hunsplit⟩ := answered_unsplit hc hindex hb hanswer hanswered
    exact ⟨r, text, hanswer, htext, hunsplit⟩

/-- A carriage return in the name of a directory, which has an index file. -/
def returnInPath : List ConnCall :=
  [.init 5 ⟨10, 0, 0, 7⟩ (-1) (some [ascii "i"]),
   .readFromFd [ascii "GET /a\rX:y/ HT", ascii "TP/1.1\r\n\r\n"]]

theorem process_unsplit_return :
    ∃ c c', Reached HttpRequest.membersJson (ascii "/srv") c ∧
      process HttpRequest.membersJson HttpRequest.worldReadable (ascii "/srv") c =
        .ok (.finish, c') ∧
      ∃ r, Unsplit HttpRequest.worldReadable r c'.writeBuff.readable := by
  have hanswer : ((HttpConn.new HttpRequest.membersJson zeroed).map fun c₀ =>
      ((calls HttpRequest.membersJson (ascii "/srv") c₀).run returnInPath).map fun run =>
        ((run.1.process HttpRequest.membersJson HttpRequest.worldReadable (ascii "/srv")).map
          Prod.fst, run.1.writeBuff.readable, run.1.indexFile)) =
        .ok (some (.ok .finish, [], some [ascii "i"])) := by
    decide +kernel
  obtain ⟨c₀, hnew, hanswer⟩ := map_eq_ok hanswer
  obtain ⟨⟨c, os⟩, hrun, hanswer⟩ := Option.map_eq_some_iff.mp hanswer.symm
  obtain ⟨hfinish, hempty, hindex⟩ := by simpa only [Prod.mk.injEq] using hanswer
  obtain ⟨⟨result, c'⟩, hprocess, hresult⟩ := map_eq_ok hfinish
  obtain rfl : ProcessState.finish = result := hresult
  have hreached : Reached HttpRequest.membersJson (ascii "/srv") c :=
    ⟨zeroed, c₀, hnew, returnInPath, os, hrun⟩
  obtain ⟨q, r, text, -, htext, hunsplit⟩ := (process_unsplit hreached (by
    rw [hindex]
    decide)).1 c' hprocess
  rw [hempty, List.nil_append] at htext
  exact ⟨c, c', hreached, hprocess, r, htext ▸ hunsplit⟩

end HttpConn

end WhiteWebServer
