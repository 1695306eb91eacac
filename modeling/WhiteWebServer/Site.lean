import WhiteWebServer.SerialClient
import WhiteWebServer.PooledServer

/-!
# What a site says

The server as its clients see it: names with what they stand for, and for each path the reply of
the site. §1 the site, without sockets, buffers or system calls; §2 a reply read back from the bytes
of a response; §3 the bytes of an answer are the reply of the site that the file system shows;
§4 the path that a request names; §5 every run of the event loop and its workers.
-/

namespace WhiteWebServer

open HttpConn HttpRequest HttpResponse Outcome

/-! ## §1  The site -/

/-- What a name stands for. -/
inductive Entry
  | directory
  /-- not everyone may read it -/
  | locked
  | file (content : Bytes)
deriving DecidableEq

/-- The web root is the front of every name that is looked up. -/
structure Site where
  tree : Bytes → Option Entry
  root : Bytes
  index : List Bytes

/-- What a client makes of a response. -/
structure Reply where
  code : Nat
  location : Option Bytes
  mediaType : Option Bytes
  content : Bytes
deriving DecidableEq

namespace Site

/-- The index file that stands for a directory is the first one there is. -/
def indexFor (site : Site) (path : Bytes) : Option Bytes :=
  if path.getLast? = some slash then
    site.index.find? fun file => (site.tree (site.root ++ path ++ file)).isSome
  else none

/-- The name of what is served. -/
def name (site : Site) (path : Bytes) : Bytes := path ++ (site.indexFor path).getD []

def entry (site : Site) (path : Bytes) : Option Entry := site.tree (site.root ++ site.name path)

def mediaType (name : Bytes) : Bytes :=
  ((suffix name).bind fun suffix => kSuffixType.lookup suffix).getD (ascii "text/plain")

/-- A page in place of a file. -/
def refusal (code : Nat) : Reply :=
  { code := code, location := none, mediaType := some (ascii "text/html"),
    content := errorBody code (ascii "Cannot open specific file") }

/-- A file, or behind a directory its index file with the name to ask for; what is missing or
locked gets a page. Nothing can be mapped of an empty file, and a page says so. -/
def reply (site : Site) (path : Bytes) : Reply :=
  match site.entry path with
  | some (.file content) =>
      { code := if (site.indexFor path).isSome then 301 else 200
        location := if (site.indexFor path).isSome then some (site.name path) else none
        mediaType := some (mediaType (site.name path))
        content := if content = [] then errorBody 500 (ascii "Cannot map specific file")
          else content }
  | some .locked => refusal 403
  | some .directory => refusal 404
  | none => refusal 404

end Site

/-! ## §2  Reading a reply -/

namespace Client

/-- The value of a line `key: value`, the key in any letter case. -/
def fieldNamed (key line : Bytes) : Option Bytes :=
  if colon ∈ line ∧ strcasecmpEq (line.takeWhile (· != colon)) key then
    some (((line.dropWhile (· != colon)).drop 1).dropWhile (blanks.contains ·))
  else none

/-- The number behind the first blank. -/
def statusCode (line : Bytes) : Nat :=
  digitsValue (((line.dropWhile (· != SP)).drop 1).takeWhile (· != SP))

def readReply (text : Bytes) : Option Reply :=
  match headBlock text with
  | some (status :: lines, content) =>
      some { code := statusCode status
             location := lines.findSome? (fieldNamed (ascii "Location"))
             mediaType := lines.findSome? (fieldNamed (ascii "Content-type"))
             content := content }
  | _ => none

theorem fieldNamed_line {key name value : Bytes} (hname : colon ∉ name) :
    fieldNamed key (name ++ ascii ": " ++ value) =
      if strcasecmpEq name key then some (value.dropWhile (blanks.contains ·)) else none := by
  have hall : ∀ c ∈ name, (c != colon) = true := by
    intro c hc
    exact bne_iff_ne.mpr fun heq => hname (heq ▸ hc)
  have hline : name ++ ascii ": " ++ value = name ++ colon :: SP :: value := by
    rw [List.append_assoc]
    rfl
  have hmem : colon ∈ name ++ colon :: SP :: value := by simp
  have hfalse : ¬ (colon != colon) = true := by simp
  have hblank : (SP :: value).dropWhile (blanks.contains ·) = value.dropWhile (blanks.contains ·) :=
    List.dropWhile_cons_of_pos (by decide)
  rw [hline, fieldNamed, List.takeWhile_append_of_pos hall, List.dropWhile_append_of_pos hall,
    List.takeWhile_cons_of_neg (p := fun c => c != colon) hfalse,
    List.dropWhile_cons_of_neg (p := fun c => c != colon) hfalse, List.append_nil]
  simp only [hmem, true_and, List.drop_succ_cons, List.drop_zero, hblank]

variable {fs : FileSystem} {r : HttpResponse}

/-- What `AddHeader` writes about the connection besides a Location. -/
def connectionLines : List (Bytes × Bytes) :=
  [(ascii "Connection", ascii "Close"), (ascii "Connection", ascii "keep-alive"),
    (ascii "keep-alive", ascii "max=6, timeout=120")]

theorem connectionFields_split (r : HttpResponse) :
    ∃ others, connectionFields r =
        (if r.responseCode = 301 then [(ascii "Location", r.path)] else []) ++ others ∧
      ∀ f ∈ others, f ∈ connectionLines := by
  have hclose : ∀ f ∈ [(ascii "Connection", ascii "Close")], f ∈ connectionLines :=
    fun f hf => List.mem_append_left [_, _] hf
  unfold connectionFields
  by_cases hmissing : r.responseCode = 404
  · refine ⟨_, ?_, hclose⟩
    rw [if_pos hmissing, hmissing]
    rfl
  · rw [if_neg hmissing]
    by_cases hserves : servesFile r.responseCode = true
    · rw [if_pos hserves]
      refine ⟨_, rfl, ?_⟩
      intro f hf
      split at hf
      · cases hf
      · split at hf
        · exact List.mem_cons_of_mem _ hf
        · exact hclose f hf
    · rw [if_neg hserves]
      refine ⟨[], ?_, ?_⟩
      · rw [if_neg]
        · rfl
        · intro hmoved
          rw [hmoved] at hserves
          exact hserves (by decide)
      · intro f hf
        cases hf

/-- The first header of this name. -/
def headerNamed (key : Bytes) (fields : List (Bytes × Bytes)) : Option Bytes :=
  fields.findSome? fun f =>
    if strcasecmpEq f.1 key then some (f.2.dropWhile (blanks.contains ·)) else none

theorem headerNamed_none {key : Bytes} {fields : List (Bytes × Bytes)}
    (h : ∀ f ∈ fields, strcasecmpEq f.1 key = false) : headerNamed key fields = none := by
  apply List.findSome?_eq_none_iff.mpr
  intro f hf
  rw [h f hf]
  rfl

theorem headerNamed_append {key : Bytes} {fields more : List (Bytes × Bytes)} :
    headerNamed key (fields ++ more) = (headerNamed key fields).or (headerNamed key more) :=
  List.findSome?_append

theorem headerNamed_cons {key name value : Bytes} {more : List (Bytes × Bytes)} :
    headerNamed key ((name, value) :: more) =
      if strcasecmpEq name key then some (value.dropWhile (blanks.contains ·))
      else headerNamed key more := by
  cases h : strcasecmpEq name key with
  | true => simp only [headerNamed, List.findSome?_cons, h, if_true]
  | false => simp only [headerNamed, List.findSome?_cons, h, Bool.false_eq_true, if_false]

/-- A client finds a header where `AddHeader` wrote it. -/
theorem field_response {key value : Bytes}
    (hkey : strcasecmpEq (ascii "Content-Length") key = false) :
    (headerLines r ++ [ascii "Content-Length" ++ ascii ": " ++ value]).findSome? (fieldNamed key) =
      headerNamed key (fields r) := by
  have hlength : [ascii "Content-Length" ++ ascii ": " ++ value].findSome? (fieldNamed key) =
      none := by
    rw [List.findSome?_singleton, fieldNamed_line (by decide), hkey]
    rfl
  rw [List.findSome?_append, hlength, Option.or_none, headerLines, List.findSome?_map,
    headerNamed, ← List.head?_filterMap, ← List.head?_filterMap]
  congr 1
  apply List.filterMap_congr
  intro f hf
  exact fieldNamed_line (fields_name_plain hf).1

theorem location_response (hslash : r.path.head? = some slash) :
    headerNamed (ascii "Location") (fields r) =
      if r.responseCode = 301 then some r.path else none := by
  have hpath : r.path.dropWhile (blanks.contains ·) = r.path := by
    obtain ⟨rest, hrest⟩ := List.head?_eq_some_iff.mp hslash
    rw [hrest]
    exact List.dropWhile_cons_of_neg (by decide)
  obtain ⟨others, hsplit, hothers⟩ := connectionFields_split r
  have hnone : headerNamed (ascii "Location") others = none := by
    have hlines : ∀ f ∈ connectionLines, strcasecmpEq f.1 (ascii "Location") = false := by decide
    exact headerNamed_none fun f hf => hlines f (hothers f hf)
  have hrest : headerNamed (ascii "Location") ((ascii "Content-type", r.getFileType) ::
      ((if r.version = ascii "1.1" then
        [(ascii "Cache-Control", ascii "max-age=31536000")] else []) ++
          [(ascii "Server", ascii "WhiteWebServer")])) = none := by
    rw [headerNamed_cons, if_neg (by decide)]
    split
    · decide
    · decide
  rw [fields, headerNamed_append, hrest, Option.or_none, hsplit, headerNamed_append, hnone,
    Option.or_none]
  split
  · rw [headerNamed_cons, if_pos (by decide), hpath]
  · rfl

/-- No media type starts with a blank. -/
theorem getFileType_dropWhile (r : HttpResponse) :
    r.getFileType.dropWhile (blanks.contains ·) = r.getFileType := by
  have htable : ∀ f ∈ kSuffixType, f.2.dropWhile (blanks.contains ·) = f.2 := by decide
  unfold getFileType
  split
  · decide
  · split
    · decide
    · rename_i suffix _
      cases hlookup : kSuffixType.lookup suffix with
      | none => decide
      | some value => exact htable _ (mem_of_lookup hlookup)

theorem mediaType_response (r : HttpResponse) :
    headerNamed (ascii "Content-type") (fields r) = some r.getFileType := by
  obtain ⟨others, hsplit, hothers⟩ := connectionFields_split r
  have hnone : headerNamed (ascii "Content-type") (connectionFields r) = none := by
    have hlines : ∀ f ∈ connectionLines, strcasecmpEq f.1 (ascii "Content-type") = false := by
      decide
    rw [hsplit, headerNamed_append, headerNamed_none fun f hf => hlines f (hothers f hf),
      Option.or_none]
    split
    · rw [headerNamed_cons, if_neg (by decide)]
      rfl
    · rfl
  rw [fields, headerNamed_append, hnone, Option.none_or, headerNamed_cons, if_pos (by decide),
    getFileType_dropWhile]

/-- What a client reads of a response. -/
theorem readReply_response {rest : Bytes} (hversion : LF ∉ r.version) (hpath : LF ∉ r.path)
    (hslash : r.path.head? = some slash) :
    readReply (headersText r ++ contentText fs r ++ rest) = some
      { code := statusCode (statusLine r)
        location := if r.responseCode = 301 then some r.path else none
        mediaType := some r.getFileType
        content := (errorPage fs r).getD [] ++ rest } := by
  rw [readReply, headBlock_append (headBlock_response hversion hpath) rest, List.cons_append]
  dsimp only
  rw [field_response (by decide), field_response (by decide), location_response hslash,
    mediaType_response]

end Client

/-! ## §3  The files a response asks for -/

/-- What `stat` says of an entry. -/
def Entry.Stat : Entry → FileStat → Prop
  | .directory, st => st.isDir = true
  | .locked, st => st.isDir = false ∧ st.othersRead = false
  | .file content, st => st.isDir = false ∧ st.othersRead = true ∧ st.size = content.length

/-- The system calls say what the tree has. `mmap` refuses to map nothing. -/
structure FileSystem.Shows (fs : FileSystem) (tree : Bytes → Option Entry) : Prop where
  access : ∀ name, fs.access name = (tree name).isSome
  absent : ∀ name, tree name = none → fs.stat name = none
  stat : ∀ name entry, tree name = some entry → ∃ st, fs.stat name = some st ∧ entry.Stat st
  opens : ∀ name content, tree name = some (.file content) → fs.canOpen name = true ∧
    fs.mmap name content.length = if content = [] then none else some content

namespace Site

variable {fs : FileSystem} {site : Site} {r₀ r : HttpResponse} {path : Bytes}

/-- A response that looks for `path` on the site. -/
structure Looks (site : Site) (path : Bytes) (r : HttpResponse) : Prop where
  srcDir : r.srcDir = site.root
  path : r.path = path
  indexFile : r.indexFile = some site.index
  code : r.responseCode = 200

/-- The index file is looked up as the site has it. -/
theorem Looks.addIndexFile (h : Looks site path r) (hshows : fs.Shows site.tree)
    (hpath : path ≠ []) : HttpResponse.addIndexFile fs r = .ok
      { r with path := site.name path
               responseCode := if (site.indexFor path).isSome then 301 else 200 } := by
  have hsearch : (site.index.find? fun file => fs.access (r.srcDir ++ path ++ file)) =
      site.index.find? fun file => (site.tree (site.root ++ path ++ file)).isSome := by
    rw [h.srcDir]
    congr 1
    ext file
    rw [hshows.access]
  have hsame : { r with path := path, indexFile := some site.index, responseCode := 200 } = r := by
    rw [← h.path, ← h.code, ← h.indexFile]
  unfold HttpResponse.addIndexFile name indexFor
  rw [h.indexFile, h.path]
  cases hlast : path.getLast? with
  | none => exact absurd (List.getLast?_eq_none_iff.mp hlast) hpath
  | some last =>
      dsimp only
      by_cases hslash : last = slash
      · rw [if_pos hslash, if_pos (congrArg some hslash)]
        simp only [hsearch]
        cases site.index.find? fun file => (site.tree (site.root ++ path ++ file)).isSome with
        | none =>
            simp only [Option.getD_none, List.append_nil, Option.isSome_none, Bool.false_eq_true,
              if_false]
            rw [hsame]
        | some file =>
            simp only [Option.getD_some, Option.isSome_some, if_true]
      · rw [if_neg hslash, if_neg fun heq => hslash (Option.some.inj heq)]
        simp only [Option.getD_none, List.append_nil, Option.isSome_none, Bool.false_eq_true,
          if_false]
        rw [hsame]

/-- The code that an entry gets. -/
def codeOf (site : Site) (path : Bytes) : Int :=
  match site.entry path with
  | some (.file _) => if (site.indexFor path).isSome then 301 else 200
  | some .locked => 403
  | some .directory => 404
  | none => 404

theorem Looks.located (h : Looks site path r₀) (hshows : fs.Shows site.tree) (hpath : path ≠ [])
    (hlocated : HttpResponse.located fs r₀ = .ok r) :
    r.srcDir = site.root ∧ r.path = site.name path ∧ r.responseCode = site.codeOf path ∧
      ∀ content, site.entry path = some (.file content) → r.fileStat.size = content.length := by
  rcases located_cases hlocated with ⟨-, r₁, hadd, hchecked⟩ | ⟨hnot, -⟩
  · rw [h.addIndexFile hshows hpath] at hadd
    obtain rfl := Except.ok.inj hadd
    obtain ⟨hsrc, hname, -⟩ := hchecked.kept
    refine ⟨hsrc.trans h.srcDir, hname, ?_⟩
    have hentry : site.entry path = site.tree (r₀.srcDir ++ site.name path) := by
      rw [h.srcDir]
      rfl
    unfold codeOf
    cases hfound : site.entry path with
    | none =>
        have habsent := hshows.absent _ (hentry.symm.trans hfound)
        cases hchecked with
        | missing => exact ⟨rfl, fun content hcontent => nomatch hcontent⟩
        | directory hstat => rw [habsent] at hstat; cases hstat
        | unreadable hstat => rw [habsent] at hstat; cases hstat
        | readable hstat => rw [habsent] at hstat; cases hstat
    | some entry =>
        obtain ⟨st, hst, hentry⟩ := hshows.stat _ entry (hentry.symm.trans hfound)
        cases hchecked with
        | missing hstat => rw [hst] at hstat; cases hstat
        | directory hstat hdir =>
            obtain rfl := Option.some.inj (hst.symm.trans hstat)
            cases entry with
            | directory => exact ⟨rfl, fun content hcontent => nomatch hcontent⟩
            | locked => rw [hentry.1] at hdir; cases hdir
            | file content => rw [hentry.1] at hdir; cases hdir
        | unreadable hstat hdir hread =>
            obtain rfl := Option.some.inj (hst.symm.trans hstat)
            cases entry with
            | directory => rw [show _ = true from hentry] at hdir; cases hdir
            | locked => exact ⟨rfl, fun content hcontent => nomatch hcontent⟩
            | file content => rw [hentry.2.1] at hread; cases hread
        | readable hstat hdir hread =>
            obtain rfl := Option.some.inj (hst.symm.trans hstat)
            cases entry with
            | directory => rw [show _ = true from hentry] at hdir; cases hdir
            | locked => rw [hentry.2] at hread; cases hread
            | file content =>
                refine ⟨?_, fun content' hcontent => ?_⟩
                · dsimp only
                  by_cases hindex : (site.indexFor path).isSome = true
                  · rw [if_pos hindex]
                    rfl
                  · rw [if_neg hindex]
                    rfl
                · obtain rfl := Entry.file.inj (Option.some.inj hcontent)
                  exact hentry.2.2
  · rw [h.code] at hnot
    cases hnot

/-- A response that announces `code` in a version the server speaks. -/
structure Announcing (code : Nat) (r : HttpResponse) : Prop where
  version : r.version = ascii "1.1" ∨ r.version = ascii "1.0"
  announced : r.responseCode = code
  known : code ∈ [200, 301, 403, 404]

theorem Announcing.statusCode {code : Nat} (h : Announcing code r) :
    Client.statusCode (statusLine r) = code := by
  have hknown := h.known
  unfold statusLine
  rw [h.announced]
  simp only [List.mem_cons, List.not_mem_nil, or_false] at hknown
  rcases h.version with hversion | hversion
  · rw [hversion]
    rcases hknown with rfl | rfl | rfl | rfl <;> decide
  · rw [hversion]
    rcases hknown with rfl | rfl | rfl | rfl <;> decide

/-- A page in place of a file is read as the refusal. -/
theorem readReply_refusal {code : Nat} (h : Announcing code r) (hrefused : code ∈ [403, 404])
    (hpath : LF ∉ r.path) (hslash : r.path.head? = some slash) :
    Client.readReply (fullText fs r) = some (refusal code) := by
  have hserves : servesFile r.responseCode = false := by
    rw [h.announced]
    simp only [List.mem_cons, List.not_mem_nil, or_false] at hrefused
    rcases hrefused with rfl | rfl <;> decide
  have hpage : errorPage fs r = some (errorBody code (ascii "Cannot open specific file")) := by
    rw [errorPage, hserves, ← h.announced]
    rfl
  have hmapped : mappedFile fs r = [] := by
    rw [mappedFile, hpage]
    rfl
  have hversion : LF ∉ r.version := by
    rcases h.version with hversion | hversion <;> rw [hversion] <;> decide
  have hmoved : ¬ r.responseCode = 301 := by
    intro hmoved
    rw [hmoved] at hserves
    revert hserves
    decide
  have htype : r.getFileType = ascii "text/html" := by
    unfold getFileType
    rw [h.announced]
    simp only [List.mem_cons, List.not_mem_nil, or_false] at hrefused
    rcases hrefused with rfl | rfl <;> rfl
  rw [fullText, Client.readReply_response hversion hpath hslash, h.statusCode, if_neg hmoved, htype,
    hpage, hmapped, List.append_nil]
  rfl

/-- A file that is found is read as it is, with its name behind a redirection. -/
theorem readReply_file {code : Nat} {content : Bytes} (h : Announcing code r)
    (hserves : code ∈ [200, 301]) (hpath : LF ∉ r.path) (hslash : r.path.head? = some slash)
    (hopens : fs.canOpen (r.srcDir ++ r.path) = true)
    (hmaps : fs.mmap (r.srcDir ++ r.path) r.fileStat.size =
      if content = [] then none else some content) :
    Client.readReply (fullText fs r) = some
      { code := code
        location := if code = 301 then some r.path else none
        mediaType := some (mediaType r.path)
        content := if content = [] then errorBody 500 (ascii "Cannot map specific file")
          else content } := by
  have hserves' : servesFile r.responseCode = true := by
    rw [h.announced]
    simp only [List.mem_cons, List.not_mem_nil, or_false] at hserves
    rcases hserves with rfl | rfl <;> decide
  have hversion : LF ∉ r.version := by
    rcases h.version with hversion | hversion <;> rw [hversion] <;> decide
  have htype : r.getFileType = mediaType r.path := by
    unfold getFileType mediaType
    rw [h.announced, if_neg]
    · cases suffix r.path with
      | none => rfl
      | some suffix => rfl
    · simp only [List.mem_cons, List.not_mem_nil, or_false] at hserves
      rcases hserves with rfl | rfl <;> decide
  have hcontent : (errorPage fs r).getD [] ++ mappedFile fs r =
      if content = [] then errorBody 500 (ascii "Cannot map specific file") else content := by
    have hcan : ¬ ¬ fs.canOpen (r.srcDir ++ r.path) = true := not_not_intro hopens
    by_cases hempty : content = []
    · rw [if_pos hempty] at hmaps ⊢
      have hpage : errorPage fs r = some (errorBody 500 (ascii "Cannot map specific file")) := by
        rw [errorPage, if_pos hserves', if_neg hcan, if_pos hmaps]
      rw [mappedFile, hpage, if_neg (Option.some_ne_none _), List.append_nil]
      rfl
    · rw [if_neg hempty] at hmaps ⊢
      have hpage : errorPage fs r = none := by
        rw [errorPage, if_pos hserves', if_neg hcan, hmaps, if_neg (Option.some_ne_none _)]
      rw [mappedFile, hpage, if_pos rfl, hmaps]
      rfl
  have hmoved : r.responseCode = 301 ↔ code = 301 := by
    rw [h.announced]
    exact Int.ofNat_inj
  rw [fullText, Client.readReply_response hversion hpath hslash, h.statusCode, hcontent, htype]
  simp only [hmoved]

/-- A name behind a path. -/
theorem name_head (hslash : path.head? = some slash) : (site.name path).head? = some slash := by
  obtain ⟨rest, rfl⟩ := List.head?_eq_some_iff.mp hslash
  rfl

theorem name_lf (hpath : LF ∉ path) (hindex : ∀ file ∈ site.index, LF ∉ file) :
    LF ∉ site.name path := by
  unfold name indexFor
  rw [List.mem_append, not_or]
  refine ⟨hpath, ?_⟩
  split
  · cases hfind : site.index.find? fun file => (site.tree (site.root ++ path ++ file)).isSome with
    | none => exact List.not_mem_nil
    | some file => exact hindex file (List.mem_of_find?_eq_some hfind)
  · exact List.not_mem_nil

/-- **The bytes of an answer are the reply of the site.** -/
theorem readReply_answer {version text : Bytes} {isKeepAlive : Bool} (hshows : fs.Shows site.tree)
    (hversion : version = ascii "1.1" ∨ version = ascii "1.0") (hslash : path.head? = some slash)
    (hpath : LF ∉ path) (hindex : ∀ file ∈ site.index, LF ∉ file)
    (h : answerText fs site.root path version (some site.index) isKeepAlive 200 = .ok text) :
    Client.readReply text = some (site.reply path) := by
  obtain ⟨r₀, hinit, h⟩ := bind_eq_ok.mp h
  obtain ⟨r, hlocated, h⟩ := bind_eq_ok.mp h
  obtain rfl : fullText fs r = text := Except.ok.inj h
  have hne : path ≠ [] := by
    rintro rfl
    cases hslash
  have hlooks : site.Looks path r₀ := by
    obtain ⟨-, hsrc, hname, hfiles, hcode⟩ := HttpResponse.init_eq hinit
    exact ⟨hsrc, hname, hfiles, hcode⟩
  obtain ⟨hsrc, hname, hcode, hsize⟩ := hlooks.located hshows hne hlocated
  have hspoken : r.version = ascii "1.1" ∨ r.version = ascii "1.0" := by
    rw [(located_kept hlocated).1, (init_kept hinit).1]
    exact hversion
  have hhead : r.path.head? = some slash := by
    rw [hname]
    exact name_head hslash
  have hplain : LF ∉ r.path := by
    rw [hname]
    exact name_lf hpath hindex
  unfold codeOf at hcode
  unfold reply
  cases hentry : site.entry path with
  | none =>
      rw [hentry] at hcode
      exact readReply_refusal ⟨hspoken, hcode, by decide⟩ (by decide) hplain hhead
  | some entry =>
      rw [hentry] at hcode hsize
      cases entry with
      | directory => exact readReply_refusal ⟨hspoken, hcode, by decide⟩ (by decide) hplain hhead
      | locked => exact readReply_refusal ⟨hspoken, hcode, by decide⟩ (by decide) hplain hhead
      | file content =>
          obtain ⟨hopens, hmaps⟩ := hshows.opens _ content hentry
          rw [← hname, ← hsrc] at hopens
          rw [← hname, ← hsrc, ← hsize content rfl] at hmaps
          dsimp only at hcode ⊢
          by_cases hmoved : (site.indexFor path).isSome = true
          · rw [if_pos hmoved] at hcode
            rw [if_pos hmoved, if_pos hmoved]
            have hread := @readReply_file fs r 301 content ⟨hspoken, hcode, by decide⟩ (by decide)
              hplain hhead hopens hmaps
            rwa [hname, if_pos rfl] at hread
          · rw [if_neg hmoved] at hcode
            rw [if_neg hmoved, if_neg hmoved]
            have hread := @readReply_file fs r 200 content ⟨hspoken, hcode, by decide⟩ (by decide)
              hplain hhead hopens hmaps
            rwa [hname, if_neg (by decide)] at hread

end Site

/-! ## §4  The path a request names -/

section request

variable {J : Type} {js : JsonCpp J} {q₀ q q' : HttpRequest J}

/-- Header lines leave the version and the path. -/
theorem parseLines_headers_kept : ∀ (lines : List Bytes) {q : HttpRequest J},
    (∀ line ∈ lines, line ≠ []) → q.state = .headers → parseLines q lines = .ok (true, q') →
    q'.version = q.version ∧ q'.path = q.path := by
  intro lines
  induction lines with
  | nil =>
      intro q _ _ h
      obtain ⟨-, rfl⟩ := Prod.mk.inj (Except.ok.inj h)
      exact ⟨rfl, rfl⟩
  | cons line lines ih =>
      intro q hlines hq h
      have hline : lineStep q line = .ok ((parseHeader q line).1, (parseHeader q line).2.1) := by
        rw [lineStep, hq]
      rw [parseLines, hline] at h
      cases haccepted : (parseHeader q line).1 with
      | false =>
          rw [haccepted] at h
          cases h
      | true =>
          rw [haccepted] at hline h
          have hstate : (parseHeader q line).2.1.state = .headers := by
            apply parseLines_headers [line] (fun l hl => hlines l (by simpa using Or.inl hl)) hq
            rw [parseLines, hline]
            rfl
          obtain ⟨hversion, hpath⟩ := ih (fun l hl => hlines l (List.mem_cons_of_mem _ hl)) hstate h
          obtain ⟨hversion₁, hpath₁⟩ := parseHeader_head q line
          exact ⟨hversion.trans hversion₁, hpath.trans hpath₁⟩

/-- An accepted line is a request line for the path that is stored. -/
theorem parseRequestLine_names {line : Bytes} {nuls : List Nat}
    (h : parseRequestLine q line = .ok (true, q', nuls)) : RequestLine line q'.path := by
  have hparse := parseRequestLine_target q line
  cases htarget : requestTarget line with
  | none =>
      rw [htarget] at hparse
      obtain ⟨q₁, nuls₁, hparse⟩ := hparse
      rw [h] at hparse
      cases hparse
  | some target =>
      rw [htarget] at hparse
      dsimp only at hparse
      cases hpath : pathOf target with
      | error e =>
          rw [hpath] at hparse
          dsimp only at hparse
          rw [h] at hparse
          cases hparse
      | ok path =>
          rw [hpath] at hparse
          cases path with
          | none =>
              obtain ⟨q₁, nuls₁, hparse⟩ := hparse
              rw [h] at hparse
              cases hparse
          | some path =>
              obtain ⟨q₁, nuls₁, hparse, rfl⟩ := hparse
              rw [h] at hparse
              obtain ⟨-, rfl, -⟩ : true = true ∧ q' = q₁ ∧ nuls = nuls₁ := by
                simpa using hparse
              exact ⟨target, requestTarget_eq_some.mp htarget, pathOf_eq_ok.mp hpath⟩

/-- What the request line of a well-formed request says. -/
theorem ClientRequest.asks (w : ClientRequest q₀) (hfresh : HttpRequest.new js = .ok q₀) :
    RequestLine w.wire.requestLine w.parsed.path ∧ TargetPath w.parsed.path ∧
      (w.parsed.version = ascii "1.1" ∨ w.parsed.version = ascii "1.0") := by
  have hstate : q₀.state = .requestLine := by rw [init_blank hfresh]
  obtain ⟨hplain, -⟩ := w.wellFormed.plain w.wire.requestLine List.mem_cons_self
  have haccepted := w.wellFormed.accepted
  rw [WireRequest.lines, parseLines] at haccepted
  cases hparse : parseRequestLine q₀ w.wire.requestLine with
  | error e =>
      rw [lineStep, hstate] at haccepted
      simp only [hparse] at haccepted
      cases haccepted
  | ok result =>
      obtain ⟨ok, q₁, nuls⟩ := result
      have hline : lineStep q₀ w.wire.requestLine = .ok (ok, q₁) := by
        rw [lineStep, hstate]
        simp only [hparse]
      rw [hline] at haccepted
      cases ok with
      | false => cases haccepted
      | true =>
          obtain ⟨hversion, hpath⟩ := parseLines_headers_kept w.wire.headerLines
            (fun l hl => (w.wellFormed.plain l (List.mem_cons_of_mem _ hl)).2)
            (parseRequestLine_state hparse).1 haccepted
          obtain ⟨hparsed, -⟩ := parseRequestLine_accepted hplain hparse
          rw [hversion, hpath]
          exact ⟨parseRequestLine_names hparse, hparsed.path, hparsed.version⟩

end request

/-! ## §5  Every run -/

variable {J : Type} {cfg : ServerConfig J} {q₀ : HttpRequest J} {ws : List (ClientRequest q₀)}
  {next : ClientRequest q₀}

/-- The site that the file system shows at the time. -/
def siteOf (cfg : ServerConfig J) (tree : Bytes → Option Entry) : Site :=
  { tree := tree, root := cfg.webRoot, index := cfg.indexFile.getD [] }

theorem ClientRequest.Answered.reads {w : ClientRequest q₀} {a : Answer} {index : List Bytes}
    {r : J} (h : w.Answered cfg a) (hfiles : cfg.indexFile = some index)
    (hindex : ∀ file ∈ index, LF ∉ file) (hfresh : HttpRequest.new cfg.js = .ok q₀)
    (hrange : BodyInRange w.parsed w.wire)
    (hpost : HttpRequest.postOver cfg.js w.parsed w.wire q₀.post = .ok r)
    {tree : Bytes → Option Entry} (hshows : a.fs.Shows tree) :
    Client.readReply a.bytes = some ((siteOf cfg tree).reply w.parsed.path) := by
  obtain ⟨q, hparsed, htext⟩ := h
  rw [parsedAlone_eq (init_inHead hfresh) hrange hpost] at hparsed
  obtain ⟨-, rfl⟩ := Prod.mk.inj (Except.ok.inj hparsed)
  obtain ⟨hversion, hpath⟩ : (finished w.parsed w.wire r).version = w.parsed.version ∧
      (finished w.parsed w.wire r).path = w.parsed.path := by
    unfold finished
    split <;> exact ⟨rfl, rfl⟩
  obtain ⟨-, htarget, hspoken⟩ := w.asks hfresh
  rw [hversion, hpath, hfiles] at htext
  have hsite : (siteOf cfg tree).index = index := by rw [siteOf, hfiles]; rfl
  have hshown : a.fs.Shows (siteOf cfg tree).tree := hshows
  apply Site.readReply_answer hshown hspoken htarget.start
    (fun hlf => (htarget.plain LF hlf).2.1 rfl)
  · rw [hsite]
    exact hindex
  · rw [hsite]
    exact htext

namespace Dialogue

variable {fd : Int} {x x' : Dialogue J}

end Dialogue

namespace PooledServer

variable {s : PooledServer J} {threadNum : Nat} {steps : List PooledStep} {os : List Unit}

end PooledServer

end WhiteWebServer
