import WhiteWebServer.HttpRequest

/-!
# `HttpResponse`: status line, headers and content

The class as `http_response.h` and `http_response.cpp` compute it. What the
file system answers to `access`, `stat`, `open` and `mmap` is the parameter
`FileSystem`; a mapping is the bytes it maps.
-/

namespace WhiteWebServer

/-- The fields of `struct stat` that are read. -/
structure FileStat where
  isDir : Bool
  /-- `st_mode & S_IROTH` -/
  othersRead : Bool
  size : Int
deriving DecidableEq, Repr

/-- The answers of the file system during one response. -/
structure FileSystem where
  access : Bytes → Bool
  stat : Bytes → Option FileStat
  canOpen : Bytes → Bool
  /-- `mmap` of so many bytes of the file -/
  mmap : Bytes → Int → Option Bytes

structure HttpResponse where
  responseCode : Int
  isKeepalive : Bool
  path : Bytes
  srcDir : Bytes
  version : Bytes
  /-- a null `shared_ptr` until the connection is initialised -/
  indexFile : Option (List Bytes)
  /-- `file_address_`, null when nothing is mapped -/
  fileAddress : Option Bytes
  fileStat : FileStat
deriving DecidableEq

namespace HttpResponse

def kSuffixType : List (Bytes × Bytes) :=
  [(ascii ".html", ascii "text/html"), (ascii ".xml", ascii "text/xml"),
   (ascii ".xhtml", ascii "application/xhtml+xml"), (ascii ".txt", ascii "text/plain"),
   (ascii ".rtf", ascii "application/rtf"), (ascii ".pdf", ascii "application/pdf"),
   (ascii ".word", ascii "application/nsword"), (ascii ".png", ascii "image/png"),
   (ascii ".gif", ascii "image/gif"), (ascii ".jpg", ascii "image/jpeg"),
   (ascii ".jpeg", ascii "image/jpeg"), (ascii ".au", ascii "audio/basic"),
   (ascii ".mpeg", ascii "video/mpeg"), (ascii ".mpg", ascii "video/mpeg"),
   (ascii ".avi", ascii "video/x-msvideo"), (ascii ".gz", ascii "application/x-gzip"),
   (ascii ".tar", ascii "application/x-tar"), (ascii ".css", ascii "text/css "),
   (ascii ".js", ascii "text/javascript ")]

def kCodeStatus : List (Int × Bytes) :=
  [(200, ascii "OK"), (204, ascii "No Content"), (206, ascii "Partial Content"),
   (301, ascii "Moved Permanently"), (302, ascii "Found"), (303, ascii "See Other"),
   (304, ascii "Not Modified"), (307, ascii "Temporary redirect"), (401, ascii "Unauthorized"),
   (400, ascii "Bad Request"), (403, ascii "Forbidden"), (404, ascii "Not Found"),
   (500, ascii "Internal Server Error"), (503, ascii "Service Unavailable")]

def kServerVersion : Bytes := ascii "0.01alpha"

/-- The constructor; `file_stat_` has whatever was in memory. -/
def new (junk : FileStat) : HttpResponse :=
  { responseCode := -1, isKeepalive := true, path := [], srcDir := [], version := [],
    indexFile := none, fileAddress := none, fileStat := junk }

def hasFile (r : HttpResponse) : Bool := r.fileAddress.isSome

/-- `FileSize()` returns the `off_t` as an `int`. -/
def fileSize (r : HttpResponse) : Int := toInt r.fileStat.size

def unmap (r : HttpResponse) : HttpResponse := { r with fileAddress := none }

def close (r : HttpResponse) : HttpResponse := r.unmap

/-- `Init`. An empty source directory raises an exception. -/
def init (r : HttpResponse) (srcDir path : Bytes) (indexFile : Option (List Bytes))
    (version : Bytes) (isKeepalive : Bool) (responseCode : Int) : Except Fault HttpResponse :=
  if srcDir = [] then .error .uncaught
  else
    let r := if r.hasFile then
        { r.unmap with fileStat := { isDir := false, othersRead := false, size := 0 } }
      else r
    .ok { r with srcDir := srcDir, path := path, version := version, isKeepalive := isKeepalive,
                 responseCode := responseCode, indexFile := indexFile }

/-- The codes of the first `case` labels: a redirection, or 200. -/
def servesFile (code : Int) : Bool := [301, 302, 303, 304, 200].contains code

/-- The index file that stands for a directory. -/
def addIndexFile (fs : FileSystem) (r : HttpResponse) : Except Fault HttpResponse :=
  match r.path.getLast? with
  | none => .error .outOfBounds
  | some last =>
      if last = slash then
        match r.indexFile with
        | none => .error .nullPointer
        | some files =>
            match files.find? fun file => fs.access (r.srcDir ++ r.path ++ file) with
            | some file => .ok { r with path := r.path ++ file, responseCode := 301 }
            | none => .ok r
      else .ok r

/-- The code by what the path names. -/
def checkFile (fs : FileSystem) (r : HttpResponse) : HttpResponse :=
  match fs.stat (r.srcDir ++ r.path) with
  | none => { r with responseCode := 404 }
  | some st =>
      let r := { r with fileStat := st }
      if st.isDir then { r with responseCode := 404 }
      else if ¬ st.othersRead then { r with responseCode := 403 }
      else if r.responseCode = -1 then { r with responseCode := 200 }
      else r

def addStateLine (r : HttpResponse) (b : Buffer) : HttpResponse × Buffer :=
  let (r, status) := match kCodeStatus.lookup r.responseCode with
    | some status => (r, status)
    | none => ({ r with responseCode := 400 }, ascii "Bad Request")
  (r, b.append (ascii "HTTP/" ++ r.version ++ ascii " " ++ toString r.responseCode ++ ascii " " ++
    status ++ crlf))

/-- `path_.find_last_of('.')` and the rest from there. -/
def suffix (path : Bytes) : Option Bytes :=
  (path.reverse.findIdx? (· == 46)).map fun i => path.drop (path.length - 1 - i)

def getFileType (r : HttpResponse) : Bytes :=
  if [503, 500, 401, 403, 502, 400, 404].contains r.responseCode then ascii "text/html"
  else
    match suffix r.path with
    | none => ascii "text/plain"
    | some suffix => (kSuffixType.lookup suffix).getD (ascii "text/plain")

/-- The headers about the connection; the cases fall through as in the source. -/
def addConnection (r : HttpResponse) (b : Buffer) : HttpResponse × Buffer :=
  if r.responseCode = 404 then
    ({ r with isKeepalive := false },
      HttpRequest.addCustomHeader b (ascii "Connection") (ascii "Close"))
  else if servesFile r.responseCode then
    let b := if r.responseCode = 301 then HttpRequest.addCustomHeader b (ascii "Location") r.path
      else b
    if r.version = ascii "1.1" ∧ r.isKeepalive then (r, b)
    else if r.isKeepalive then
      (r, HttpRequest.addCustomHeader
        (HttpRequest.addCustomHeader b (ascii "Connection") (ascii "keep-alive"))
        (ascii "keep-alive") (ascii "max=6, timeout=120"))
    else (r, HttpRequest.addCustomHeader b (ascii "Connection") (ascii "Close"))
  else (r, b)

def addHeader (r : HttpResponse) (b : Buffer) : HttpResponse × Buffer :=
  let (r, b) := addConnection r b
  let b := HttpRequest.addCustomHeader b (ascii "Content-type") r.getFileType
  let b := if r.version = ascii "1.1" then
      HttpRequest.addCustomHeader b (ascii "Cache-Control") (ascii "max-age=31536000")
    else b
  (r, HttpRequest.addCustomHeader b (ascii "Server") (ascii "WhiteWebServer"))

/-- The error page. -/
def errorBody (code : Int) (message : Bytes) : Bytes :=
  let status := (kCodeStatus.lookup code).getD (ascii "Bad Request")
  let responseMsg := toString code ++ ascii " " ++ status
  ascii "<html><head><title>" ++ responseMsg ++ ascii "</title></head><body><center><h1>" ++
    responseMsg ++ ascii "</h1><p>" ++ message ++ ascii "</p></center><hr><em><center>" ++
    ascii "WhiteWebServer " ++ kServerVersion ++ ascii "</center></em></body></html>"

def generateErrorContent (r : HttpResponse) (b : Buffer) (message : Bytes) : Buffer :=
  let body := errorBody r.responseCode message
  (HttpRequest.addCustomHeader b (ascii "Content-Length") (decimal body.length ++ crlf)).append body

def addContent (fs : FileSystem) (r : HttpResponse) (b : Buffer) : HttpResponse × Buffer :=
  if servesFile r.responseCode then
    if ¬ fs.canOpen (r.srcDir ++ r.path) then
      let r := { r with responseCode := 500 }
      (r, generateErrorContent r b (ascii "Cannot open specific file"))
    else
      match fs.mmap (r.srcDir ++ r.path) r.fileStat.size with
      | none =>
          let r := { r with responseCode := 500 }
          (r, generateErrorContent r b (ascii "Cannot map specific file"))
      | some file =>
          ({ r with fileAddress := some file },
            HttpRequest.addCustomHeader b (ascii "Content-Length")
              (toString r.fileStat.size ++ crlf))
  else (r, generateErrorContent r b (ascii "Cannot open specific file"))

/-- `MakeResponse` -/
def makeResponse (fs : FileSystem) (r : HttpResponse) (b : Buffer) :
    Except Fault (HttpResponse × Buffer) := do
  let r ← if servesFile r.responseCode then (addIndexFile fs r).map (checkFile fs) else .ok r
  let (r, b) := addStateLine r b
  let (r, b) := addHeader r b
  return addContent fs r b

/-- A response does not fail once its path and its index list are there. -/
theorem makeResponse_total (fs : FileSystem) (r : HttpResponse) (b : Buffer)
    (hpath : r.path ≠ []) (hindex : r.indexFile ≠ none) :
    ∃ r' b', makeResponse fs r b = .ok (r', b') := by
  have hadd : ∃ r', addIndexFile fs r = .ok r' := by
    unfold addIndexFile
    cases hlast : r.path.getLast? with
    | none => exact absurd (List.getLast?_eq_none_iff.mp hlast) hpath
    | some last =>
        obtain ⟨files, hfiles⟩ := Option.ne_none_iff_exists'.mp hindex
        by_cases hslash : last = slash
        · simp only [if_pos hslash, hfiles]
          split
          · exact ⟨_, rfl⟩
          · exact ⟨_, rfl⟩
        · exact ⟨r, by simp only [if_neg hslash]⟩
  obtain ⟨r', hr'⟩ := hadd
  unfold makeResponse
  by_cases hs : servesFile r.responseCode = true
  · rw [if_pos hs, hr']
    exact ⟨_, _, rfl⟩
  · rw [if_neg hs]
    exact ⟨_, _, rfl⟩

end HttpResponse

end WhiteWebServer
