import Mathlib.Data.Set.Finite.Basic
import WhiteWebServer.ParseTrace
import WhiteWebServer.Forwarding
import WhiteWebServer.Pipelining
import WhiteWebServer.Lib.LexicalPath

/-!
# The paths a response opens

`MakeResponse` puts the path of the request behind the web root and hands the result to
`access`, `stat` and `open`. §1 the paths it hands over, and that nothing of any other
file shows in the response; §2 where they lie when `.` and `..` are taken away; §3 the
paths of the requests that `Parse` accepts.
-/

namespace WhiteWebServer

open LexicalPath

namespace HttpResponse

variable {fs fs' : FileSystem} {r r' : HttpResponse} {b b' : Buffer}

/-! ## §1  The paths handed over -/

/-- The index files `access` is called on: up to the first that is there. -/
def accessed (fs : FileSystem) (dir : Bytes) : List Bytes → List Bytes
  | [] => []
  | file :: files =>
      (dir ++ file) :: if fs.access (dir ++ file) then [] else accessed fs dir files

def accessPaths (fs : FileSystem) (r : HttpResponse) : List Bytes :=
  if r.path.getLast? = some slash then
    accessed fs (r.srcDir ++ r.path) (r.indexFile.getD [])
  else []

def statPaths (fs : FileSystem) (r : HttpResponse) : List Bytes :=
  match addIndexFile fs r with
  | .error _ => []
  | .ok r => [r.srcDir ++ r.path]

/-- The file a response is about, with its code. -/
def located (fs : FileSystem) (r : HttpResponse) : Except Fault HttpResponse :=
  if servesFile r.responseCode then (addIndexFile fs r).map (checkFile fs) else .ok r

/-- The file `AddContent` opens. -/
def openPaths (fs : FileSystem) (r : HttpResponse) (b : Buffer) : List Bytes :=
  match located fs r with
  | .error _ => []
  | .ok r =>
      let (r, b) := addStateLine r b
      let (r, _) := addHeader r b
      if servesFile r.responseCode then [r.srcDir ++ r.path] else []

/-- What one call of `MakeResponse` hands to `access`, `stat` and `open`. -/
def passedPaths (fs : FileSystem) (r : HttpResponse) (b : Buffer) : List Bytes :=
  (if servesFile r.responseCode then accessPaths fs r ++ statPaths fs r else []) ++
    openPaths fs r b

/-- The two file systems have the same file there. -/
structure SameFile (fs fs' : FileSystem) (path : Bytes) : Prop where
  access : fs'.access path = fs.access path
  stat : fs'.stat path = fs.stat path
  canOpen : fs'.canOpen path = fs.canOpen path
  mmap : fs'.mmap path = fs.mmap path

theorem find?_accessed {dir : Bytes} : ∀ {files : List Bytes},
    (∀ path ∈ accessed fs dir files, SameFile fs fs' path) →
    (files.find? fun file => fs'.access (dir ++ file)) =
      files.find? fun file => fs.access (dir ++ file) := by
  intro files
  induction files with
  | nil => exact fun _ => rfl
  | cons file files ih =>
      intro h
      have hfile := (h (dir ++ file) (by simp [accessed])).access
      rw [List.find?_cons, List.find?_cons, hfile]
      cases haccess : fs.access (dir ++ file) with
      | true => rfl
      | false =>
          refine ih fun path hpath => h path ?_
          rw [accessed, haccess]
          exact List.mem_cons_of_mem _ hpath

theorem addIndexFile_congr (h : ∀ path ∈ accessPaths fs r, SameFile fs fs' path) :
    addIndexFile fs' r = addIndexFile fs r := by
  unfold addIndexFile
  cases hlast : r.path.getLast? with
  | none => rfl
  | some last =>
      by_cases hslash : last = slash
      · subst hslash
        simp only [accessPaths, hlast, if_true] at h
        cases hfiles : r.indexFile with
        | none => rfl
        | some files =>
            rw [hfiles] at h
            simp only [if_true, @find?_accessed _ _ _ files h]
      · simp only [if_neg hslash]

theorem checkFile_congr (h : SameFile fs fs' (r.srcDir ++ r.path)) :
    checkFile fs' r = checkFile fs r := by
  unfold checkFile
  rw [h.stat]

theorem addContent_congr
    (h : servesFile r.responseCode = true → SameFile fs fs' (r.srcDir ++ r.path)) :
    addContent fs' r b = addContent fs r b := by
  unfold addContent
  split
  · rename_i hserves
    rw [(h hserves).canOpen, (h hserves).mmap]
  · rfl

theorem makeResponse_located (fs : FileSystem) (r : HttpResponse) (b : Buffer) :
    makeResponse fs r b = (located fs r).map fun r =>
      addContent fs (addHeader (r.addStateLine b).1 (r.addStateLine b).2).1
        (addHeader (r.addStateLine b).1 (r.addStateLine b).2).2 := by
  unfold makeResponse located
  split
  · rcases (addIndexFile fs r).map (checkFile fs) with e | r₁ <;> rfl
  · rfl

theorem located_congr (h : ∀ path ∈ passedPaths fs r b, SameFile fs fs' path) :
    located fs' r = located fs r := by
  unfold located
  by_cases hserves : servesFile r.responseCode = true
  · rw [passedPaths, if_pos hserves] at h
    rw [if_pos hserves, if_pos hserves,
      addIndexFile_congr fun path hpath => h path (by simp [hpath])]
    cases hadd : addIndexFile fs r with
    | error e => rfl
    | ok r₁ =>
        have hstat : r₁.srcDir ++ r₁.path ∈ statPaths fs r := by simp [statPaths, hadd]
        exact congrArg Except.ok (checkFile_congr (h _ (by simp [hstat])))
  · rw [if_neg hserves, if_neg hserves]

/-- The response shows nothing of any other file. -/
theorem makeResponse_congr (h : ∀ path ∈ passedPaths fs r b, SameFile fs fs' path) :
    makeResponse fs' r b = makeResponse fs r b := by
  rw [makeResponse_located, makeResponse_located, located_congr h]
  cases hlocated : located fs r with
  | error e => rfl
  | ok r₁ =>
      refine congrArg Except.ok (addContent_congr fun hserves => h _ ?_)
      rw [passedPaths, List.mem_append]
      apply Or.inr
      unfold openPaths
      rw [hlocated]
      simp only [hserves, if_true, List.mem_singleton]

/-! ## §2  Where they lie -/

def segmentOf (s : Bytes) : Segment Bytes :=
  if s = [] ∨ s = ascii "." then .self else if s = ascii ".." then .parent else .name s

def segments (path : Bytes) : List (Segment Bytes) := (path.splitOn slash).map segmentOf

def rooted (path : Bytes) : Bool := path.head? == some slash

/-- The path without its `.` and `..` segments. -/
def normalForm (path : Bytes) : Normal Bytes := canonical (rooted path) (segments path)

/-- The path is the directory or below it. -/
def LiesUnder (dir path : Bytes) : Prop :=
  rooted path = rooted dir ∧ (normalForm path).Under (normalForm dir)

instance (dir path : Bytes) : Decidable (LiesUnder dir path) := by
  unfold LiesUnder
  infer_instance

theorem segments_slash (dir rest : Bytes) :
    segments (dir ++ slash :: rest) = segments dir ++ segments rest := by
  rw [segments, List.splitOn_append_cons_self, List.map_append]
  rfl

theorem climbs_slash (rest : Bytes) : Climbs (segments (slash :: rest)) ↔ Climbs (segments rest) := by
  rw [show slash :: rest = [] ++ slash :: rest from rfl, segments_slash]
  rfl

theorem rooted_append {dir : Bytes} (hdir : dir ≠ []) (rest : Bytes) :
    rooted (dir ++ rest) = rooted dir := by
  cases dir with
  | nil => exact absurd rfl hdir
  | cons c dir => rfl

/-- Behind a directory, a path that does not climb. -/
theorem liesUnder_append {dir path : Bytes} (hdir : dir ≠ []) (hpath : path.head? = some slash)
    (hclimbs : ¬ Climbs (segments path)) : LiesUnder dir (dir ++ path) := by
  obtain ⟨rest, rfl⟩ : ∃ rest, path = slash :: rest := by
    cases path with
    | nil => simp at hpath
    | cons c rest => exact ⟨rest, by rw [Option.some.inj hpath]⟩
  refine ⟨rooted_append hdir _, ?_⟩
  rw [normalForm, normalForm, rooted_append hdir, segments_slash, canonical, canonical, walk_append]
  exact under_walk _ _ fun h => hclimbs ((climbs_slash rest).mpr h)

theorem climbs_append_file {path file : Bytes} (hpath : path.getLast? = some slash)
    (hclimbs : ¬ Climbs (segments path)) (hfile : Segment.parent ∉ segments file) :
    ¬ Climbs (segments (path ++ file)) := by
  obtain ⟨p, rfl⟩ : ∃ p, path = p ++ [slash] := by
    rcases List.eq_nil_or_concat path with rfl | ⟨p, c, rfl⟩
    · simp at hpath
    · rw [List.concat_eq_append, List.getLast?_concat] at hpath
      exact ⟨p, by rw [List.concat_eq_append, Option.some.inj hpath]⟩
  rw [segments_slash] at hclimbs
  rw [List.append_assoc, List.singleton_append, segments_slash]
  exact not_climbs_append (fun h => hclimbs (h.append _)) (not_climbs_of_no_parent hfile)

/-! ### Every path of a response -/

/-- What a response with a path of its own may be about: the path, or an index file in it. -/
inductive Names (path : Bytes) (files : List Bytes) : Bytes → Prop
  | self : Names path files path
  | index {file : Bytes} (hlast : path.getLast? = some slash) (hfile : file ∈ files) :
      Names path files (path ++ file)

/-- `addIndexFile` changes nothing, or redirects to an index file. -/
theorem addIndexFile_cases (h : addIndexFile fs r = .ok r') :
    r' = r ∨ ∃ file ∈ r.indexFile.getD [], r.path.getLast? = some slash ∧
      r' = { r with path := r.path ++ file, responseCode := 301 } := by
  unfold addIndexFile at h
  cases hlast : r.path.getLast? with
  | none => simp [hlast] at h
  | some last =>
      by_cases hslash : last = slash
      · subst hslash
        simp only [hlast, if_true] at h
        cases hfiles : r.indexFile with
        | none => simp [hfiles] at h
        | some files =>
            simp only [hfiles] at h
            split at h
            · rename_i file hfind
              exact Or.inr ⟨file, List.mem_of_find?_eq_some hfind, rfl, (Except.ok.inj h).symm⟩
            · exact Or.inl (Except.ok.inj h).symm
      · simp only [hlast, if_neg hslash] at h
        exact Or.inl (Except.ok.inj h).symm

theorem addIndexFile_names (h : addIndexFile fs r = .ok r') :
    r'.srcDir = r.srcDir ∧ Names r.path (r.indexFile.getD []) r'.path := by
  rcases addIndexFile_cases h with rfl | ⟨file, hfile, hlast, rfl⟩
  · exact ⟨rfl, Names.self⟩
  · exact ⟨rfl, Names.index hlast hfile⟩

/-- What `stat` finds, and the code it makes. -/
inductive Checked (fs : FileSystem) (r : HttpResponse) : HttpResponse → Prop
  | missing (hstat : fs.stat (r.srcDir ++ r.path) = none) :
      Checked fs r { r with responseCode := 404 }
  | directory {st : FileStat} (hstat : fs.stat (r.srcDir ++ r.path) = some st)
      (hdir : st.isDir = true) : Checked fs r { r with fileStat := st, responseCode := 404 }
  | unreadable {st : FileStat} (hstat : fs.stat (r.srcDir ++ r.path) = some st)
      (hdir : st.isDir = false) (hread : st.othersRead = false) :
      Checked fs r { r with fileStat := st, responseCode := 403 }
  | readable {st : FileStat} (hstat : fs.stat (r.srcDir ++ r.path) = some st)
      (hdir : st.isDir = false) (hread : st.othersRead = true) :
      Checked fs r { r with
        fileStat := st
        responseCode := if r.responseCode = -1 then 200 else r.responseCode }

theorem checkFile_checked (fs : FileSystem) (r : HttpResponse) : Checked fs r (checkFile fs r) := by
  unfold checkFile
  cases hstat : fs.stat (r.srcDir ++ r.path) with
  | none => exact Checked.missing hstat
  | some st =>
      dsimp only
      cases hdir : st.isDir with
      | true => exact Checked.directory hstat hdir
      | false =>
          cases hread : st.othersRead with
          | false => exact Checked.unreadable hstat hdir hread
          | true =>
              have hreadable := Checked.readable hstat hdir hread
              by_cases hcode : r.responseCode = -1
              · simpa [hcode] using hreadable
              · simpa [hcode] using hreadable

theorem Checked.kept (h : Checked fs r r') :
    r'.srcDir = r.srcDir ∧ r'.path = r.path ∧ r'.version = r.version ∧
      r'.isKeepalive = r.isKeepalive ∧ r'.fileAddress = r.fileAddress := by
  cases h <;> exact ⟨rfl, rfl, rfl, rfl, rfl⟩

/-- The file is looked for behind the codes that serve one. -/
theorem located_cases (h : located fs r = .ok r') :
    (servesFile r.responseCode = true ∧ ∃ r₁, addIndexFile fs r = .ok r₁ ∧ Checked fs r₁ r') ∨
      servesFile r.responseCode = false ∧ r' = r := by
  unfold located at h
  split at h
  · rename_i hserves
    cases hadd : addIndexFile fs r with
    | error e =>
        rw [hadd] at h
        cases h
    | ok r₁ =>
        rw [hadd] at h
        rw [← Except.ok.inj h]
        exact Or.inl ⟨hserves, r₁, rfl, checkFile_checked fs r₁⟩
  · rename_i hserves
    exact Or.inr ⟨Bool.eq_false_iff.mpr hserves, (Except.ok.inj h).symm⟩

theorem addStateLine_kept (r : HttpResponse) (b : Buffer) :
    (r.addStateLine b).1.srcDir = r.srcDir ∧ (r.addStateLine b).1.path = r.path := by
  unfold addStateLine
  cases kCodeStatus.lookup r.responseCode with
  | none => exact ⟨rfl, rfl⟩
  | some status => exact ⟨rfl, rfl⟩

theorem addConnection_kept (r : HttpResponse) (b : Buffer) :
    (addConnection r b).1.srcDir = r.srcDir ∧ (addConnection r b).1.path = r.path := by
  unfold addConnection
  split
  · exact ⟨rfl, rfl⟩
  · split
    · dsimp only
      split
      · exact ⟨rfl, rfl⟩
      · split
        · exact ⟨rfl, rfl⟩
        · exact ⟨rfl, rfl⟩
    · exact ⟨rfl, rfl⟩

theorem header_kept (r : HttpResponse) (b : Buffer) :
    (addHeader (r.addStateLine b).1 (r.addStateLine b).2).1.srcDir = r.srcDir ∧
      (addHeader (r.addStateLine b).1 (r.addStateLine b).2).1.path = r.path := by
  obtain ⟨hsrc, hpath⟩ := addStateLine_kept r b
  obtain ⟨hsrc', hpath'⟩ := addConnection_kept (r.addStateLine b).1 (r.addStateLine b).2
  exact ⟨hsrc'.trans hsrc, hpath'.trans hpath⟩

theorem mem_accessed {dir path : Bytes} : ∀ {files : List Bytes}, path ∈ accessed fs dir files →
    ∃ file ∈ files, path = dir ++ file := by
  intro files
  induction files with
  | nil =>
      intro h
      cases h
  | cons file files ih =>
      intro h
      rcases List.mem_cons.mp h with rfl | h
      · exact ⟨file, List.mem_cons_self, rfl⟩
      · split at h
        · cases h
        · obtain ⟨file', hmem, rfl⟩ := ih h
          exact ⟨file', List.mem_cons_of_mem _ hmem, rfl⟩

theorem located_names (h : located fs r = .ok r') :
    r'.srcDir = r.srcDir ∧ Names r.path (r.indexFile.getD []) r'.path := by
  rcases located_cases h with ⟨-, r₁, hadd, hchecked⟩ | ⟨-, rfl⟩
  · obtain ⟨hsrc, hnames⟩ := addIndexFile_names hadd
    obtain ⟨hsrc', hpath', -⟩ := hchecked.kept
    rw [hsrc', hpath']
    exact ⟨hsrc, hnames⟩
  · exact ⟨rfl, Names.self⟩

/-- Every path handed over is the web root with a name of the request behind it. -/
theorem mem_passedPaths {path : Bytes} (h : path ∈ passedPaths fs r b) :
    ∃ name, Names r.path (r.indexFile.getD []) name ∧ path = r.srcDir ++ name := by
  rcases List.mem_append.mp h with h | h
  · split at h
    · rcases List.mem_append.mp h with h | h
      · -- `access`
        unfold accessPaths at h
        split at h
        · rename_i hlast
          obtain ⟨file, hfile, rfl⟩ := mem_accessed h
          exact ⟨r.path ++ file, Names.index hlast hfile, List.append_assoc ..⟩
        · cases h
      · -- `stat`
        unfold statPaths at h
        split at h
        · cases h
        · rename_i r₁ hadd
          obtain ⟨hsrc, hnames⟩ := addIndexFile_names hadd
          refine ⟨r₁.path, hnames, ?_⟩
          rw [List.mem_singleton.mp h, hsrc]
    · cases h
  · -- `open`
    unfold openPaths at h
    split at h
    · cases h
    · rename_i r₁ hlocated
      dsimp only at h
      obtain ⟨hsrc, hnames⟩ := located_names hlocated
      obtain ⟨hsrc', hpath'⟩ := header_kept r₁ b
      split at h
      · rw [List.mem_singleton.mp h, hsrc', hpath', hsrc]
        exact ⟨r₁.path, hnames, rfl⟩
      · cases h

/-- A request for `path` hands over paths under the web root only. -/
def Confined (path : Bytes) : Prop :=
  ∀ (fs : FileSystem) (b : Buffer) (r r' : HttpResponse) (webRoot version : Bytes)
    (indexFile : Option (List Bytes)) (isKeepAlive : Bool) (code : Int),
    (∀ file ∈ indexFile.getD [], Segment.parent ∉ segments file) →
    r.init webRoot path indexFile version isKeepAlive code = .ok r' →
    ∀ passed ∈ passedPaths fs r' b, LiesUnder webRoot passed

/-- A response to a request for `path` is the same for two file systems with the same files
under the web root. -/
def Sealed (path : Bytes) : Prop :=
  ∀ (fs fs' : FileSystem) (b : Buffer) (r r' : HttpResponse) (webRoot version : Bytes)
    (indexFile : Option (List Bytes)) (isKeepAlive : Bool) (code : Int),
    (∀ file ∈ indexFile.getD [], Segment.parent ∉ segments file) →
    r.init webRoot path indexFile version isKeepAlive code = .ok r' →
    (∀ inside, LiesUnder webRoot inside → SameFile fs fs' inside) →
    makeResponse fs' r' b = makeResponse fs r' b

theorem Confined.sealed {path : Bytes} (h : Confined path) : Sealed path := by
  intro fs fs' b r r' webRoot version indexFile isKeepAlive code hfiles hinit hsame
  apply makeResponse_congr
  intro passed hpassed
  exact hsame passed (h _ _ _ _ _ _ _ _ _ hfiles hinit passed hpassed)

theorem init_eq {webRoot path version : Bytes} {indexFile : Option (List Bytes)}
    {isKeepAlive : Bool} {code : Int}
    (h : r.init webRoot path indexFile version isKeepAlive code = .ok r') :
    webRoot ≠ [] ∧ r'.srcDir = webRoot ∧ r'.path = path ∧ r'.indexFile = indexFile ∧
      r'.responseCode = code := by
  unfold init at h
  split at h
  · cases h
  · rename_i hroot
    obtain rfl := Except.ok.inj h
    exact ⟨hroot, rfl, rfl, rfl, rfl⟩

theorem confined_of_not_climbs {path : Bytes} (hslash : path.head? = some slash)
    (hclimbs : ¬ Climbs (segments path)) : Confined path := by
  intro fs b r r' webRoot version indexFile isKeepAlive code hfiles hinit passed hpassed
  obtain ⟨hroot, hsrc, hpath, hindex, -⟩ := init_eq hinit
  obtain ⟨name, hname, rfl⟩ := mem_passedPaths hpassed
  rw [hpath, hindex] at hname
  rw [hsrc]
  cases hname with
  | self => exact liesUnder_append hroot hslash hclimbs
  | index hlast hfile =>
      refine liesUnder_append hroot ?_ (climbs_append_file hlast hclimbs (hfiles _ hfile))
      rw [List.head?_append, hslash]
      rfl

/-- A name the segments do not have. -/
theorem exists_fresh (l : List (Segment Bytes)) : ∃ n, Segment.name (List.replicate (n + 3) 97) ∉ l := by
  have hinj : Function.Injective fun n : Nat => Segment.name (List.replicate (n + 3) (97 : Byte)) := by
    intro m n hmn
    have hlen := congrArg List.length (Segment.name.inj hmn)
    simpa using hlen
  obtain ⟨-, ⟨n, rfl⟩, hn⟩ :=
    (Set.infinite_range_of_injective hinj).exists_notMem_finite (List.finite_toSet l)
  exact ⟨n, hn⟩

theorem segments_fresh (n : Nat) :
    segments (slash :: List.replicate (n + 3) 97) = [.self, .name (List.replicate (n + 3) 97)] := by
  have hslash : slash ∉ List.replicate (n + 3) (97 : Byte) := by
    intro h
    exact absurd (List.eq_of_mem_replicate h) (by decide)
  have hself : ¬ (List.replicate (n + 3) (97 : Byte) = [] ∨
      List.replicate (n + 3) (97 : Byte) = ascii ".") := by
    rintro (h | h)
    · cases h
    · exact absurd (congrArg List.length h) (by simp [ascii])
  have hparent : ¬ List.replicate (n + 3) (97 : Byte) = ascii ".." := by
    intro h
    exact absurd (congrArg List.length h) (by simp [ascii])
  rw [show slash :: List.replicate (n + 3) (97 : Byte) = [] ++ slash :: List.replicate (n + 3) 97
    from rfl, segments_slash]
  simp only [segments, List.splitOn_eq_singleton hslash, List.map_singleton, segmentOf,
    if_neg hself, if_neg hparent]
  rfl

theorem addIndexFile_nil (hpath : r.path ≠ []) (hindex : r.indexFile = some []) :
    addIndexFile fs r = .ok r := by
  obtain ⟨last, hlast⟩ := Option.ne_none_iff_exists'.mp (mt List.getLast?_eq_none_iff.mp hpath)
  unfold addIndexFile
  rw [hlast, hindex]
  by_cases hslash : last = slash
  · simp only [if_pos hslash, List.find?_nil]
  · simp only [if_neg hslash]

/-- Without index files the path itself is what `stat` is called on. -/
theorem stat_passed (hcode : servesFile r.responseCode = true) (hpath : r.path ≠ [])
    (hindex : r.indexFile = some []) : r.srcDir ++ r.path ∈ passedPaths fs r b := by
  rw [passedPaths, if_pos hcode, statPaths, addIndexFile_nil hpath hindex]
  exact List.mem_append_left _ (List.mem_append_right _ (List.mem_singleton.mpr rfl))

theorem not_confined_of_climbs {path : Bytes} (hslash : path.head? = some slash)
    (hclimbs : Climbs (segments path)) : ¬ Confined path := by
  intro hconfined
  obtain ⟨rest, rfl⟩ : ∃ rest, path = slash :: rest := by
    cases path with
    | nil => simp at hslash
    | cons c rest => exact ⟨rest, by rw [Option.some.inj hslash]⟩
  -- a web root that the path does not name
  obtain ⟨n, hn⟩ := exists_fresh (segments rest)
  obtain ⟨r, hinit⟩ : ∃ r, (HttpResponse.new ⟨false, false, 0⟩).init
      (slash :: List.replicate (n + 3) 97) (slash :: rest) (some []) [] true 200 = .ok r := ⟨_, rfl⟩
  obtain ⟨-, hsrc, hpath, hindex, hcode⟩ := init_eq hinit
  have hstat : r.srcDir ++ r.path ∈ passedPaths noFiles r ⟨[], 0, 0⟩ :=
    stat_passed (by rw [hcode]; decide) (by rw [hpath]; exact List.cons_ne_nil _ _) hindex
  have hunder := (hconfined _ _ _ _ _ _ _ _ _ (by simp) hinit _ hstat).2
  have hroot : normalForm (slash :: List.replicate (n + 3) 97) =
      { ups := 0, names := [List.replicate (n + 3) 97] } := by
    rw [normalForm, segments_fresh]
    rfl
  have hpassed : normalForm ((slash :: List.replicate (n + 3) 97) ++ slash :: rest) =
      walk true { ups := 0, names := [List.replicate (n + 3) (97 : Byte)] } (segments rest) := by
    rw [normalForm, segments_slash, canonical, walk_append, segments_fresh]
    rfl
  rw [hsrc, hpath, hroot, hpassed] at hunder
  exact not_under_walk ((climbs_slash rest).mp hclimbs) hn hunder

theorem confined_iff {path : Bytes} (hslash : path.head? = some slash) :
    Confined path ↔ ¬ Climbs (segments path) :=
  ⟨fun h hclimbs => not_confined_of_climbs hslash hclimbs h, confined_of_not_climbs hslash⟩

end HttpResponse

/-! ## §3  Accepted requests -/

namespace HttpRequest

open HttpResponse

variable {J : Type} {js : JsonCpp J}

/-- A request as `Init` left it accepted the chunks, from a buffer with anything in it. -/
def Accepted (js : JsonCpp J) (q : HttpRequest J) : Prop :=
  ∃ (q' q₀ : HttpRequest J) (b b' : Buffer) (chunks : List Bytes),
    q'.init js = .ok q₀ ∧ b.Stored ∧ feed js chunks q₀ b = .ok (some .getRequest, q, b')

theorem Accepted.targetPath {q : HttpRequest J} (h : Accepted js q) : TargetPath q.path := by
  obtain ⟨q', q₀, b, b', chunks, hinit, ⟨g, u, n, hholds⟩, hfeed⟩ := h
  obtain ⟨hq, hfinish⟩ := feed_progress chunks (init_progress hinit) hholds
    (fun _ => init_state hinit) hfeed
  exact (hq.line (by rw [hfinish]; decide)).path

/-- The paths of an accepted request stay under the web root exactly when its own path
never goes above its first `/`, and then the answer shows nothing of what lies outside. -/
theorem accepted_confined_iff {q : HttpRequest J} (h : Accepted js q) :
    (Confined q.path ↔ ¬ LexicalPath.Climbs (segments q.path)) ∧
      (¬ LexicalPath.Climbs (segments q.path) → Sealed q.path) := by
  have hconfined := confined_iff h.targetPath.start
  refine ⟨hconfined, fun hclimbs => ?_⟩
  exact (hconfined.mpr hclimbs).sealed

/-! ### Two requests -/

theorem accepted_of_outcome (text : Bytes) {q : HttpRequest (Option HeaderMap)}
    (h : firstOutcome (feed membersJson [text] blankForm ⟨[NUL, NUL], 1, 1⟩) =
      .ok (some .getRequest, q)) : Accepted membersJson q := by
  obtain ⟨b, hfeed⟩ := of_firstOutcome h
  have hb : Buffer.new 2 = .ok ⟨[NUL, NUL], 1, 1⟩ := rfl
  exact ⟨blankForm, blankForm, _, b, [text], rfl, ⟨_, _, _, Buffer.holds_of_new hb⟩, hfeed⟩

def plainRequest (path : Bytes) : HttpRequest (Option HeaderMap) :=
  { blankForm with state := .finish, method := ascii "GET", path := path }

/-- One level down and up again: under every web root. -/
theorem accepted_confined_sibling :
    Accepted membersJson (plainRequest (ascii "/a/../b")) ∧ Confined (ascii "/a/../b") ∧
      Sealed (ascii "/a/../b") := by
  have haccepted : Accepted membersJson (plainRequest (ascii "/a/../b")) :=
    accepted_of_outcome (ascii "GET /a/../b HTTP/1.1\r\n\r\n") (by decide +kernel)
  obtain ⟨hconfined, hsealed⟩ := accepted_confined_iff haccepted
  have hclimbs : ¬ LexicalPath.Climbs (segments (ascii "/a/../b")) := by decide +kernel
  exact ⟨haccepted, hconfined.mpr hclimbs, hsealed hclimbs⟩

/-- A file system where every path is a file that anyone may read. -/
def worldReadable : FileSystem :=
  { access := fun _ => true, stat := fun _ => some ⟨false, true, 1⟩, canOpen := fun _ => true,
    mmap := fun _ _ => some [NUL] }

/-- Two levels up from `/var/www`: the password file is opened. -/
theorem password_file_opened :
    ∃ (q : HttpRequest (Option HeaderMap)) (r : HttpResponse),
      Accepted membersJson q ∧
        (HttpResponse.new ⟨false, false, 0⟩).init (ascii "/var/www") q.path (some []) q.version
          q.isKeepAlive 200 = .ok r ∧
        ∃ opened ∈ openPaths worldReadable r ⟨[NUL, NUL], 1, 1⟩,
          ¬ LiesUnder (ascii "/var/www") opened ∧
          normalForm opened = normalForm (ascii "/etc/passwd") := by
  refine ⟨plainRequest (ascii "/../../etc/passwd"), _, ?_, rfl,
    ascii "/var/www/../../etc/passwd", by decide +kernel, by decide +kernel, by decide +kernel⟩
  exact accepted_of_outcome (ascii "GET /../../etc/passwd HTTP/1.1\r\n\r\n")
    (by decide +kernel)

end HttpRequest

end WhiteWebServer
