import WhiteWebServer.Mappings
import WhiteWebServer.ResponseFraming
import WhiteWebServer.Transmission

/-!
# What an answer is made of

The object that answers has answered before: `HttpResponse` keeps its members, the
write vectors keep what the last transfer left. §1 the bytes of an answer as a
function of the request, the configuration and the files; §2 `Process` schedules
these bytes, whatever the object was used for before; §3 the bytes that are still to
be sent while the second vector may be left over from a transfer that was cut short.
-/

namespace WhiteWebServer

open Outcome

variable {J : Type}

/-- Every mapping is as long as it was asked for. -/
def MapsWhole (fs : FileSystem) : Prop :=
  ∀ path size file, fs.mmap path size = some file → (file.length : Int) = size

/-! ## §1  The bytes -/

namespace HttpResponse

variable {fs : FileSystem} {r r' r₁ : HttpResponse}

/-- The file that `AddContent` maps. -/
def mappedFile (fs : FileSystem) (r : HttpResponse) : Bytes :=
  if errorPage fs r = none then (fs.mmap (r.srcDir ++ r.path) r.fileStat.size).getD [] else []

/-- The header block with the page or the file behind it, for a response whose file has been
looked for. -/
def fullText (fs : FileSystem) (r : HttpResponse) : Bytes :=
  headersText r ++ contentText fs r ++ mappedFile fs r

/-- What a response object that was never used sends. -/
def answerText (fs : FileSystem) (webRoot path version : Bytes) (indexFile : Option (List Bytes))
    (isKeepAlive : Bool) (code : Int) : Except Fault Bytes := do
  let r ← (new ⟨false, false, 0⟩).init webRoot path indexFile version isKeepAlive code
  let r ← located fs r
  return fullText fs r

/-- The same but for what an earlier response left of its file. -/
def SameButFile (r r' : HttpResponse) : Prop :=
  r' = { r with fileAddress := r'.fileAddress, fileStat := r'.fileStat }

theorem SameButFile.code (h : SameButFile r r') : r'.responseCode = r.responseCode := by
  unfold SameButFile at h
  rw [h]

theorem init_sameButFile {webRoot path version : Bytes} {indexFile : Option (List Bytes)}
    {isKeepAlive : Bool} {code : Int} (old : HttpResponse)
    (h : r.init webRoot path indexFile version isKeepAlive code = .ok r₁) :
    ∃ r₂, old.init webRoot path indexFile version isKeepAlive code = .ok r₂ ∧
      SameButFile r₁ r₂ := by
  unfold init at h ⊢
  split at h
  · cases h
  · rename_i hroot
    obtain rfl := Except.ok.inj h
    rw [if_neg hroot]
    refine ⟨_, rfl, ?_⟩
    unfold SameButFile
    split <;> split <;> rfl

theorem addIndexFile_sameButFile (fs : FileSystem) (h : SameButFile r r') :
    (∃ e, addIndexFile fs r = .error e ∧ addIndexFile fs r' = .error e) ∨
      ∃ r₁ r₁', addIndexFile fs r = .ok r₁ ∧ addIndexFile fs r' = .ok r₁' ∧
        SameButFile r₁ r₁' := by
  unfold SameButFile at h ⊢
  rw [h]
  unfold addIndexFile
  dsimp only
  cases r.path.getLast? with
  | none => exact Or.inl ⟨_, rfl, rfl⟩
  | some last =>
      dsimp only
      by_cases hslash : last = slash
      · rw [if_pos hslash, if_pos hslash]
        cases hindex : r.indexFile with
        | none => exact Or.inl ⟨_, rfl, rfl⟩
        | some files =>
            dsimp only
            cases files.find? fun file => fs.access (r.srcDir ++ r.path ++ file) with
            | none => exact Or.inr ⟨_, _, rfl, rfl, by rw [hindex]⟩
            | some file => exact Or.inr ⟨_, _, rfl, rfl, rfl⟩
      · rw [if_neg hslash, if_neg hslash]
        exact Or.inr ⟨_, _, rfl, rfl, rfl⟩

/-- Behind `stat`, the size is that of the file, or no file is served. -/
theorem checkFile_sameButFile (fs : FileSystem) (h : SameButFile r r') :
    SameButFile (checkFile fs r) (checkFile fs r') ∧
      (servesFile (checkFile fs r).responseCode = true →
        (checkFile fs r').fileStat = (checkFile fs r).fileStat) := by
  unfold SameButFile at h ⊢
  rw [h]
  unfold checkFile
  dsimp only
  cases fs.stat (r.srcDir ++ r.path) with
  | none => exact ⟨rfl, fun h => absurd (show servesFile 404 = true from h) (by decide)⟩
  | some st =>
      dsimp only
      split
      · exact ⟨rfl, fun _ => rfl⟩
      · split
        · exact ⟨rfl, fun _ => rfl⟩
        · split
          · exact ⟨rfl, fun _ => rfl⟩
          · exact ⟨rfl, fun _ => rfl⟩

theorem located_sameButFile (h : SameButFile r r') (hlocated : located fs r = .ok r₁) :
    ∃ r₁', located fs r' = .ok r₁' ∧ SameButFile r₁ r₁' ∧
      (servesFile r₁.responseCode = true → r₁'.fileStat = r₁.fileStat) := by
  unfold located at hlocated ⊢
  rw [h.code]
  by_cases hserves : servesFile r.responseCode = true
  · rw [if_pos hserves] at hlocated ⊢
    obtain ⟨r₂, hadd, rfl⟩ := map_eq_ok hlocated
    rcases addIndexFile_sameButFile fs h with ⟨e, herror, -⟩ | ⟨r₃, r₃', hok, hok', hsame⟩
    · rw [herror] at hadd
      cases hadd
    · obtain rfl := Except.ok.inj (hok.symm.trans hadd)
      rw [hok']
      exact ⟨_, rfl, checkFile_sameButFile fs hsame⟩
  · rw [if_neg hserves] at hlocated ⊢
    obtain rfl := Except.ok.inj hlocated
    exact ⟨r', rfl, h, fun hnot => absurd hnot hserves⟩

theorem errorPage_serves (h : errorPage fs r = none) : servesFile r.responseCode = true := by
  unfold errorPage at h
  by_contra hserves
  rw [if_neg hserves] at h
  cases h

/-- The bytes do not depend on it. -/
theorem fullText_sameButFile (h : SameButFile r r')
    (hstat : servesFile r.responseCode = true → r'.fileStat = r.fileStat) :
    fullText fs r' = fullText fs r := by
  have hheaders : headersText r' = headersText r := by
    unfold SameButFile at h
    rw [h]
    rfl
  by_cases hserves : servesFile r.responseCode = true
  · have hsame : r' = { r with fileAddress := r'.fileAddress } := by
      unfold SameButFile at h
      rw [hstat hserves] at h
      exact h
    rw [fullText, fullText, hheaders, hsame]
    rfl
  · -- no file is served, so the size is not looked at
    have hpage : errorPage fs r = some (errorBody r.responseCode
        (ascii "Cannot open specific file")) := if_neg hserves
    have hpage' : errorPage fs r' = some (errorBody r.responseCode
        (ascii "Cannot open specific file")) := by
      rw [errorPage, h.code, if_neg hserves]
    rw [fullText, fullText, hheaders, contentText, contentText, mappedFile, mappedFile, hpage,
      hpage']
    rfl

end HttpResponse

/-! ## §2  What `Process` schedules -/

namespace HttpResponse

variable {fs : FileSystem} {r r' r₁ : HttpResponse} {b b' : Buffer} {g : Byte} {u : Bytes} {n : Nat}

theorem addContent_address (hnone : r.fileAddress = none) :
    (addContent fs r b).1.fileAddress = if errorPage fs r = none then
      fs.mmap (r.srcDir ++ r.path) r.fileStat.size else none := by
  unfold addContent errorPage
  by_cases hserves : servesFile r.responseCode = true
  · rw [if_pos hserves, if_pos hserves]
    by_cases hopen : ¬ fs.canOpen (r.srcDir ++ r.path) = true
    · rw [if_pos hopen, if_pos hopen, if_neg (Option.some_ne_none _)]
      exact hnone
    · rw [if_neg hopen, if_neg hopen]
      cases hmap : fs.mmap (r.srcDir ++ r.path) r.fileStat.size with
      | none =>
          rw [if_pos rfl, if_neg (Option.some_ne_none _)]
          exact hnone
      | some file => rw [if_neg (Option.some_ne_none _), if_pos rfl]
  · rw [if_neg hserves, if_neg hserves, if_neg (Option.some_ne_none _)]
    exact hnone

/-- `MakeResponse` maps the file behind the text it writes. -/
theorem makeResponse_full (h : b.Holds g u n) (hnone : r.fileAddress = none)
    (hcode : r.responseCode = 200 ∨ r.responseCode = 400)
    (hmake : makeResponse fs r b = .ok (r', b')) :
    ∃ r₁, located fs r = .ok r₁ ∧ (∃ m, b'.Holds g (u ++ headersText r₁ ++ contentText fs r₁) m) ∧
      r'.fileStat = r₁.fileStat ∧
      r'.fileAddress = if errorPage fs r₁ = none then
        fs.mmap (r₁.srcDir ++ r₁.path) r₁.fileStat.size else none := by
  rw [makeResponse_located] at hmake
  obtain ⟨r₁, hlocated, hresult⟩ := map_eq_ok hmake
  have hknown : (kCodeStatus.lookup r₁.responseCode).isSome := by
    have hmem := located_code hlocated hcode
    generalize r₁.responseCode = code at hmem
    simp only [answeredCodes, List.mem_cons, List.not_mem_nil, or_false] at hmem
    rcases hmem with rfl | rfl | rfl | rfl | rfl <;> decide
  have hmake' : makeResponse fs r b = .ok (r', b') := by
    rw [makeResponse_located]
    exact hmake
  obtain ⟨htext, hstat, -⟩ := makeResponse_text h hlocated hknown hmake'
  refine ⟨r₁, hlocated, htext, hstat, ?_⟩
  have hstate : (r₁.addStateLine b).1 = r₁ := by
    obtain ⟨status, hstatus⟩ := Option.isSome_iff_exists.mp hknown
    rw [addStateLine, hstatus]
  obtain ⟨k, hk⟩ := HttpConn.addHeader_kept r₁ (r₁.addStateLine b).2
  have hr' : r' = (addContent fs (addHeader (r₁.addStateLine b).1 (r₁.addStateLine b).2).1
      (addHeader (r₁.addStateLine b).1 (r₁.addStateLine b).2).2).1 := congrArg Prod.fst hresult
  rw [hr', hstate, addContent_address (by
    rw [hk]
    exact (located_kept hlocated).2.2.trans hnone), hk]
  rfl

end HttpResponse

namespace HttpConn

open HttpResponse

variable {js : JsonCpp J} {fs : FileSystem} {webRoot : Bytes} {c c' : HttpConn J} {g : Byte}
  {u : Bytes} {n : Nat}

/-- What `Process` leaves when it answers. -/
theorem process_finished (h : c.process js fs webRoot = .ok (.finish, c')) :
    ∃ q₀ code q b r₀ r wb, nextRequest js c.request = .ok q₀ ∧
      q₀.parse js c.readBuff = .ok (code, q, b) ∧ code ≠ .noRequest ∧
      c.response.init webRoot q.path c.indexFile q.version q.isKeepAlive
        (if code = .getRequest then 200 else 400) = .ok r₀ ∧
      r₀.makeResponse fs c.writeBuff = .ok (r, wb) ∧
      c' = { c with
        request := q, readBuff := b, response := r, writeBuff := wb
        iov₀ := { base := .writeBuff wb.readIdx, len := wb.readableBytes }
        iov₁ := if r.hasFile then { base := .file 0, len := toSize r.fileSize } else c.iov₁
        iovCnt := if r.hasFile then 2 else 1 } := by
  obtain ⟨q₀, hnext, h⟩ := bind_eq_ok.mp h
  dsimp only at h
  split at h
  · cases h
  · obtain ⟨⟨code, q, b⟩, hparse, h⟩ := bind_eq_ok.mp h
    dsimp only at h
    split at h
    · cases h
    · rename_i hcode
      obtain ⟨c₁, hrespond, h⟩ := bind_eq_ok.mp h
      obtain ⟨r₀, hinit, hrespond⟩ := bind_eq_ok.mp hrespond
      obtain ⟨⟨r, wb⟩, hmake, hrespond⟩ := bind_eq_ok.mp hrespond
      obtain rfl := Except.ok.inj hrespond
      have hc' := congrArg Prod.snd (Except.ok.inj h)
      dsimp only at hc'
      refine ⟨q₀, code, q, b, r₀, r, wb, hnext, hparse, hcode, hinit, hmake, ?_⟩
      split at hc'
      · rename_i hfile
        rw [← hc', if_pos (show r.hasFile = true from hfile),
          if_pos (show r.hasFile = true from hfile)]
        rfl
      · rename_i hfile
        rw [← hc', if_neg (show ¬ r.hasFile = true from hfile),
          if_neg (show ¬ r.hasFile = true from hfile)]
        rfl

/-! ## §3  What is still to be sent -/

/-- Fewer than 2^32 bytes are pending. -/
def Narrow (c : HttpConn J) : Prop := c.iov₀.len + c.iov₁.len < 2 ^ 32

instance (c : HttpConn J) : Decidable (Narrow c) := by
  unfold Narrow
  infer_instance

/-- The vectors as `writev` sees them: with `iov_cnt_` 1 it does not look at the second. -/
def counted (c : HttpConn J) : HttpConn J :=
  if c.iovCnt = 1 then { c with iov₁ := { c.iov₁ with len := 0 } } else c

/-- `u` is still to be sent. -/
def Unsent (c : HttpConn J) (u : Bytes) : Prop :=
  ∃ F h f, u = h ++ f ∧ Remaining c.counted F h f

theorem counted_offered (c : HttpConn J) : c.counted.offered = c.offered := by
  unfold counted
  split
  · rename_i hcnt
    unfold offered
    simp only [hcnt]
    rfl
  · rfl

theorem counted_lens (c : HttpConn J) :
    c.counted.iov₀ = c.iov₀ ∧ c.counted.iov₁.len ≤ c.iov₁.len ∧
      c.counted.iovCnt = c.iovCnt ∧ c.counted.writeBuff = c.writeBuff := by
  unfold counted
  split
  · exact ⟨rfl, Nat.zero_le _, rfl, rfl⟩
  · exact ⟨rfl, le_refl _, rfl, rfl⟩

theorem counted_advance {len : Nat} (h : c.iovCnt = 1 → len ≤ c.iov₀.len) :
    (c.advance len).counted = c.counted.advance len := by
  by_cases hcnt : c.iovCnt = 1
  · have hle : ¬ len > c.iov₀.len := not_lt.mpr (h hcnt)
    simp only [counted, if_pos hcnt, advance, if_neg hle]
  · have hcnt' : (c.advance len).iovCnt ≠ 1 := by
      rw [(advance_kept len c).1]
      exact hcnt
    rw [counted, counted, if_neg hcnt, if_neg hcnt']

theorem advance_lens (len : Nat) (c : HttpConn J) :
    (c.advance len).iov₀.len + (c.advance len).iov₁.len ≤ c.iov₀.len + c.iov₁.len := by
  unfold advance
  dsimp only
  split
  · split
    · dsimp only
      omega
    · dsimp only
      omega
  · dsimp only
    omega

namespace Unsent

theorem offered (h : Unsent c u) : c.offered = some u := by
  obtain ⟨F, h, f, rfl, hr⟩ := h
  rw [← counted_offered]
  exact hr.offered_eq

theorem length_le (h : Unsent c u) : u.length ≤ c.iov₀.len + c.iov₁.len := by
  obtain ⟨F, h, f, rfl, hr⟩ := h
  obtain ⟨hfirst, hsecond, -⟩ := counted_lens c
  have hlens := hr.lens
  rw [List.length_append, ← hlens, hfirst]
  exact Nat.add_le_add_left hsecond _

/-- **One `writev`.** -/
theorem advance (h : Unsent c u) {len : Nat} (hlen : len ≤ u.length) :
    ∃ u', u = u.take len ++ u' ∧ Unsent (c.advance len) u' := by
  obtain ⟨F, h, f, rfl, hr⟩ := h
  obtain ⟨h', f', hsplit, hr'⟩ := hr.advance hlen
  refine ⟨h' ++ f', hsplit, F, h', f', rfl, ?_⟩
  rw [counted_advance]
  · exact hr'
  · intro hcnt
    obtain ⟨hfirst, -, hcount, -⟩ := counted_lens c
    rcases hr.file with ⟨-, -, rfl⟩ | ⟨htwo, -⟩
    · rw [List.append_nil] at hlen
      rw [← hfirst, hr.header.1]
      exact hlen
    · rw [hcount, hcnt] at htwo
      cases htwo

/-- **A whole call.** It hands over the front of what is to be sent, and ends as its last
`writev` does. -/
theorem call : ∀ (counts : List Nat) {c : HttpConn J} {u : Bytes} {last : WriteEnd}
    {bytes : Bytes} {total : Int}, Unsent c u → Narrow c → handedOver counts c = some bytes →
    ∃ u', u = bytes ++ u' ∧ Unsent (writeLoop last counts total c).2 u' ∧
      Narrow (writeLoop last counts total c).2 ∧ (writeLoop last counts total c).1 = last := by
  intro counts
  induction counts with
  | nil =>
      intro c u last bytes total h hnarrow hsent
      obtain rfl : [] = bytes := by simpa [handedOver] using hsent
      exact ⟨u, rfl, h, hnarrow, rfl⟩
  | cons len counts ih =>
      intro c u last bytes total h hnarrow hsent
      rw [handedOver, h.offered] at hsent
      dsimp only at hsent
      split at hsent
      · rename_i hlen
        have hne : (c.iov₀.len + c.iov₁.len) % 2 ^ 64 ≠ 0 := by
          have hpos : 0 < c.iov₀.len + c.iov₁.len :=
            lt_of_lt_of_le (lt_of_lt_of_le hlen.1 hlen.2) h.length_le
          rw [Nat.mod_eq_of_lt (lt_trans hnarrow (by decide))]
          exact Nat.pos_iff_ne_zero.mp hpos
        rw [if_neg hne] at hsent
        obtain ⟨later, hlater, rfl⟩ := Option.map_eq_some_iff.mp hsent
        obtain ⟨u₁, hsplit, h₁⟩ := h.advance hlen.2
        have hnarrow₁ : Narrow (c.advance len) := lt_of_le_of_lt (advance_lens len c) hnarrow
        obtain ⟨u₂, hu₁, h₂, hnarrow₂, hlast⟩ :=
          @ih _ _ last later (total + len) h₁ hnarrow₁ hlater
        refine ⟨u₂, ?_, ?_⟩
        · rw [List.append_assoc, ← hu₁]
          exact hsplit
        · rw [writeLoop, if_neg hne]
          exact ⟨h₂, hnarrow₂, hlast⟩
      · cases hsent

/-- No bytes are reported only when there are none. -/
theorem nil_of_pending (h : Unsent c u) (hnarrow : Narrow c) (hzero : c.pendingWriteBytes = 0) :
    u = [] := by
  have hlens := (pendingWriteBytes_eq_zero rfl hnarrow).mp hzero
  apply List.eq_nil_of_length_eq_zero
  exact Nat.le_zero.mp (hlens ▸ h.length_le)

/-- Then `write_buff_` is empty. -/
theorem drained (h : Unsent c []) : ∃ g n, c.writeBuff.Holds g [] n := by
  obtain ⟨F, h, f, hnil, hr⟩ := h
  obtain ⟨rfl, -⟩ := List.append_eq_nil_iff.mp hnil.symm
  obtain ⟨-, -, -, hbuff⟩ := counted_lens c
  rw [← hbuff]
  exact hr.buffer

end Unsent

/-! ### Behind `Process` -/

theorem toSize_fileSize {size : Int} (hpos : 0 ≤ size) (hsmall : size < 2 ^ 31) :
    (toSize (toInt size) : Int) = size := by
  rw [(toSize_toInt_iff hpos (lt_trans hsmall (by decide))).mpr hsmall]
  exact Int.toNat_of_nonneg hpos

/-- **An answer depends on the request, the configuration and the files.** Behind what
`write_buff_` held, `Process` schedules what an object that was never used sends for
the request it has parsed, whatever this one was used for before. -/
theorem process_answers (hb : c.writeBuff.Holds g u n) (hsmall : SmallFiles fs)
    (hwhole : MapsWhole fs) (h : c.process js fs webRoot = .ok (.finish, c')) :
    ∃ q₀ code q b bytes, nextRequest js c.request = .ok q₀ ∧
      q₀.parse js c.readBuff = .ok (code, q, b) ∧ code ≠ .noRequest ∧
      c'.request = q ∧ c'.readBuff = b ∧
      answerText fs webRoot q.path q.version c.indexFile q.isKeepAlive
        (if code = .getRequest then 200 else 400) = .ok bytes ∧
      Unsent c' (u ++ bytes) := by
  obtain ⟨q₀, code, q, b, r₀, r', wb, hnext, hparse, hcode, hinit, hmake, rfl⟩ := process_finished h
  obtain ⟨-, -, hcode₀, hnone⟩ := init_kept hinit
  have hanswered : r₀.responseCode = 200 ∨ r₀.responseCode = 400 := by
    rw [hcode₀]
    split
    · exact Or.inl rfl
    · exact Or.inr rfl
  obtain ⟨r, hlocated, ⟨m, hwb⟩, hstat, haddress⟩ := makeResponse_full hb hnone hanswered hmake
  -- an object that was never used
  obtain ⟨r₂, hinit₂, hsame⟩ := init_sameButFile (HttpResponse.new ⟨false, false, 0⟩) hinit
  obtain ⟨r₃, hlocated₃, hsame₃, hstat₃⟩ := located_sameButFile hsame hlocated
  have hfresh : answerText fs webRoot q.path q.version c.indexFile q.isKeepAlive
      (if code = .getRequest then 200 else 400) = .ok (fullText fs r) := by
    simp only [answerText, hinit₂, hlocated₃, bind, Except.bind, pure, Except.pure]
    rw [fullText_sameButFile hsame₃ hstat₃]
  refine ⟨q₀, code, q, b, fullText fs r, hnext, hparse, hcode, rfl, rfl, hfresh, ?_⟩
  refine ⟨mappedFile fs r, u ++ headersText r ++ contentText fs r, mappedFile fs r, ?_, ?_⟩
  · simp only [fullText, List.append_assoc]
  · have hread := hwb.readableBytes
    by_cases hpage : errorPage fs r = none
    · -- a file
      have hserves := errorPage_serves hpage
      obtain ⟨path, hpath⟩ := located_stat hlocated hserves
      obtain ⟨hpos, hbound⟩ := hsmall path _ hpath
      rw [if_pos hpage] at haddress
      obtain ⟨file, hfile⟩ : ∃ file, fs.mmap (r.srcDir ++ r.path) r.fileStat.size = some file := by
        apply Option.ne_none_iff_exists'.mp
        intro hnomap
        rw [errorPage, if_pos hserves, if_pos hnomap] at hpage
        split at hpage <;> cases hpage
      have hhas : r'.hasFile = true := by rw [hasFile, haddress, hfile]; rfl
      have hmapped : mappedFile fs r = file := by rw [mappedFile, if_pos hpage, hfile]; rfl
      have hlen : toSize r'.fileSize = file.length := by
        apply Int.ofNat.inj
        show (toSize r'.fileSize : Int) = (file.length : Int)
        rw [hwhole _ _ _ hfile, fileSize, hstat]
        exact toSize_fileSize hpos hbound
      have htwo : (if r'.hasFile = true then (2 : Int) else 1) = 2 := if_pos hhas
      have hone : ¬ (if r'.hasFile = true then (2 : Int) else 1) = 1 := by
        rw [htwo]
        decide
      rw [counted, if_neg hone, hmapped]
      refine ⟨⟨_, _, hwb⟩, ⟨hread, fun _ => rfl⟩, Or.inr ⟨htwo, haddress.trans hfile, [], rfl, ?_⟩⟩
      exact (if_pos hhas).trans (by rw [hlen]; rfl)
    · rw [if_neg hpage] at haddress
      have hhas : ¬ r'.hasFile = true := by rw [hasFile, haddress]; decide
      have hmapped : mappedFile fs r = [] := if_neg hpage
      rw [counted, if_pos (if_neg hhas), hmapped]
      exact ⟨⟨_, _, hwb⟩, ⟨hread, fun _ => rfl⟩, Or.inl ⟨if_neg hhas, rfl, rfl⟩⟩

end HttpConn

end WhiteWebServer
