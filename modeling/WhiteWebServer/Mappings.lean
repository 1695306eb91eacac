import WhiteWebServer.PendingBytes
import WhiteWebServer.ResponseText
import WhiteWebServer.Lib.Lease

/-!
# Mapped files

`AddContent` maps a file; `file_address_` and `iov_[1]` point into the mapping, and `Unmap`
takes its length from `file_stat_`. §1 the calls of `mmap`, `munmap` and `writev` that the
methods make; §2 one connection in static mode, with the pointers as addresses; §3 what the
pointers have to do with the mapping; §4 every run.
-/

namespace WhiteWebServer

open Outcome

namespace HttpConn

variable {J : Type} {js : JsonCpp J} {fs : FileSystem} {webRoot : Bytes} {c c' : HttpConn J}

/-! ## §1  The calls -/

/-- What `mmap` returned, and the length it was given. -/
structure Mapping where
  address : Nat
  length : Int
deriving DecidableEq, Repr

/-- The arguments of a `writev`: `iov_cnt_`, and `iov_[1]` with the mapping its base was
taken from. -/
structure WritevCall where
  iovCnt : Int
  address : Option Nat
  iov₁ : IoVec
deriving DecidableEq, Repr

/-- The second vector, where it is read, lies in the live mapping. -/
def InsideMapping (live : Option Mapping) (w : WritevCall) : Prop :=
  w.iovCnt = 2 → 0 < w.iov₁.len → ∃ m offset, live = some m ∧ w.address = some m.address ∧
    w.iov₁.base = .file offset ∧ (offset + w.iov₁.len : Int) ≤ m.length

/-- `acquire` is a successful `mmap` of `AddContent`, `release` a `munmap`; `settled` is the
end of the part of `HttpResponse::Init`, `Close` or the destructor that unmaps. -/
abbrev MapCall := Lease.Event Mapping WritevCall

/-- `Unmap()`, by the value of `file_address_`. -/
def unmapCalls (fileAddress : Option Nat) (r : HttpResponse) : List MapCall :=
  match fileAddress with
  | none => []
  | some address => [.release ⟨address, r.fileStat.size⟩]

/-- `AddContent()`, `address` being what `mmap` returns when it succeeds. -/
def addContentCalls (fs : FileSystem) (r : HttpResponse) (address : Nat) : List MapCall :=
  if HttpResponse.servesFile r.responseCode then
    if ¬ fs.canOpen (r.srcDir ++ r.path) then []
    else
      match fs.mmap (r.srcDir ++ r.path) r.fileStat.size with
      | none => []
      | some _ => [.acquire ⟨address, r.fileStat.size⟩]
  else []

def makeResponseCalls (fs : FileSystem) (r : HttpResponse) (b : Buffer) (address : Nat) :
    List MapCall :=
  match HttpResponse.located fs r with
  | .error _ => []
  | .ok r =>
      let (r, b) := HttpResponse.addStateLine r b
      let (r, _) := HttpResponse.addHeader r b
      addContentCalls fs r address

/-- `Process()` with `file_address_` as `fileAddress`. -/
def processCalls (js : JsonCpp J) (fs : FileSystem) (webRoot : Bytes) (address : Nat)
    (fileAddress : Option Nat) (c : HttpConn J) : List MapCall :=
  match nextRequest js c.request with
  | .error _ => []
  | .ok q =>
      if c.readBuff.readableBytes = 0 then []
      else
        match q.parse js c.readBuff with
        | .error _ => []
        | .ok (code, q, _) =>
            if code = .noRequest then []
            else
              match c.response.init webRoot q.path c.indexFile q.version q.isKeepAlive
                  (if code = .getRequest then 200 else 400) with
              | .error _ => []
              | .ok r => unmapCalls fileAddress c.response ++ .settled ::
                  makeResponseCalls fs r c.writeBuff address

/-- The `writev` calls of `WriteToFd`: one for each positive result and the last one. -/
def writevCalls (address : Option Nat) : List Nat → HttpConn J → List MapCall
  | [], c => [.use ⟨c.iovCnt, address, c.iov₁⟩]
  | len :: counts, c => .use ⟨c.iovCnt, address, c.iov₁⟩ ::
      if (c.iov₀.len + c.iov₁.len) % 2 ^ 64 = 0 then []
      else writevCalls address counts (c.advance len)

/-! ## §2  A connection in static mode -/

structure MappedConn (J : Type) where
  conn : HttpConn J
  /-- `file_address_` -/
  fileAddress : Option Nat
  /-- The value of `FileAddr()` that `iov_[1].iov_base` was made of. -/
  vector : Option Nat
  /-- The last `Process` returned `FINISH`, and no `Close` came since. -/
  mayWrite : Bool

inductive StaticCall
  | init (fd : Int) (addr : SockAddr) (proxyFd : Int) (indexFile : Option (List Bytes))
  | readFromFd (reads : List Bytes)
  | process (fs : FileSystem) (address : Nat)
  | writeToFd (last : WriteEnd) (counts : List Nat)
  | close
  | destroy

/-- Results that `writev` can return: at least one byte, and at most what the vectors hold. -/
def Takes : List Nat → HttpConn J → Prop
  | [], _ => True
  | len :: counts, c =>
      (0 < len ∧ len ≤ c.iov₀.len + if c.iovCnt = 2 then c.iov₁.len else 0) ∧
        ((c.iov₀.len + c.iov₁.len) % 2 ^ 64 = 0 ∨ Takes counts (c.advance len))

instance decidableTakes : ∀ (counts : List Nat) (c : HttpConn J), Decidable (Takes counts c)
  | [], _ => isTrue trivial
  | len :: counts, c =>
      have := decidableTakes counts (c.advance len)
      inferInstanceAs (Decidable (_ ∧ _))

/-- `Close()`, then what is left of the object behind the destructor is as behind `Close()`. -/
def staticStep (js : JsonCpp J) (webRoot : Bytes) (s : MappedConn J) : StaticCall →
    Option (MappedConn J × List MapCall)
  | .init fd addr proxyFd indexFile =>
      some ({ s with conn := s.conn.init fd addr proxyFd indexFile }, [])
  | .readFromFd reads => some ({ s with conn := s.conn.readFromFd reads }, [])
  | .process fs address =>
      match s.conn.process js fs webRoot with
      | .error _ => none
      | .ok (result, c) =>
          let calls := processCalls js fs webRoot address s.fileAddress s.conn
          if result = .finish then
            let fileAddress := if c.response.hasFile then some address else none
            some ({ conn := c, fileAddress := fileAddress,
                    vector := if c.response.hasFile then fileAddress else s.vector,
                    mayWrite := true }, calls)
          else some ({ s with conn := c, mayWrite := false }, calls)
  | .writeToFd last counts =>
      if s.mayWrite ∧ Takes counts s.conn then
        some ({ s with conn := (s.conn.writeToFd last counts).2 },
          writevCalls s.vector counts s.conn)
      else none
  | .close =>
      match s.conn.close js with
      | .error _ => none
      | .ok c => some ({ s with conn := c, fileAddress := none, mayWrite := false },
          unmapCalls s.fileAddress s.conn.response ++ [.settled])
  | .destroy =>
      match s.conn.close js with
      | .error _ => none
      | .ok c => some ({ s with conn := c, fileAddress := none, mayWrite := false },
          unmapCalls s.fileAddress s.conn.response ++ .settled ::
            (unmapCalls none c.response ++ [.settled]))

/-- A new object; `iov_[1]` points nowhere in particular. -/
def mappedRun (js : JsonCpp J) (webRoot : Bytes) (c₀ : HttpConn J) (vector : Option Nat) :
    Machine (MappedConn J) StaticCall (List MapCall) where
  init := { conn := c₀, fileAddress := none, vector := vector, mayWrite := false }
  step := staticStep js webRoot

/-! ## §3  Pointers and mapping -/

section mapping

open HttpResponse

variable {r r' r₁ : HttpResponse} {b b' : Buffer}

theorem addHeader_kept (r : HttpResponse) (b : Buffer) :
    ∃ k, (addHeader r b).1 = { r with isKeepalive := k } := by
  have hconnection : ∃ k, (addConnection r b).1 = { r with isKeepalive := k } := by
    unfold addConnection
    split
    · exact ⟨false, rfl⟩
    · split
      · dsimp only
        split
        · exact ⟨r.isKeepalive, rfl⟩
        · split <;> exact ⟨r.isKeepalive, rfl⟩
      · exact ⟨r.isKeepalive, rfl⟩
  exact hconnection

/-- What the header is made of decides nothing about the file. -/
theorem headed_kept (r : HttpResponse) (b : Buffer) :
    ∃ k code, (addHeader (r.addStateLine b).1 (r.addStateLine b).2).1 =
        { r with isKeepalive := k, responseCode := code } ∧
      (servesFile code = true → code = r.responseCode) := by
  obtain ⟨k, hk⟩ := addHeader_kept (r.addStateLine b).1 (r.addStateLine b).2
  rw [hk]
  unfold addStateLine
  cases kCodeStatus.lookup r.responseCode with
  | some status => exact ⟨k, r.responseCode, rfl, fun _ => rfl⟩
  | none =>
      refine ⟨k, 400, rfl, fun h => ?_⟩
      rw [show servesFile 400 = false by decide] at h
      cases h

theorem addContent_calls (hnone : r.fileAddress = none) (address : Nat) :
    addContentCalls fs r address = if (addContent fs r b).1.hasFile then
        [.acquire ⟨address, (addContent fs r b).1.fileStat.size⟩] else [] := by
  unfold addContentCalls addContent
  by_cases hserves : servesFile r.responseCode = true
  · rw [if_pos hserves, if_pos hserves]
    by_cases hopen : fs.canOpen (r.srcDir ++ r.path) = true
    · rw [if_neg (not_not_intro hopen), if_neg (not_not_intro hopen)]
      cases hmap : fs.mmap (r.srcDir ++ r.path) r.fileStat.size with
      | none => simp [hasFile, hnone]
      | some file => simp [hasFile]
    · rw [if_pos hopen, if_pos hopen]
      simp [hasFile, hnone]
  · rw [if_neg hserves, if_neg hserves]
    simp [hasFile, hnone]

theorem addContent_file (hnone : r.fileAddress = none)
    (hfile : (addContent fs r b).1.hasFile = true) :
    servesFile r.responseCode = true ∧ (addContent fs r b).1.fileStat = r.fileStat := by
  unfold addContent at hfile ⊢
  split
  · rename_i hserves
    refine ⟨hserves, ?_⟩
    split
    · rfl
    · split <;> rfl
  · rename_i hserves
    rw [if_neg hserves] at hfile
    simp [hasFile, hnone] at hfile

/-- A file that is to be served has been seen by `stat`. -/
theorem located_stat (hlocated : located fs r = .ok r₁)
    (hserves : servesFile r₁.responseCode = true) :
    ∃ path, fs.stat path = some r₁.fileStat := by
  rcases located_cases hlocated with ⟨-, r₂, -, hchecked⟩ | ⟨hnot, rfl⟩
  · cases hchecked with
    | missing =>
        rw [show servesFile 404 = false by decide] at hserves
        cases hserves
    | directory =>
        rw [show servesFile 404 = false by decide] at hserves
        cases hserves
    | unreadable =>
        rw [show servesFile 403 = false by decide] at hserves
        cases hserves
    | readable hstat => exact ⟨_, hstat⟩
  · rw [hnot] at hserves
    cases hserves

/-- `MakeResponse` maps the file it has then, with the length `stat` gave. -/
theorem makeResponse_mapped (hmake : makeResponse fs r b = .ok (r', b'))
    (hnone : r.fileAddress = none) :
    (∀ address, makeResponseCalls fs r b address =
        if r'.hasFile then [.acquire ⟨address, r'.fileStat.size⟩] else []) ∧
      (r'.hasFile = true → ∃ path, fs.stat path = some r'.fileStat) := by
  rw [makeResponse_located] at hmake
  obtain ⟨r₁, hlocated, hresult⟩ := map_eq_ok hmake
  obtain ⟨k, code, hheaded, hcode⟩ := headed_kept r₁ b
  have hnone₁ : (addHeader (r₁.addStateLine b).1 (r₁.addStateLine b).2).1.fileAddress = none := by
    rw [hheaded]
    exact (located_kept hlocated).2.2.trans hnone
  have hr' : r' = (addContent fs (addHeader (r₁.addStateLine b).1 (r₁.addStateLine b).2).1
      (addHeader (r₁.addStateLine b).1 (r₁.addStateLine b).2).2).1 := congrArg Prod.fst hresult
  rw [hr']
  refine ⟨fun address => ?_, fun hfile => ?_⟩
  · rw [makeResponseCalls, hlocated]
    exact addContent_calls hnone₁ address
  · obtain ⟨hserves, hstat⟩ := addContent_file hnone₁ hfile
    rw [hstat, hheaded]
    have hserved : servesFile code = true := by
      rw [hheaded] at hserves
      exact hserves
    rw [hcode hserved] at hserved
    have hfound : ∃ path, fs.stat path = some r₁.fileStat := located_stat hlocated hserved
    exact hfound

end mapping

/-- A `Process` that answers: the response it makes, and the calls. -/
theorem process_finish (h : c.process js fs webRoot = .ok (.finish, c')) :
    ∃ r wb, r.fileAddress = none ∧ r.makeResponse fs c.writeBuff = .ok (c'.response, wb) ∧
      c'.iovCnt = (if c'.response.hasFile then 2 else 1) ∧
      ∀ address fileAddress, processCalls js fs webRoot address fileAddress c =
        unmapCalls fileAddress c.response ++ .settled ::
          makeResponseCalls fs r c.writeBuff address := by
  obtain ⟨q₀, hnext, h⟩ := bind_eq_ok.mp h
  dsimp only at h
  split at h
  · cases h
  · rename_i hbytes
    obtain ⟨⟨code, q, b⟩, hparse, h⟩ := bind_eq_ok.mp h
    dsimp only at h
    split at h
    · cases h
    · rename_i hcode
      obtain ⟨c₁, hrespond, h⟩ := bind_eq_ok.mp h
      obtain ⟨r, hinit, hrespond⟩ := bind_eq_ok.mp hrespond
      obtain ⟨⟨r', wb⟩, hmake, hrespond⟩ := bind_eq_ok.mp hrespond
      obtain rfl := Except.ok.inj hrespond
      have hresult := congrArg Prod.snd (Except.ok.inj h)
      dsimp only at hresult
      have hresponse : c'.response = r' ∧ c'.iovCnt = if r'.hasFile then 2 else 1 := by
        split at hresult
        · rename_i hfile
          rw [← hresult, if_pos (show r'.hasFile = true from hfile)]
          exact ⟨rfl, rfl⟩
        · rename_i hfile
          rw [← hresult, if_neg (show ¬ r'.hasFile = true from hfile)]
          exact ⟨rfl, rfl⟩
      refine ⟨r, wb, (HttpResponse.init_kept hinit).2.2.2, ?_, ?_, fun address fileAddress => ?_⟩
      · rw [hresponse.1]
        exact hmake
      · rw [hresponse.1]
        exact hresponse.2
      · simp only [processCalls, hnext, if_neg hbytes, hparse, if_neg hcode, hinit]

theorem process_ne_fail : c.process js fs webRoot ≠ .ok (.fail, c') := by
  intro h
  obtain ⟨q, -, h⟩ := bind_eq_ok.mp h
  dsimp only at h
  split at h
  · simp [pure, Except.pure] at h
  · obtain ⟨⟨code, q', b⟩, -, h⟩ := bind_eq_ok.mp h
    dsimp only at h
    split at h
    · simp [pure, Except.pure] at h
    · obtain ⟨c₁, -, h⟩ := bind_eq_ok.mp h
      simp [pure, Except.pure] at h

theorem process_waits (h : c.process js fs webRoot = .ok (.pending, c')) :
    c'.response = c.response ∧ ∀ address fileAddress,
      processCalls js fs webRoot address fileAddress c = [] := by
  obtain ⟨q₀, hnext, h⟩ := bind_eq_ok.mp h
  dsimp only at h
  split at h
  · rename_i hbytes
    obtain rfl := congrArg Prod.snd (Except.ok.inj h)
    exact ⟨rfl, fun _ _ => by simp only [processCalls, hnext, if_pos hbytes]⟩
  · rename_i hbytes
    obtain ⟨⟨code, q, b⟩, hparse, h⟩ := bind_eq_ok.mp h
    dsimp only at h
    split at h
    · rename_i hcode
      obtain rfl := congrArg Prod.snd (Except.ok.inj h)
      exact ⟨rfl, fun _ _ => by
        simp only [processCalls, hnext, if_neg hbytes, hparse, if_pos hcode]⟩
    · obtain ⟨c₁, -, h⟩ := bind_eq_ok.mp h
      cases h

/-- The second vector is not read, or what is left of it lies in the mapping. -/
def Aligned (live : Option Mapping) (vector : Option Nat) (c : HttpConn J) : Prop :=
  c.iovCnt = 1 ∨ ∃ m offset, live = some m ∧ vector = some m.address ∧
    c.iov₁.base = .file offset ∧ (offset + c.iov₁.len : Int) ≤ m.length

section aligned

variable {live : Option Mapping} {vector : Option Nat}

theorem Aligned.inside (h : Aligned live vector c) :
    InsideMapping live ⟨c.iovCnt, vector, c.iov₁⟩ := by
  intro hcnt _
  rcases h with hone | h
  · rw [show c.iovCnt = 2 from hcnt] at hone
    cases hone
  · exact h

theorem advance_kept (len : Nat) (c : HttpConn J) :
    (c.advance len).iovCnt = c.iovCnt ∧ (c.advance len).response = c.response ∧
      (c.advance len).iov₁ =
        { base := if len > c.iov₀.len then c.iov₁.base.add (len - c.iov₀.len) else c.iov₁.base,
          len := c.iov₁.len - (len - c.iov₀.len) } := by
  unfold advance
  split
  · dsimp only
    split <;> exact ⟨rfl, rfl, rfl⟩
  · rename_i hlen
    refine ⟨rfl, rfl, ?_⟩
    rw [Nat.sub_eq_zero_of_le (Nat.le_of_not_lt hlen)]
    rfl

/-- The pointer moves on by what the length loses. -/
theorem Aligned.advance (h : Aligned live vector c) {len : Nat}
    (hlen : len ≤ c.iov₀.len + if c.iovCnt = 2 then c.iov₁.len else 0) :
    Aligned live vector (c.advance len) := by
  obtain ⟨hcnt, -, hiov⟩ := advance_kept len c
  rcases h with hone | ⟨m, offset, hlive, hvector, hbase, hinside⟩
  · exact Or.inl (hcnt.trans hone)
  · have hbound : len - c.iov₀.len ≤ c.iov₁.len := by
      split at hlen <;> omega
    refine Or.inr ⟨m, offset + (len - c.iov₀.len), hlive, hvector, ?_, ?_⟩
    · rw [hiov, hbase]
      dsimp only
      split
      · rfl
      · rename_i hover
        rw [Nat.sub_eq_zero_of_le (Nat.le_of_not_lt hover), Nat.add_zero]
    · rw [hiov]
      dsimp only
      omega

/-- A write touches the live mapping only, and leaves it. -/
theorem writevCalls_runs (last : WriteEnd) : ∀ (counts : List Nat) (c : HttpConn J) (total : Int),
    Takes counts c → Aligned live vector c →
      Lease.Runs InsideMapping live (writevCalls vector counts c) live ∧
        Aligned live vector (writeLoop last counts total c).2 ∧
        (writeLoop last counts total c).2.response = c.response := by
  intro counts
  induction counts with
  | nil =>
      intro c total _ halign
      exact ⟨.cons (.use halign.inside) (.nil _), halign, rfl⟩
  | cons len counts ih =>
      intro c total htakes halign
      obtain ⟨⟨-, hlen⟩, hrest⟩ := htakes
      rw [writevCalls, writeLoop]
      by_cases hzero : (c.iov₀.len + c.iov₁.len) % 2 ^ 64 = 0
      · rw [if_pos hzero, if_pos hzero]
        exact ⟨.cons (.use halign.inside) (.nil _), halign, rfl⟩
      · rw [if_neg hzero, if_neg hzero]
        obtain ⟨hruns, hafter, hresponse⟩ := ih (c.advance len) (total + len)
          (hrest.resolve_left hzero) (halign.advance hlen)
        exact ⟨.cons (.use halign.inside) hruns, hafter,
          hresponse.trans (advance_kept len c).2.1⟩

end aligned

/-! ## §4  Every run -/

/-- A file of less than 2^31 bytes. -/
def SmallFiles (fs : FileSystem) : Prop :=
  ∀ path st, fs.stat path = some st → 0 ≤ st.size ∧ st.size < 2 ^ 31

/-- What `file_address_`, `file_stat_` and the vector have to do with the live mapping. -/
structure MapsKept (s : MappedConn J) (live : Option Mapping) : Prop where
  address : s.fileAddress.isSome = s.conn.response.hasFile
  mapping : live = s.fileAddress.map fun address => ⟨address, s.conn.response.fileStat.size⟩
  vector : s.mayWrite = true → Aligned live s.vector s.conn

section runs

variable {s s' : MappedConn J} {live : Option Mapping} {os : List MapCall}

theorem unmapCalls_runs (hs : MapsKept s live) :
    Lease.Runs InsideMapping live (unmapCalls s.fileAddress s.conn.response) none := by
  obtain ⟨-, rfl, -⟩ := hs
  cases s.fileAddress with
  | none => exact .nil _
  | some address => exact .cons (.release _) (.nil _)

/-- The mapping a `Process` makes is the one its pointers go to. -/
theorem process_maps (hsmall : SmallFiles fs) (hs : MapsKept s live)
    (h : s.conn.process js fs webRoot = .ok (.finish, c')) (address : Nat) :
    ∃ live', Lease.Runs InsideMapping live
        (processCalls js fs webRoot address s.fileAddress s.conn) live' ∧
      MapsKept ⟨c', if c'.response.hasFile then some address else none,
        if c'.response.hasFile then some address else s.vector, true⟩ live' := by
  obtain ⟨r, wb, hnone, hmake, hcnt, hcalls⟩ := process_finish h
  obtain ⟨hmapped, hstat⟩ := makeResponse_mapped hmake hnone
  have hsettled : Lease.Runs InsideMapping live
      (unmapCalls s.fileAddress s.conn.response ++ [.settled]) none :=
    (unmapCalls_runs hs).append (.cons .settled (.nil _))
  rw [hcalls, hmapped, List.append_cons]
  by_cases hfile : c'.response.hasFile = true
  · obtain ⟨path, hpath⟩ := hstat hfile
    have hiov := (process_vectors h).2
    simp only [if_pos hfile] at hcnt hiov ⊢
    refine ⟨some ⟨address, c'.response.fileStat.size⟩,
      hsettled.append (.cons (.acquire _) (.nil _)), ⟨hfile.symm, rfl, fun _ => ?_⟩⟩
    refine Or.inr ⟨⟨address, c'.response.fileStat.size⟩, 0, rfl, rfl, by rw [hiov], ?_⟩
    obtain ⟨hnonneg, hbound⟩ := hsmall path _ hpath
    have hsize : (toSize c'.response.fileStat.size : Int) = c'.response.fileStat.size := by
      rw [toSize]
      omega
    rw [hiov, HttpResponse.fileSize, toSize_toInt (by omega), hsize]
    simp
  · simp only [if_neg hfile] at hcnt ⊢
    refine ⟨none, by rw [List.append_nil]; exact hsettled, ⟨?_, rfl, fun _ => Or.inl hcnt⟩⟩
    rw [Bool.not_eq_true] at hfile
    exact hfile.symm

theorem close_response (h : c.close js = .ok c') : c'.response = c.response.close := by
  rw [close] at h
  dsimp only at h
  split at h
  · obtain rfl := Except.ok.inj h
    rfl
  · split at h
    · cases h
    · obtain rfl := Except.ok.inj h
      rfl

/-- Behind `Close` nothing is mapped, and no pointer to it is used. -/
theorem close_maps (h : s.conn.close js = .ok c') :
    MapsKept { s with conn := c', fileAddress := none, mayWrite := false } none := by
  refine ⟨?_, rfl, fun hwrite => absurd hwrite Bool.false_ne_true⟩
  rw [close_response h]
  rfl

/-- A `Process` of a whole request maps anew; of a part of one it leaves all as it is. -/
theorem processStep_maps {fs : FileSystem} {address : Nat} (hsmall : SmallFiles fs)
    (hs : MapsKept s live) (h : staticStep js webRoot s (.process fs address) = some (s', os)) :
    ∃ live', Lease.Runs InsideMapping live os live' ∧ MapsKept s' live' := by
  rw [staticStep] at h
  cases hprocess : s.conn.process js fs webRoot with
  | error e =>
      rw [hprocess] at h
      cases h
  | ok p =>
      obtain ⟨result, c'⟩ := p
      rw [hprocess] at h
      dsimp only at h
      cases result with
      | finish =>
          rw [if_pos rfl] at h
          obtain ⟨rfl, rfl⟩ := Prod.mk.inj (Option.some.inj h)
          obtain ⟨live', hruns, hkept⟩ :=
            process_maps hsmall hs hprocess address
          refine ⟨live', hruns, hkept.address, hkept.mapping, fun hwrite => ?_⟩
          have haligned := hkept.vector hwrite
          dsimp only at haligned ⊢
          split
          · rename_i hfile
            simpa only [if_pos hfile] using haligned
          · rename_i hfile
            simpa only [if_neg hfile] using haligned
      | pending =>
          rw [if_neg (by decide)] at h
          obtain ⟨rfl, rfl⟩ := Prod.mk.inj (Option.some.inj h)
          obtain ⟨hresponse, hcalls⟩ := process_waits hprocess
          rw [hcalls]
          refine ⟨live, .nil _, ?_, ?_, fun hwrite => absurd hwrite Bool.false_ne_true⟩
          · rw [hresponse]
            exact hs.address
          · rw [hresponse]
            exact hs.mapping
      | fail => exact absurd hprocess process_ne_fail

/-- One call: what it does to the mapping is allowed, and the pointers stay right. -/
theorem staticStep_maps {call : StaticCall}
    (hsmall : ∀ fs address, call = .process fs address → SmallFiles fs) (hs : MapsKept s live)
    (h : staticStep js webRoot s call = some (s', os)) :
    ∃ live', Lease.Runs InsideMapping live os live' ∧ MapsKept s' live' := by
  have hsettled : Lease.Runs InsideMapping live
      (unmapCalls s.fileAddress s.conn.response ++ [.settled]) none :=
    (unmapCalls_runs hs).append (.cons .settled (.nil _))
  cases call with
  | init fd addr proxyFd indexFile =>
      obtain ⟨rfl, rfl⟩ := Prod.mk.inj (Option.some.inj h)
      exact ⟨live, .nil _, hs.address, hs.mapping, hs.vector⟩
  | readFromFd reads =>
      obtain ⟨rfl, rfl⟩ := Prod.mk.inj (Option.some.inj h)
      exact ⟨live, .nil _, hs.address, hs.mapping, hs.vector⟩
  | process fs address =>
      exact processStep_maps (hsmall fs address rfl) hs h
  | writeToFd last counts =>
      rw [staticStep] at h
      split at h
      · rename_i hallowed
        obtain ⟨rfl, rfl⟩ := Prod.mk.inj (Option.some.inj h)
        obtain ⟨hruns, haligned, hresponse⟩ :=
          writevCalls_runs last counts s.conn 0 hallowed.2 (hs.vector hallowed.1)
        refine ⟨live, hruns, ?_, ?_, fun _ => haligned⟩
        · rw [writeToFd, hresponse]
          exact hs.address
        · rw [writeToFd, hresponse]
          exact hs.mapping
      · cases h
  | close =>
      rw [staticStep] at h
      split at h
      · cases h
      · rename_i hclose
        obtain ⟨rfl, rfl⟩ := Prod.mk.inj (Option.some.inj h)
        exact ⟨none, hsettled, close_maps hclose⟩
  | destroy =>
      rw [staticStep] at h
      split at h
      · cases h
      · rename_i hclose
        obtain ⟨rfl, rfl⟩ := Prod.mk.inj (Option.some.inj h)
        rw [List.append_cons]
        exact ⟨none, hsettled.append (.cons .settled (.nil _)), close_maps hclose⟩

theorem exec_maps {M : Machine (MappedConn J) StaticCall (List MapCall)}
    (hM : M.step = staticStep js webRoot) {ls : List StaticCall} {os : List (List MapCall)}
    (hsmall : ∀ fs address, .process fs address ∈ ls → SmallFiles fs) (hs : MapsKept s live)
    (h : M.exec s ls = some (s', os)) :
    ∃ live', Lease.Runs InsideMapping live os.flatten live' ∧ MapsKept s' live' := by
  induction ls generalizing s live os with
  | nil =>
      obtain ⟨rfl, rfl⟩ := Prod.mk.inj (Option.some.inj h)
      exact ⟨live, .nil _, hs⟩
  | cons call ls ih =>
      obtain ⟨s₁, calls, rest, hstep, hrest, rfl⟩ := Machine.exec_cons_eq_some.mp h
      rw [hM] at hstep
      obtain ⟨live₁, hruns, hkept⟩ := staticStep_maps
        (fun fs address hcall => hsmall fs address (hcall ▸ List.mem_cons_self)) hs hstep
      obtain ⟨live', hruns', hkept'⟩ :=
        ih (fun fs address hcall => hsmall fs address (List.mem_cons_of_mem _ hcall)) hkept hrest
      exact ⟨live', hruns.append hruns', hkept'⟩

theorem new_maps {junk : Junk} (h : HttpConn.new js junk = .ok c) (vector : Option Nat) :
    MapsKept ⟨c, none, vector, false⟩ none := by
  obtain ⟨readBuff, -, h⟩ := bind_eq_ok.mp h
  obtain ⟨writeBuff, -, h⟩ := bind_eq_ok.mp h
  obtain ⟨request, -, h⟩ := bind_eq_ok.mp h
  obtain rfl := Except.ok.inj h
  exact ⟨rfl, rfl, fun hwrite => absurd hwrite Bool.false_ne_true⟩

end runs

/-- **Mappings are balanced.** Whatever the calls and the file system, one mapping is live at
a time, it is the one that `file_address_` and `file_stat_` name, it is unmapped once and with
its length, behind every `HttpResponse::Init`, `Close` and destructor there is none, and no
`writev` reads outside of it. -/
theorem mappings_balanced (js : JsonCpp J) (webRoot : Bytes) {junk : Junk} {c₀ : HttpConn J}
    (hnew : HttpConn.new js junk = .ok c₀) (vector : Option Nat) {ls : List StaticCall}
    (hsmall : ∀ fs address, .process fs address ∈ ls → SmallFiles fs)
    {s : MappedConn J} {os : List (List MapCall)}
    (hrun : (mappedRun js webRoot c₀ vector).run ls = some (s, os)) :
    (∃ live, Lease.Runs InsideMapping none os.flatten live ∧
        s.fileAddress.isSome = s.conn.response.hasFile ∧
        live = s.fileAddress.map fun address => ⟨address, s.conn.response.fileStat.size⟩) ∧
      ∀ before m after, os.flatten = before ++ .acquire m :: after → .settled ∈ after →
        ∃ writes rest, after = writes ++ .release m :: rest ∧ ∀ e ∈ writes, ∃ w, e = .use w := by
  obtain ⟨live, hruns, hkept⟩ := exec_maps rfl hsmall (new_maps hnew vector) hrun
  refine ⟨⟨live, hruns, hkept.address, hkept.mapping⟩, fun before m after htrace hsettled => ?_⟩
  rw [htrace] at hruns
  exact hruns.released hsettled

/-- A file that is written in part, asked for again, and closed on. -/
def asksTwice : List StaticCall :=
  [.init 5 ⟨10, 0, 0, 7⟩ (-1) (some []), .readFromFd [ascii "GET /f HTTP/1.1\r\n\r\n"],
   .process fiveBytes 4096, .writeToFd ⟨-1, some .eagain⟩ [123],
   .readFromFd [ascii "GET /f HTTP/1.1\r\n\r\n"], .process fiveBytes 8192, .close, .destroy]

theorem mappings_balanced_twice :
    ∃ c₀ s os, HttpConn.new HttpRequest.membersJson zeroed = .ok c₀ ∧
      (mappedRun HttpRequest.membersJson (ascii "/srv") c₀ none).run asksTwice = some (s, os) ∧
      ∃ live, Lease.Runs InsideMapping none os.flatten live ∧
        s.fileAddress.isSome = s.conn.response.hasFile ∧
        live = s.fileAddress.map fun address => ⟨address, s.conn.response.fileStat.size⟩ := by
  have hruns : ∃ c₀, HttpConn.new HttpRequest.membersJson zeroed = .ok c₀ ∧
      ((mappedRun HttpRequest.membersJson (ascii "/srv") c₀ none).run asksTwice).isSome = true := by
    refine ⟨_, rfl, ?_⟩
    decide +kernel
  obtain ⟨c₀, hnew, hsome⟩ := hruns
  obtain ⟨⟨s, os⟩, hrun⟩ := Option.isSome_iff_exists.mp hsome
  refine ⟨c₀, s, os, hnew, hrun, (mappings_balanced _ _ hnew none ?_ hrun).1⟩
  intro fs address hmem
  have hfive : fs = fiveBytes := by
    simp [asksTwice] at hmem
    rcases hmem with ⟨rfl, -⟩ | ⟨rfl, -⟩ <;> rfl
  rw [hfive]
  intro path st hst
  obtain rfl := Option.some.inj hst
  decide

end HttpConn

end WhiteWebServer
