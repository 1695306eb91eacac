import WhiteWebServer.Transmission
import WhiteWebServer.Recovery
import WhiteWebServer.Traversal

/-!
# Bytes pending behind `Process`

`PendingWriteBytes` adds the lengths of both write vectors; `Process` sets the second one
only for a file. §1 what an answer makes of that vector; §2 the bytes that are pending when
`Process` returns; §3 a transfer that was cut short.
-/

namespace WhiteWebServer

open Outcome

namespace HttpConn

variable {J : Type} {js : JsonCpp J} {fs : FileSystem} {webRoot : Bytes} {c c' : HttpConn J}

/-! ## §1  The second vector -/

/-- The bytes of the file a response has mapped. -/
def mappedSize (r : HttpResponse) : Nat := if r.hasFile then toSize r.fileStat.size else 0

/-- A `Process` that answers points the first vector at the answer, and the second at the
file when there is one. -/
theorem process_vectors (h : c.process js fs webRoot = .ok (.finish, c')) :
    c'.iov₀.len = c'.writeBuff.readableBytes ∧
      c'.iov₁ = if c'.response.hasFile then
        { base := .file 0, len := toSize c'.response.fileSize } else c.iov₁ := by
  obtain ⟨q, -, h⟩ := bind_eq_ok.mp h
  dsimp only at h
  split at h
  · simp [pure, Except.pure] at h
  · obtain ⟨⟨code, q', b⟩, -, h⟩ := bind_eq_ok.mp h
    dsimp only at h
    split at h
    · simp [pure, Except.pure] at h
    · obtain ⟨c₁, hrespond, h⟩ := bind_eq_ok.mp h
      obtain ⟨r, wb, rfl⟩ := respond_eq hrespond
      simp only [pure, Except.pure, Except.ok.injEq, Prod.mk.injEq, true_and] at h
      subst h
      split
      · exact ⟨rfl, rfl⟩
      · exact ⟨rfl, rfl⟩

/-! ## §2  What is pending -/

/-- What `PendingWriteBytes` is to be behind an answer. -/
def PendingExact (c : HttpConn J) : Prop :=
  c.pendingWriteBytes = c.writeBuff.readableBytes + mappedSize c.response

/-- Behind a `Process` that answers, the pending bytes are those of the answer, for a file
whose bytes and headers an `int` can count. -/
def AnswersExactly (js : JsonCpp J) (webRoot : Bytes) (c : HttpConn J) (call : ConnCall) : Prop :=
  ∀ fs c', call = .process fs → c.process js fs webRoot = .ok (.finish, c') →
    (c'.response.hasFile = true →
      c'.writeBuff.readableBytes + mappedSize c'.response < 2 ^ 31) → PendingExact c'

/-- An answer without a file is made where nothing of an earlier file is left in the second
vector, and is one whose bytes an `int` can count. -/
def NothingLeft (js : JsonCpp J) (webRoot : Bytes) (c : HttpConn J) (call : ConnCall) : Prop :=
  ∀ fs c', call = .process fs → c.process js fs webRoot = .ok (.finish, c') →
    c'.response.hasFile = false → c'.writeBuff.readableBytes < 2 ^ 31 ∧ 2 ^ 32 ∣ c.iov₁.len

/-- A length returned as an `int`. -/
theorem toInt_eq_iff {n k : Nat} (hk : k ≤ n) :
    toInt (n % 2 ^ 64 : Nat) = k ↔ k < 2 ^ 31 ∧ 2 ^ 32 ∣ n - k := by
  rw [toInt, Int.bmod_def]
  omega

/-- A size that an `int` holds survives being returned as one. -/
theorem toSize_toInt {size : Int} (h : toSize size < 2 ^ 31) :
    toSize (toInt size) = toSize size := by
  have hint : toInt size = size % 2 ^ 64 := by
    rw [toSize] at h
    rw [toInt, Int.bmod_def]
    omega
  rw [hint, toSize, toSize, Int.emod_emod_of_dvd _ dvd_rfl]

theorem answersExactly_iff (c : HttpConn J) (call : ConnCall) :
    AnswersExactly js webRoot c call ↔ NothingLeft js webRoot c call := by
  constructor
  · intro h fs c' hcall hprocess hfile
    have hexact := h fs c' hcall hprocess fun h => by rw [h] at hfile; cases hfile
    obtain ⟨hfirst, hsecond⟩ := process_vectors hprocess
    rw [hfile] at hsecond
    rw [PendingExact, pendingWriteBytes, mappedSize, hfile, hfirst, hsecond] at hexact
    have hcount := (toInt_eq_iff (Nat.le_add_right c'.writeBuff.readableBytes c.iov₁.len)).mp
      (by simpa using hexact)
    rwa [Nat.add_sub_cancel_left] at hcount
  · intro h fs c' hcall hprocess hsize
    obtain ⟨hfirst, hsecond⟩ := process_vectors hprocess
    rw [PendingExact, pendingWriteBytes, hfirst, hsecond]
    cases hfile : c'.response.hasFile with
    | true =>
        have hsize := hsize hfile
        rw [mappedSize, hfile, if_pos rfl] at hsize ⊢
        rw [if_pos rfl, HttpResponse.fileSize, toSize_toInt (by omega)]
        dsimp only
        rw [Nat.mod_eq_of_lt (by omega), toInt_natCast hsize, Nat.cast_add]
    | false =>
        obtain ⟨hshort, hleft⟩ := h fs c' hcall hprocess hfile
        rw [mappedSize, hfile]
        simp only [Bool.false_eq_true, if_false, Nat.cast_zero, add_zero]
        exact (toInt_eq_iff (Nat.le_add_right _ _)).mpr ⟨hshort, by rwa [Nat.add_sub_cancel_left]⟩

/-- **Pending bytes do not depend on history** exactly where no answer without a file finds
something left of an earlier one: over every run of one object, whatever its vectors held at
first. -/
theorem pending_exact_iff (js : JsonCpp J) (webRoot : Bytes) (c₀ : HttpConn J)
    (ls : List ConnCall) :
    (calls js webRoot c₀).Meets (AnswersExactly js webRoot) c₀ ls ↔
      (calls js webRoot c₀).Meets (NothingLeft js webRoot) c₀ ls := by
  constructor
  · exact Machine.Meets.mono fun c call h => (answersExactly_iff c call).mp h
  · exact Machine.Meets.mono fun c call h => (answersExactly_iff c call).mpr h

/-! ## §3  A transfer cut short -/

/-- Every file has five bytes. -/
def fiveBytes : FileSystem :=
  { access := fun _ => false, stat := fun _ => some ⟨false, true, 5⟩, canOpen := fun _ => true,
    mmap := fun _ _ => some (ascii "hello") }

/-- The first client takes the headers and two bytes of its file and is closed; the second
one, on the same descriptor, sends an empty line. -/
def cutShort : List ConnCall :=
  [.init 5 ⟨10, 0, 0, 7⟩ (-1) (some []), .readFromFd [ascii "GET /f HTTP/1.1\r\n\r\n"],
   .process fiveBytes, .writeToFd ⟨-1, some .eagain⟩ [123], .close,
   .init 5 ⟨10, 0, 0, 8⟩ (-1) (some []), .readFromFd [ascii "\r\n"]]

/-- What `Process` answers behind some calls, and what is pending then and what is in the
buffer. -/
def pendingBehind (ls : List ConnCall) (fs : FileSystem) :
    Except Fault (Option (ProcessState × Int × Nat × Bool)) := do
  let c₀ ← HttpConn.new HttpRequest.membersJson zeroed
  match (calls HttpRequest.membersJson (ascii "/srv") c₀).run ls with
  | none => return none
  | some (c, _) => do
      let p ← c.process HttpRequest.membersJson fs (ascii "/srv")
      return some (p.1, p.2.pendingWriteBytes, p.2.writeBuff.readableBytes, p.2.response.hasFile)

/-- Three bytes of the first client's file count for the second client. -/
theorem pending_not_exact :
    ∃ c₀, HttpConn.new HttpRequest.membersJson zeroed = .ok c₀ ∧
      ¬ (calls HttpRequest.membersJson (ascii "/srv") c₀).Meets
        (AnswersExactly HttpRequest.membersJson (ascii "/srv")) c₀
        (cutShort ++ [.process fiveBytes]) := by
  have hbehind : pendingBehind cutShort fiveBytes = .ok (some (.finish, 330, 327, false)) := by
    decide +kernel
  obtain ⟨c₀, hnew, hbehind⟩ := bind_eq_ok.mp hbehind
  refine ⟨c₀, hnew, fun hmeets => ?_⟩
  split at hbehind
  · cases hbehind
  · rename_i c os hrun
    obtain ⟨⟨result, c'⟩, hprocess, hbehind⟩ := bind_eq_ok.mp hbehind
    simp only [pure, Except.pure, Except.ok.injEq, Option.some.injEq, Prod.mk.injEq] at hbehind
    obtain ⟨rfl, hpending, hreadable, hfile⟩ := hbehind
    have hexact := hmeets.step hrun fiveBytes c' rfl hprocess fun h => by
      rw [hfile] at h
      cases h
    rw [PendingExact, hpending, hreadable, mappedSize, hfile] at hexact
    simp at hexact

end HttpConn

end WhiteWebServer
