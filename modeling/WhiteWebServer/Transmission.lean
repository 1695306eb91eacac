import WhiteWebServer.Lib.Machine
import WhiteWebServer.HttpConn

/-!
# Sending a response

`WriteToFd` hands the header block in `write_buff_` and the mapped file to the
socket, in as many pieces as `writev` takes. §1 the calls and what they hand
over; §2 what is expected (`Exact`); §3 the invariant of the two write vectors
and the buffer; §4 the result. `PendingWriteBytes` is an `int`, so it is exact
for fewer than 2³² bytes.
-/

namespace WhiteWebServer

open HttpConn

variable {J : Type}

/-! ## §1  Calls of `WriteToFd` -/

/-- One call: what its `writev`s accept, and how it ends. -/
structure WriteCall where
  counts : List Nat
  last : WriteEnd

/-- A connection and the bytes the socket has been handed. -/
structure Transmission (J : Type) where
  conn : HttpConn J
  sent : Bytes

/-- What one call hands over. There is none for results that `writev` cannot
return: it accepts at least one byte and at most what it is offered. -/
def handedOver : List Nat → HttpConn J → Option Bytes
  | [], _ => some []
  | len :: counts, c =>
      match c.offered with
      | none => none
      | some bytes =>
          if 0 < len ∧ len ≤ bytes.length then
            if (c.iov₀.len + c.iov₁.len) % 2 ^ 64 = 0 then some (bytes.take len)
            else (handedOver counts (c.advance len)).map (bytes.take len ++ ·)
          else none

/-- The last `writev` of a call fails with EAGAIN, or returns 0 because nothing is
offered. -/
def EndsCall (c : HttpConn J) (last : WriteEnd) : Prop :=
  last = { ret := -1, error := some .eagain } ∨ (last.ret = 0 ∧ c.offered = some [])

instance (c : HttpConn J) (last : WriteEnd) : Decidable (EndsCall c last) := by
  unfold EndsCall
  infer_instance

def writeStep (s : Transmission J) (call : WriteCall) : Option (Transmission J × WriteEnd) :=
  match handedOver call.counts s.conn with
  | none => none
  | some bytes =>
      let (ret, conn) := writeToFd call.last call.counts s.conn
      if EndsCall conn call.last then some ({ conn := conn, sent := s.sent ++ bytes }, ret)
      else none

def transmission (c : HttpConn J) : Machine (Transmission J) WriteCall WriteEnd where
  init := { conn := c, sent := [] }
  step := writeStep

/-! ## §2  What is expected -/

/-- `Process` has scheduled the header block `H` and the file `F`, or no file. -/
structure Scheduled (c : HttpConn J) (H F : Bytes) : Prop where
  buffer : ∃ g n, c.writeBuff.Holds g H n
  header : c.iov₀ = { base := .writeBuff c.writeBuff.readIdx, len := H.length }
  file : (c.iovCnt = 1 ∧ c.iov₁.len = 0 ∧ F = []) ∨
    (c.iovCnt = 2 ∧ c.iov₁ = { base := .file 0, len := F.length } ∧
      c.response.fileAddress = some F)

/-- What was sent and what is offered next are the response; `PendingWriteBytes`
is zero exactly at its end, and then `write_buff_` is empty. -/
structure Exact (H F : Bytes) (s : Transmission J) : Prop where
  offered : ∃ rest, s.conn.offered = some rest ∧ s.sent ++ rest = H ++ F
  pending : s.conn.pendingWriteBytes = 0 ↔ s.sent = H ++ F
  drained : s.sent = H ++ F → s.conn.writeBuff.readableBytes = 0

/-! ## §3  The vectors -/

/-- `h` of the header block and `f` of the file `F` are still to be sent. -/
structure Remaining (c : HttpConn J) (F h f : Bytes) : Prop where
  buffer : ∃ g n, c.writeBuff.Holds g h n
  header : c.iov₀.len = h.length ∧ (h ≠ [] → c.iov₀.base = .writeBuff c.writeBuff.readIdx)
  file : (c.iovCnt = 1 ∧ c.iov₁.len = 0 ∧ f = []) ∨
    (c.iovCnt = 2 ∧ c.response.fileAddress = some F ∧
      ∃ done, F = done ++ f ∧ c.iov₁ = { base := .file done.length, len := f.length })

theorem Scheduled.remaining {c : HttpConn J} {H F : Bytes} (h : Scheduled c H F) :
    Remaining c F H F := by
  refine ⟨h.buffer, by rw [h.header]; exact ⟨rfl, fun _ => rfl⟩, ?_⟩
  rcases h.file with hf | ⟨hcnt, hiov, hfile⟩
  · exact Or.inl hf
  · exact Or.inr ⟨hcnt, hfile, [], rfl, hiov⟩

namespace Remaining

variable {c : HttpConn J} {F h f : Bytes}

theorem lens (hr : Remaining c F h f) : c.iov₀.len + c.iov₁.len = h.length + f.length := by
  rw [hr.header.1]
  rcases hr.file with ⟨-, hlen, rfl⟩ | ⟨-, -, done, -, hiov⟩
  · rw [hlen]
    rfl
  · rw [hiov]

theorem offered_eq (hr : Remaining c F h f) : c.offered = some (h ++ f) := by
  obtain ⟨g, n, hb⟩ := hr.buffer
  have hhead : c.bytesAt c.iov₀ = some h := by
    unfold bytesAt
    rw [hr.header.1]
    by_cases hnil : h = []
    · subst hnil
      simp
    · have hlen : h.length ≠ 0 := by simpa using hnil
      have hwf := hb.wf
      have hrd := hb.readableBytes
      rw [Buffer.readableBytes] at hrd
      have hin : c.writeBuff.readIdx + h.length ≤ c.writeBuff.bufferContainer.length := by
        have h₁ := hwf.readIdx_le
        have h₂ := hwf.writeIdx_le
        omega
      simp only [if_neg hlen, hr.header.2 hnil, if_pos hin]
      rw [hb.drop_readIdx, List.take_left']
      rfl
  unfold HttpConn.offered
  rcases hr.file with ⟨hcnt, -, rfl⟩ | ⟨hcnt, hfile, done, hF, hiov⟩
  · rw [if_neg (by rw [hcnt]; decide), hhead, List.append_nil]
  · have htail : c.bytesAt c.iov₁ = some f := by
      unfold bytesAt
      rw [hiov]
      by_cases hnil : f = []
      · subst hnil
        simp
      · have hlen : f.length ≠ 0 := by simpa using hnil
        have hin : done.length + f.length ≤ F.length := by
          rw [hF, List.length_append]
        simp only [if_neg hlen, hfile, Option.bind_some, if_pos hin]
        rw [hF, List.drop_left', List.take_length]
        rfl
    rw [if_pos hcnt, hhead, htail]
    rfl

/-- **One `writev`.** The bytes accepted go from the front, first of the header
block, then of the file. -/
theorem advance (hr : Remaining c F h f) {len : Nat} (hlen : len ≤ (h ++ f).length) :
    ∃ h' f', h ++ f = (h ++ f).take len ++ (h' ++ f') ∧ Remaining (c.advance len) F h' f' := by
  obtain ⟨g, n, hb⟩ := hr.buffer
  rw [List.length_append] at hlen
  unfold HttpConn.advance
  simp only [hr.header.1]
  by_cases hover : len > h.length
  · -- the header block and a part of the file
    rw [if_pos hover]
    rcases hr.file with ⟨-, -, rfl⟩ | ⟨hcnt, hfile, done, hF, hiov⟩
    · simp at hlen
      omega
    · refine ⟨[], f.drop (len - h.length), ?_, ?_⟩
      · rw [List.take_append, List.take_of_length_le (by omega), List.append_assoc,
          List.nil_append, List.take_append_drop]
      · have hF' : F = (done ++ f.take (len - h.length)) ++ f.drop (len - h.length) := by
          rw [List.append_assoc, List.take_append_drop, hF]
        have hfront : (done ++ f.take (len - h.length)).length = done.length + (len - h.length) := by
          rw [List.length_append, List.length_take_of_le (by omega)]
        have hvector : IoVec.mk (c.iov₁.base.add (len - h.length))
            (c.iov₁.len - (len - h.length)) =
            IoVec.mk (.file (done ++ f.take (len - h.length)).length)
              (f.drop (len - h.length)).length := by
          rw [hiov, hfront, List.length_drop]
          rfl
        by_cases hnil : h = []
        · subst hnil
          rw [if_neg (by simp)]
          exact ⟨⟨g, n, hb⟩, ⟨hr.header.1, fun h => absurd rfl h⟩,
            Or.inr ⟨hcnt, hfile, _, hF', hvector⟩⟩
        · rw [if_pos (by simpa using hnil)]
          exact ⟨⟨_, _, hb.clear⟩, ⟨rfl, fun h => absurd rfl h⟩,
            Or.inr ⟨hcnt, hfile, _, hF', hvector⟩⟩
  · -- a part of the header block
    rw [if_neg hover]
    have hle : len ≤ h.length := by omega
    have hsplit : c.writeBuff.Holds g (h.take len ++ h.drop len) n := by
      rw [List.take_append_drop]
      exact hb
    have hb' := hsplit.retrieve
    rw [List.length_take_of_le hle] at hb'
    refine ⟨h.drop len, f, ?_, ⟨⟨_, _, hb'⟩, ⟨?_, ?_⟩, ?_⟩⟩
    · rw [List.take_append_of_le_length hle, ← List.append_assoc, List.take_append_drop]
    · show h.length - len = _
      rw [List.length_drop]
    · intro hne
      have hnil : h ≠ [] := by
        rintro rfl
        simp at hne
      show c.iov₀.base.add len = Pointer.writeBuff (c.writeBuff.retrieve len).readIdx
      rw [hr.header.2 hnil, Buffer.retrieve, if_neg (by rw [hb.readableBytes]; omega)]
      rfl
    · exact hr.file

/-- A whole call, as long as the size of what remains is a `std::size_t`. -/
theorem call : ∀ (counts : List Nat) {c : HttpConn J} {h f : Bytes} {last : WriteEnd}
    {bytes : Bytes} {total : Int}, Remaining c F h f → h.length + f.length < 2 ^ 64 →
    handedOver counts c = some bytes →
    ∃ h' f', h ++ f = bytes ++ (h' ++ f') ∧ Remaining (writeLoop last counts total c).2 F h' f' := by
  intro counts
  induction counts with
  | nil =>
      intro c h f last bytes total hr _ hsent
      obtain rfl : [] = bytes := by simpa [handedOver] using hsent
      exact ⟨h, f, rfl, hr⟩
  | cons len counts ih =>
      intro c h f last bytes total hr hsize hsent
      rw [handedOver, hr.offered_eq] at hsent
      simp only at hsent
      split at hsent
      · rename_i hlen
        have hne : (c.iov₀.len + c.iov₁.len) % 2 ^ 64 ≠ 0 := by
          rw [hr.lens, Nat.mod_eq_of_lt hsize]
          rw [List.length_append] at hlen
          omega
        rw [if_neg hne] at hsent
        obtain ⟨later, hlater, rfl⟩ := Option.map_eq_some_iff.mp hsent
        obtain ⟨h₁, f₁, hsplit, hr₁⟩ := hr.advance hlen.2
        have hsize₁ : h₁.length + f₁.length < 2 ^ 64 := by
          have := congrArg List.length hsplit
          simp only [List.length_append] at this
          omega
        obtain ⟨h₂, f₂, hsplit₂, hr₂⟩ := @ih _ _ _ last later (total + len) hr₁ hsize₁ hlater
        refine ⟨h₂, f₂, ?_, ?_⟩
        · calc h ++ f = (h ++ f).take len ++ (h₁ ++ f₁) := hsplit
            _ = (h ++ f).take len ++ later ++ (h₂ ++ f₂) := by rw [hsplit₂, List.append_assoc]
        · rw [writeLoop, if_neg hne]
          exact hr₂
      · simp at hsent

/-- Where there was something to write, a call ends as its last `writev` does. -/
theorem call_last : ∀ (counts : List Nat) {c : HttpConn J} {h f : Bytes} {last : WriteEnd}
    {bytes : Bytes} {total : Int}, Remaining c F h f → h.length + f.length < 2 ^ 64 →
    handedOver counts c = some bytes → (writeLoop last counts total c).1 = last := by
  intro counts
  induction counts with
  | nil => exact fun _ _ _ => rfl
  | cons len counts ih =>
      intro c h f last bytes total hr hsize hsent
      rw [handedOver, hr.offered_eq] at hsent
      simp only at hsent
      split at hsent
      · rename_i hlen
        have hne : (c.iov₀.len + c.iov₁.len) % 2 ^ 64 ≠ 0 := by
          rw [hr.lens, Nat.mod_eq_of_lt hsize]
          rw [List.length_append] at hlen
          omega
        rw [if_neg hne] at hsent
        obtain ⟨later, hlater, -⟩ := Option.map_eq_some_iff.mp hsent
        obtain ⟨h₁, f₁, hsplit, hr₁⟩ := hr.advance hlen.2
        have hsize₁ : h₁.length + f₁.length < 2 ^ 64 := by
          have := congrArg List.length hsplit
          simp only [List.length_append] at this
          omega
        rw [writeLoop, if_neg hne]
        exact ih hr₁ hsize₁ hlater
      · simp at hsent

end Remaining

/-! ## §4  The result -/

section result

variable {c : HttpConn J} {H F : Bytes}

/-- `n < 2³²` bytes are reported as none exactly when there are none. -/
theorem pendingWriteBytes_eq_zero {n : Nat} (hlens : c.iov₀.len + c.iov₁.len = n)
    (hn : n < 2 ^ 32) : c.pendingWriteBytes = 0 ↔ n = 0 := by
  rw [pendingWriteBytes, hlens, Nat.mod_eq_of_lt (by omega), toInt, ← Int.dvd_iff_bmod_eq_zero]
  constructor
  · rintro ⟨k, hk⟩
    omega
  · rintro rfl
    exact Int.dvd_zero _

/-- A multiple of `2³²` bytes is reported as none. -/
theorem pendingWriteBytes_of_dvd (h : 2 ^ 32 ∣ c.iov₀.len + c.iov₁.len) :
    c.pendingWriteBytes = 0 := by
  rw [pendingWriteBytes, toInt, ← Int.dvd_iff_bmod_eq_zero]
  obtain ⟨k, hk⟩ := h
  rw [hk]
  apply Int.natCast_dvd_natCast.mpr
  rw [show (2 : ℕ) ^ 64 = 2 ^ 32 * 2 ^ 32 from rfl, Nat.mul_mod_mul_left]
  exact Nat.dvd_mul_right _ _

/-- The invariant of a transmission. -/
def Sending (H F : Bytes) (s : Transmission J) : Prop :=
  ∃ h f, s.sent ++ (h ++ f) = H ++ F ∧ Remaining s.conn F h f

theorem Sending.exact {s : Transmission J} (hs : Sending H F s)
    (hsize : H.length + F.length < 2 ^ 32) : Exact H F s := by
  obtain ⟨h, f, hsent, hr⟩ := hs
  have hlen := congrArg List.length hsent
  simp only [List.length_append] at hlen
  have hall : s.sent = H ++ F ↔ h.length + f.length = 0 := by
    constructor
    · intro heq
      rw [heq, List.length_append] at hlen
      omega
    · intro hzero
      have hh : h = [] := List.eq_nil_of_length_eq_zero (by omega)
      have hf : f = [] := List.eq_nil_of_length_eq_zero (by omega)
      rw [← hsent, hh, hf]
      simp
  refine ⟨⟨h ++ f, hr.offered_eq, hsent⟩, ?_, ?_⟩
  · rw [hall]
    exact pendingWriteBytes_eq_zero hr.lens (by omega)
  · intro heq
    obtain ⟨g, n, hb⟩ := hr.buffer
    rw [hb.readableBytes]
    have := hall.mp heq
    omega

theorem Sending.step {s s' : Transmission J} {call : WriteCall} {ret : WriteEnd}
    (hs : Sending H F s) (hsize : H.length + F.length < 2 ^ 32)
    (hstep : writeStep s call = some (s', ret)) : Sending H F s' := by
  obtain ⟨h, f, hsent, hr⟩ := hs
  have hlen := congrArg List.length hsent
  simp only [List.length_append] at hlen
  unfold writeStep at hstep
  cases hbytes : handedOver call.counts s.conn with
  | none => simp [hbytes] at hstep
  | some bytes =>
      simp only [hbytes, Option.ite_none_right_eq_some, Option.some.injEq, Prod.mk.injEq] at hstep
      obtain ⟨-, rfl, -⟩ := hstep
      obtain ⟨h', f', hsplit, hr'⟩ := @Remaining.call J F call.counts s.conn h f call.last bytes 0
        hr (by omega) hbytes
      refine ⟨h', f', ?_, hr'⟩
      show s.sent ++ bytes ++ (h' ++ f') = _
      rw [← hsent, hsplit, List.append_assoc]

/-- With `2³²` bytes or more some run stops with bytes unsent and none reported:
one `writev` that leaves a multiple of `2³²`. -/
theorem Scheduled.loses_count (hsch : Scheduled c H F) (hsize : 2 ^ 32 ≤ H.length + F.length) :
    ∃ calls s os, (transmission c).run calls = some (s, os) ∧ ¬ Exact H F s := by
  have hr := hsch.remaining
  have hle : (H.length + F.length) % 2 ^ 32 ≤ H.length + F.length := Nat.mod_le _ _
  have hlt : (H.length + F.length) % 2 ^ 32 < 2 ^ 32 := Nat.mod_lt _ (by decide)
  have hnot : ∀ {s : Transmission J} {h f : Bytes}, s.sent ++ (h ++ f) = H ++ F →
      Remaining s.conn F h f → h.length + f.length ≠ 0 → 2 ^ 32 ∣ h.length + f.length →
      ¬ Exact H F s := by
    intro s h f hsent hrem hne hdvd hexact
    have hall := hexact.pending.mp (pendingWriteBytes_of_dvd (by rw [hrem.lens]; exact hdvd))
    have hlen := congrArg List.length hsent
    rw [hall] at hlen
    simp only [List.length_append] at hlen
    omega
  have hdvd : 2 ^ 32 ∣ (H.length + F.length) - (H.length + F.length) % 2 ^ 32 :=
    Nat.dvd_sub_mod _
  by_cases hzero : (H.length + F.length) % 2 ^ 32 = 0
  · -- nothing has been written yet
    rw [hzero, Nat.sub_zero] at hdvd
    exact ⟨[], _, [], rfl, hnot (List.nil_append _) hr (by omega) hdvd⟩
  · obtain ⟨h, f, hsplit, hr'⟩ := hr.advance
      (show (H.length + F.length) % 2 ^ 32 ≤ (H ++ F).length by rw [List.length_append]; exact hle)
    have hlens : h.length + f.length = H.length + F.length - (H.length + F.length) % 2 ^ 32 := by
      have := congrArg List.length hsplit
      simp only [List.length_append, List.length_take] at this
      omega
    have hne : (c.iov₀.len + c.iov₁.len) % 2 ^ 64 ≠ 0 := by
      rw [hr.lens]
      intro h64
      have : (2 : ℕ) ^ 32 ∣ H.length + F.length :=
        dvd_trans (by decide) (Nat.dvd_of_mod_eq_zero h64)
      exact hzero (Nat.mod_eq_zero_of_dvd this)
    have hbytes : handedOver [(H.length + F.length) % 2 ^ 32] c =
        some ((H ++ F).take ((H.length + F.length) % 2 ^ 32)) := by
      rw [handedOver, hr.offered_eq]
      simp only
      rw [if_pos ⟨by omega, by rw [List.length_append]; exact hle⟩, if_neg hne]
      simp [handedOver]
    have hwrite : writeToFd { ret := -1, error := some .eagain }
        [(H.length + F.length) % 2 ^ 32] c =
        ({ ret := -1, error := some .eagain },
          c.advance ((H.length + F.length) % 2 ^ 32)) := by
      rw [writeToFd, writeLoop, if_neg hne]
      rfl
    refine ⟨[{ counts := [(H.length + F.length) % 2 ^ 32],
               last := { ret := -1, error := some .eagain } }],
      { conn := c.advance ((H.length + F.length) % 2 ^ 32),
        sent := (H ++ F).take ((H.length + F.length) % 2 ^ 32) },
      [{ ret := -1, error := some .eagain }], ?_,
      hnot (h := h) (f := f) hsplit.symm hr' (by omega) (by rw [hlens]; exact hdvd)⟩
    refine Machine.exec_cons_eq_some.mpr ⟨_, _, [], ?_, rfl, rfl⟩
    show writeStep { conn := c, sent := [] } _ = _
    simp only [writeStep, hbytes, hwrite, List.nil_append]
    exact if_pos (Or.inl rfl)

/-- **Sending is exact below 2³² bytes.** For a header block and a file, or none:
in every run of `WriteToFd` calls, whatever `writev` accepts and whenever it
blocks, exactly the bytes of the response go out in order,
`PendingWriteBytes` is zero exactly when all have, and `write_buff_` is empty
then - if and only if the response has fewer than 2³² bytes. -/
theorem transmission_exact_iff (hsch : Scheduled c H F) :
    (∀ calls s os, (transmission c).run calls = some (s, os) → Exact H F s) ↔
      H.length + F.length < 2 ^ 32 := by
  constructor
  · intro hall
    by_contra hsize
    obtain ⟨calls, s, os, hrun, hnot⟩ := hsch.loses_count (by omega)
    exact hnot (hall calls s os hrun)
  · intro hsize calls s os hrun
    have hinit : Sending H F (transmission c).init := ⟨H, F, rfl, hsch.remaining⟩
    have hs : Sending H F s :=
      Machine.run_invariant hinit (fun s call s' ret hs hstep => hs.step hsize hstep) hrun
    exact hs.exact hsize

/-- A connection in proxy mode that has taken `H` over from the backend. -/
def relaying (H : Bytes) : HttpConn (Option HeaderMap) :=
  { fd := 5, proxyFd := 6, address := ⟨10, 0, 0, 7⟩, proxyProcessState := .pendingReadFromClient,
    isClose := false, iovCnt := 1, iov₀ := ⟨.writeBuff 1, H.length⟩, iov₁ := ⟨.wild, 0⟩,
    readBuff := { bufferContainer := [NUL, NUL], readIdx := 1, writeIdx := 1 },
    writeBuff := { bufferContainer := NUL :: (H ++ [NUL]), readIdx := 1, writeIdx := 1 + H.length },
    request := { state := .finish, method := ascii "GET", path := ascii "/", version := ascii "1.1",
                 body := [], header := ∅, post := none },
    response := .new ⟨false, false, 0⟩, indexFile := some [] }

theorem relaying_scheduled (H : Bytes) : Scheduled (relaying H) H [] :=
  ⟨⟨NUL, 1, [], rfl, rfl, rfl⟩, rfl, Or.inl ⟨rfl, rfl, rfl⟩⟩

/-- 4 GiB in `write_buff_`: before a byte is sent none is reported. -/
theorem transmission_loses_count :
    Scheduled (relaying (List.replicate (2 ^ 32) SP)) (List.replicate (2 ^ 32) SP) [] ∧
      ∃ calls s os, (transmission (relaying (List.replicate (2 ^ 32) SP))).run calls =
        some (s, os) ∧ ¬ Exact (List.replicate (2 ^ 32) SP) [] s :=
  ⟨relaying_scheduled _, (relaying_scheduled _).loses_count (by
    rw [List.length_replicate]
    exact Nat.le_add_right _ _)⟩

/-- A connection that answers with the header block `H` and the file `F`. -/
def answering (H F : Bytes) : HttpConn (Option HeaderMap) :=
  { relaying H with
    iovCnt := 2, iov₁ := ⟨.file 0, F.length⟩
    response := { HttpResponse.new ⟨true, true, F.length⟩ with fileAddress := some F } }

theorem answering_scheduled (H F : Bytes) : Scheduled (answering H F) H F :=
  ⟨⟨NUL, 1, [], rfl, rfl, rfl⟩, rfl, Or.inr ⟨rfl, rfl, rfl⟩⟩

/-- Three bytes of header and three of a file: a write that ends inside the header, a call
that blocks at once, a write that spans both and one of the rest. -/
theorem transmission_exact_six :
    ∃ s os, (transmission (answering (ascii "abc") (ascii "def"))).run
        [⟨[1], ⟨-1, some .eagain⟩⟩, ⟨[], ⟨-1, some .eagain⟩⟩, ⟨[3, 2], ⟨0, some .eagain⟩⟩] =
          some (s, os) ∧ s.sent = ascii "abcdef" ∧ Exact (ascii "abc") (ascii "def") s := by
  have hrun : ((transmission (answering (ascii "abc") (ascii "def"))).run
      [⟨[1], ⟨-1, some .eagain⟩⟩, ⟨[], ⟨-1, some .eagain⟩⟩, ⟨[3, 2], ⟨0, some .eagain⟩⟩]).map
        (fun r => r.1.sent) = some (ascii "abcdef") := by
    decide +kernel
  obtain ⟨⟨s, os⟩, hs, hsent⟩ := Option.map_eq_some_iff.mp hrun
  refine ⟨s, os, hs, hsent, ?_⟩
  exact (transmission_exact_iff (answering_scheduled (ascii "abc") (ascii "def"))).mpr
    (by decide +kernel) _ s os hs

end result

end WhiteWebServer
