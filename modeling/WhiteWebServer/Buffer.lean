import WhiteWebServer.CString
import WhiteWebServer.Lib.Storage

/-!
# `Buffer`: the byte buffer

§1 the class as `buffer.h` and `buffer.cpp` compute it; §2 what a buffer
holds (`Holds`): the byte before the read position, the unread bytes and the
number of spare bytes, all of which are zero; §3 one lemma for each operation
saying what it holds afterwards. Later modules use §3 only.

Indices are `Nat`: every index is bounded by the size of a vector, so no
`std::size_t` arithmetic wraps.
-/

namespace WhiteWebServer

open Storage

structure Buffer where
  bufferContainer : Bytes
  readIdx : Nat
  writeIdx : Nat
deriving DecidableEq, Repr

namespace Buffer

/-! ## §1  The class -/

/-- The constructor: a zeroed vector, both indices at 1. It throws on a size
of at most 1. -/
def new (buffSize : Nat) : Except Fault Buffer :=
  if buffSize ≤ 1 then .error .uncaught
  else .ok { bufferContainer := List.replicate buffSize NUL, readIdx := 1, writeIdx := 1 }

def readableBytes (b : Buffer) : Nat := b.writeIdx - b.readIdx

def writableBytes (b : Buffer) : Nat := b.bufferContainer.length - b.writeIdx

def prependableBytes (b : Buffer) : Nat := b.readIdx

/-- The bytes `[ReadBegin(), WriteBegin())`. -/
def readable (b : Buffer) : Bytes := window b.bufferContainer b.readIdx b.writeIdx

/-- `*(ReadBegin() - 1)`, which `ParseLine` inspects. -/
def guardByte (b : Buffer) : Option Byte := b.bufferContainer[b.readIdx - 1]?

def retrieve (b : Buffer) (len : Nat) : Buffer :=
  if len > b.readableBytes then b else { b with readIdx := b.readIdx + len }

def clear (b : Buffer) : Buffer :=
  { bufferContainer := List.replicate b.bufferContainer.length NUL, readIdx := 1, writeIdx := 1 }

def retrieveAllToString (b : Buffer) : Bytes × Buffer := (b.readable, b.clear)

def hasWritten (b : Buffer) (len : Nat) : Buffer := { b with writeIdx := b.writeIdx + len }

/-- Grow the vector, or move the unread bytes and the byte before them to its
front and zero what is behind them. -/
def makeSpace (b : Buffer) (len : Nat) : Buffer :=
  if b.writableBytes + b.prependableBytes < len + 1 then
    { b with bufferContainer := b.bufferContainer ++
        List.replicate (b.writeIdx + len + 1 - b.bufferContainer.length) NUL }
  else
    let moved := overwrite b.bufferContainer 0
      (window b.bufferContainer (b.readIdx - 1) b.writeIdx)
    let writeIdx := 1 + b.readableBytes
    { bufferContainer := overwrite moved writeIdx (List.replicate (moved.length - writeIdx) NUL)
      readIdx := 1
      writeIdx := writeIdx }

def ensureWriteable (b : Buffer) (len : Nat) : Buffer :=
  if b.writableBytes < len then b.makeSpace len else b

/-- Bytes copied to `WriteBegin()`, the indices as they were. -/
def copyIn (b : Buffer) (xs : Bytes) : Buffer :=
  { b with bufferContainer := overwrite b.bufferContainer b.writeIdx xs }

def append (b : Buffer) (str : Bytes) : Buffer :=
  ((b.ensureWriteable str.length).copyIn str).hasWritten str.length

/-- `ReadFromFd` on a `readv` that fills the writable bytes first and then the
64 KiB array on the stack. -/
def readFromFd (b : Buffer) : Except Errno Bytes → Buffer
  | .error _ => b
  | .ok data =>
      let writableSz := b.writableBytes
      let b := b.copyIn (data.take writableSz)
      if data.length < writableSz then b.hasWritten data.length
      else { b with writeIdx := b.bufferContainer.length }.append (data.drop writableSz)

/-- `WriteToFd` on a `write` that accepts `len` bytes or fails. -/
def writeToFd (b : Buffer) : Except Errno Nat → Buffer
  | .error _ => b
  | .ok len => { b with readIdx := b.readIdx + len }

/-- Size of `overflow_buff`. -/
def overflowSize : Nat := 65536

/-! ## §2  What a buffer holds -/

/-- `b` holds the unread bytes `u`, the byte `g` before them and `n` spare
bytes behind them, which are zero. -/
def Holds (b : Buffer) (g : Byte) (u : Bytes) (n : Nat) : Prop :=
  ∃ pre : Bytes, b.bufferContainer = (pre ++ [g]) ++ (u ++ List.replicate n NUL) ∧
    b.readIdx = pre.length + 1 ∧ b.writeIdx = pre.length + 1 + u.length

/-- `1 <= read_idx_ <= write_idx_ <= buffer_container_.size()`. -/
structure Wf (b : Buffer) : Prop where
  one_le_readIdx : 1 ≤ b.readIdx
  readIdx_le : b.readIdx ≤ b.writeIdx
  writeIdx_le : b.writeIdx ≤ b.bufferContainer.length

namespace Holds

variable {b : Buffer} {g : Byte} {u : Bytes} {n : Nat}

theorem readableBytes (h : b.Holds g u n) : b.readableBytes = u.length := by
  obtain ⟨pre, -, hr, hw⟩ := h
  rw [Buffer.readableBytes, hr, hw]
  omega

theorem writableBytes (h : b.Holds g u n) : b.writableBytes = n := by
  obtain ⟨pre, hc, -, hw⟩ := h
  rw [Buffer.writableBytes, hc, hw]
  simp
  omega

theorem readable (h : b.Holds g u n) : b.readable = u := by
  obtain ⟨pre, hc, hr, hw⟩ := h
  rw [Buffer.readable, hc]
  exact window_append (by simp [hr]) (by simp [hw])

theorem guardByte (h : b.Holds g u n) : b.guardByte = some g := by
  obtain ⟨pre, hc, hr, -⟩ := h
  rw [Buffer.guardByte, hc, hr]
  simp

theorem wf (h : b.Holds g u n) : b.Wf := by
  obtain ⟨pre, hc, hr, hw⟩ := h
  refine ⟨by omega, by omega, ?_⟩
  rw [hc, hw]
  simp
  omega

/-- The storage from the read position on: the unread bytes and the spare
zeros. -/
theorem drop_readIdx (h : b.Holds g u n) :
    b.bufferContainer.drop b.readIdx = u ++ List.replicate n NUL := by
  obtain ⟨pre, hc, hr, -⟩ := h
  rw [hc, hr, List.drop_append_of_le_length (by simp)]
  simp

end Holds

/-! ## §3  The operations -/

section operations

variable {b : Buffer} {g : Byte} {u : Bytes} {n : Nat}

theorem new_holds {size : Nat} (h : 2 ≤ size) :
    ∃ b, new size = .ok b ∧ b.Holds NUL [] (size - 1) := by
  refine ⟨_, by rw [new, if_neg (by omega)], [], ?_, rfl, rfl⟩
  obtain ⟨k, rfl⟩ : ∃ k, size = k + 1 := ⟨size - 1, by omega⟩
  simp [List.replicate_succ]

theorem holds_of_new {size : Nat} (h : new size = .ok b) : b.Holds NUL [] (size - 1) := by
  by_cases hsize : 2 ≤ size
  · obtain ⟨b', hnew, hb'⟩ := new_holds hsize
    obtain rfl : b' = b := by simpa [hnew] using h
    exact hb'
  · rw [new, if_pos (by omega)] at h
    simp at h

theorem Holds.clear (h : b.Holds g u n) :
    b.clear.Holds NUL [] (b.bufferContainer.length - 1) := by
  have hlen : 1 ≤ b.bufferContainer.length := by
    have := h.wf
    exact le_trans this.one_le_readIdx (le_trans this.readIdx_le this.writeIdx_le)
  refine ⟨[], ?_, rfl, rfl⟩
  obtain ⟨k, hk⟩ : ∃ k, b.bufferContainer.length = k + 1 := ⟨_, (Nat.sub_add_cancel hlen).symm⟩
  simp [Buffer.clear, hk, List.replicate_succ]

/-- Taking the unread bytes `p` out makes the last of them the byte before the
read position. -/
theorem Holds.advance {p r : Bytes} (h : b.Holds g (p ++ r) n) :
    { b with readIdx := b.readIdx + p.length }.Holds (p.getLastD g) r n := by
  obtain ⟨pre, hc, hr, hw⟩ := h
  obtain ⟨pre', hpre, hlen⟩ : ∃ pre', pre ++ [g] ++ p = pre' ++ [p.getLastD g] ∧
      pre'.length = pre.length + p.length := by
    rcases List.eq_nil_or_concat p with rfl | ⟨q, c, rfl⟩
    · exact ⟨pre, by simp, by simp⟩
    · exact ⟨pre ++ [g] ++ q, by simp, by simp⟩
  refine ⟨pre', ?_, ?_, ?_⟩
  · rw [← hpre, hc]
    simp
  · simp only [hr, hlen]
    omega
  · simp only [hw, hlen, List.length_append]
    omega

theorem retrieve_of_gt (h : b.Holds g u n) {len : Nat} (hlen : u.length < len) :
    b.retrieve len = b := by
  rw [retrieve, if_pos (by rw [h.readableBytes]; exact hlen)]

theorem Holds.retrieve {p r : Bytes} (h : b.Holds g (p ++ r) n) :
    (b.retrieve p.length).Holds (p.getLastD g) r n := by
  rw [Buffer.retrieve, if_neg (by rw [h.readableBytes]; simp)]
  exact h.advance

/-- Filling `xs.length` of the spare bytes. -/
theorem Holds.fill (h : b.Holds g u n) {xs : Bytes} (hxs : xs.length ≤ n) :
    ((b.copyIn xs).hasWritten xs.length).Holds g (u ++ xs) (n - xs.length) := by
  obtain ⟨pre, hc, hr, hw⟩ := h
  refine ⟨pre, ?_, hr, by simp [hasWritten, copyIn, hw]; omega⟩
  show overwrite b.bufferContainer b.writeIdx xs = _
  rw [hc, show pre ++ [g] ++ (u ++ List.replicate n NUL) =
    (pre ++ [g] ++ u) ++ List.replicate n NUL from by simp,
    overwrite_append (by simp [hw]; omega) (by simpa using hxs), List.drop_replicate]
  simp

/-- `MakeSpace` changes neither the unread bytes nor the byte before them, and
leaves room for `len` bytes. -/
theorem Holds.makeSpace (h : b.Holds g u n) {len : Nat} (hlen : n < len) :
    ∃ n', (b.makeSpace len).Holds g u n' ∧ len ≤ n' := by
  have hwr := h.writableBytes
  have hrd := h.readableBytes
  obtain ⟨pre, hc, hr, hw⟩ := h
  rw [Buffer.makeSpace]
  split
  · -- regrow: `n` zeros become `len + 1`
    refine ⟨len + 1, ⟨pre, ?_, hr, hw⟩, by omega⟩
    have hcl : b.bufferContainer.length = b.writeIdx + n := by
      rw [hc, hw]
      simp
      omega
    show b.bufferContainer ++ List.replicate (b.writeIdx + len + 1 - b.bufferContainer.length) NUL = _
    rw [hcl, hc, show b.writeIdx + len + 1 - (b.writeIdx + n) = len + 1 - n from by omega]
    simp only [List.append_assoc, List.replicate_append_replicate]
    rw [show n + (len + 1 - n) = len + 1 from by omega]
  · -- compact: the byte before the read position moves along
    rename_i hfit
    rw [prependableBytes, hwr, hr] at hfit
    refine ⟨pre.length + n, ?_, by omega⟩
    have hwin : window b.bufferContainer (b.readIdx - 1) b.writeIdx = g :: u := by
      rw [hc, show pre ++ [g] ++ (u ++ List.replicate n NUL) =
        pre ++ ((g :: u) ++ List.replicate n NUL) from by simp]
      exact window_append (by omega) (by simp only [hw, List.length_cons]; omega)
    have hcl : b.bufferContainer.length = u.length + 1 + (pre.length + n) := by
      rw [hc]
      simp
      omega
    have hmoved : overwrite b.bufferContainer 0 (g :: u) =
        (g :: u) ++ b.bufferContainer.drop (u.length + 1) := by
      have htake : (g :: u).take b.bufferContainer.length = g :: u :=
        List.take_of_length_le (by rw [hcl, List.length_cons]; omega)
      simp only [overwrite, List.take_zero, Nat.sub_zero, Nat.zero_add, List.nil_append,
        List.length_cons, htake]
    have hdrop : (b.bufferContainer.drop (u.length + 1)).length = pre.length + n := by
      rw [List.length_drop, hcl]
      omega
    refine ⟨[], ?_, rfl, by simp [hrd]⟩
    simp only [hwin, hmoved, hrd]
    rw [List.length_append, hdrop,
      show (g :: u).length + (pre.length + n) - (1 + u.length) = pre.length + n from by
        simp; omega,
      overwrite_append (by simp; omega) (by simp [hdrop]), List.length_replicate,
      List.drop_of_length_le (by omega)]
    simp

theorem Holds.ensureWriteable (h : b.Holds g u n) (len : Nat) :
    ∃ n', (b.ensureWriteable len).Holds g u n' ∧ len ≤ n' := by
  rw [Buffer.ensureWriteable, h.writableBytes]
  split
  · rename_i hlt
    exact h.makeSpace hlt
  · rename_i hge
    exact ⟨n, h, by omega⟩

theorem Holds.append (h : b.Holds g u n) (xs : Bytes) :
    ∃ n', (b.append xs).Holds g (u ++ xs) n' := by
  obtain ⟨n', h', hle⟩ := h.ensureWriteable xs.length
  exact ⟨n' - xs.length, h'.fill hle⟩

/-- The two parts of a scatter read land one behind the other. -/
theorem Holds.readFromFd (h : b.Holds g u n) (data : Bytes) :
    ∃ n', (b.readFromFd (.ok data)).Holds g (u ++ data) n' := by
  have hwr := h.writableBytes
  simp only [Buffer.readFromFd, hwr]
  split
  · rename_i hlt
    rw [List.take_of_length_le (by omega)]
    exact ⟨_, h.fill (by omega)⟩
  · rename_i hge
    have hlen : (data.take n).length = n := by simp; omega
    have hfull := @Holds.fill b g u n h (data.take n) (by omega)
    have heq : { b.copyIn (data.take n) with
        writeIdx := (b.copyIn (data.take n)).bufferContainer.length } =
        (b.copyIn (data.take n)).hasWritten (data.take n).length := by
      have hle := h.wf.writeIdx_le
      rw [Buffer.writableBytes] at hwr
      have hcl : (overwrite b.bufferContainer b.writeIdx (data.take n)).length =
          b.bufferContainer.length := length_overwrite (by omega)
      simp only [hasWritten, copyIn, hcl, hlen]
      congr 1
      omega
    rw [heq]
    obtain ⟨n', h'⟩ := hfull.append (data.drop n)
    refine ⟨n', ?_⟩
    simpa [List.append_assoc] using h'

/-- A read that fits leaves the spare bytes it did not fill. -/
theorem Holds.readFromFd_fits (h : b.Holds g u n) {data : Bytes} (hdata : data.length ≤ n) :
    (b.readFromFd (.ok data)).Holds g (u ++ data) (n - data.length) := by
  have hwr := h.writableBytes
  have hfill := h.fill hdata
  simp only [Buffer.readFromFd, hwr, List.take_of_length_le hdata, List.drop_of_length_le hdata]
  split
  · exact hfill
  · rename_i hge
    have hn : data.length = n := by omega
    obtain ⟨pre, hc, hr, hw⟩ := hfill
    have hfull : { b.copyIn data with writeIdx := (b.copyIn data).bufferContainer.length } =
        (b.copyIn data).hasWritten data.length := by
      rw [Buffer.mk.injEq]
      refine ⟨rfl, rfl, ?_⟩
      rw [show (b.copyIn data).bufferContainer = ((b.copyIn data).hasWritten
        data.length).bufferContainer from rfl, hc, hw, hn]
      simp
      omega
    rw [hfull]
    have hempty := (show ((b.copyIn data).hasWritten data.length).Holds g (u ++ data)
      (n - data.length) from ⟨pre, hc, hr, hw⟩)
    rw [Buffer.append, Buffer.ensureWriteable, if_neg (by simp)]
    have h₀ := hempty.fill (show ([] : Bytes).length ≤ _ from Nat.zero_le _)
    rwa [List.append_nil, List.length_nil, Nat.sub_zero] at h₀

end operations

end Buffer

end WhiteWebServer
