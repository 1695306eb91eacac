import WhiteWebServer.Buffer
import WhiteWebServer.Lib.Machine
import Mathlib.Logic.Function.Basic

/-!
# A buffer is a FIFO queue of bytes

The calls on a family of buffers as a machine, next to the naive program: one
list of bytes per buffer, appended at the back, taken from the front. The
simulation relation is `Holds`, so a run of the buffers is a run of the
queues whatever mixture of fitting, compacting and regrowing it makes.
-/

namespace WhiteWebServer

variable {ι : Type} [DecidableEq ι]

/-- A call on the buffers `ι`, with what the system call inside it answered. -/
inductive BufferOp (ι : Type) where
  | append (i : ι) (str : Bytes)
  | appendBuffer (i j : ι)
  | readFromFd (i : ι) (r : Except Errno Bytes)
  | retrieve (i : ι) (len : Nat)
  | retrieveAllToString (i : ι)
  | clear (i : ι)
  | swap (i j : ι)
  | writeToFd (i : ι) (r : Except Errno Nat)

/-- One call on concrete buffers and the bytes it hands out. A `readv` fills at
most the two vectors, a `write` accepts at most what it is given. `Append` of a
buffer to itself is no call: it takes its pointer before `MakeSpace` moves or
frees the bytes behind it. -/
def bufferStep (bs : ι → Buffer) : BufferOp ι → Option ((ι → Buffer) × Bytes)
  | .append i str => some (Function.update bs i ((bs i).append str), [])
  | .appendBuffer i j =>
      if i ≠ j then some (Function.update bs i ((bs i).append (bs j).readable), []) else none
  | .readFromFd i (.error e) => some (Function.update bs i ((bs i).readFromFd (.error e)), [])
  | .readFromFd i (.ok data) =>
      if data.length ≤ (bs i).writableBytes + Buffer.overflowSize then
        some (Function.update bs i ((bs i).readFromFd (.ok data)), [])
      else none
  | .retrieve i len => some (Function.update bs i ((bs i).retrieve len), [])
  | .retrieveAllToString i =>
      some (Function.update bs i (bs i).retrieveAllToString.2, (bs i).retrieveAllToString.1)
  | .clear i => some (Function.update bs i (bs i).clear, [])
  | .swap i j => some (Function.update (Function.update bs i (bs j)) j (bs i), [])
  | .writeToFd i (.error e) => some (Function.update bs i ((bs i).writeToFd (.error e)), [])
  | .writeToFd i (.ok len) =>
      if len ≤ (bs i).readableBytes then
        some (Function.update bs i ((bs i).writeToFd (.ok len)), (bs i).readable.take len)
      else none

def bufferMachine (bs : ι → Buffer) : Machine (ι → Buffer) (BufferOp ι) Bytes where
  init := bs
  step := bufferStep

/-! ## The naive program: one queue of bytes per buffer -/

def queueStep (qs : ι → Bytes) : BufferOp ι → Option ((ι → Bytes) × Bytes)
  | .append i str => some (Function.update qs i (qs i ++ str), [])
  | .appendBuffer i j => some (Function.update qs i (qs i ++ qs j), [])
  | .readFromFd _ (.error _) => some (qs, [])
  | .readFromFd i (.ok data) => some (Function.update qs i (qs i ++ data), [])
  | .retrieve i len =>
      some (if len ≤ (qs i).length then Function.update qs i ((qs i).drop len) else qs, [])
  | .retrieveAllToString i => some (Function.update qs i [], qs i)
  | .clear i => some (Function.update qs i [], [])
  | .swap i j => some (Function.update (Function.update qs i (qs j)) j (qs i), [])
  | .writeToFd _ (.error _) => some (qs, [])
  | .writeToFd i (.ok len) => some (Function.update qs i ((qs i).drop len), (qs i).take len)

def queueMachine : Machine (ι → Bytes) (BufferOp ι) Bytes where
  init := fun _ => []
  step := queueStep

/-! ## The simulation -/

/-- Each buffer holds its queue. -/
def Stores (bs : ι → Buffer) (qs : ι → Bytes) : Prop :=
  ∀ i, ∃ g n, (bs i).Holds g (qs i) n

omit [DecidableEq ι] in
theorem Stores.readable {bs : ι → Buffer} {qs : ι → Bytes} (h : Stores bs qs) (i : ι) :
    (bs i).readable = qs i := by
  obtain ⟨g, n, hi⟩ := h i
  exact hi.readable

theorem Stores.update {bs : ι → Buffer} {qs : ι → Bytes} (h : Stores bs qs) {i : ι}
    {b : Buffer} {q : Bytes} (hb : ∃ g n, b.Holds g q n) :
    Stores (Function.update bs i b) (Function.update qs i q) := by
  intro j
  by_cases hj : j = i
  · subst hj
    simpa using hb
  · simpa [Function.update_of_ne hj] using h j

/-- Storing what is there already. -/
theorem Stores.update_left {bs : ι → Buffer} {qs : ι → Bytes} (h : Stores bs qs) {i : ι}
    {b : Buffer} (hb : ∃ g n, b.Holds g (qs i) n) : Stores (Function.update bs i b) qs := by
  simpa using h.update (i := i) hb

theorem bufferStep_simulates (bs : ι → Buffer) (qs : ι → Bytes) (op : BufferOp ι)
    (bs' : ι → Buffer) (o : Bytes) (hR : Stores bs qs)
    (hstep : bufferStep bs op = some (bs', o)) :
    ∃ qs', queueStep qs op = some (qs', o) ∧ Stores bs' qs' := by
  cases op with
  | append i str =>
      simp only [bufferStep, Option.some.injEq, Prod.mk.injEq] at hstep
      obtain ⟨rfl, rfl⟩ := hstep
      obtain ⟨g, n, hi⟩ := hR i
      exact ⟨_, rfl, hR.update ⟨g, hi.append str⟩⟩
  | appendBuffer i j =>
      simp only [bufferStep, Option.ite_none_right_eq_some, Option.some.injEq,
        Prod.mk.injEq] at hstep
      obtain ⟨-, rfl, rfl⟩ := hstep
      obtain ⟨g, n, hi⟩ := hR i
      rw [hR.readable j]
      exact ⟨_, rfl, hR.update ⟨g, hi.append (qs j)⟩⟩
  | readFromFd i r =>
      obtain ⟨g, n, hi⟩ := hR i
      cases r with
      | error e =>
          simp only [bufferStep, Option.some.injEq, Prod.mk.injEq] at hstep
          obtain ⟨rfl, rfl⟩ := hstep
          exact ⟨qs, rfl, hR.update_left ⟨g, n, hi⟩⟩
      | ok data =>
          simp only [bufferStep, Option.ite_none_right_eq_some, Option.some.injEq,
            Prod.mk.injEq] at hstep
          obtain ⟨-, rfl, rfl⟩ := hstep
          exact ⟨_, rfl, hR.update ⟨g, hi.readFromFd data⟩⟩
  | retrieve i len =>
      simp only [bufferStep, Option.some.injEq, Prod.mk.injEq] at hstep
      obtain ⟨rfl, rfl⟩ := hstep
      obtain ⟨g, n, hi⟩ := hR i
      by_cases hlen : len ≤ (qs i).length
      · refine ⟨_, by rw [queueStep, if_pos hlen], hR.update ?_⟩
        rw [← List.take_append_drop len (qs i)] at hi
        have := hi.retrieve
        rw [List.length_take_of_le hlen] at this
        exact ⟨_, _, this⟩
      · refine ⟨qs, by rw [queueStep, if_neg hlen], ?_⟩
        rw [Buffer.retrieve_of_gt hi (by omega)]
        exact hR.update_left ⟨g, n, hi⟩
  | retrieveAllToString i =>
      simp only [bufferStep, Option.some.injEq, Prod.mk.injEq] at hstep
      obtain ⟨rfl, rfl⟩ := hstep
      obtain ⟨g, n, hi⟩ := hR i
      refine ⟨_, ?_, hR.update ⟨_, _, hi.clear⟩⟩
      rw [queueStep, Buffer.retrieveAllToString, hR.readable i]
  | clear i =>
      simp only [bufferStep, Option.some.injEq, Prod.mk.injEq] at hstep
      obtain ⟨rfl, rfl⟩ := hstep
      obtain ⟨g, n, hi⟩ := hR i
      exact ⟨_, rfl, hR.update ⟨_, _, hi.clear⟩⟩
  | swap i j =>
      simp only [bufferStep, Option.some.injEq, Prod.mk.injEq] at hstep
      obtain ⟨rfl, rfl⟩ := hstep
      exact ⟨_, rfl, (hR.update (hR j)).update (hR i)⟩
  | writeToFd i r =>
      obtain ⟨g, n, hi⟩ := hR i
      cases r with
      | error e =>
          simp only [bufferStep, Option.some.injEq, Prod.mk.injEq] at hstep
          obtain ⟨rfl, rfl⟩ := hstep
          exact ⟨qs, rfl, hR.update_left ⟨g, n, hi⟩⟩
      | ok len =>
          simp only [bufferStep, Option.ite_none_right_eq_some, Option.some.injEq,
            Prod.mk.injEq] at hstep
          obtain ⟨hlen, rfl, rfl⟩ := hstep
          rw [hi.readableBytes] at hlen
          refine ⟨_, by rw [queueStep, hR.readable i], hR.update ?_⟩
          rw [← List.take_append_drop len (qs i)] at hi
          have := hi.advance
          rw [List.length_take_of_le hlen] at this
          exact ⟨_, _, this⟩

/-- The calls that put bytes in. -/
def BufferOp.putsInto (i : ι) : BufferOp ι → Prop
  | .append j _ => j = i
  | .appendBuffer j _ => j = i
  | .readFromFd j _ => j = i
  | _ => False

/-- Putting bytes in leaves the byte before the read position alone. -/
theorem guardByte_of_putsInto {bs bs' : ι → Buffer} {qs : ι → Bytes} {op : BufferOp ι}
    {o : Bytes} {i : ι} (hR : Stores bs qs) (hop : op.putsInto i)
    (hstep : bufferStep bs op = some (bs', o)) :
    (bs' i).guardByte = (bs i).guardByte := by
  obtain ⟨g, n, hi⟩ := hR i
  cases op with
  | append j str =>
      obtain rfl : j = i := hop
      simp only [bufferStep, Option.some.injEq, Prod.mk.injEq] at hstep
      obtain ⟨rfl, rfl⟩ := hstep
      obtain ⟨n', h'⟩ := hi.append str
      simp [hi.guardByte, h'.guardByte]
  | appendBuffer j k =>
      obtain rfl : j = i := hop
      simp only [bufferStep, Option.ite_none_right_eq_some, Option.some.injEq,
        Prod.mk.injEq] at hstep
      obtain ⟨-, rfl, rfl⟩ := hstep
      obtain ⟨n', h'⟩ := hi.append (bs k).readable
      simp [hi.guardByte, h'.guardByte]
  | readFromFd j r =>
      obtain rfl : j = i := hop
      cases r with
      | error e =>
          simp only [bufferStep, Option.some.injEq, Prod.mk.injEq] at hstep
          obtain ⟨rfl, rfl⟩ := hstep
          simp [Buffer.readFromFd]
      | ok data =>
          simp only [bufferStep, Option.ite_none_right_eq_some, Option.some.injEq,
            Prod.mk.injEq] at hstep
          obtain ⟨-, rfl, rfl⟩ := hstep
          obtain ⟨n', h'⟩ := hi.readFromFd data
          simp [hi.guardByte, h'.guardByte]
  | retrieve j len => exact hop.elim
  | retrieveAllToString j => exact hop.elim
  | clear j => exact hop.elim
  | swap j k => exact hop.elim
  | writeToFd j r => exact hop.elim

/-- **Buffers are FIFO queues.** Buffers of any construction sizes from 2 on,
under any sequence of calls in which no buffer is appended to itself: the
readable bytes are the queue of the naive program and every call hands out what
the naive program does, the indices stay in order inside the storage, and a
call that puts bytes into a buffer leaves the byte before its read position as
it was. -/
theorem buffer_refines_fifo {size : ι → Nat} (hsize : ∀ i, 2 ≤ size i) :
    ∃ bs : ι → Buffer, (∀ i, Buffer.new (size i) = .ok (bs i)) ∧
      ∀ ops bs' outs, (bufferMachine bs).run ops = some (bs', outs) →
        queueMachine.run ops = some (fun i => (bs' i).readable, outs) ∧
        (∀ i, (bs' i).Wf) ∧
        ∀ i op bs'' o, op.putsInto i → bufferStep bs' op = some (bs'', o) →
          (bs'' i).guardByte = (bs' i).guardByte := by
  choose bs hnew hbs using fun i => Buffer.new_holds (hsize i)
  refine ⟨bs, hnew, fun ops bs' outs hrun => ?_⟩
  have hinit : Stores bs (fun _ => []) := fun i => ⟨_, _, hbs i⟩
  obtain ⟨qs, hqs, hR⟩ := Machine.run_simulates (A := queueMachine) hinit
    (fun s a l s' o h => bufferStep_simulates s a l s' o h) hrun
  refine ⟨?_, fun i => ?_, fun i op bs'' o hop hstep => guardByte_of_putsInto hR hop hstep⟩
  · rw [hqs, show (fun i => (bs' i).readable) = qs from funext hR.readable]
  · obtain ⟨g, n, hi⟩ := hR i
    exact hi.wf

/-- Two buffers of size 2: one append regrows, a read spills over, a retrieve
makes the next append compact, a swap moves the bytes to the other buffer and
an append of that buffer brings them back. -/
theorem buffer_refines_fifo_two :
    ∃ bs : Bool → Buffer, (∀ i, Buffer.new 2 = .ok (bs i)) ∧
      ∃ bs' outs, (bufferMachine bs).run [.append true [1, 2, 3], .readFromFd true (.ok [4, 5]),
          .retrieve true 4, .append true [6, 7], .swap true false,
          .writeToFd false (.ok 1), .appendBuffer true false] = some (bs', outs) ∧
        (bs' false).readable = [6, 7] ∧ (bs' true).readable = [6, 7] ∧ (bs' false).Wf := by
  obtain ⟨bs, hnew, h⟩ := @buffer_refines_fifo Bool _ (fun _ => 2) (by decide)
  refine ⟨bs, hnew, ?_⟩
  have hbs : bs = fun _ => ⟨[0, 0], 1, 1⟩ := by
    ext i
    have := hnew i
    rw [show Buffer.new 2 = .ok ⟨[0, 0], 1, 1⟩ from by decide] at this
    exact (Except.ok.inj this).symm
  subst hbs
  obtain ⟨-, hwf, -⟩ := h [.append true [1, 2, 3], .readFromFd true (.ok [4, 5]),
    .retrieve true 4, .append true [6, 7], .swap true false, .writeToFd false (.ok 1),
    .appendBuffer true false] _ _ rfl
  exact ⟨_, _, rfl, by decide, by decide, hwf false⟩

end WhiteWebServer
