import WhiteWebServer.BufferQueue
import Mathlib.Data.List.Nodup

/-!
# The asynchronous logger

`AsyncLoggerCore` passes buffers between the threads that append lines and the
one that writes them. §1 the two; each critical section is one step, as is each
piece of `ThreadFunction` between two of them. `shared_ptr`s are the numbers of
the objects they point to. §2 who holds which buffer; §3 the invariant; §4 what
each step keeps of it; §5 the result.
-/

namespace WhiteWebServer

/-! ## §1  The logger -/

/-- Where `ThreadFunction` stands. -/
inductive LoggerPc
  | start
  | locking
  | waiting
  | taken
  | writing (index : Nat)
  | refill₁
  | refill₂
  | flush

/-- The logger, the locals of `ThreadFunction`, the objects that were made, and the
bytes that `LogFile::Append` has been given. -/
structure AsyncLogger where
  currentBuffer : Option Nat
  nextBuffer : Option Nat
  bufferVector : List Nat
  newBuffer₁ : Option Nat
  newBuffer₂ : Option Nat
  buffersToWrite : List Nat
  pc : LoggerPc
  store : Nat → Buffer
  made : Nat
  written : Bytes

namespace AsyncLogger

/-- The constructor, and the thread not yet running; `blank` is what
`std::make_shared<Buffer>(kBufferSize)` makes. -/
def new (blank : Buffer) : AsyncLogger :=
  { currentBuffer := some 0
    nextBuffer := some 1
    bufferVector := []
    newBuffer₁ := none
    newBuffer₂ := none
    buffersToWrite := []
    pc := .start
    store := fun _ => blank
    made := 2
    written := [] }

def setBuffer (buffer : Nat) (b : Buffer) (s : AsyncLogger) : AsyncLogger :=
  { s with store := Function.update s.store buffer b }

def makeShared (blank : Buffer) (s : AsyncLogger) : AsyncLogger :=
  { s.setBuffer s.made blank with made := s.made + 1 }

/-- `buffer->Append(line, len)` -/
def appendTo (buffer : Nat) (line : Bytes) (s : AsyncLogger) : AsyncLogger :=
  s.setBuffer buffer ((s.store buffer).append line)

/-- `AsyncLoggerCore::Append`; there is no step through a null pointer. -/
def append (blank : Buffer) (line : Bytes) (s : AsyncLogger) : Option AsyncLogger :=
  match s.currentBuffer with
  | none => none
  | some current =>
      if (s.store current).writableBytes > line.length then
        some (s.appendTo current line)
      else
        let s := { s with bufferVector := s.bufferVector ++ [current] }
        match s.nextBuffer with
        | some next =>
            some ({ s with currentBuffer := some next, nextBuffer := none }.appendTo next line)
        | none =>
            some (({ s with currentBuffer := some s.made }.makeShared blank).appendTo s.made line)

/-- The critical section of `ThreadFunction` behind its wait. -/
def takeBuffers (s : AsyncLogger) : Option AsyncLogger :=
  match s.currentBuffer with
  | none => none
  | some current =>
      let bufferVector := s.bufferVector ++ [current]
      let s := { s with currentBuffer := s.newBuffer₁, newBuffer₁ := none,
                        bufferVector := s.buffersToWrite, buffersToWrite := bufferVector,
                        pc := .taken }
      match s.nextBuffer with
      | some _ => some s
      | none => some { s with nextBuffer := s.newBuffer₂, newBuffer₂ := none }

/-- `back()`, `pop_back()` and `Clear()` of the two refills; there is no step on an
empty vector. -/
def recycle (s : AsyncLogger) : Option (Nat × AsyncLogger) :=
  match s.buffersToWrite.getLast? with
  | none => none
  | some back =>
      let s := { s with buffersToWrite := s.buffersToWrite.dropLast }
      some (back, s.setBuffer back (s.store back).clear)

/-- The next piece of `ThreadFunction` while `is_stop_` is false. -/
def threadStep (blank : Buffer) (s : AsyncLogger) : Option AsyncLogger :=
  match s.pc with
  | .start =>
      some { (s.makeShared blank).makeShared blank with
        newBuffer₁ := some s.made, newBuffer₂ := some (s.made + 1), pc := .locking }
  | .locking =>
      -- `wait_for` gives the mutex back
      if s.bufferVector = [] then some { s with pc := .waiting } else s.takeBuffers
  | .waiting => s.takeBuffers
  | .taken =>
      if s.buffersToWrite = [] then some { s with pc := .locking }
      else if s.buffersToWrite.length > 25 then
        some { s with buffersToWrite := s.buffersToWrite.take 2, pc := .writing 0 }
      else some { s with pc := .writing 0 }
  | .writing index =>
      match s.buffersToWrite[index]? with
      | some buffer =>
          some { s with written := s.written ++ (s.store buffer).readable,
                        pc := .writing (index + 1) }
      | none =>
          if s.buffersToWrite.length > 2 then
            some { s with buffersToWrite := s.buffersToWrite.take 2, pc := .refill₁ }
          else some { s with pc := .refill₁ }
  | .refill₁ =>
      match s.newBuffer₁ with
      | some _ => some { s with pc := .refill₂ }
      | none => s.recycle.map fun r => { r.2 with newBuffer₁ := some r.1, pc := .refill₂ }
  | .refill₂ =>
      match s.newBuffer₂ with
      | some _ => some { s with pc := .flush }
      | none => s.recycle.map fun r => { r.2 with newBuffer₂ := some r.1, pc := .flush }
  | .flush => some { s with buffersToWrite := [], pc := .locking }

/-- A call of `Append` by some thread, or the next step of `ThreadFunction`. -/
inductive LoggerStep
  | append (line : Bytes)
  | thread

def LoggerStep.line : LoggerStep → Bytes
  | .append line => line
  | .thread => []

def logger (blank : Buffer) : Machine AsyncLogger LoggerStep Unit where
  init := new blank
  step s
    | .append line => (s.append blank line).map (·, ())
    | .thread => (s.threadStep blank).map (·, ())

@[simp] theorem setBuffer_self (s : AsyncLogger) (buffer : Nat) (b : Buffer) :
    (s.setBuffer buffer b).store buffer = b := Function.update_self ..

theorem setBuffer_other (s : AsyncLogger) {buffer i : Nat} (b : Buffer) (hi : i ≠ buffer) :
    (s.setBuffer buffer b).store i = s.store i := Function.update_of_ne hi ..

/-! ## §2  Who holds what -/

/-- All pointers to buffers. -/
def held (s : AsyncLogger) : List Nat :=
  s.currentBuffer.toList ++ s.nextBuffer.toList ++ s.newBuffer₁.toList ++ s.newBuffer₂.toList ++
    s.bufferVector ++ s.buffersToWrite

/-- The part of `buffers_to_write` that is not written yet. -/
def unwritten (s : AsyncLogger) : List Nat :=
  match s.pc with
  | .taken => s.buffersToWrite
  | .writing index => s.buffersToWrite.drop index
  | _ => []

/-- The buffers with lines to come, in order. -/
def queue (s : AsyncLogger) : List Nat :=
  s.unwritten ++ s.bufferVector ++ s.currentBuffer.toList

def contents (store : Nat → Buffer) (buffers : List Nat) : Bytes :=
  buffers.flatMap fun buffer => (store buffer).readable

/-- What has been appended and not written. -/
def pending (s : AsyncLogger) : Bytes := contents s.store s.queue

/-- The empty buffers at hand. -/
def spares (s : AsyncLogger) : List Nat :=
  s.nextBuffer.toList ++ s.newBuffer₁.toList ++ s.newBuffer₂.toList

/-- No buffer is held twice, and those held were made. -/
structure Owned (s : AsyncLogger) : Prop where
  nodup : s.held.Nodup
  made : ∀ buffer ∈ s.held, buffer < s.made

@[simp] theorem contents_append (store : Nat → Buffer) (xs ys : List Nat) :
    contents store (xs ++ ys) = contents store xs ++ contents store ys :=
  List.flatMap_append

@[simp] theorem contents_singleton (store : Nat → Buffer) (buffer : Nat) :
    contents store [buffer] = (store buffer).readable :=
  List.flatMap_singleton _ _

/-- A buffer that is not among them does not matter. -/
theorem contents_update (store : Nat → Buffer) {buffer : Nat} (b : Buffer) {buffers : List Nat}
    (hnot : buffer ∉ buffers) :
    contents (Function.update store buffer b) buffers = contents store buffers := by
  induction buffers with
  | nil => rfl
  | cons i buffers ih =>
      have hi : i ≠ buffer := by
        rintro rfl
        exact hnot List.mem_cons_self
      have hrest : buffer ∉ buffers := fun hmem => hnot (List.mem_cons_of_mem i hmem)
      rw [← List.singleton_append, contents_append, contents_append, ih hrest,
        contents_singleton, contents_singleton, Function.update_of_ne hi]

theorem unwritten_subset (s : AsyncLogger) {buffer : Nat} (h : buffer ∈ s.unwritten) :
    buffer ∈ s.buffersToWrite := by
  unfold unwritten at h
  cases hpc : s.pc with
  | taken =>
      rw [hpc] at h
      exact h
  | writing index =>
      rw [hpc] at h
      exact List.mem_of_mem_drop h
  | _ =>
      rw [hpc] at h
      cases h

theorem spares_subset (s : AsyncLogger) {buffer : Nat} (h : buffer ∈ s.spares) :
    buffer ∈ s.held := by
  simp only [spares, held, List.mem_append] at h ⊢
  tauto

theorem queue_subset (s : AsyncLogger) {buffer : Nat} (h : buffer ∈ s.queue) :
    buffer ∈ s.held := by
  simp only [queue, held, List.mem_append] at h ⊢
  rcases h with (h | h) | h
  · have := s.unwritten_subset h
    tauto
  · tauto
  · tauto

/-! ## §3  The invariant -/

/-- Every buffer is sound, those at hand are empty, and the bytes are those of the
lines appended, in order. -/
structure Core (log : Bytes) (s : AsyncLogger) : Prop where
  stored : ∀ buffer, ∃ g u n, (s.store buffer).Holds g u n
  owned : s.Owned
  empty : ∀ buffer ∈ s.spares, (s.store buffer).readable = []
  current : ∃ current, s.currentBuffer = some current
  lossless : s.written ++ s.pending = log

/-- What `ThreadFunction` has in its hands, by where it stands. -/
def ThreadHolds (s : AsyncLogger) : Prop :=
  match s.pc with
  | .start => s.newBuffer₁ = none ∧ s.newBuffer₂ = none ∧ s.buffersToWrite = []
  | .locking => s.newBuffer₁ ≠ none ∧ s.newBuffer₂ ≠ none ∧ s.buffersToWrite = []
  | .waiting => s.newBuffer₁ ≠ none ∧ s.newBuffer₂ ≠ none ∧ s.buffersToWrite = []
  | .taken =>
      s.newBuffer₁ = none ∧ s.buffersToWrite ≠ [] ∧
        (s.newBuffer₂ = none → 2 ≤ s.buffersToWrite.length) ∧ s.buffersToWrite.length ≤ 25
  | .writing _ =>
      s.newBuffer₁ = none ∧ s.buffersToWrite ≠ [] ∧
        (s.newBuffer₂ = none → 2 ≤ s.buffersToWrite.length)
  | .refill₁ =>
      s.newBuffer₁ = none ∧ s.buffersToWrite ≠ [] ∧
        (s.newBuffer₂ = none → 2 ≤ s.buffersToWrite.length)
  | .refill₂ => s.newBuffer₁ ≠ none ∧ (s.newBuffer₂ = none → s.buffersToWrite ≠ [])
  | .flush => s.newBuffer₁ ≠ none ∧ s.newBuffer₂ ≠ none

/-- The invariant. Without a next buffer there is a full one to be written, so that
the thread takes two where it gives its second buffer away. -/
structure Consistent (log : Bytes) (s : AsyncLogger) : Prop where
  core : Core log s
  backed : s.nextBuffer = none → s.bufferVector ≠ []
  thread : s.ThreadHolds

/-- An empty buffer that nobody holds. -/
structure Free (s : AsyncLogger) (buffer : Nat) : Prop where
  unheld : buffer ∉ s.held
  made : buffer < s.made
  empty : (s.store buffer).readable = []

variable {log : Bytes} {s s' : AsyncLogger} {buffer current : Nat}

theorem not_mem_of_count {xs ys : List Nat} (hnodup : xs.Nodup)
    (hcount : ∀ b, xs.count b = ys.count b + [buffer].count b) : buffer ∉ ys := by
  intro hmem
  have hone := List.nodup_iff_count_le_one.mp hnodup buffer
  have hpos := List.count_pos_iff.mpr hmem
  rw [hcount, List.count_singleton_self] at hone
  omega

/-- Some pointers are given up. -/
theorem Core.drop (h : Core log s) (hstore : s'.store = s.store) (hmade : s'.made = s.made)
    (hcurrent : s'.currentBuffer = s.currentBuffer)
    (hlog : s'.written ++ s'.pending = s.written ++ s.pending)
    (hheld : ∀ b, s'.held.count b ≤ s.held.count b) (hspares : ∀ b ∈ s'.spares, b ∈ s.spares) :
    Core log s' := by
  constructor
  case stored =>
    rw [hstore]
    exact h.stored
  case owned =>
    constructor
    case nodup =>
      apply List.nodup_iff_count_le_one.mpr
      intro b
      exact le_trans (hheld b) (List.nodup_iff_count_le_one.mp h.owned.nodup b)
    case made =>
      intro b hmem
      rw [hmade]
      apply h.owned.made
      exact List.count_pos_iff.mp (lt_of_lt_of_le (List.count_pos_iff.mpr hmem) (hheld b))
  case empty =>
    intro b hmem
    rw [hstore]
    exact h.empty b (hspares b hmem)
  case current =>
    rw [hcurrent]
    exact h.current
  case lossless =>
    rw [hlog]
    exact h.lossless

/-- A pointer to an empty buffer is moved from. -/
theorem Core.move (h : Core log s) (hspare : buffer ∈ s.spares) (hstore : s'.store = s.store)
    (hmade : s'.made = s.made) (hcurrent : s'.currentBuffer = s.currentBuffer)
    (hlog : s'.written ++ s'.pending = s.written ++ s.pending)
    (hheld : ∀ b, s.held.count b = s'.held.count b + [buffer].count b)
    (hspares : ∀ b ∈ s'.spares, b ∈ s.spares) : Core log s' ∧ Free s' buffer := by
  constructor
  · refine h.drop hstore hmade hcurrent hlog ?_ hspares
    intro b
    rw [hheld]
    exact Nat.le_add_right _ _
  · refine ⟨not_mem_of_count h.owned.nodup hheld, ?_, ?_⟩
    · rw [hmade]
      exact h.owned.made buffer (s.spares_subset hspare)
    · rw [hstore]
      exact h.empty buffer hspare

/-- A pointer to a free buffer is stored somewhere. -/
theorem Core.take (h : Core log s) (hfree : Free s buffer) (hstore : s'.store = s.store)
    (hmade : s'.made = s.made) (hcurrent : ∃ current, s'.currentBuffer = some current)
    (hlog : s'.written ++ s'.pending = s.written ++ s.pending)
    (hheld : ∀ b, s'.held.count b ≤ s.held.count b + [buffer].count b)
    (hspares : ∀ b ∈ s'.spares, b = buffer ∨ b ∈ s.spares) : Core log s' := by
  have hnodup : (buffer :: s.held).Nodup := List.nodup_cons.mpr ⟨hfree.unheld, h.owned.nodup⟩
  have hle : ∀ b, s'.held.count b ≤ (buffer :: s.held).count b := by
    intro b
    have hb := hheld b
    rw [← List.singleton_append, List.count_append]
    omega
  constructor
  case stored =>
    rw [hstore]
    exact h.stored
  case owned =>
    constructor
    case nodup =>
      apply List.nodup_iff_count_le_one.mpr
      intro b
      exact le_trans (hle b) (List.nodup_iff_count_le_one.mp hnodup b)
    case made =>
      intro b hmem
      have hpos := lt_of_lt_of_le (List.count_pos_iff.mpr hmem) (hle b)
      rw [hmade]
      rcases List.mem_cons.mp (List.count_pos_iff.mp hpos) with rfl | hmem
      · exact hfree.made
      · exact h.owned.made b hmem
  case empty =>
    intro b hmem
    rw [hstore]
    rcases hspares b hmem with rfl | hmem
    · exact hfree.empty
    · exact h.empty b hmem
  case current => exact hcurrent
  case lossless =>
    rw [hlog]
    exact h.lossless

theorem setBuffer_stored (h : ∀ i, ∃ g u n, (s.store i).Holds g u n) {b : Buffer}
    (hb : ∃ g u n, b.Holds g u n) : ∀ i, ∃ g u n, ((s.setBuffer buffer b).store i).Holds g u n := by
  intro i
  by_cases hi : i = buffer
  · subst hi
    rw [setBuffer_self]
    exact hb
  · rw [setBuffer_other s b hi]
    exact h i

theorem setBuffer_empty (h : ∀ i ∈ s.spares, (s.store i).readable = [])
    (hspare : buffer ∉ s.spares) (b : Buffer) :
    ∀ i ∈ (s.setBuffer buffer b).spares, ((s.setBuffer buffer b).store i).readable = [] := by
  intro i hmem
  have hi : i ≠ buffer := by
    rintro rfl
    exact hspare hmem
  rw [setBuffer_other s b hi]
  exact h i hmem

/-- A buffer outside of the queue and the spares is overwritten. -/
theorem Core.overwrite (h : Core log s) (hqueue : buffer ∉ s.queue) (hspare : buffer ∉ s.spares)
    {b : Buffer} (hb : ∃ g u n, b.Holds g u n) : Core log (s.setBuffer buffer b) := by
  refine ⟨setBuffer_stored h.stored hb, ⟨h.owned.nodup, h.owned.made⟩,
    setBuffer_empty h.empty hspare b, h.current, ?_⟩
  show s.written ++ contents _ s.queue = log
  rw [setBuffer, contents_update s.store b hqueue]
  exact h.lossless

/-- The buffer that has just been made is free. -/
theorem Core.makeShared (h : Core log s) {blank : Buffer} (hblank : ∃ g n, blank.Holds g [] n) :
    Core log (s.makeShared blank) ∧ Free (s.makeShared blank) s.made := by
  have hunheld : s.made ∉ s.held := fun hmem => lt_irrefl _ (h.owned.made _ hmem)
  obtain ⟨g, n, hholds⟩ := hblank
  have hcore := h.overwrite (fun hmem => hunheld (s.queue_subset hmem))
    (fun hmem => hunheld (s.spares_subset hmem)) ⟨g, [], n, hholds⟩
  constructor
  · refine ⟨hcore.stored, ⟨hcore.owned.nodup, ?_⟩, hcore.empty, hcore.current, hcore.lossless⟩
    intro b hmem
    exact Nat.lt_succ_of_lt (hcore.owned.made b hmem)
  · refine ⟨hunheld, Nat.lt_succ_self _, ?_⟩
    show ((s.setBuffer s.made blank).store s.made).readable = []
    rw [setBuffer_self]
    exact hholds.readable

/-- The current buffer goes to the full ones, and a free one takes its place. -/
theorem Core.install (h : Core log s) (hfree : Free s buffer)
    (hcurrent : s.currentBuffer = some current) :
    Core log { s with bufferVector := s.bufferVector ++ [current], currentBuffer := some buffer } := by
  refine h.take hfree rfl rfl ⟨buffer, rfl⟩ ?_ ?_ (fun b hmem => Or.inr hmem)
  · simp only [pending, queue, hcurrent, Option.toList_some, contents_append, contents_singleton,
      hfree.empty, List.append_nil, List.append_assoc]
    rfl
  · intro b
    simp only [held, hcurrent, Option.toList_some, List.count_append]
    omega

/-- Lines go to the current buffer. -/
theorem Core.appendTo (h : Core log s) (hcurrent : s.currentBuffer = some current) (line : Bytes) :
    Core (log ++ line) (s.appendTo current line) := by
  have hnot : current ∉ s.spares ++ s.bufferVector ++ s.buffersToWrite := by
    apply not_mem_of_count h.owned.nodup
    intro b
    simp only [held, spares, hcurrent, Option.toList_some, List.count_append]
    omega
  simp only [List.mem_append, not_or] at hnot
  obtain ⟨⟨hspare, hvector⟩, hwrite⟩ := hnot
  obtain ⟨g, u, n, hholds⟩ := h.stored current
  obtain ⟨n', happend⟩ := hholds.append line
  refine ⟨setBuffer_stored h.stored ⟨g, _, n', happend⟩, ⟨h.owned.nodup, h.owned.made⟩,
    setBuffer_empty h.empty hspare _, h.current, ?_⟩
  have hrest : current ∉ s.unwritten ++ s.bufferVector := by
    rw [List.mem_append]
    rintro (hmem | hmem)
    · exact hwrite (s.unwritten_subset hmem)
    · exact hvector hmem
  have hlossless := h.lossless
  simp only [pending, queue, hcurrent, Option.toList_some] at hlossless
  rw [contents_append, contents_singleton, hholds.readable] at hlossless
  show s.written ++ contents _ (s.unwritten ++ s.bufferVector ++ s.currentBuffer.toList) = _
  rw [hcurrent, Option.toList_some, contents_append, contents_singleton, AsyncLogger.appendTo,
    setBuffer_self, happend.readable, setBuffer, contents_update _ _ hrest, ← hlossless]
  simp only [List.append_assoc]

/-- A written buffer is cleared and free again. -/
theorem Core.recycle (h : Core log s) (hunwritten : s.unwritten = [])
    (hunwritten' : ({ s with buffersToWrite := s.buffersToWrite.dropLast } :
      AsyncLogger).unwritten = []) (hne : s.buffersToWrite ≠ []) :
    ∃ back b, s.recycle = some (back,
        ({ s with buffersToWrite := s.buffersToWrite.dropLast } : AsyncLogger).setBuffer back b) ∧
      Core log (({ s with buffersToWrite := s.buffersToWrite.dropLast } :
        AsyncLogger).setBuffer back b) ∧
      Free (({ s with buffersToWrite := s.buffersToWrite.dropLast } :
        AsyncLogger).setBuffer back b) back := by
  generalize hs₁ : ({ s with buffersToWrite := s.buffersToWrite.dropLast } : AsyncLogger) = s₁
  have hback := List.getLast?_eq_some_getLast hne
  generalize s.buffersToWrite.getLast hne = back at hback
  have hsplit : s.buffersToWrite.dropLast ++ [back] = s.buffersToWrite :=
    List.dropLast_append_getLast? _ hback
  have hcount : ∀ b, s.held.count b = s₁.held.count b + [back].count b := by
    intro b
    subst hs₁
    simp only [held, List.count_append]
    rw [← hsplit, List.count_append, List.dropLast_concat]
    omega
  have hcore : Core log s₁ := by
    refine h.drop (by rw [← hs₁]) (by rw [← hs₁]) (by rw [← hs₁]) ?_ ?_ (by rw [← hs₁]; exact fun _ => id)
    · subst hs₁
      simp only [pending, queue, hunwritten, hunwritten']
    · intro b
      rw [hcount]
      exact Nat.le_add_right _ _
  have hunheld : back ∉ s₁.held := not_mem_of_count h.owned.nodup hcount
  have hmade : back < s₁.made := by
    have hmem : back ∈ s.held := by
      apply List.count_pos_iff.mp
      rw [hcount, List.count_singleton_self]
      exact Nat.succ_pos _
    rw [← hs₁]
    exact h.owned.made back hmem
  obtain ⟨g, u, n, hholds⟩ := hcore.stored back
  refine ⟨back, (s₁.store back).clear, ?_, ?_, hunheld, hmade, ?_⟩
  · rw [AsyncLogger.recycle, hback]
    subst hs₁
    rfl
  · exact hcore.overwrite (fun hmem => hunheld (s₁.queue_subset hmem))
      (fun hmem => hunheld (s₁.spares_subset hmem)) ⟨NUL, [], _, hholds.clear⟩
  · rw [setBuffer_self]
    exact hholds.clear.readable

/-! ## §4  Steps -/

/-- `Append`: where the line does not fit, the current buffer is full, and the next
one, or a new one, becomes the current one. -/
theorem Consistent.append {blank : Buffer} (hblank : ∃ g n, blank.Holds g [] n)
    (h : Consistent log s) (line : Bytes) :
    ∃ s', s.append blank line = some s' ∧ Consistent (log ++ line) s' := by
  obtain ⟨current, hcurrent⟩ := h.core.current
  by_cases hfits : (s.store current).writableBytes > line.length
  · refine ⟨s.appendTo current line, ?_, h.core.appendTo hcurrent line, h.backed, h.thread⟩
    simp only [AsyncLogger.append, hcurrent, if_pos hfits]
  · cases hnext : s.nextBuffer with
    | some next =>
        have hmove : Core log { s with nextBuffer := none } ∧ Free { s with nextBuffer := none } next := by
          refine h.core.move ?_ rfl rfl rfl rfl ?_ ?_
          · simp [spares, hnext]
          · intro b
            simp only [held, hnext, Option.toList_some, Option.toList_none, List.count_append,
              List.count_nil]
            omega
          · intro b hmem
            simp only [spares, List.mem_append] at hmem ⊢
            tauto
        have hcore := (hmove.1.install hmove.2 hcurrent).appendTo rfl line
        refine ⟨_, ?_, hcore, ?_, h.thread⟩
        · simp only [AsyncLogger.append, hcurrent, if_neg hfits, hnext]
        · intro _
          exact List.append_ne_nil_of_right_ne_nil _ (List.cons_ne_nil _ _)
    | none =>
        obtain ⟨hmade, hfree⟩ := h.core.makeShared hblank
        have hcore := (hmade.install hfree hcurrent).appendTo rfl line
        refine ⟨_, ?_, hcore, ?_, h.thread⟩
        · simp only [AsyncLogger.append, hcurrent, if_neg hfits, AsyncLogger.makeShared, setBuffer,
            hnext]
        · intro _
          exact List.append_ne_nil_of_right_ne_nil _ (List.cons_ne_nil _ _)

/-- The critical section of `ThreadFunction`: it takes the full buffers and the current
one, and two where it gives its second buffer away. -/
theorem Consistent.takeBuffers (h : Consistent log s) (hnew₁ : s.newBuffer₁ ≠ none)
    (hnew₂ : s.newBuffer₂ ≠ none) (hnone : s.buffersToWrite = []) (hunwritten : s.unwritten = [])
    (hfew : s.bufferVector.length < 25) :
    ∃ s', s.takeBuffers = some s' ∧ Consistent log s' := by
  obtain ⟨current, hcurrent⟩ := h.core.current
  obtain ⟨new₁, hnew₁⟩ := Option.ne_none_iff_exists'.mp hnew₁
  obtain ⟨new₂, hnew₂⟩ := Option.ne_none_iff_exists'.mp hnew₂
  have hmove : Core log { s with newBuffer₁ := none } ∧ Free { s with newBuffer₁ := none } new₁ := by
    refine h.core.move ?_ rfl rfl rfl rfl ?_ ?_
    · simp [spares, hnew₁]
    · intro b
      simp only [held, hnew₁, Option.toList_some, Option.toList_none, List.count_append,
        List.count_nil]
      omega
    · intro b hmem
      simp only [spares, List.mem_append] at hmem ⊢
      tauto
  have hinstall := hmove.1.install hmove.2 hcurrent
  -- the vectors change places
  have hswap : Core log { s with
      currentBuffer := some new₁, newBuffer₁ := none, bufferVector := s.buffersToWrite,
      buffersToWrite := s.bufferVector ++ [current], pc := .taken } := by
    refine hinstall.drop rfl rfl rfl ?_ ?_ (fun b hmem => hmem)
    · show s.written ++ contents s.store (s.bufferVector ++ [current] ++ s.buffersToWrite ++ [new₁]) =
        s.written ++ contents s.store (s.unwritten ++ (s.bufferVector ++ [current]) ++ [new₁])
      rw [hnone, hunwritten, List.nil_append, List.append_nil]
    · intro b
      simp only [held, List.count_append]
      omega
  have hlength : (s.bufferVector ++ [current]).length ≤ 25 := by
    rw [List.length_append]
    exact hfew
  cases hnext : s.nextBuffer with
  | some next =>
      refine ⟨_, ?_, hswap, ?_, ?_⟩
      · simp only [AsyncLogger.takeBuffers, hcurrent, hnext, hnew₁]
      · intro hnil
        rw [hnext] at hnil
        cases hnil
      · refine ⟨rfl, List.append_ne_nil_of_right_ne_nil _ (List.cons_ne_nil _ _), ?_, hlength⟩
        intro hnil
        rw [hnew₂] at hnil
        cases hnil
  | none =>
      have hgive : Core log { s with
          currentBuffer := some new₁, newBuffer₁ := none, bufferVector := s.buffersToWrite,
          buffersToWrite := s.bufferVector ++ [current], pc := .taken,
          nextBuffer := some new₂, newBuffer₂ := none } := by
        refine hswap.drop rfl rfl rfl rfl ?_ ?_
        · intro b
          simp only [held, hnew₂, hnext, Option.toList_some, Option.toList_none, List.count_append,
            List.count_nil]
          omega
        · intro b hmem
          simp only [spares, hnew₂, hnext, Option.toList_some, Option.toList_none,
            List.mem_append] at hmem ⊢
          tauto
      refine ⟨_, ?_, hgive, ?_, ?_⟩
      · simp only [AsyncLogger.takeBuffers, hcurrent, hnext, hnew₁, hnew₂]
      · intro hnil
        cases hnil
      · refine ⟨rfl, List.append_ne_nil_of_right_ne_nil _ (List.cons_ne_nil _ _), ?_, hlength⟩
        intro _
        have hpos := List.length_pos_iff.mpr (h.backed hnext)
        simp only [List.length_append, List.length_singleton]
        omega

theorem Consistent.start {blank : Buffer} (hblank : ∃ g n, blank.Holds g [] n)
    (h : Consistent log s) (hpc : s.pc = .start) :
    ∃ s', s.threadStep blank = some s' ∧ Consistent log s' := by
  have hthread := h.thread
  simp only [ThreadHolds, hpc] at hthread
  obtain ⟨hnew₁, hnew₂, hnone⟩ := hthread
  obtain ⟨hmade, hfree⟩ := h.core.makeShared hblank
  have hgive : Core log { s.makeShared blank with newBuffer₁ := some s.made } := by
    refine hmade.take hfree rfl rfl hmade.current rfl ?_ ?_
    · intro b
      simp only [held, AsyncLogger.makeShared, setBuffer, hnew₁, Option.toList_some,
        Option.toList_none, List.count_append, List.count_nil]
      omega
    · intro b hmem
      simp only [spares, AsyncLogger.makeShared, setBuffer, Option.toList_some, List.mem_append,
        List.mem_singleton] at hmem ⊢
      tauto
  obtain ⟨hmade', hfree'⟩ := hgive.makeShared hblank
  refine ⟨{ (s.makeShared blank).makeShared blank with
      newBuffer₁ := some s.made, newBuffer₂ := some (s.made + 1), pc := .locking },
    by simp only [threadStep, hpc], ?_, h.backed, ?_⟩
  · refine hmade'.take hfree' rfl rfl hmade.current ?_ ?_ ?_
    · have hidle : s.unwritten = [] := by simp only [unwritten, hpc]
      show s.written ++ contents _ ([] ++ s.bufferVector ++ s.currentBuffer.toList) =
        s.written ++ contents _ (s.unwritten ++ s.bufferVector ++ s.currentBuffer.toList)
      rw [hidle]
      rfl
    · intro b
      simp only [held, AsyncLogger.makeShared, setBuffer, hnew₂, Option.toList_some,
        Option.toList_none, List.count_append, List.count_nil]
      omega
    · intro b hmem
      simp only [spares, AsyncLogger.makeShared, setBuffer, Option.toList_some, List.mem_append,
        List.mem_singleton] at hmem ⊢
      tauto
  · exact ⟨Option.some_ne_none _, Option.some_ne_none _, hnone⟩

/-- A buffer is written. -/
theorem Consistent.writing {blank : Buffer} {index : Nat} (h : Consistent log s)
    (hpc : s.pc = .writing index) :
    ∃ s', s.threadStep blank = some s' ∧ Consistent log s' := by
  have hthread := h.thread
  simp only [ThreadHolds, hpc] at hthread
  obtain ⟨hnew₁, hne, htwo⟩ := hthread
  have hunwritten : s.unwritten = s.buffersToWrite.drop index := by simp only [unwritten, hpc]
  cases hget : s.buffersToWrite[index]? with
  | some buffer =>
      obtain ⟨hlt, hbuffer⟩ := List.getElem?_eq_some_iff.mp hget
      refine ⟨{ s with written := s.written ++ (s.store buffer).readable,
                       pc := .writing (index + 1) },
        by simp only [threadStep, hpc, hget], ?_, h.backed, ⟨hnew₁, hne, htwo⟩⟩
      refine h.core.drop rfl rfl rfl ?_ (fun b => le_refl _) (fun b hmem => hmem)
      have hdrop : s.unwritten = [buffer] ++ s.buffersToWrite.drop (index + 1) := by
        rw [hunwritten, List.drop_eq_getElem_cons hlt, hbuffer]
        rfl
      show s.written ++ (s.store buffer).readable ++ contents s.store
          (s.buffersToWrite.drop (index + 1) ++ s.bufferVector ++ s.currentBuffer.toList) =
        s.written ++ contents s.store (s.unwritten ++ s.bufferVector ++ s.currentBuffer.toList)
      rw [hdrop]
      simp only [contents_append, contents_singleton, List.append_assoc]
  | none =>
      have hidle : s.unwritten = [] := by
        rw [hunwritten]
        exact List.drop_of_length_le (List.getElem?_eq_none_iff.mp hget)
      have hlog : ∀ s₁ : AsyncLogger, s₁.written = s.written → s₁.store = s.store →
          s₁.queue = s.queue → s₁.written ++ s₁.pending = s.written ++ s.pending := by
        intro s₁ hwritten hstore hqueue
        rw [pending, pending, hwritten, hstore, hqueue]
      by_cases hlong : s.buffersToWrite.length > 2
      · refine ⟨{ s with buffersToWrite := s.buffersToWrite.take 2, pc := .refill₁ },
          by simp only [threadStep, hpc, hget, if_pos hlong], ?_, h.backed, ?_⟩
        · refine h.core.drop rfl rfl rfl (hlog _ rfl rfl ?_) ?_ (fun b hmem => hmem)
          · simp only [queue, hidle]
            rfl
          · intro b
            have htake := (List.take_sublist 2 s.buffersToWrite).count_le b
            simp only [held, List.count_append]
            omega
        · have hlength : (s.buffersToWrite.take 2).length = 2 := by
            rw [List.length_take]
            omega
          refine ⟨hnew₁, ?_, fun _ => le_of_eq hlength.symm⟩
          intro (hnil : s.buffersToWrite.take 2 = [])
          rw [hnil] at hlength
          cases hlength
      · refine ⟨{ s with pc := .refill₁ }, by simp only [threadStep, hpc, hget, if_neg hlong], ?_,
          h.backed, ⟨hnew₁, hne, htwo⟩⟩
        refine h.core.drop rfl rfl rfl (hlog _ rfl rfl ?_) (fun b => le_refl _) (fun b hmem => hmem)
        simp only [queue, hidle]
        rfl

theorem Consistent.refill₁ {blank : Buffer} (h : Consistent log s) (hpc : s.pc = .refill₁) :
    ∃ s', s.threadStep blank = some s' ∧ Consistent log s' := by
  have hthread := h.thread
  simp only [ThreadHolds, hpc] at hthread
  obtain ⟨hnew₁, hne, htwo⟩ := hthread
  have hidle : s.unwritten = [] := by simp only [unwritten, hpc]
  obtain ⟨back, b, hrecycle, hcore, hfree⟩ :=
    h.core.recycle hidle (by simp only [unwritten, hpc]) hne
  refine ⟨{ ({ s with buffersToWrite := s.buffersToWrite.dropLast } :
      AsyncLogger).setBuffer back b with newBuffer₁ := some back, pc := .refill₂ }, ?_, ?_,
    h.backed, Option.some_ne_none _, ?_⟩
  · simp only [threadStep, hpc, hnew₁, hrecycle, Option.map_some]
  · refine hcore.take hfree rfl rfl hcore.current ?_ ?_ ?_
    · simp only [pending, queue, setBuffer, unwritten, hpc]
    · intro b
      simp only [held, setBuffer, hnew₁, Option.toList_some, Option.toList_none,
        List.count_append, List.count_nil]
      omega
    · intro b hmem
      simp only [spares, setBuffer, Option.toList_some, List.mem_append,
        List.mem_singleton] at hmem ⊢
      tauto
  · -- one is left where the second buffer has been given away
    intro hnew₂ hnil
    have hlength := congrArg List.length hnil
    simp only [setBuffer, List.length_dropLast, List.length_nil] at hlength
    have := htwo hnew₂
    omega

theorem Consistent.refill₂ {blank : Buffer} (h : Consistent log s) (hpc : s.pc = .refill₂) :
    ∃ s', s.threadStep blank = some s' ∧ Consistent log s' := by
  have hthread := h.thread
  simp only [ThreadHolds, hpc] at hthread
  obtain ⟨hnew₁, hbacked⟩ := hthread
  have hidle : s.unwritten = [] := by simp only [unwritten, hpc]
  cases hnew₂ : s.newBuffer₂ with
  | some new₂ =>
      refine ⟨{ s with pc := .flush }, by simp only [threadStep, hpc, hnew₂], ?_, h.backed, hnew₁,
        by rw [hnew₂]; exact Option.some_ne_none _⟩
      refine h.core.drop rfl rfl rfl ?_ (fun b => le_refl _) (fun b hmem => hmem)
      simp only [pending, queue, unwritten, hpc]
  | none =>
      obtain ⟨back, b, hrecycle, hcore, hfree⟩ :=
        h.core.recycle hidle (by simp only [unwritten, hpc]) (hbacked hnew₂)
      refine ⟨{ ({ s with buffersToWrite := s.buffersToWrite.dropLast } :
          AsyncLogger).setBuffer back b with newBuffer₂ := some back, pc := .flush }, ?_, ?_,
        h.backed, hnew₁, Option.some_ne_none _⟩
      · simp only [threadStep, hpc, hnew₂, hrecycle, Option.map_some]
      · refine hcore.take hfree rfl rfl hcore.current ?_ ?_ ?_
        · simp only [pending, queue, setBuffer, unwritten, hpc]
        · intro b
          simp only [held, setBuffer, hnew₂, Option.toList_some, Option.toList_none,
            List.count_append, List.count_nil]
          omega
        · intro b hmem
          simp only [spares, setBuffer, Option.toList_some, List.mem_append,
            List.mem_singleton] at hmem ⊢
          tauto

/-- With the current one an iteration takes at most 25 buffers. -/
def FewBuffers (s : AsyncLogger) (step : LoggerStep) : Prop :=
  match step, s.pc with
  | .thread, .locking => s.bufferVector.length < 25
  | .thread, .waiting => s.bufferVector.length < 25
  | _, _ => True

instance (s : AsyncLogger) (step : LoggerStep) : Decidable (s.FewBuffers step) := by
  unfold FewBuffers
  split <;> infer_instance

theorem Consistent.threadStep {blank : Buffer} (hblank : ∃ g n, blank.Holds g [] n)
    (h : Consistent log s) (hfew : s.FewBuffers .thread) :
    ∃ s', s.threadStep blank = some s' ∧ Consistent log s' := by
  have hthread := h.thread
  cases hpc : s.pc with
  | start => exact h.start hblank hpc
  | locking =>
      simp only [ThreadHolds, hpc] at hthread
      simp only [FewBuffers, hpc] at hfew
      have hidle : s.unwritten = [] := by simp only [unwritten, hpc]
      by_cases hempty : s.bufferVector = []
      · refine ⟨{ s with pc := .waiting }, by simp only [AsyncLogger.threadStep, hpc, if_pos hempty],
          ?_, h.backed, hthread⟩
        refine h.core.drop rfl rfl rfl ?_ (fun b => le_refl _) (fun b hmem => hmem)
        simp only [pending, queue, unwritten, hpc]
      · simp only [AsyncLogger.threadStep, hpc, if_neg hempty]
        exact h.takeBuffers hthread.1 hthread.2.1 hthread.2.2 hidle hfew
  | waiting =>
      simp only [ThreadHolds, hpc] at hthread
      simp only [FewBuffers, hpc] at hfew
      have hidle : s.unwritten = [] := by simp only [unwritten, hpc]
      simp only [AsyncLogger.threadStep, hpc]
      exact h.takeBuffers hthread.1 hthread.2.1 hthread.2.2 hidle hfew
  | taken =>
      simp only [ThreadHolds, hpc] at hthread
      obtain ⟨hnew₁, hne, htwo, hle⟩ := hthread
      refine ⟨{ s with pc := .writing 0 }, ?_, ?_, h.backed, hnew₁, hne, htwo⟩
      · simp only [AsyncLogger.threadStep, hpc, if_neg hne, if_neg (not_lt.mpr hle)]
      · refine h.core.drop rfl rfl rfl ?_ (fun b => le_refl _) (fun b hmem => hmem)
        simp only [pending, queue, unwritten, hpc, List.drop_zero]
  | writing index => exact h.writing hpc
  | refill₁ => exact h.refill₁ hpc
  | refill₂ => exact h.refill₂ hpc
  | flush =>
      simp only [ThreadHolds, hpc] at hthread
      refine ⟨{ s with buffersToWrite := [], pc := .locking },
        by simp only [AsyncLogger.threadStep, hpc], ?_, h.backed, hthread.1, hthread.2, rfl⟩
      refine h.core.drop rfl rfl rfl ?_ ?_ (fun b hmem => hmem)
      · simp only [pending, queue, unwritten, hpc]
      · intro b
        simp only [held, List.append_nil, List.count_append]
        omega

/-! ## §5  The result -/

theorem Consistent.new {blank : Buffer} (hblank : ∃ g n, blank.Holds g [] n) :
    Consistent [] (new blank) := by
  obtain ⟨g, n, hholds⟩ := hblank
  have hnodup : ([0, 1] : List Nat).Nodup := by decide
  have hmade : ∀ buffer ∈ ([0, 1] : List Nat), buffer < 2 := by decide
  refine ⟨⟨fun _ => ⟨g, [], n, hholds⟩, ⟨hnodup, hmade⟩, fun _ _ => hholds.readable,
    ⟨0, rfl⟩, ?_⟩, ?_, rfl, rfl, rfl⟩
  · show [] ++ contents (fun _ => blank) [0] = []
    rw [contents_singleton, hholds.readable]
    rfl
  · intro hnil
    cases hnil

theorem logger_step {blank : Buffer} (hblank : ∃ g n, blank.Holds g [] n)
    (h : Consistent log s) (step : LoggerStep) (hfew : s.FewBuffers step) :
    ∃ s', (logger blank).step s step = some (s', ()) ∧ Consistent (log ++ step.line) s' := by
  cases step with
  | append line =>
      obtain ⟨s', hok, hs'⟩ := h.append hblank line
      exact ⟨s', by simp only [logger, hok, Option.map_some], hs'⟩
  | thread =>
      obtain ⟨s', hok, hs'⟩ := h.threadStep hblank hfew
      refine ⟨s', by simp only [logger, hok, Option.map_some], ?_⟩
      rw [LoggerStep.line, List.append_nil]
      exact hs'

/-- What the log is for: every line behind the ones before it. -/
def Appends (log : Bytes) (step : LoggerStep) (_ : Unit) (log' : Bytes) : Prop :=
  log' = log ++ step.line

theorem appends_lines {log' : Bytes} {steps : List LoggerStep} {os : List Unit}
    (h : Machine.Traces Appends log steps os log') :
    log' = log ++ steps.flatMap LoggerStep.line := by
  induction h with
  | nil log => exact (List.append_nil log).symm
  | cons hstep _ ih => rw [ih, hstep, List.flatMap_cons, List.append_assoc]

/-- **The logger loses nothing.** In every interleaving of lines appended and steps of
`ThreadFunction` in which no iteration takes more than 25 buffers, no step goes through
a null pointer or takes from an empty vector, what is written and what is pending are
the lines in their order, and no buffer is held twice. -/
theorem logger_lossless {size : Nat} {blank : Buffer} (hblank : Buffer.new size = .ok blank)
    {steps : List LoggerStep} (hfew : (logger blank).Meets FewBuffers (new blank) steps) :
    ∃ s os, (logger blank).run steps = some (s, os) ∧
      s.written ++ s.pending = steps.flatMap LoggerStep.line ∧ s.currentBuffer ≠ none ∧
      s.held.Nodup := by
  have hholds : ∃ g n, blank.Holds g [] n := ⟨NUL, _, Buffer.holds_of_new hblank⟩
  obtain ⟨s, os, log, hrun, htraces, hs⟩ := @Machine.exec_traces_of_meets _ _ _ _ (logger blank)
    FewBuffers Appends (fun s log => Consistent log s) (fun s log step hs hstep => by
      obtain ⟨s', hok, hs'⟩ := logger_step hholds hs step hstep
      exact ⟨s', (), log ++ step.line, hok, rfl, hs'⟩) steps (new blank) [] (Consistent.new hholds) hfew
  refine ⟨s, os, hrun, ?_, ?_, hs.core.owned.nodup⟩
  · rw [hs.core.lossless, appends_lines htraces, List.nil_append]
  · obtain ⟨current, hcurrent⟩ := hs.core.current
    rw [hcurrent]
    exact Option.some_ne_none _

/-- Buffers of eight bytes: three lines, of which each is too long for what is left
before it, and an iteration of the thread around the last. -/
theorem logger_lossless_three :
    ∃ s os, (logger ⟨List.replicate 8 NUL, 1, 1⟩).run
        [.thread, .thread, .append (ascii "abcde"), .append (ascii "fghij"),
         .append (ascii "kl"), .thread, .thread, .append (ascii "mnopqr"), .thread, .thread,
         .thread, .thread, .thread, .thread, .thread] = some (s, os) ∧
      s.written ++ s.pending =
        [.thread, .thread, .append (ascii "abcde"), .append (ascii "fghij"),
         .append (ascii "kl"), .thread, .thread, .append (ascii "mnopqr"), .thread, .thread,
         .thread, .thread, .thread, .thread, .thread].flatMap LoggerStep.line ∧
      s.currentBuffer ≠ none ∧ s.held.Nodup :=
  logger_lossless (show Buffer.new 8 = .ok ⟨List.replicate 8 NUL, 1, 1⟩ from rfl)
    (by decide +kernel)

end AsyncLogger

end WhiteWebServer
