import WhiteWebServer.AsyncLogger

/-!
# Stopping the logger

`Start` makes the thread of `AsyncLogger`, and `Stop` sets `is_stop_` and joins it.
§1 the loop of `ThreadFunction` with its test of `is_stop_`; §2 what has left the
buffers that the threads share, step by step; §3 which lines are written when `Stop`
returns.
-/

namespace WhiteWebServer

/-! ## §1  The loop -/

/-- `thread_`: not made, inside of the loop (or in front of it), about to test `is_stop_`,
or returned. -/
inductive LoggerThread
  | absent
  | running
  | testing
  | ended
deriving DecidableEq

structure StoppableLogger where
  core : AsyncLogger
  isStop : Bool
  thread : LoggerThread

namespace StoppableLogger

def new (blank : Buffer) : StoppableLogger := ⟨AsyncLogger.new blank, true, .absent⟩

/-- The next piece of `ThreadFunction`; behind an iteration comes the test. -/
def threadStep (blank : Buffer) (s : StoppableLogger) : Option StoppableLogger :=
  match s.thread with
  | .running =>
      (s.core.threadStep blank).map fun core =>
        match core.pc with
        | .locking => { s with core := core, thread := .testing }
        | _ => { s with core := core }
  | .testing => some { s with thread := if s.isStop then .ended else .running }
  | _ => none

/-- `stop` is the call of `Stop`; it returns when the thread has ended. -/
inductive ShutdownStep
  | append (line : Bytes)
  | start
  | thread
  | stop

/-- A second `Start` assigns to a thread that can be joined, and a `Stop` without one
joins none: neither is a step. -/
def shutdownStep (blank : Buffer) (s : StoppableLogger) : ShutdownStep → Option StoppableLogger
  | .append line => (s.core.append blank line).map fun core => { s with core := core }
  | .start => if s.thread = .absent then some ⟨s.core, false, .running⟩ else none
  | .thread => s.threadStep blank
  | .stop => if s.thread = .absent then none else some { s with isStop := true }

def shutdown (blank : Buffer) : Machine StoppableLogger ShutdownStep Unit where
  init := new blank
  step s step := (s.shutdownStep blank step).map (·, ())

def ShutdownStep.line : ShutdownStep → Bytes
  | .append line => line
  | .start => []
  | .thread => []
  | .stop => []

/-- The lines of the `Append`s among the steps. -/
def lines (steps : List ShutdownStep) : Bytes := steps.flatMap ShutdownStep.line

/-- No iteration takes more than 25 buffers. -/
def FewBuffers (s : StoppableLogger) : ShutdownStep → Prop
  | .thread => s.thread = .running → s.core.FewBuffers .thread
  | _ => True

instance (s : StoppableLogger) : (step : ShutdownStep) → Decidable (s.FewBuffers step)
  | .thread => inferInstanceAs (Decidable (s.thread = .running → s.core.FewBuffers .thread))
  | .append _ => isTrue trivial
  | .start => isTrue trivial
  | .stop => isTrue trivial

end StoppableLogger

/-! ## §2  What has left the shared buffers -/

namespace AsyncLogger

/-- What is written, and what the thread has taken to write. -/
def taken (s : AsyncLogger) : Bytes := s.written ++ contents s.store s.unwritten

/-- What is in `buffer_vector_` and `current_buffer_`. -/
def shared (s : AsyncLogger) : Bytes :=
  contents s.store (s.bufferVector ++ s.currentBuffer.toList)

variable {log : Bytes} {s s' : AsyncLogger}

theorem taken_append_shared (s : AsyncLogger) :
    s.taken ++ s.shared = s.written ++ s.pending := by
  simp only [taken, shared, pending, queue, contents_append, List.append_assoc]

theorem Consistent.taken_append_shared (h : Consistent log s) : s.taken ++ s.shared = log :=
  (AsyncLogger.taken_append_shared s).trans h.core.lossless

theorem taken_of_idle (h : s.unwritten = []) : s.taken = s.written := by
  rw [taken, h]
  exact List.append_nil _

/-- A buffer that the thread is not about to write does not matter to what it took. -/
theorem taken_setBuffer {buffer : Nat} (h : buffer ∉ s.unwritten) (b : Buffer) :
    (s.setBuffer buffer b).taken = s.taken := by
  show s.written ++ contents _ s.unwritten = _
  rw [setBuffer, contents_update s.store b h, taken]

/-- The buffers that lines go to are not among those the thread took. -/
theorem Owned.not_unwritten (h : s.Owned) {buffer : Nat}
    (hmem : buffer ∈ s.currentBuffer.toList ++ s.nextBuffer.toList) : buffer ∉ s.unwritten := by
  intro hunwritten
  refine List.disjoint_of_nodup_append h.nodup ?_ (s.unwritten_subset hunwritten)
  simp only [List.mem_append] at hmem ⊢
  tauto

/-- A line goes to a shared buffer, or to one that is shared from now on. -/
theorem append_taken {blank : Buffer} {line : Bytes} (h : Consistent log s)
    (hok : s.append blank line = some s') : s'.taken = s.taken ∧ s'.pc = s.pc := by
  obtain ⟨current, hcurrent⟩ := h.core.current
  rw [AsyncLogger.append, hcurrent] at hok
  simp only at hok
  split at hok
  · cases hok
    refine ⟨taken_setBuffer (h.core.owned.not_unwritten ?_) _, rfl⟩
    rw [hcurrent]
    exact List.mem_cons_self
  · split at hok
    · -- the full buffer is shared, and the spare one takes the line
      rename_i next hnext
      cases hok
      refine ⟨taken_setBuffer (s := { s with
        bufferVector := s.bufferVector ++ [current], currentBuffer := some next,
        nextBuffer := none }) (h.core.owned.not_unwritten ?_) _, rfl⟩
      rw [show s.nextBuffer = some next from hnext]
      exact List.mem_append_right _ List.mem_cons_self
    · -- there is no spare one
      cases hok
      have hmade : s.made ∉ s.unwritten := by
        intro hmem
        have hheld : s.made ∈ s.held := List.mem_append_right _ (s.unwritten_subset hmem)
        exact Nat.lt_irrefl _ (h.core.owned.made _ hheld)
      refine ⟨?_, rfl⟩
      exact (taken_setBuffer (s := ({ s with
        bufferVector := s.bufferVector ++ [current],
        currentBuffer := some s.made } : AsyncLogger).makeShared blank) hmade _).trans
          (taken_setBuffer (s := s) hmade blank)

/-- The critical section leaves nothing in the buffers that are shared. -/
theorem takeBuffers_shared (h : Consistent log s) (hnone : s.buffersToWrite = [])
    (hok : s.takeBuffers = some s') : s'.shared = [] ∧ s'.pc = .taken := by
  obtain ⟨current, hcurrent⟩ := h.core.current
  rw [AsyncLogger.takeBuffers, hcurrent] at hok
  -- what is swapped in is empty
  have hshared : contents s.store (s.buffersToWrite ++ s.newBuffer₁.toList) = [] := by
    rw [hnone, List.nil_append, contents, List.flatMap_eq_nil_iff]
    intro buffer hmem
    apply h.core.empty buffer
    simp only [spares, List.mem_append]
    exact Or.inl (Or.inr hmem)
  simp only at hok
  split at hok <;> cases hok <;> exact ⟨hshared, rfl⟩

theorem recycle_written {r : Nat × AsyncLogger} (h : s.recycle = some r) :
    r.2.written = s.written := by
  unfold AsyncLogger.recycle at h
  split at h <;> cases h
  rfl

/-- A step of the thread: it waits, it takes all that is shared, or it has nothing to do
with the shared buffers. -/
theorem threadStep_taken {blank : Buffer} (h : Consistent log s)
    (hok : s.threadStep blank = some s') :
    (s.pc = .locking ∧ s'.taken = s.taken ∧ s'.pc = .waiting) ∨
      ((s.pc = .locking ∨ s.pc = .waiting) ∧ s'.shared = [] ∧ s'.pc = .taken) ∨
      (s.pc ≠ .locking ∧ s.pc ≠ .waiting ∧ s'.taken = s.taken ∧ s'.pc ≠ .waiting) := by
  have hthread := h.thread
  unfold AsyncLogger.threadStep at hok
  cases hpc : s.pc with
  | start =>
      simp only [hpc] at hok
      cases hok
      right; right
      refine ⟨by simp, by simp, ?_, by simp⟩
      rw [taken_of_idle rfl, taken_of_idle (by simp only [unwritten, hpc])]
      rfl
  | locking =>
      simp only [ThreadHolds, hpc] at hthread
      simp only [hpc] at hok
      split at hok
      · cases hok
        left
        refine ⟨rfl, ?_, rfl⟩
        rw [taken_of_idle rfl, taken_of_idle (by simp only [unwritten, hpc])]
      · right; left
        exact ⟨Or.inl rfl, takeBuffers_shared h hthread.2.2 hok⟩
  | waiting =>
      simp only [ThreadHolds, hpc] at hthread
      simp only [hpc] at hok
      right; left
      exact ⟨Or.inr rfl, takeBuffers_shared h hthread.2.2 hok⟩
  | taken =>
      simp only [ThreadHolds, hpc] at hthread
      simp only [hpc, if_neg hthread.2.1, if_neg (not_lt.mpr hthread.2.2.2)] at hok
      cases hok
      right; right
      refine ⟨by simp, by simp, ?_, by simp⟩
      simp only [AsyncLogger.taken, unwritten, hpc, List.drop_zero]
  | writing index =>
      simp only [hpc] at hok
      right; right
      split at hok
      · -- a buffer goes from what is unwritten to what is written
        rename_i buffer hget
        cases hok
        refine ⟨by simp, by simp, ?_, by simp⟩
        obtain ⟨hlt, hbuffer⟩ := List.getElem?_eq_some_iff.mp hget
        simp only [AsyncLogger.taken, unwritten, hpc]
        rw [List.drop_eq_getElem_cons hlt, hbuffer, List.append_assoc]
        rfl
      · rename_i hget
        have hidle : s.unwritten = [] := by
          simp only [unwritten, hpc]
          exact List.drop_of_length_le (List.getElem?_eq_none_iff.mp hget)
        split at hok <;> cases hok <;>
        · refine ⟨by simp, by simp, ?_, by simp⟩
          rw [taken_of_idle rfl, taken_of_idle hidle]
  | refill₁ =>
      simp only [hpc] at hok
      right; right
      have hidle : s.unwritten = [] := by simp only [unwritten, hpc]
      split at hok
      · cases hok
        refine ⟨by simp, by simp, ?_, by simp⟩
        rw [taken_of_idle rfl, taken_of_idle hidle]
      · obtain ⟨r, hr, hs'⟩ := Option.map_eq_some_iff.mp hok
        cases hs'
        refine ⟨by simp, by simp, ?_, by simp⟩
        rw [taken_of_idle rfl, taken_of_idle hidle, recycle_written hr]
  | refill₂ =>
      simp only [hpc] at hok
      right; right
      have hidle : s.unwritten = [] := by simp only [unwritten, hpc]
      split at hok
      · cases hok
        refine ⟨by simp, by simp, ?_, by simp⟩
        rw [taken_of_idle rfl, taken_of_idle hidle]
      · obtain ⟨r, hr, hs'⟩ := Option.map_eq_some_iff.mp hok
        cases hs'
        refine ⟨by simp, by simp, ?_, by simp⟩
        rw [taken_of_idle rfl, taken_of_idle hidle, recycle_written hr]
  | flush =>
      simp only [hpc] at hok
      cases hok
      right; right
      refine ⟨by simp, by simp, ?_, by simp⟩
      rw [taken_of_idle rfl, taken_of_idle (by simp only [unwritten, hpc])]

end AsyncLogger

/-! ## §3  What is written when `Stop` returns -/

namespace StoppableLogger

open AsyncLogger (Consistent)

variable {blank : Buffer} {log : Bytes} {s s' : StoppableLogger}

/-- In an iteration, in front of its critical section. -/
def BeforeTake (s : StoppableLogger) : Prop :=
  s.thread = .running ∧ (s.core.pc = .locking ∨ s.core.pc = .waiting)

/-- The first `n` bytes of the log have left the shared buffers, or are still to. -/
def Reaches (n : Nat) (s : StoppableLogger) : Prop :=
  n ≤ s.core.taken.length ∨ s.BeforeTake

/-- The logger's invariant, and that outside of the loop nothing is half written. -/
structure Sound (log : Bytes) (s : StoppableLogger) : Prop where
  consistent : Consistent log s.core
  between : s.thread = .testing ∨ s.thread = .ended → s.core.pc = .locking

/-- `Stop` has been called. -/
structure Stopping (s : StoppableLogger) : Prop where
  isStop : s.isStop = true
  present : s.thread ≠ .absent

theorem Sound.append {line : Bytes} (h : Sound log s)
    (hok : s.shutdownStep blank (.append line) = some s') (hblank : ∃ g n, blank.Holds g [] n) :
    Sound (log ++ line) s' ∧ s'.core.taken = s.core.taken ∧ s'.core.pc = s.core.pc ∧
      s'.thread = s.thread ∧ s'.isStop = s.isStop := by
  obtain ⟨core, hcore, rfl⟩ := Option.map_eq_some_iff.mp hok
  obtain ⟨core', hcore', hconsistent⟩ := h.consistent.append hblank line
  obtain rfl : core' = core := Option.some.inj (hcore'.symm.trans hcore)
  obtain ⟨htaken, hpc⟩ := AsyncLogger.append_taken h.consistent hcore
  exact ⟨⟨hconsistent, fun hthread => hpc.trans (h.between hthread)⟩, htaken, hpc, rfl, rfl⟩

/-- An iteration's next piece, with where it leaves the thread. -/
theorem threadStep_running (h : s.thread = .running)
    (hok : s.shutdownStep blank .thread = some s') :
    s.core.threadStep blank = some s'.core ∧ s'.isStop = s.isStop ∧
      (s'.core.pc = .locking ∧ s'.thread = .testing ∨
        s'.core.pc ≠ .locking ∧ s'.thread = .running) := by
  simp only [shutdownStep, threadStep, h] at hok
  obtain ⟨core, hcore, hs'⟩ := Option.map_eq_some_iff.mp hok
  split at hs'
  · rename_i hpc
    cases hs'
    exact ⟨hcore, rfl, Or.inl ⟨hpc, rfl⟩⟩
  · rename_i hpc
    cases hs'
    exact ⟨hcore, rfl, Or.inr ⟨hpc, rfl⟩⟩

theorem Sound.thread (h : Sound log s) (hblank : ∃ g n, blank.Holds g [] n)
    (hfew : s.FewBuffers .thread) (hok : s.shutdownStep blank .thread = some s') :
    Sound log s' := by
  cases hthread : s.thread with
  | running =>
      obtain ⟨hcore, -, hwhere⟩ := threadStep_running hthread hok
      obtain ⟨core', hcore', hconsistent⟩ := h.consistent.threadStep hblank (hfew hthread)
      obtain rfl : core' = s'.core := Option.some.inj (hcore'.symm.trans hcore)
      refine ⟨hconsistent, fun hnot => ?_⟩
      rcases hwhere with ⟨hpc, -⟩ | ⟨-, hrunning⟩
      · exact hpc
      · rw [hrunning] at hnot
        rcases hnot with hnot | hnot <;> cases hnot
  | testing =>
      simp only [shutdownStep, threadStep, hthread] at hok
      cases hok
      exact ⟨h.consistent, fun _ => h.between (Or.inl hthread)⟩
  | absent =>
      simp only [shutdownStep, threadStep, hthread] at hok
      cases hok
  | ended =>
      simp only [shutdownStep, threadStep, hthread] at hok
      cases hok

theorem Sound.step (h : Sound log s) (hblank : ∃ g n, blank.Holds g [] n) {step : ShutdownStep}
    (hfew : s.FewBuffers step) (hok : s.shutdownStep blank step = some s') :
    Sound (log ++ step.line) s' := by
  cases step with
  | append line => exact (h.append hok hblank).1
  | start =>
      simp only [shutdownStep] at hok
      split at hok <;> cases hok
      rw [ShutdownStep.line, List.append_nil]
      refine ⟨h.consistent, fun hnot => ?_⟩
      rcases hnot with hnot | hnot <;> cases hnot
  | thread =>
      rw [ShutdownStep.line, List.append_nil]
      exact h.thread hblank hfew hok
  | stop =>
      simp only [shutdownStep] at hok
      split at hok <;> cases hok
      rw [ShutdownStep.line, List.append_nil]
      exact ⟨h.consistent, h.between⟩

/-- Once `Stop` has been called, bytes that were appended before reach the file or do not
reach it whatever the next step is: an iteration that has not yet taken the buffers takes
them all, and no other begins. -/
theorem Stopping.step {n : Nat} (hstop : Stopping s) (h : Sound log s)
    (hblank : ∃ g n, blank.Holds g [] n) {step : ShutdownStep}
    (hfew : s.FewBuffers step) (hok : s.shutdownStep blank step = some s') (hn : n ≤ log.length) :
    Stopping s' ∧ (Reaches n s' ↔ Reaches n s) := by
  cases step with
  | append line =>
      obtain ⟨-, htaken, hpc, hthread, his⟩ := h.append hok hblank
      refine ⟨⟨his.trans hstop.isStop, hthread ▸ hstop.present⟩, ?_⟩
      rw [Reaches, Reaches, BeforeTake, BeforeTake, htaken, hpc, hthread]
  | start =>
      simp only [shutdownStep, if_neg hstop.present] at hok
      cases hok
  | stop =>
      simp only [shutdownStep, if_neg hstop.present] at hok
      cases hok
      exact ⟨⟨rfl, hstop.present⟩, Iff.rfl⟩
  | thread =>
      cases hthread : s.thread with
      | running =>
          obtain ⟨hcore, his, hwhere⟩ := threadStep_running hthread hok
          have hsound := h.thread hblank hfew hok
          refine ⟨⟨his.trans hstop.isStop, ?_⟩, ?_⟩
          · rcases hwhere with ⟨-, hwhere⟩ | ⟨-, hwhere⟩ <;>
            · rw [hwhere]
              exact LoggerThread.noConfusion
          · rcases AsyncLogger.threadStep_taken h.consistent hcore with
              ⟨hpc, -, hpc'⟩ | ⟨hpc, hshared, -⟩ | ⟨hlocking, hwaiting, htaken, hpc'⟩
            · -- it waits
              refine iff_of_true (Or.inr ⟨?_, Or.inr hpc'⟩) (Or.inr ⟨hthread, Or.inl hpc⟩)
              rcases hwhere with ⟨hlocking, -⟩ | ⟨-, hrunning⟩
              · rw [hpc'] at hlocking
                cases hlocking
              · exact hrunning
            · -- it takes what there is
              refine iff_of_true (Or.inl ?_) (Or.inr ⟨hthread, hpc⟩)
              have hall := hsound.consistent.taken_append_shared
              rw [hshared, List.append_nil] at hall
              rw [hall]
              exact hn
            · -- it is behind its critical section
              have hbefore : ¬ s.BeforeTake := fun hb => hb.2.elim hlocking hwaiting
              have hbefore' : ¬ s'.BeforeTake := by
                rintro ⟨hrunning, hpc | hpc⟩
                · rcases hwhere with ⟨-, htesting⟩ | ⟨hne, -⟩
                  · rw [htesting] at hrunning
                    cases hrunning
                  · exact hne hpc
                · exact hpc' hpc
              rw [Reaches, Reaches, htaken]
              simp only [hbefore, hbefore']
      | testing =>
          -- the loop ends
          simp only [shutdownStep, threadStep, hthread, hstop.isStop, if_true] at hok
          cases hok
          refine ⟨⟨rfl, LoggerThread.noConfusion⟩, or_congr_right ?_⟩
          refine iff_of_false (fun hb => ?_) (fun hb => ?_)
          · cases hb.1
          · exact LoggerThread.noConfusion (hthread.symm.trans hb.1)
      | absent => exact absurd hthread hstop.present
      | ended =>
          simp only [shutdownStep, threadStep, hthread] at hok
          cases hok

theorem exec_sound (hblank : ∃ g n, blank.Holds g [] n) {steps : List ShutdownStep}
    {outs : List Unit} (h : Sound log s) (hfew : (shutdown blank).Meets FewBuffers s steps)
    (hrun : (shutdown blank).exec s steps = some (s', outs)) :
    Sound (log ++ lines steps) s' := by
  induction steps generalizing s log outs with
  | nil =>
      cases hrun
      rw [lines, List.flatMap_nil, List.append_nil]
      exact h
  | cons step steps ih =>
      obtain ⟨t, o, outs', hstep, hrest, -⟩ := Machine.exec_cons_eq_some.mp hrun
      have hok := Machine.map_unit_eq_some.mp hstep
      rw [lines, List.flatMap_cons, ← List.append_assoc]
      exact ih (h.step hblank hfew.1 hok) (hfew.2 _ _ hstep) hrest

theorem exec_reaches (hblank : ∃ g n, blank.Holds g [] n) {steps : List ShutdownStep}
    {outs : List Unit} {n : Nat} (hstop : Stopping s) (h : Sound log s) (hn : n ≤ log.length)
    (hfew : (shutdown blank).Meets FewBuffers s steps)
    (hrun : (shutdown blank).exec s steps = some (s', outs)) :
    Reaches n s' ↔ Reaches n s := by
  induction steps generalizing s log outs with
  | nil =>
      cases hrun
      rfl
  | cons step steps ih =>
      obtain ⟨t, o, outs', hstep, hrest, -⟩ := Machine.exec_cons_eq_some.mp hrun
      have hok := Machine.map_unit_eq_some.mp hstep
      obtain ⟨hstop', hreaches⟩ := hstop.step h hblank hfew.1 hok hn
      refine Iff.trans ?_ hreaches
      refine ih hstop' (h.step hblank hfew.1 hok) ?_ (hfew.2 _ _ hstep) hrest
      rw [List.length_append]
      exact Nat.le_add_right_of_le hn

/-- **What `Stop` flushes.** In every interleaving in which no iteration takes more than 25
buffers: when a `Stop` has returned, all lines appended before its call are written, once
and in order, exactly if at the call the shared buffers held no line, or the thread was in
an iteration and in front of its critical section. -/
theorem stop_flushes_iff {size : Nat} (hblank : Buffer.new size = .ok blank)
    {before after : List ShutdownStep} {s t : StoppableLogger} {outs₁ outs₂ : List Unit}
    (hbefore : (shutdown blank).run before = some (s, outs₁))
    (hafter : (shutdown blank).exec s (.stop :: after) = some (t, outs₂))
    (hfew₁ : (shutdown blank).Meets FewBuffers (new blank) before)
    (hfew₂ : (shutdown blank).Meets FewBuffers s (.stop :: after)) (hjoined : t.thread = .ended) :
    (lines before <+: t.core.written ∧ t.core.written <+: lines (before ++ .stop :: after)) ↔
      s.core.shared = [] ∨ s.BeforeTake := by
  have hholds : ∃ g n, blank.Holds g [] n := ⟨NUL, _, Buffer.holds_of_new hblank⟩
  have hinit : Sound [] (new blank) := by
    refine ⟨AsyncLogger.Consistent.new hholds, fun hnot => ?_⟩
    rcases hnot with hnot | hnot <;> cases hnot
  have hs := exec_sound hholds hinit hfew₁ hbefore
  rw [List.nil_append] at hs
  have ht := exec_sound hholds hs hfew₂ hafter
  have hlines : lines before ++ lines (.stop :: after) = lines (before ++ .stop :: after) := by
    rw [lines, lines, lines, List.flatMap_append]
  rw [hlines] at ht
  -- the thread is through: what it took is written
  have hwritten : t.core.taken = t.core.written := by
    apply AsyncLogger.taken_of_idle
    simp only [AsyncLogger.unwritten, ht.between (Or.inr hjoined)]
  have hall : t.core.written ++ t.core.shared = lines (before ++ .stop :: after) := by
    rw [← hwritten]
    exact ht.consistent.taken_append_shared
  have hpart := hs.consistent.taken_append_shared
  -- from the call on
  obtain ⟨u, o, outs', hstep, hrest, -⟩ := Machine.exec_cons_eq_some.mp hafter
  have hpresent : s.thread ≠ .absent := by
    intro habsent
    simp [shutdown, shutdownStep, habsent] at hstep
  have hu : u = { s with isStop := true } := by
    simp only [shutdown, shutdownStep, if_neg hpresent, Option.map_some, Option.some.injEq,
      Prod.mk.injEq] at hstep
    exact hstep.1.symm
  subst hu
  have hreaches := exec_reaches hholds (n := (lines before).length)
    (⟨rfl, hpresent⟩ : Stopping { s with isStop := true }) ⟨hs.consistent, hs.between⟩
    (Nat.le_refl _) (hfew₂.2 _ _ hstep) hrest
  have hend : Reaches (lines before).length t ↔ lines before <+: t.core.written := by
    have hnot : ¬ t.BeforeTake := by
      rintro ⟨hrunning, -⟩
      rw [hjoined] at hrunning
      cases hrunning
    rw [Reaches, or_iff_left hnot, hwritten]
    constructor
    · intro hle
      refine List.prefix_of_prefix_length_le ⟨lines (.stop :: after), hlines⟩ ⟨_, hall⟩ hle
    · exact fun hprefix => hprefix.length_le
  have hcall : Reaches (lines before).length { s with isStop := true } ↔
      s.core.shared = [] ∨ s.BeforeTake := by
    apply or_congr_left
    show (lines before).length ≤ s.core.taken.length ↔ _
    rw [← hpart, List.length_append, ← List.length_eq_zero_iff]
    exact ⟨fun hle => by omega, fun hzero => by omega⟩
  rw [← hcall, ← hreaches, hend]
  exact and_iff_left ⟨_, hall⟩

/-- `Stop` is called while the thread waits: the line is written. -/
theorem stop_flushes_waiting :
    ∃ s t outs₁ outs₂, (shutdown ⟨List.replicate 8 NUL, 1, 1⟩).run
        [.start, .thread, .thread, .thread, .append (ascii "abc")] = some (s, outs₁) ∧
      (shutdown ⟨List.replicate 8 NUL, 1, 1⟩).exec s (.stop :: List.replicate 8 .thread) =
        some (t, outs₂) ∧ t.core.written = ascii "abc" ∧
      ((lines [.start, .thread, .thread, .thread, .append (ascii "abc")] <+: t.core.written ∧
        t.core.written <+: lines ([.start, .thread, .thread, .thread, .append (ascii "abc")] ++
          .stop :: List.replicate 8 .thread)) ↔ s.core.shared = [] ∨ s.BeforeTake) :=
  ⟨_, _, _, _, rfl, rfl, rfl, stop_flushes_iff (show Buffer.new 8 = _ from rfl) rfl rfl
    (by decide +kernel) (by decide +kernel) rfl⟩

/-- `Stop` is called between an iteration's critical section and its end: the line that
came meanwhile stays in the buffer. -/
theorem stop_loses_line :
    ¬ ∀ (size : Nat) (blank : Buffer) (before after : List ShutdownStep) (s t : StoppableLogger)
      (outs₁ outs₂ : List Unit), Buffer.new size = .ok blank →
      (shutdown blank).run before = some (s, outs₁) →
      (shutdown blank).exec s (.stop :: after) = some (t, outs₂) →
      (shutdown blank).Meets FewBuffers (new blank) before →
      (shutdown blank).Meets FewBuffers s (.stop :: after) → t.thread = .ended →
      lines before <+: t.core.written ∧ t.core.written <+: lines (before ++ .stop :: after) := by
  intro h
  have hlost := (h 8 ⟨List.replicate 8 NUL, 1, 1⟩
    [.start, .thread, .thread, .thread, .thread, .append (ascii "abc")] (List.replicate 7 .thread)
    _ _ _ _ rfl rfl rfl (by decide +kernel) (by decide +kernel) rfl).1.length_le
  revert hlost
  decide +kernel

end StoppableLogger

end WhiteWebServer
