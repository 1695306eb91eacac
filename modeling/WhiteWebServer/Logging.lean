import WhiteWebServer.LogFile
import WhiteWebServer.LoggerShutdown

/-!
# The logger and its files

`ThreadFunction` with the `LogFile` it writes to. §1 the two together; §2 the log over
all its files; §3 what a run leaves in the directory; §4 what an iteration has brought
there; §5 processes that are killed and started again.
-/

namespace WhiteWebServer

/-! ## §1  The thread and its file -/

/-- `kBufferSize`, `real_file_path_` and the two limits of `LogFile`; `blank` is what
`std::make_shared<Buffer>(kBufferSize)` makes. -/
structure LogSetup where
  kBufferSize : Nat
  blank : Buffer
  made : Buffer.new kBufferSize = .ok blank
  path : Bytes
  flushEveryN : Nat
  limit : Int

/-- The logger, the directory that the process found, and `output` from where
`ThreadFunction` has made it. -/
structure Logging where
  core : AsyncLogger
  found : Files Bytes Byte
  output : Option LogFile

/-- A call of `Append` by some thread, or the next piece of `ThreadFunction`; if it
writes, the stream passes on `drained` bytes of what it has. -/
inductive LogStep
  | append (line : Bytes)
  | thread (drained : Nat)

def LogStep.line : LogStep → Bytes
  | .append line => line
  | .thread _ => []

/-- The call on `output` in the next piece of `ThreadFunction`. -/
def AsyncLogger.logCall (drained : Nat) (s : AsyncLogger) : Option LogFile.LogCall :=
  match s.pc with
  | .writing index =>
      s.buffersToWrite[index]?.map fun buffer => .append (s.store buffer).readable drained
  | .flush => some .flush
  | _ => none

/-- `LogFile output(filename_.c_str())` -/
def LogSetup.logFile (c : LogSetup) (disk : Files Bytes Byte) : LogFile :=
  LogFile.new disk c.path c.flushEveryN c.limit

namespace Logging

def new (c : LogSetup) (disk : Files Bytes Byte) : Logging :=
  { core := AsyncLogger.new c.blank
    found := disk
    output := none }

def threadStep (c : LogSetup) (drained : Nat) (s : Logging) : Option Logging :=
  (s.core.threadStep c.blank).map fun core =>
    match s.core.pc with
    | .start => { s with core := core, output := some (c.logFile s.found) }
    | _ =>
        match s.core.logCall drained with
        | none => { s with core := core }
        | some call =>
            { s with core := core, output := s.output.map fun output => (output.logStep call).1 }

def logStep (c : LogSetup) (s : Logging) : LogStep → Option Logging
  | .append line => (s.core.append c.blank line).map fun core => { s with core := core }
  | .thread drained => s.threadStep c drained

def logging (c : LogSetup) (disk : Files Bytes Byte) : Machine Logging LogStep Unit where
  init := new c disk
  step s step := (s.logStep c step).map (·, ())

/-- The directory as it is. -/
def disk (s : Logging) : Files Bytes Byte :=
  match s.output with
  | none => s.found
  | some output => output.disk

/-- What the stream has not passed on. -/
def buffered (s : Logging) : Bytes :=
  match s.output with
  | none => []
  | some output => output.buffered

/-- The lines of the `Append`s among the steps. -/
def lines (steps : List LogStep) : Bytes := steps.flatMap LogStep.line

/-- No iteration takes more than 25 buffers. -/
def FewBuffers (s : Logging) : LogStep → Prop
  | .append _ => True
  | .thread _ => s.core.FewBuffers .thread

instance (s : Logging) : (step : LogStep) → Decidable (s.FewBuffers step)
  | .append _ => isTrue trivial
  | .thread _ => inferInstanceAs (Decidable (s.core.FewBuffers .thread))

end Logging

/-! ## §2  The log over all its files -/

namespace LogFile

/-- The files of the first `k` numbers are there, and no others with a number. -/
def Numbered (disk : Files Bytes Byte) (path : Bytes) (k : Nat) : Prop :=
  ∀ j, numbered path j ∈ disk ↔ j < k

/-- The first `k` rotated files one behind the other, and the file that is written to. -/
def fullLog (disk : Files Bytes Byte) (path : Bytes) (k : Nat) : Bytes :=
  ((List.range k).flatMap fun j => disk.content (numbered path j)) ++ disk.content path

/-- `Grown`, where the files of the rotations are there and the stream has passed on all
but the last of what came. -/
structure Rotated (s s' : LogFile) (r : Nat) (more : Bytes) : Prop where
  grown : Grown s s' r more
  made : ∀ j, s.fileSplitCount ≤ j → j < s.fileSplitCount + r →
    numbered s.realFilePath j ∈ s'.disk
  last : s'.buffered <:+ s.buffered ++ more

theorem Rotated.refl (s : LogFile) : Rotated s s 0 [] :=
  ⟨Grown.refl s, fun _ hle hlt => absurd hlt (Nat.not_lt.mpr hle),
    (List.append_nil s.buffered).symm ▸ List.suffix_rfl⟩

/-- No file that has a number goes away. -/
theorem Grown.mem_numbered {s s' : LogFile} {r : Nat} {more : Bytes} (h : Grown s s' r more)
    {j : Nat} (hj : j < s.fileSplitCount ∨ s.fileSplitCount + r ≤ j) :
    numbered s.realFilePath j ∈ s'.disk ↔ numbered s.realFilePath j ∈ s.disk := by
  have hlookup : s'.disk.lookup (numbered s.realFilePath j) =
      s.disk.lookup (numbered s.realFilePath j) := by
    apply h.other _ (numbered_ne _ j)
    intro i hle hlt heq
    have hij := numbered_injective _ heq
    omega
  rw [← not_iff_not, ← Finmap.lookup_eq_none, ← Finmap.lookup_eq_none, hlookup]

theorem Rotated.trans {s t u : LogFile} {r₁ r₂ : Nat} {x y : Bytes} (h₁ : Rotated s t r₁ x)
    (h₂ : Rotated t u r₂ y) : Rotated s u (r₁ + r₂) (x ++ y) := by
  have hpath := h₁.grown.path
  have hnumber := h₁.grown.number
  constructor
  case grown => exact h₁.grown.trans h₂.grown
  case made =>
    intro j hle hlt
    by_cases hj : j < s.fileSplitCount + r₁
    · have hold := @Grown.mem_numbered t u r₂ y h₂.grown j (Or.inl (by omega))
      rw [hpath] at hold
      exact hold.mpr (h₁.made j hle hj)
    · have hnew := h₂.made j (by omega) (by omega)
      rw [hpath] at hnew
      exact hnew
  case last =>
    obtain ⟨front, hfront⟩ := h₁.last
    have hlast : u.buffered <:+ front ++ (t.buffered ++ y) := List.suffix_append_of_suffix h₂.last
    rwa [← List.append_assoc, hfront, List.append_assoc] at hlast

theorem rotate_mem (s : LogFile) : numbered s.realFilePath s.fileSplitCount ∈ s.rotate.1.disk := by
  apply Finmap.mem_of_lookup_eq_some
  exact (Files.lookup_append_of_ne (numbered_ne _ _) _ _).trans
    (Files.lookup_rename_new s.flush_lookup _)

/-- A call rotates once or not at all. -/
theorem logStep_rotated (s : LogFile) (call : LogCall) :
    ∃ r, Rotated s (s.logStep call).1 r call.line := by
  have hlast : (s.logStep call).1.buffered <:+ s.buffered ++ call.line := by
    cases call with
    | flush => exact List.nil_suffix
    | append line drained =>
        simp only [logStep, append]
        split <;> split
        · exact List.nil_suffix
        · exact List.nil_suffix
        · exact List.nil_suffix
        · exact List.drop_suffix _ _
  by_cases hfills : s.Fills call
  · refine ⟨1, (logStep_of_fills hfills).1, fun j hle hlt => ?_, hlast⟩
    obtain rfl : j = s.fileSplitCount := by omega
    cases call with
    | flush => exact hfills.elim
    | append line drained =>
        have hlimit : s.curBytes + line.length ≥ s.logFileSizeLimit := hfills
        simp only [logStep, append]
        split <;> split
        · exact rotate_mem (s.write line drained).flush
        · exact absurd hlimit ‹_›
        · exact rotate_mem _
        · exact absurd hlimit ‹_›
  · refine ⟨0, (logStep_of_not_fills hfills).1, fun j hle hlt => ?_, hlast⟩
    exact absurd hlt (Nat.not_lt.mpr hle)

/-- The directory `disk'` has what `disk` had and, behind what the log held, `more`; there
are `k'` rotated files where there were `k`. -/
structure Extends (path : Bytes) (disk : Files Bytes Byte) (k : Nat) (disk' : Files Bytes Byte)
    (k' : Nat) (more : Bytes) : Prop where
  le : k ≤ k'
  numbered : Numbered disk' path k'
  log : fullLog disk' path k' = fullLog disk path k ++ more
  other : ∀ name, name ≠ path → (∀ j, k ≤ j → j < k' → name ≠ LogFile.numbered path j) →
    disk'.lookup name = disk.lookup name

variable {disk disk' : Files Bytes Byte} {path : Bytes} {k flushEveryN : Nat} {limit : Int}

theorem Extends.refl (h : Numbered disk path k) : Extends path disk k disk k [] :=
  ⟨Nat.le_refl k, h, (List.append_nil _).symm, fun _ _ _ => rfl⟩

theorem Extends.trans {disk'' : Files Bytes Byte} {k' k'' : Nat} {x y : Bytes}
    (h₁ : Extends path disk k disk' k' x) (h₂ : Extends path disk' k' disk'' k'' y) :
    Extends path disk k disk'' k'' (x ++ y) := by
  constructor
  case le => exact le_trans h₁.le h₂.le
  case numbered => exact h₂.numbered
  case log => rw [h₂.log, h₁.log, List.append_assoc]
  case other =>
    intro name hname hnot
    have hfirst := h₁.other name hname fun j hle hlt => hnot j hle (lt_of_lt_of_le hlt h₂.le)
    have hsecond := h₂.other name hname fun j hle hlt => hnot j (le_trans h₁.le hle) hlt
    exact hsecond.trans hfirst

theorem new_fileSplitCount (h : Numbered disk path k) :
    (new disk path flushEveryN limit).fileSplitCount = k := by
  have hleast : IsLeast {j | numbered path j ∉ disk} k := by
    constructor
    · intro hmem
      exact Nat.lt_irrefl k ((h k).mp hmem)
    · intro j hj
      by_contra hlt
      exact hj ((h j).mpr (Nat.not_le.mp hlt))
  exact (new_isLeast disk path flushEveryN limit).unique hleast

theorem new_lookup {name : Bytes} (hname : name ≠ path) :
    (new disk path flushEveryN limit).disk.lookup name = disk.lookup name :=
  Files.lookup_append_of_ne hname _ _

theorem new_text : (new disk path flushEveryN limit).text = disk.content path := by
  change (Files.append path [] disk).content path ++ [] = _
  rw [Files.content_append_self, List.append_nil, List.append_nil]

/-- What a log file leaves in the directory that it was opened in. -/
theorem Rotated.extends (hdisk : Numbered disk path k) {s : LogFile} {r : Nat} {more : Bytes}
    (h : Rotated (new disk path flushEveryN limit) s r more) :
    ∃ passed, Extends path disk k s.disk (k + r) passed ∧ passed ++ s.buffered = more := by
  have hcount := @new_fileSplitCount disk path k flushEveryN limit hdisk
  obtain ⟨passed, hpassed⟩ := h.last
  have hother : ∀ name, name ≠ path → (∀ j, k ≤ j → j < k + r → name ≠ numbered path j) →
      s.disk.lookup name = disk.lookup name := by
    intro name hname hnot
    refine (h.grown.other name hname ?_).trans (new_lookup hname)
    rw [hcount]
    exact hnot
  refine ⟨passed, ⟨Nat.le_add_right k r, ?_, ?_, hother⟩, hpassed⟩
  · intro j
    by_cases hj : k ≤ j ∧ j < k + r
    · refine iff_of_true (h.made j ?_ ?_) hj.2
      · rw [hcount]
        exact hj.1
      · rw [hcount]
        exact hj.2
    · -- a number that no rotation took
      have hsame := hother (numbered path j) (numbered_ne path j) fun i hle hlt heq =>
        hj (numbered_injective path heq ▸ ⟨hle, hlt⟩)
      rw [← not_iff_not, ← Finmap.lookup_eq_none, hsame, Finmap.lookup_eq_none, not_iff_not,
        hdisk j]
      omega
  · have hold : ∀ j ∈ List.range k, s.disk.content (numbered path j) =
        disk.content (numbered path j) := by
      intro j hj
      have hlt := List.mem_range.mp hj
      rw [Files.content, hother _ (numbered_ne path j) fun i hle _ heq =>
        Nat.not_lt.mpr hle (numbered_injective path heq ▸ hlt), Files.content]
    have hkept := h.grown.kept
    rw [text, h.grown.path, hcount, new_text] at hkept
    have hrange : List.range (k + r) = List.range k ++ List.range' k r := by
      rw [List.range_eq_range', List.range_eq_range', ← List.range'_append_1, Nat.zero_add]
    apply (List.append_left_inj s.buffered).mp
    calc fullLog s.disk path (k + r) ++ s.buffered
        = ((List.range k).flatMap fun j => disk.content (numbered path j)) ++
            (((List.range' k r).flatMap fun j => s.disk.content (numbered path j)) ++
              (s.disk.content path ++ s.buffered)) := by
          rw [fullLog, hrange, List.flatMap_append, List.flatMap_congr hold]
          simp only [List.append_assoc]
      _ = ((List.range k).flatMap fun j => disk.content (numbered path j)) ++
            (disk.content path ++ (passed ++ s.buffered)) := by
          rw [hpassed]
          exact congrArg _ hkept
      _ = fullLog disk path k ++ passed ++ s.buffered := by
          simp only [fullLog, List.append_assoc]

end LogFile

/-! ## §3  What a run leaves in the directory -/

namespace AsyncLogger

variable {s s' : AsyncLogger} {blank : Buffer}

theorem append_written {line : Bytes} (hok : s.append blank line = some s') :
    s'.written = s.written := by
  unfold append at hok
  split at hok
  · cases hok
  · split at hok
    · cases hok
      rfl
    · simp only at hok
      split at hok <;> cases hok <;> rfl

theorem takeBuffers_written (hok : s.takeBuffers = some s') :
    s'.written = s.written ∧ s'.pc = .taken := by
  unfold takeBuffers at hok
  split at hok
  · cases hok
  · simp only at hok
    split at hok <;> cases hok <;> exact ⟨rfl, rfl⟩

/-- What a piece of `ThreadFunction` writes is in the call it makes. -/
theorem threadStep_written (drained : Nat) (hok : s.threadStep blank = some s') :
    s'.pc ≠ .start ∧
      s'.written = s.written ++ (s.logCall drained).elim [] LogFile.LogCall.line := by
  unfold threadStep at hok
  cases hpc : s.pc with
  | start =>
      simp only [hpc] at hok
      cases hok
      simp only [logCall, hpc]
      exact ⟨LoggerPc.noConfusion, (List.append_nil _).symm⟩
  | locking =>
      simp only [logCall, hpc, Option.elim_none, List.append_nil] at hok ⊢
      split at hok
      · cases hok
        exact ⟨LoggerPc.noConfusion, rfl⟩
      · obtain ⟨hwritten, htaken⟩ := takeBuffers_written hok
        exact ⟨htaken ▸ LoggerPc.noConfusion, hwritten⟩
  | waiting =>
      simp only [logCall, hpc, Option.elim_none, List.append_nil] at hok ⊢
      obtain ⟨hwritten, htaken⟩ := takeBuffers_written hok
      exact ⟨htaken ▸ LoggerPc.noConfusion, hwritten⟩
  | taken =>
      simp only [logCall, hpc, Option.elim_none, List.append_nil] at hok ⊢
      split at hok
      · cases hok
        exact ⟨LoggerPc.noConfusion, rfl⟩
      · split at hok <;> cases hok <;> exact ⟨LoggerPc.noConfusion, rfl⟩
  | writing index =>
      simp only [logCall, hpc] at hok ⊢
      split at hok
      · rename_i buffer hget
        cases hok
        rw [hget]
        exact ⟨LoggerPc.noConfusion, rfl⟩
      · rename_i hget
        rw [hget]
        split at hok <;> cases hok <;>
          exact ⟨LoggerPc.noConfusion, (List.append_nil _).symm⟩
  | refill₁ =>
      simp only [logCall, hpc, Option.elim_none, List.append_nil] at hok ⊢
      split at hok
      · cases hok
        exact ⟨LoggerPc.noConfusion, rfl⟩
      · obtain ⟨r, hr, rfl⟩ := Option.map_eq_some_iff.mp hok
        exact ⟨LoggerPc.noConfusion, recycle_written hr⟩
  | refill₂ =>
      simp only [logCall, hpc, Option.elim_none, List.append_nil] at hok ⊢
      split at hok
      · cases hok
        exact ⟨LoggerPc.noConfusion, rfl⟩
      · obtain ⟨r, hr, rfl⟩ := Option.map_eq_some_iff.mp hok
        exact ⟨LoggerPc.noConfusion, recycle_written hr⟩
  | flush =>
      simp only [hpc] at hok
      cases hok
      simp only [logCall, hpc]
      exact ⟨LoggerPc.noConfusion, (List.append_nil _).symm⟩

end AsyncLogger

theorem LogSetup.blank_holds (c : LogSetup) : ∃ g n, c.blank.Holds g [] n :=
  ⟨NUL, _, Buffer.holds_of_new c.made⟩

namespace Logging

open AsyncLogger (Consistent)
open LogFile (Numbered Rotated Extends)

variable {c : LogSetup} {disk : Files Bytes Byte} {log : Bytes} {s s' : Logging} {k : Nat}

/-- The logger's invariant, and that `output` has been given what the thread wrote. -/
structure Sound (c : LogSetup) (disk : Files Bytes Byte) (log : Bytes) (s : Logging) : Prop where
  consistent : Consistent log s.core
  found : s.found = disk
  closed : s.output = none → s.core.pc = .start ∧ s.core.written = []
  opened : ∀ output, s.output = some output → s.core.pc ≠ .start ∧
    ∃ r, Rotated (c.logFile disk) output r s.core.written

theorem sound_new (c : LogSetup) (disk : Files Bytes Byte) : Sound c disk [] (new c disk) := by
  constructor
  case consistent => exact Consistent.new c.blank_holds
  case found => rfl
  case closed =>
    intro _
    exact ⟨rfl, rfl⟩
  case opened =>
    intro output hnone
    cases hnone

theorem Sound.append (h : Sound c disk log s) (line : Bytes) :
    ∃ s', s.logStep c (.append line) = some s' ∧ Sound c disk (log ++ line) s' := by
  obtain ⟨core, hcore, hconsistent⟩ := h.consistent.append c.blank_holds line
  have hwritten := AsyncLogger.append_written hcore
  have hpc := (AsyncLogger.append_taken h.consistent hcore).2
  refine ⟨{ s with core := core }, by rw [logStep, hcore, Option.map_some], ?_⟩
  constructor
  case consistent => exact hconsistent
  case found => exact h.found
  case closed =>
    intro hnone
    rw [hpc, hwritten]
    exact h.closed hnone
  case opened =>
    intro output hsome
    rw [hpc, hwritten]
    exact h.opened output hsome

/-- `ThreadFunction` makes its file. -/
theorem Sound.start (h : Sound c disk log s) (drained : Nat) (hstart : s.core.pc = .start)
    {core : AsyncLogger} (hcore : s.core.threadStep c.blank = some core)
    (hconsistent : Consistent log core) :
    ∃ s', s.logStep c (.thread drained) = some s' ∧ Sound c disk log s' := by
  obtain ⟨hpc, hwritten⟩ := AsyncLogger.threadStep_written drained hcore
  have hnone : s.output = none := by
    rcases hout : s.output with _ | output
    · rfl
    · exact absurd hstart (h.opened output hout).1
  rw [(h.closed hnone).2, AsyncLogger.logCall, hstart] at hwritten
  refine ⟨{ s with core := core, output := some (c.logFile s.found) }, ?_, hconsistent, h.found,
    fun hnone => absurd hnone (Option.some_ne_none _), ?_⟩
  · rw [logStep, threadStep, hcore, hstart, Option.map_some]
  · rintro output ⟨rfl⟩
    refine ⟨hpc, 0, ?_⟩
    rw [hwritten, h.found]
    exact Rotated.refl _

/-- `ThreadFunction` goes on with its file. -/
theorem Sound.continue (h : Sound c disk log s) (drained : Nat) (hstart : s.core.pc ≠ .start)
    {core : AsyncLogger} (hcore : s.core.threadStep c.blank = some core)
    (hconsistent : Consistent log core) :
    ∃ s', s.logStep c (.thread drained) = some s' ∧ Sound c disk log s' := by
  obtain ⟨hpc, hwritten⟩ := AsyncLogger.threadStep_written drained hcore
  obtain ⟨output, hout⟩ : ∃ output, s.output = some output := by
    rcases hout : s.output with _ | output
    · exact absurd (h.closed hout).1 hstart
    · exact ⟨output, rfl⟩
  obtain ⟨-, r, hrotated⟩ := h.opened output hout
  cases hcall : s.core.logCall drained with
  | none =>
      rw [hcall, Option.elim_none, List.append_nil] at hwritten
      refine ⟨{ s with core := core }, ?_, hconsistent, h.found, fun hnone => ?_,
        fun output' hsome => ?_⟩
      · simp only [logStep, threadStep, hcore, hcall, Option.map_some]
      · rw [show s.output = none from hnone] at hout
        cases hout
      · obtain rfl := Option.some.inj (hout.symm.trans hsome)
        exact ⟨hpc, r, hwritten.symm ▸ hrotated⟩
  | some call =>
      rw [hcall, Option.elim_some] at hwritten
      refine ⟨⟨core, s.found, some (output.logStep call).1⟩, ?_, hconsistent, h.found,
        fun hnone => absurd hnone (Option.some_ne_none _), ?_⟩
      · simp only [logStep, threadStep, hcore, hcall, hout, Option.map_some]
      · rintro output' ⟨rfl⟩
        obtain ⟨r', hmore⟩ := output.logStep_rotated call
        exact ⟨hpc, r + r', hwritten.symm ▸ hrotated.trans hmore⟩

theorem Sound.step (h : Sound c disk log s) {step : LogStep} (hfew : s.FewBuffers step) :
    ∃ s', s.logStep c step = some s' ∧ Sound c disk (log ++ step.line) s' := by
  cases step with
  | append line => exact h.append line
  | thread drained =>
      obtain ⟨core, hcore, hconsistent⟩ := h.consistent.threadStep c.blank_holds hfew
      rw [LogStep.line, List.append_nil]
      by_cases hstart : s.core.pc = .start
      · exact h.start drained hstart hcore hconsistent
      · exact h.continue drained hstart hcore hconsistent

/-- Every run goes on to its end, and the invariant holds there of all that was said. -/
theorem Sound.exec {steps : List LogStep} (h : Sound c disk log s)
    (hfew : (logging c disk).Meets FewBuffers s steps) :
    ∃ s' os, (logging c disk).exec s steps = some (s', os) ∧
      Sound c disk (log ++ lines steps) s' := by
  induction steps generalizing log s with
  | nil => exact ⟨s, [], rfl, by rwa [lines, List.flatMap_nil, List.append_nil]⟩
  | cons step steps ih =>
      obtain ⟨t, ht, hsound⟩ := h.step hfew.1
      have hstep : (logging c disk).step s step = some (t, ()) := by
        show (s.logStep c step).map (·, ()) = _
        rw [ht, Option.map_some]
      obtain ⟨s', os, hrun, hs'⟩ := ih hsound (hfew.2 t () hstep)
      refine ⟨s', () :: os, Machine.exec_cons_eq_some.mpr ⟨t, (), os, hstep, hrun, rfl⟩, ?_⟩
      rwa [lines, List.flatMap_cons, ← List.append_assoc]

/-- What is in the directory, in the stream and in the logger's buffers. -/
theorem Sound.extends (h : Sound c disk log s) (hdisk : Numbered disk c.path k) :
    ∃ k' passed, Extends c.path disk k s.disk k' passed ∧
      passed ++ s.buffered = s.core.written := by
  rcases hout : s.output with _ | output
  · refine ⟨k, [], ?_, ?_⟩
    · rw [Logging.disk, hout, h.found]
      exact Extends.refl hdisk
    · rw [buffered, hout, (h.closed hout).2]
      rfl
  · obtain ⟨-, r, hrotated⟩ := h.opened output hout
    obtain ⟨passed, hextends, hpassed⟩ := hrotated.extends hdisk
    refine ⟨k + r, passed, ?_, ?_⟩
    · rwa [Logging.disk, hout]
    · rwa [buffered, hout]

/-- **The log keeps what was there and every line.** In every interleaving of `Append`s with
the pieces of `ThreadFunction`, however its stream passes bytes on and however often the file
is rotated: the directory has what it had and a first part of the lines behind what the log
held, each once and in their order; the rest is in the stream and in the buffers. -/
theorem logging_keeps (c : LogSetup) {disk : Files Bytes Byte} {k : Nat}
    (hdisk : Numbered disk c.path k) {steps : List LogStep}
    (hfew : (logging c disk).Meets FewBuffers (new c disk) steps) :
    ∃ s os k' passed, (logging c disk).run steps = some (s, os) ∧
      Extends c.path disk k s.disk k' passed ∧
      passed ++ s.buffered ++ s.core.pending = lines steps := by
  obtain ⟨s, os, hrun, hs⟩ := (sound_new c disk).exec hfew
  obtain ⟨k', passed, hextends, hpassed⟩ := hs.extends hdisk
  refine ⟨s, os, k', passed, hrun, hextends, ?_⟩
  rw [hpassed, hs.consistent.core.lossless]
  rfl

/-- Buffers of eight bytes, and a file that is full with six. -/
def smallLog : LogSetup :=
  { kBufferSize := 8
    blank := ⟨List.replicate 8 NUL, 1, 1⟩
    made := rfl
    path := ascii "log"
    flushEveryN := 2
    limit := 6 }

theorem numbered_empty (path : Bytes) : Numbered ∅ path 0 := fun j =>
  iff_of_false Finmap.notMem_empty (Nat.not_lt_zero j)

/-- Two buffers are taken, and the second of them fills the file. -/
theorem logging_keeps_rotated :
    ∃ s os k' passed, (logging smallLog ∅).run
        [.thread 0, .append (ascii "abc"), .append (ascii "defgh"), .thread 0,
         .append (ascii "ij"), .thread 0, .thread 2, .thread 1, .thread 0] = some (s, os) ∧
      Extends smallLog.path ∅ 0 s.disk k' passed ∧
      passed ++ s.buffered ++ s.core.pending = lines
        [.thread 0, .append (ascii "abc"), .append (ascii "defgh"), .thread 0,
         .append (ascii "ij"), .thread 0, .thread 2, .thread 1, .thread 0] :=
  logging_keeps smallLog (numbered_empty _) (by decide +kernel)

/-! ## §4  What an iteration has brought there -/

/-- Where the thread stands behind its critical section it has just taken the buffers. -/
theorem taken_of_pc {s s' : AsyncLogger} (hok : s.threadStep c.blank = some s')
    (hpc : s'.pc = .taken) : s.pc = .locking ∨ s.pc = .waiting := by
  unfold AsyncLogger.threadStep at hok
  cases hs : s.pc with
  | locking => exact Or.inl rfl
  | waiting => exact Or.inr rfl
  | start =>
      simp only [hs] at hok
      cases hok
      cases hpc
  | taken =>
      simp only [hs] at hok
      split at hok
      · cases hok
        cases hpc
      · split at hok <;> cases hok <;> cases hpc
  | writing index =>
      simp only [hs] at hok
      split at hok
      · cases hok
        cases hpc
      · split at hok <;> cases hok <;> cases hpc
  | refill₁ =>
      simp only [hs] at hok
      split at hok
      · cases hok
        cases hpc
      · obtain ⟨r, -, rfl⟩ := Option.map_eq_some_iff.mp hok
        cases hpc
  | refill₂ =>
      simp only [hs] at hok
      split at hok
      · cases hok
        cases hpc
      · obtain ⟨r, -, rfl⟩ := Option.map_eq_some_iff.mp hok
        cases hpc
  | flush =>
      simp only [hs] at hok
      cases hok
      cases hpc

theorem logStep_thread {drained : Nat} (hok : s.logStep c (.thread drained) = some s') :
    s.core.threadStep c.blank = some s'.core := by
  obtain ⟨core, hcore, rfl⟩ := Option.map_eq_some_iff.mp hok
  rw [hcore]
  split
  · rfl
  · split <;> rfl

/-- The thread has taken all that was said so far. -/
theorem Sound.taken (h : Sound c disk log s) {drained : Nat}
    (hfew : s.FewBuffers (.thread drained))
    (hok : s.logStep c (.thread drained) = some s') (hpc : s'.core.pc = .taken) :
    s'.core.taken = log := by
  have hcore := logStep_thread hok
  obtain ⟨core, hcore', hconsistent⟩ := h.consistent.threadStep c.blank_holds hfew
  obtain rfl := Option.some.inj (hcore'.symm.trans hcore)
  rcases AsyncLogger.threadStep_taken h.consistent hcore with
    ⟨-, -, hwaiting⟩ | ⟨-, hshared, -⟩ | ⟨hlocking, hwaiting, -, -⟩
  · rw [hwaiting] at hpc
    cases hpc
  · have hall := hconsistent.taken_append_shared
    rwa [hshared, List.append_nil] at hall
  · exact absurd (taken_of_pc hcore hpc) (not_or.mpr ⟨hlocking, hwaiting⟩)

/-- What the thread has taken stays taken. -/
theorem Sound.taken_step (h : Sound c disk log s) {step : LogStep} (hfew : s.FewBuffers step)
    (hok : s.logStep c step = some s') : s.core.taken <+: s'.core.taken := by
  cases step with
  | append line =>
      obtain ⟨core, hcore, rfl⟩ := Option.map_eq_some_iff.mp hok
      rw [(AsyncLogger.append_taken h.consistent hcore).1]
  | thread drained =>
      have hcore := logStep_thread hok
      obtain ⟨core, hcore', hconsistent⟩ := h.consistent.threadStep c.blank_holds hfew
      obtain rfl := Option.some.inj (hcore'.symm.trans hcore)
      rcases AsyncLogger.threadStep_taken h.consistent hcore with
        ⟨-, htaken, -⟩ | ⟨-, hshared, -⟩ | ⟨-, -, htaken, -⟩
      · rw [htaken]
      · have hall := hconsistent.taken_append_shared
        rw [hshared, List.append_nil] at hall
        rw [hall, ← h.consistent.taken_append_shared]
        exact List.prefix_append _ _
      · rw [htaken]

theorem Sound.taken_exec {steps : List LogStep} {os : List Unit} (h : Sound c disk log s)
    (hfew : (logging c disk).Meets FewBuffers s steps)
    (hrun : (logging c disk).exec s steps = some (s', os)) : s.core.taken <+: s'.core.taken := by
  induction steps generalizing log s os with
  | nil =>
      simp only [Machine.exec_nil, Option.some.injEq, Prod.mk.injEq] at hrun
      rw [hrun.1]
  | cons step steps ih =>
      obtain ⟨t, o, os', hstep, hrest, -⟩ := Machine.exec_cons_eq_some.mp hrun
      have ht := Machine.map_unit_eq_some.mp hstep
      obtain ⟨t', ht', hsound⟩ := h.step hfew.1
      obtain rfl := Option.some.inj (ht'.symm.trans ht)
      exact (h.taken_step hfew.1 ht).trans (ih hsound (hfew.2 t' o hstep) hrest)

/-- Behind the flush the stream has nothing. -/
theorem Sound.flushed (h : Sound c disk log s) (hpc : s.core.pc = .flush) {drained : Nat}
    (hok : s.logStep c (.thread drained) = some s') :
    s'.buffered = [] ∧ s'.core.written = s.core.taken := by
  have hcore := logStep_thread hok
  have hwritten := (AsyncLogger.threadStep_written drained hcore).2
  have hcall : s.core.logCall drained = some .flush := by rw [AsyncLogger.logCall, hpc]
  rw [hcall, Option.elim_some, LogFile.LogCall.line, List.append_nil] at hwritten
  refine ⟨?_, hwritten.trans (AsyncLogger.taken_of_idle ?_).symm⟩
  · obtain ⟨core, -, rfl⟩ := Option.map_eq_some_iff.mp hok
    rw [hpc, hcall]
    rcases hout : s.output with _ | output
    · have hstart := (h.closed hout).1
      rw [hpc] at hstart
      cases hstart
    · simp only [buffered, Option.map_some]
      rfl
  · rw [AsyncLogger.unwritten, hpc]

/-- **What an iteration has written survives.** If the thread took the buffers behind `before`
and then came to its flush, whatever lines were appended in between, all of `before` is in the
files. -/
theorem iteration_durable (c : LogSetup) {disk : Files Bytes Byte} {k : Nat}
    (hdisk : Numbered disk c.path k) {before middle : List LogStep} {d₁ d₂ : Nat}
    (hfew : (logging c disk).Meets FewBuffers (new c disk)
      (before ++ .thread d₁ :: (middle ++ [.thread d₂]))) {t₁ t₂ : Logging} {os₁ os₂ : List Unit}
    (htake : (logging c disk).run (before ++ [.thread d₁]) = some (t₁, os₁))
    (htaken : t₁.core.pc = .taken)
    (hmiddle : (logging c disk).exec t₁ middle = some (t₂, os₂)) (hflush : t₂.core.pc = .flush) :
    ∃ s os k' passed, (logging c disk).run (before ++ .thread d₁ :: (middle ++ [.thread d₂])) =
        some (s, os) ∧
      Extends c.path disk k s.disk k' passed ∧ lines before <+: passed := by
  obtain ⟨hbefore, hrest⟩ := Machine.meets_append.mp hfew
  obtain ⟨t₀, os₀, hrun₀, hs₀⟩ := (sound_new c disk).exec hbefore
  obtain ⟨hfew₁, hrest₁⟩ := hrest t₀ os₀ hrun₀
  -- the critical section
  obtain ⟨t, os, o, hrun, hstep₁, -⟩ := Machine.exec_snoc.mp htake
  obtain ⟨rfl, rfl⟩ := Prod.mk.inj (Option.some.inj (hrun.symm.trans hrun₀))
  have hok₁ := Machine.map_unit_eq_some.mp hstep₁
  obtain ⟨t, ht, hs₁⟩ := hs₀.step hfew₁
  obtain rfl := Option.some.inj (ht.symm.trans hok₁)
  have hall := hs₀.taken hfew₁ hok₁ htaken
  -- what follows up to the flush
  obtain ⟨hfew₂, hrest₂⟩ := Machine.meets_append.mp (hrest₁ t o hstep₁)
  obtain ⟨t', os', hrun₂, hs₂⟩ := hs₁.exec hfew₂
  obtain ⟨rfl, rfl⟩ := Prod.mk.inj (Option.some.inj (hrun₂.symm.trans hmiddle))
  have hkept := hs₁.taken_exec hfew₂ hmiddle
  -- the flush
  have hfew₃ := (hrest₂ t' os' hmiddle).1
  obtain ⟨s, hok₃, hs₃⟩ := hs₂.step hfew₃
  obtain ⟨hbuffered, hwritten⟩ := hs₂.flushed hflush hok₃
  obtain ⟨k', passed, hextends, hpassed⟩ := hs₃.extends hdisk
  rw [hbuffered, List.append_nil, hwritten] at hpassed
  have hstep₃ : (logging c disk).step t' (.thread d₂) = some (s, ()) :=
    Machine.map_unit_eq_some.mpr hok₃
  refine ⟨s, _, k', passed, Machine.exec_append.mpr ⟨_, _, _, hrun₀,
    Machine.exec_cons_eq_some.mpr ⟨t, o, _, hstep₁, Machine.exec_snoc.mpr
      ⟨t', _, (), hmiddle, hstep₃, rfl⟩, rfl⟩, rfl⟩, hextends, ?_⟩
  rw [hpassed]
  rw [hall] at hkept
  exact hkept

theorem iteration_durable_two :
    ∃ s os k' passed, (logging smallLog ∅).run
        ([.thread 0, .append (ascii "abc"), .append (ascii "defgh")] ++ .thread 0 ::
          ([.append (ascii "ij"), .thread 0, .thread 2, .thread 1, .thread 0, .thread 0,
            .thread 0] ++ [.thread 0])) = some (s, os) ∧
      Extends smallLog.path ∅ 0 s.disk k' passed ∧
      lines [.thread 0, .append (ascii "abc"), .append (ascii "defgh")] <+: passed :=
  iteration_durable smallLog (numbered_empty _) (by decide +kernel) rfl rfl rfl rfl

/-! ## §5  Killed and started again -/

/-- One process after the other over one directory. A label is all that a process does
until it is killed; what its stream and its buffers have then is lost. -/
def processes (c : LogSetup) (disk : Files Bytes Byte) :
    Machine (Files Bytes Byte) (List LogStep) Unit where
  init := disk
  step disk steps := ((logging c disk).run steps).map fun r => (r.1.disk, ())

theorem processes_exec {init : Files Bytes Byte} {runs : List (List LogStep)}
    (hdisk : Numbered disk c.path k)
    (hfew : (processes c init).Meets
      (fun disk steps => (logging c disk).Meets FewBuffers (new c disk) steps) disk runs) :
    ∃ disk' os k' kept, (processes c init).exec disk runs = some (disk', os) ∧
      Extends c.path disk k disk' k' kept.flatten ∧
      List.Forall₂ (fun part steps => part <+: lines steps) kept runs := by
  induction runs generalizing disk k with
  | nil => exact ⟨disk, [], k, [], rfl, Extends.refl hdisk, .nil⟩
  | cons steps runs ih =>
      obtain ⟨s, os, hrun, hs⟩ := (sound_new c disk).exec hfew.1
      obtain ⟨k₁, passed, hextends, hpassed⟩ := hs.extends hdisk
      have hlines := hs.consistent.core.lossless
      rw [← hpassed, List.nil_append, List.append_assoc] at hlines
      have hstep : (processes c init).step disk steps = some (s.disk, ()) := by
        show ((logging c disk).exec _ steps).map (fun r => (r.1.disk, ())) = _
        exact congrArg _ hrun
      obtain ⟨disk', os', k', kept, hexec, hrest, hkept⟩ :=
        ih hextends.numbered (hfew.2 s.disk () hstep)
      refine ⟨disk', () :: os', k', passed :: kept,
        Machine.exec_cons_eq_some.mpr ⟨s.disk, (), os', hstep, hexec, rfl⟩, ?_, ?_⟩
      · rw [List.flatten_cons]
        exact hextends.trans hrest
      · refine .cons ?_ hkept
        rw [← hlines]
        exact List.prefix_append _ _

/-- **The log over any number of processes.** However often the logger is killed and started
again over the same directory, and wherever it is when it is killed: the log is what it was
at first and of each process a first part of its lines, one process behind the other. -/
theorem processes_keep (c : LogSetup) {disk : Files Bytes Byte} {k : Nat}
    (hdisk : Numbered disk c.path k) {runs : List (List LogStep)}
    (hfew : (processes c disk).Meets
      (fun disk steps => (logging c disk).Meets FewBuffers (new c disk) steps) disk runs) :
    ∃ disk' os k' kept, (processes c disk).run runs = some (disk', os) ∧
      Extends c.path disk k disk' k' kept.flatten ∧
      List.Forall₂ (fun part steps => part <+: lines steps) kept runs :=
  processes_exec hdisk hfew

/-- The first process is killed in the middle of its writing, the second behind its first
line. -/
theorem processes_keep_two :
    ∃ disk' os k' kept, (processes smallLog ∅).run
        [[.thread 0, .append (ascii "abc"), .append (ascii "defgh"), .thread 0,
          .append (ascii "ij"), .thread 0, .thread 2],
         [.thread 0, .append (ascii "k"), .thread 0]] = some (disk', os) ∧
      Extends smallLog.path ∅ 0 disk' k' kept.flatten ∧
      List.Forall₂ (fun part steps => part <+: lines steps) kept
        [[.thread 0, .append (ascii "abc"), .append (ascii "defgh"), .thread 0,
          .append (ascii "ij"), .thread 0, .thread 2],
         [.thread 0, .append (ascii "k"), .thread 0]] :=
  processes_keep smallLog (numbered_empty _) (by decide +kernel)

end Logging

end WhiteWebServer
