import WhiteWebServer.CString
import WhiteWebServer.Lib.Files
import WhiteWebServer.Lib.Machine
import Mathlib.Order.Bounds.Defs

/-!
# The log file and its rotation

`LogFile` appends to one file and, each time it has taken the limit, renames it to the
next number. §1 the functions, from where the constructor has `real_file_path_`; the
directory is part of the state, and no call on it fails. §2 what a call leaves in the
files; §3 when no rename destroys a file.
-/

namespace WhiteWebServer

/-! ## §1  The functions -/

/-- `LogFile` with the stream of its `File` and the directory; `buffered` is what the
stream has not passed on. -/
structure LogFile where
  flushEveryN : Nat
  count : Nat
  fileSplitCount : Nat
  curBytes : Int
  logFileSizeLimit : Int
  realFilePath : Bytes
  buffered : Bytes
  disk : Files Bytes Byte

namespace LogFile

/-- `real_file_path_ + "." + std::to_string(k)` -/
def numbered (path : Bytes) (k : Nat) : Bytes := path ++ ascii "." ++ decimal k

/-- The constructor: it counts up to the first number that no file has, and opens the
log. -/
def new (disk : Files Bytes Byte) (path : Bytes) (flushEveryN : Nat) (limit : Int) : LogFile :=
  { flushEveryN := flushEveryN
    count := 0
    fileSplitCount := Files.firstFree (numbered path) disk disk.keys.card 0
    curBytes := 0
    logFileSizeLimit := limit
    realFilePath := path
    buffered := []
    disk := Files.append path [] disk }

/-- `File::Append`; meanwhile the stream passes on `drained` bytes of what it has. -/
def write (line : Bytes) (drained : Nat) (s : LogFile) : LogFile :=
  { s with buffered := (s.buffered ++ line).drop drained
           disk := Files.append s.realFilePath ((s.buffered ++ line).take drained) s.disk }

/-- `LogFile::Flush` -/
def flush (s : LogFile) : LogFile :=
  { s with count := 0
           buffered := []
           disk := Files.append s.realFilePath s.buffered s.disk }

/-- The rotation, and the file that had the new name. -/
def rotate (s : LogFile) : LogFile × Option Bytes :=
  let s := s.flush
  let target := numbered s.realFilePath s.fileSplitCount
  ({ s with fileSplitCount := s.fileSplitCount + 1
            curBytes := 0
            disk := Files.append s.realFilePath []
              (Files.rename s.realFilePath target s.disk) },
   s.disk.lookup target)

/-- `LogFile::Append`, and the file that its rename replaced. -/
def append (line : Bytes) (drained : Nat) (s : LogFile) : LogFile × Option Bytes :=
  let s := s.write line drained
  let s := { s with curBytes := s.curBytes + line.length, count := s.count + 1 }
  let s := if s.count ≥ s.flushEveryN then s.flush else s
  if s.curBytes ≥ s.logFileSizeLimit then s.rotate else (s, none)

/-- A call on the log file. -/
inductive LogCall
  | append (line : Bytes) (drained : Nat)
  | flush

def LogCall.line : LogCall → Bytes
  | .append line _ => line
  | .flush => []

def logStep (s : LogFile) : LogCall → LogFile × Option Bytes
  | .append line drained => s.append line drained
  | .flush => (s.flush, none)

/-- The calls one after the other; the answers are the files that were replaced. -/
def logFile (disk : Files Bytes Byte) (path : Bytes) (flushEveryN : Nat) (limit : Int) :
    Machine LogFile LogCall (Option Bytes) where
  init := new disk path flushEveryN limit
  step s call := some (s.logStep call)

/-! ## §2  What a call leaves in the files -/

theorem numbered_injective (path : Bytes) : Function.Injective (numbered path) := by
  intro j k h
  exact decimal_injective (List.append_cancel_left h)

theorem numbered_ne (path : Bytes) (k : Nat) : numbered path k ≠ path := by
  intro h
  have hlength := congrArg List.length h
  simp only [numbered, List.length_append, show (ascii ".").length = 1 from rfl] at hlength
  omega

/-- The log as far as it goes: the file, and behind it what the stream still has. -/
def text (s : LogFile) : Bytes := s.disk.content s.realFilePath ++ s.buffered

/-- From `s` to `s'` the lines `more` came to the log, and `r` rotations carried what was
full away under the next numbers. No other file changed. -/
structure Grown (s s' : LogFile) (r : Nat) (more : Bytes) : Prop where
  path : s'.realFilePath = s.realFilePath
  limit : s'.logFileSizeLimit = s.logFileSizeLimit
  number : s'.fileSplitCount = s.fileSplitCount + r
  other : ∀ name, name ≠ s.realFilePath →
    (∀ j, s.fileSplitCount ≤ j → j < s.fileSplitCount + r → name ≠ numbered s.realFilePath j) →
    s'.disk.lookup name = s.disk.lookup name
  kept : ((List.range' s.fileSplitCount r).flatMap fun j =>
      s'.disk.content (numbered s.realFilePath j)) ++ s'.text = s.text ++ more

theorem Grown.refl (s : LogFile) : Grown s s 0 [] :=
  ⟨rfl, rfl, rfl, fun _ _ _ => rfl, (List.append_nil _).symm⟩

theorem Grown.trans {s t u : LogFile} {r₁ r₂ : Nat} {x y : Bytes} (h₁ : Grown s t r₁ x)
    (h₂ : Grown t u r₂ y) : Grown s u (r₁ + r₂) (x ++ y) := by
  have hnumber : t.fileSplitCount = s.fileSplitCount + r₁ := h₁.number
  have hpath : t.realFilePath = s.realFilePath := h₁.path
  refine ⟨h₂.path.trans hpath, h₂.limit.trans h₁.limit, ?_, ?_, ?_⟩
  · rw [h₂.number, hnumber, Nat.add_assoc]
  · -- a name numbered by neither part
    intro name hname hnot
    refine (h₂.other name (hpath ▸ hname) fun j hle hlt => ?_).trans
      (h₁.other name hname fun j hle hlt => hnot j hle (by omega))
    rw [hpath]
    exact hnot j (by omega) (by omega)
  · -- the files that the first part numbered are not touched by the second
    have hold : ∀ j ∈ List.range' s.fileSplitCount r₁,
        u.disk.content (numbered s.realFilePath j) =
          t.disk.content (numbered s.realFilePath j) := by
      intro j hj
      obtain ⟨hle, hlt⟩ := List.mem_range'_1.mp hj
      have hlookup := h₂.other (numbered s.realFilePath j)
        (hpath ▸ numbered_ne s.realFilePath j) fun i hi _ heq => by
          rw [hpath] at heq
          have := numbered_injective _ heq
          omega
      rw [Files.content, hlookup, Files.content]
    have hkept := h₂.kept
    rw [hpath, hnumber] at hkept
    rw [← List.range'_append_1, List.flatMap_append, List.flatMap_congr hold, List.append_assoc,
      hkept, ← List.append_assoc, h₁.kept, List.append_assoc]

theorem grown_write (s : LogFile) (line : Bytes) (drained : Nat) (bytes : Int) (n : Nat) :
    Grown s { s.write line drained with curBytes := bytes, count := n } 0 line := by
  refine ⟨rfl, rfl, rfl, fun name hname _ => Files.lookup_append_of_ne hname _ _, ?_⟩
  change (Files.append s.realFilePath _ s.disk).content s.realFilePath ++ _ = _
  rw [Files.content_append_self, List.append_assoc, text]
  simp only [write, List.take_append_drop, List.append_assoc]

theorem grown_flush (s : LogFile) : Grown s s.flush 0 [] := by
  refine ⟨rfl, rfl, rfl, fun name hname _ => Files.lookup_append_of_ne hname _ _, ?_⟩
  change (Files.append s.realFilePath _ s.disk).content s.realFilePath ++ [] = _
  rw [Files.content_append_self, List.append_nil, List.append_nil, text]

theorem flush_lookup (s : LogFile) :
    s.flush.disk.lookup s.realFilePath = some s.text :=
  Files.lookup_append_self _ _ _

theorem grown_rotate (s : LogFile) : Grown s s.rotate.1 1 [] := by
  have hne := numbered_ne s.realFilePath s.fileSplitCount
  refine ⟨rfl, rfl, rfl, fun name hname hnot => ?_, ?_⟩
  · have htarget : name ≠ numbered s.realFilePath s.fileSplitCount :=
      hnot s.fileSplitCount (Nat.le_refl _) (Nat.lt_succ_self _)
    exact (Files.lookup_append_of_ne hname _ _).trans
      ((Files.lookup_rename_of_ne _ hname htarget).trans (Files.lookup_append_of_ne hname _ _))
  · -- the log is under its number now, and a new one is empty
    have hnumbered : s.rotate.1.disk.lookup (numbered s.realFilePath s.fileSplitCount) =
        some s.text :=
      (Files.lookup_append_of_ne hne _ _).trans (Files.lookup_rename_new s.flush_lookup _)
    have hempty : s.rotate.1.text = [] := by
      change (Files.append s.realFilePath [] (Files.rename s.realFilePath
        (numbered s.realFilePath s.fileSplitCount) s.flush.disk)).content s.realFilePath ++ [] = []
      rw [Files.content_append_self, Files.content,
        Files.lookup_rename_old s.flush_lookup hne.symm]
      rfl
    rw [List.range'_one, List.flatMap_singleton, Files.content_of_lookup hnumbered, hempty]

theorem Grown.flush {s t : LogFile} {r : Nat} {x : Bytes} (h : Grown s t r x) :
    Grown s t.flush r x := by
  simpa only [List.append_nil, Nat.add_zero] using h.trans t.grown_flush

theorem Grown.rotate {s t : LogFile} {r : Nat} {x : Bytes} (h : Grown s t r x) :
    Grown s t.rotate.1 (r + 1) x := by
  simpa only [List.append_nil] using h.trans t.grown_rotate

/-- Where the call brings the log to its limit. -/
def Fills (s : LogFile) : LogCall → Prop
  | .append line _ => s.logFileSizeLimit ≤ s.curBytes + line.length
  | .flush => False

instance (s : LogFile) : (call : LogCall) → Decidable (s.Fills call)
  | .append line _ => inferInstanceAs (Decidable (s.logFileSizeLimit ≤ s.curBytes + line.length))
  | .flush => inferInstanceAs (Decidable False)

/-- A call that does not fill the log: its line is in it. -/
theorem logStep_of_not_fills {s : LogFile} {call : LogCall} (h : ¬ s.Fills call) :
    Grown s (s.logStep call).1 0 call.line ∧ (s.logStep call).2 = none ∧
      (s.logStep call).1.curBytes = s.curBytes + call.line.length := by
  cases call with
  | flush => exact ⟨s.grown_flush, rfl, (Int.add_zero _).symm⟩
  | append line drained =>
      have hwrite := s.grown_write line drained (s.curBytes + line.length) (s.count + 1)
      have hlimit : ¬ s.curBytes + line.length ≥ s.logFileSizeLimit := h
      simp only [logStep, append]
      split <;> split
      · exact absurd ‹_› hlimit
      · exact ⟨hwrite.flush, rfl, rfl⟩
      · exact absurd ‹_› hlimit
      · exact ⟨hwrite, rfl, rfl⟩

/-- A call that fills the log: it is renamed with its line, onto what had the number. -/
theorem logStep_of_fills {s : LogFile} {call : LogCall} (h : s.Fills call) :
    Grown s (s.logStep call).1 1 call.line ∧
      (s.logStep call).2 = s.disk.lookup (numbered s.realFilePath s.fileSplitCount) ∧
      (s.logStep call).1.curBytes = 0 := by
  cases call with
  | flush => exact h.elim
  | append line drained =>
      have hwrite := s.grown_write line drained (s.curBytes + line.length) (s.count + 1)
      have hne := numbered_ne s.realFilePath s.fileSplitCount
      have hlimit : s.curBytes + line.length ≥ s.logFileSizeLimit := h
      simp only [logStep, append]
      split <;> split
      · refine ⟨hwrite.flush.rotate, ?_, rfl⟩
        exact (Files.lookup_append_of_ne hne _ _).trans
          ((Files.lookup_append_of_ne hne _ _).trans (Files.lookup_append_of_ne hne _ _))
      · exact absurd hlimit ‹_›
      · refine ⟨hwrite.rotate, ?_, rfl⟩
        exact (Files.lookup_append_of_ne hne _ _).trans (Files.lookup_append_of_ne hne _ _)
      · exact absurd hlimit ‹_›

/-! ## §3  Rotations -/

/-- How often the lines fill the limit, where `cur` bytes are in the log already. -/
def rotations (limit : Int) : Int → List LogCall → Nat
  | _, [] => 0
  | cur, .flush :: calls => rotations limit cur calls
  | cur, .append line _ :: calls =>
      if limit ≤ cur + line.length then rotations limit 0 calls + 1
      else rotations limit (cur + line.length) calls

theorem rotations_cons (s : LogFile) (call : LogCall) (calls : List LogCall) :
    rotations s.logFileSizeLimit s.curBytes (call :: calls) =
      (if s.Fills call then 1 else 0) +
        rotations s.logFileSizeLimit (s.logStep call).1.curBytes calls := by
  by_cases hfills : s.Fills call
  · rw [if_pos hfills, (logStep_of_fills hfills).2.2]
    cases call with
    | flush => exact hfills.elim
    | append line drained => exact (if_pos hfills).trans (Nat.add_comm _ _)
  · rw [if_neg hfills, (logStep_of_not_fills hfills).2.2, Nat.zero_add]
    cases call with
    | flush => exact congrArg (rotations _ · calls) (Int.add_zero _).symm
    | append line drained => exact if_neg hfills

/-- The numbers of the next `r` rotations are free. -/
def Room (disk : Files Bytes Byte) (path : Bytes) (k r : Nat) : Prop :=
  ∀ j, k ≤ j → j < k + r → numbered path j ∉ disk

/-- What calls leave behind, and that they replace nothing exactly where there is room. -/
theorem exec_grown {disk : Files Bytes Byte} {path : Bytes} {flushEveryN : Nat} {limit : Int}
    (calls : List LogCall) (s : LogFile) :
    ∃ s' outs, (logFile disk path flushEveryN limit).exec s calls = some (s', outs) ∧
      Grown s s' (rotations s.logFileSizeLimit s.curBytes calls) (calls.flatMap LogCall.line) ∧
      ((∀ out ∈ outs, out = none) ↔ Room s.disk s.realFilePath s.fileSplitCount
        (rotations s.logFileSizeLimit s.curBytes calls)) := by
  induction calls generalizing s with
  | nil =>
      refine ⟨s, [], rfl, Grown.refl s, fun _ j hle hlt => ?_, fun _ out hout => ?_⟩
      · exact absurd hlt (Nat.not_lt.mpr hle)
      · cases hout
  | cons call calls ih =>
      obtain ⟨s', outs, hrun, hgrown, houts⟩ := ih (s.logStep call).1
      refine ⟨s', (s.logStep call).2 :: outs,
        Machine.exec_cons_eq_some.mpr ⟨_, _, outs, rfl, hrun, rfl⟩, ?_⟩
      rw [rotations_cons, List.flatMap_cons, List.forall_mem_cons]
      by_cases hfills : s.Fills call
      · obtain ⟨hstep, hout, -⟩ := logStep_of_fills hfills
        rw [if_pos hfills, hout, houts]
        rw [hstep.limit] at hgrown ⊢
        refine ⟨hstep.trans hgrown, ?_⟩
        -- the numbers behind the one now taken are free as they were
        have hlater : ∀ j, s.fileSplitCount + 1 ≤ j →
            (numbered s.realFilePath j ∉ (s.logStep call).1.disk ↔
              numbered s.realFilePath j ∉ s.disk) := by
          intro j hj
          rw [← Finmap.lookup_eq_none, ← Finmap.lookup_eq_none,
            hstep.other _ (numbered_ne _ j) fun i _ hi heq => by
              have := numbered_injective _ heq
              omega]
        rw [hstep.path, hstep.number, Finmap.lookup_eq_none]
        constructor
        · rintro ⟨hfirst, hrest⟩ j hle hlt
          rcases Nat.eq_or_lt_of_le hle with rfl | hgt
          · exact hfirst
          · exact (hlater j hgt).mp (hrest j hgt (by omega))
        · intro hroom
          refine ⟨hroom _ (Nat.le_refl _) (by omega), fun j hle hlt => ?_⟩
          exact (hlater j hle).mpr (hroom j (by omega) (by omega))
      · obtain ⟨hstep, hout, -⟩ := logStep_of_not_fills hfills
        rw [if_neg hfills, hout, houts]
        rw [hstep.limit] at hgrown ⊢
        refine ⟨hstep.trans hgrown, ?_⟩
        rw [hstep.path, hstep.number, Nat.zero_add, Nat.add_zero]
        have hsame : ∀ j, numbered s.realFilePath j ∉ (s.logStep call).1.disk ↔
            numbered s.realFilePath j ∉ s.disk := by
          intro j
          rw [← Finmap.lookup_eq_none, ← Finmap.lookup_eq_none,
            hstep.other _ (numbered_ne _ j) fun i hle hlt => absurd hlt (Nat.not_lt.mpr hle)]
        simp only [Room, hsame, true_and]

/-- Every file that was there is there, and behind what the log held at first the lines
follow: in files that rotations made, and in the log with what its stream has. -/
def Kept (disk : Files Bytes Byte) (path : Bytes) (calls : List LogCall) (s : LogFile) : Prop :=
  ∃ rotated : List Bytes, (path :: rotated).Nodup ∧ (∀ name ∈ rotated, name ∉ disk) ∧
    (∀ name, name ∉ path :: rotated → s.disk.lookup name = disk.lookup name) ∧
    rotated.flatMap s.disk.content ++ (s.disk.content path ++ s.buffered) =
      disk.content path ++ calls.flatMap LogCall.line

/-- From the first free number on there is room for every rotation of the calls. -/
def RoomFromFirst (disk : Files Bytes Byte) (path : Bytes) (limit : Int)
    (calls : List LogCall) : Prop :=
  ∀ k, IsLeast {j | numbered path j ∉ disk} k → Room disk path k (rotations limit 0 calls)

/-- What the constructor counts up to. -/
theorem new_isLeast (disk : Files Bytes Byte) (path : Bytes) (flushEveryN : Nat)
    (limit : Int) :
    IsLeast {j | numbered path j ∉ disk} (new disk path flushEveryN limit).fileSplitCount := by
  obtain ⟨hfree, htaken⟩ := Files.firstFree_spec (numbered_injective path) disk 0
  refine ⟨hfree, fun j hj => ?_⟩
  by_contra hlt
  exact hj (htaken j (Nat.zero_le j) (Nat.not_le.mp hlt))

/-- **When rotation destroys nothing.** For every directory, limit and sequence of calls:
no rename replaces a file, and all that was there and all lines are still there, each
once, exactly if from the first free number on the numbers are free for as many rotations
as the lines fill the limit. -/
theorem logFile_keeps_iff (disk : Files Bytes Byte) (path : Bytes) (flushEveryN : Nat)
    (limit : Int) (calls : List LogCall) :
    ∃ s outs, (logFile disk path flushEveryN limit).run calls = some (s, outs) ∧
      (((∀ out ∈ outs, out = none) ∧ Kept disk path calls s) ↔
        RoomFromFirst disk path limit calls) := by
  obtain ⟨s, outs, hrun, hgrown, houts⟩ := @exec_grown disk path flushEveryN limit calls
    (new disk path flushEveryN limit)
  have hleast := new_isLeast disk path flushEveryN limit
  -- opening the log changes no numbered file
  have hopened : ∀ name, name ≠ path →
      (new disk path flushEveryN limit).disk.lookup name = disk.lookup name :=
    fun name hname => Files.lookup_append_of_ne hname _ _
  have hroom : Room (new disk path flushEveryN limit).disk path
      (new disk path flushEveryN limit).fileSplitCount (rotations limit 0 calls) ↔
        RoomFromFirst disk path limit calls := by
    have hmem : ∀ j, numbered path j ∉ (new disk path flushEveryN limit).disk ↔
        numbered path j ∉ disk := by
      intro j
      rw [← Finmap.lookup_eq_none, ← Finmap.lookup_eq_none, hopened _ (numbered_ne path j)]
    simp only [Room, hmem]
    constructor
    · intro h k hk
      rw [hk.unique hleast]
      exact h
    · intro h
      exact h _ hleast
  refine ⟨s, outs, hrun, ?_⟩
  rw [← hroom]
  refine ⟨fun h => houts.mp h.1, fun h => ⟨houts.mpr h, ?_⟩⟩
  refine ⟨(List.range' (new disk path flushEveryN limit).fileSplitCount
    (rotations limit 0 calls)).map (numbered path), ?_, ?_, ?_, ?_⟩
  · rw [List.nodup_cons, List.mem_map]
    refine ⟨?_, (List.nodup_range' 1).map (numbered_injective path)⟩
    rintro ⟨j, -, hj⟩
    exact numbered_ne path j hj
  · intro name hname
    obtain ⟨j, hj, rfl⟩ := List.mem_map.mp hname
    obtain ⟨hle, hlt⟩ := List.mem_range'_1.mp hj
    rw [← Finmap.lookup_eq_none, ← hopened _ (numbered_ne path j), Finmap.lookup_eq_none]
    exact h j hle hlt
  · intro name hname
    rw [List.mem_cons, not_or, List.mem_map] at hname
    refine (hgrown.other name hname.1 fun j hle hlt heq => ?_).trans (hopened name hname.1)
    exact hname.2 ⟨j, List.mem_range'_1.mpr ⟨hle, hlt⟩, heq.symm⟩
  · have hkept := hgrown.kept
    rw [text, hgrown.path] at hkept
    rw [List.flatMap_map]
    apply hkept.trans
    have htext : (new disk path flushEveryN limit).text = disk.content path := by
      change (Files.append path [] disk).content path ++ [] = _
      rw [Files.content_append_self, List.append_nil, List.append_nil]
    rw [htext]

/-- What a cleaner leaves when it removes number 1 of three. -/
def gapped : Files Bytes Byte :=
  Finmap.insert (numbered (ascii "log") 0) (ascii "x")
    (Finmap.insert (numbered (ascii "log") 2) (ascii "y") ∅)

/-- The first rotation goes into the gap, the second replaces number 2. -/
theorem logFile_replaces :
    ¬ ∀ (disk : Files Bytes Byte) (path : Bytes) (flushEveryN : Nat) (limit : Int)
      (calls : List LogCall) (s : LogFile) (outs : List (Option Bytes)),
      (logFile disk path flushEveryN limit).run calls = some (s, outs) →
      (∀ out ∈ outs, out = none) ∧ Kept disk path calls s := by
  intro h
  have houts := (h gapped (ascii "log") 1024 1 [.append (ascii "a") 0, .append (ascii "b") 0]
    _ _ rfl).1
  have hlast := houts (some (ascii "y")) (by decide +kernel)
  cases hlast

end LogFile

end WhiteWebServer
