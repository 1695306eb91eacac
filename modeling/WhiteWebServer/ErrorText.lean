import Mathlib.Data.Nat.Find
import WhiteWebServer.CString
import WhiteWebServer.Lib.Machine

/-!
# The text of `SendError`

A full server answers with a text and closes. The loop of `SendError` hands the start of the
text to every `write` and counts what the calls return, errors included. §1 the loop; §2 what
it is to do; §3 when it does.
-/

namespace WhiteWebServer

namespace SendError

/-! ## §1  The loop -/

inductive WriteError
  | eagain
  | ewouldblock
  | other
  deriving DecidableEq

/-- What `write` returns: a positive count, or -1 with an `errno`. -/
inductive WriteResult
  | wrote (count : Nat)
  | failed (error : WriteError)
  deriving DecidableEq

/-- The call is to be made again. -/
def WriteResult.again : WriteResult → Bool
  | .failed .eagain => true
  | .failed .ewouldblock => true
  | _ => false

structure SendState where
  sendLen : Int
  /-- the offsets in `info` of the bytes the socket has taken, in their order -/
  sent : List Nat
  /-- the loop was left by `break` -/
  broken : Bool
  deriving DecidableEq

/-- `strlen(info)` as an `int`; `info` is given without its NUL. -/
def totalLen (info : Bytes) : Int := toInt info.length

/-- The next `write` asks for so many bytes from the start of `info` on. -/
def requested (info : Bytes) (s : SendState) : Int := totalLen info - s.sendLen

/-- There is a next `write`. -/
def Writes (info : Bytes) (s : SendState) : Prop := s.broken = false ∧ s.sendLen < totalLen info

instance (info : Bytes) (s : SendState) : Decidable (Writes info s) := by
  unfold Writes
  infer_instance

/-- A turn of the loop. `write` takes no more than it is asked for. -/
def sendStep (info : Bytes) (s : SendState) : WriteResult → Option SendState
  | .wrote count =>
      if 0 < count ∧ (count : Int) ≤ requested info s then
        some { s with sendLen := s.sendLen + count, sent := s.sent ++ List.range count }
      else none
  | .failed error =>
      if error ≠ .eagain ∧ error ≠ .ewouldblock then some { s with broken := true }
      else some { s with sendLen := s.sendLen - 1 }

/-- `SendError`. Behind the loop there is no `write`, and no result is looked at. -/
def sendError (info : Bytes) : Machine SendState WriteResult Unit where
  init := { sendLen := 0, sent := [], broken := false }
  step s r := if Writes info s then (sendStep info s r).map (·, ()) else some (s, ())

/-! ## §2  What is wanted -/

/-- What is to hold at every point: the next `write` asks, by a length that an `int` holds, for
bytes of `info` that were not sent; what was taken is a prefix of `info`; and the loop ends
otherwise than by `break` only behind all of it. -/
structure SentSoFar (info : Bytes) (s : SendState) : Prop where
  request : Writes info s → requested info s < 2 ^ 31 ∧
    ∀ i : Nat, (i : Int) < requested info s → i < info.length ∧ i ∉ s.sent
  taken : (s.sent.map fun i => info[i]?) <+: info.map some
  whole : ¬ Writes info s → s.broken = false → (s.sent.map fun i => info[i]?) = info.map some

/-- The first `n` results lead here. -/
def Behind (info : Bytes) (results : Nat → WriteResult) (n : Nat) (s : SendState) : Prop :=
  ∃ os, (sendError info).run ((List.range n).map results) = some (s, os)

/-- `SendError` sends its text and nothing else, whatever point of the loop is looked at. -/
def SendsText (info : Bytes) (results : Nat → WriteResult) : Prop :=
  ∀ n s, Behind info results n s → SentSoFar info s

/-- The text is empty; or the first `write` takes all of it; or no `write` takes anything, and
one fails for good before the length asked for, which grows with each EAGAIN, is too long. -/
def OneWrite (info : Bytes) (results : Nat → WriteResult) : Prop :=
  info = [] ∨ (info.length < 2 ^ 31 ∧ results 0 = .wrote info.length) ∨
    ∃ j : Nat, (∀ i < j, (results i).again = true) ∧ results j = .failed .other ∧
      0 < totalLen info ∧ totalLen info + j ≤ info.length ∧ totalLen info + j < 2 ^ 31

/-! ## §3  When it does -/

variable {info : Bytes} {results : Nat → WriteResult} {n : Nat} {s : SendState}

theorem behind_zero : Behind info results 0 s ↔ s = (sendError info).init := by
  constructor
  · rintro ⟨os, hrun⟩
    exact (Prod.mk.inj (Option.some.inj hrun)).1.symm
  · rintro rfl
    exact ⟨[], rfl⟩

theorem behind_succ : Behind info results (n + 1) s ↔ ∃ s₀, Behind info results n s₀ ∧
    (sendError info).step s₀ (results n) = some (s, ()) := by
  unfold Behind
  rw [List.range_succ, List.map_append]
  constructor
  · rintro ⟨os, hrun⟩
    obtain ⟨s₀, os', o, hbefore, hstep, -⟩ := Machine.exec_snoc.mp hrun
    exact ⟨s₀, ⟨os', hbefore⟩, hstep⟩
  · rintro ⟨s₀, ⟨os', hrun⟩, hstep⟩
    exact ⟨os' ++ [()], Machine.exec_snoc.mpr ⟨s₀, os', (), hrun, hstep, rfl⟩⟩

theorem step_writes {r : WriteResult} {s' : SendState} (hw : Writes info s) :
    (sendError info).step s r = some (s', ()) ↔ sendStep info s r = some s' := by
  show (if Writes info s then (sendStep info s r).map (·, ()) else some (s, ())) = _ ↔ _
  rw [if_pos hw]
  exact Machine.map_unit_eq_some

theorem step_over {r : WriteResult} {s' : SendState} (hw : ¬ Writes info s) :
    (sendError info).step s r = some (s', ()) ↔ s' = s := by
  show (if Writes info s then (sendStep info s r).map (·, ()) else some (s, ())) = _ ↔ _
  rw [if_neg hw]
  simp [eq_comm]

/-- An EAGAIN moves the counter back. -/
theorem sendStep_again {r : WriteResult} (h : r.again = true) :
    sendStep info s r = some { s with sendLen := s.sendLen - 1 } := by
  cases r with
  | wrote count => cases h
  | failed error =>
      cases error with
      | eagain => rfl
      | ewouldblock => rfl
      | other => cases h

theorem totalLen_le (info : Bytes) : totalLen info ≤ info.length ∧ totalLen info < 2 ^ 31 := by
  unfold totalLen toInt Int.bmod
  constructor <;> (dsimp only; split <;> omega)

theorem sentSoFar_start (hinfo : info = [] ∨ 0 < totalLen info) :
    SentSoFar info (sendError info).init := by
  obtain ⟨hle, hbound⟩ := totalLen_le info
  refine ⟨fun _ => ⟨?_, fun i hi => ⟨?_, List.not_mem_nil⟩⟩, List.nil_prefix, fun hover _ => ?_⟩
  · show totalLen info - 0 < 2 ^ 31
    omega
  · have hi' : (i : Int) < totalLen info - 0 := hi
    omega
  · rcases hinfo with rfl | hpos
    · rfl
    · exact absurd ⟨rfl, hpos⟩ hover

/-- Nothing is taken as long as `write` is only to be made again. -/
theorem behind_again (hpos : 0 < totalLen info) : ∀ {n : Nat} {s : SendState},
    (∀ i < n, (results i).again = true) → Behind info results n s →
      s = { sendLen := -n, sent := [], broken := false } := by
  intro n
  induction n with
  | zero => exact fun _ hs => behind_zero.mp hs
  | succ n ih =>
      intro s hagain hs
      obtain ⟨s₀, hs₀, hstep⟩ := behind_succ.mp hs
      obtain rfl := ih (fun i hi => hagain i (by omega)) hs₀
      have hw : Writes info { sendLen := -n, sent := [], broken := false } :=
        ⟨rfl, by dsimp only; omega⟩
      rw [step_writes hw, sendStep_again (hagain n (by omega))] at hstep
      rw [← Option.some.inj hstep, SendState.mk.injEq]
      exact ⟨by dsimp only; omega, rfl, rfl⟩

/-- Behind the last turn nothing changes. -/
theorem behind_over {m : Nat} {s s' : SendState} (hover : ¬ Writes info s)
    (hs : ∀ s', Behind info results m s' → s' = s) :
    ∀ {n : Nat}, m ≤ n → Behind info results n s' → s' = s := by
  intro n
  induction n generalizing s' with
  | zero =>
      intro hle hs'
      obtain rfl := Nat.le_zero.mp hle
      exact hs s' hs'
  | succ n ih =>
      intro hle hs'
      rcases Nat.lt_or_ge n m with hlt | hge
      · obtain rfl : m = n + 1 := by omega
        exact hs s' hs'
      · obtain ⟨s₀, hs₀, hstep⟩ := behind_succ.mp hs'
        obtain rfl := ih hge hs₀
        exact (step_over hover).mp hstep

/-- An EAGAIN leads to a request past the end once more bytes are asked for than there are. -/
theorem request_again {m : Nat}
    (h : SentSoFar info { sendLen := -m, sent := [], broken := false })
    (hpos : 0 < totalLen info) :
    totalLen info + m ≤ info.length ∧ totalLen info + m < 2 ^ 31 := by
  obtain ⟨hbound, hwithin⟩ := h.request ⟨rfl, by dsimp only; omega⟩
  have hask : requested info { sendLen := -m, sent := [], broken := false } = totalLen info + m :=
    Int.sub_neg ..
  rw [hask] at hbound hwithin
  refine ⟨?_, hbound⟩
  have hlast := (hwithin (totalLen info + m - 1).toNat (by omega)).1
  omega

/-- A `write` that takes some bytes of a text has taken all of it, or the next one asks for the
first byte again. -/
theorem whole_of_wrote {m count : Nat}
    (h : SentSoFar info ⟨-m + count, List.range count, false⟩)
    (hcount : 0 < count) (hle : (count : Int) ≤ totalLen info + m)
    (hask : totalLen info + m < 2 ^ 31) : count = info.length ∧ info.length < 2 ^ 31 ∧ m = 0 := by
  have hend : ¬ Writes info ⟨-m + count, List.range count, false⟩ := by
    intro hw
    have hask : ((0 : Nat) : Int) < requested info ⟨-m + count, List.range count, false⟩ := by
      show (0 : Int) < totalLen info - (-m + count)
      have hlt : -(m : Int) + count < totalLen info := hw.2
      omega
    exact ((h.request hw).2 0 hask).2 (List.mem_range.mpr hcount)
  have hlen : count = info.length := by
    have hall := congrArg List.length (h.whole hend rfl)
    simpa using hall
  have hover : ¬ -(m : Int) + count < totalLen info := fun hlt => hend ⟨rfl, hlt⟩
  have hbound : info.length < 2 ^ 31 := by omega
  have htotal : totalLen info = info.length := toInt_natCast (by omega)
  exact ⟨hlen, hbound, by omega⟩

theorem oneWrite_of_sendsText (hpossible : ∀ n, ∃ s, Behind info results n s)
    (h : SendsText info results) : OneWrite info results := by
  by_cases hinfo : info = []
  · exact .inl hinfo
  have hpos : 0 < totalLen info := by
    by_contra hnone
    have hwhole := (h 0 _ (behind_zero.mpr rfl)).whole (fun hw => hnone hw.2) rfl
    exact hinfo (List.map_eq_nil_iff.mp hwhole.symm)
  have hasks : ∀ m, (∀ i < m, (results i).again = true) →
      totalLen info + m ≤ info.length ∧ totalLen info + m < 2 ^ 31 := by
    intro m hagain
    obtain ⟨s, hs⟩ := hpossible m
    obtain rfl := behind_again hpos hagain hs
    exact request_again (h m _ hs) hpos
  -- the requests grow, so that some result is not EAGAIN
  have hstops : ∃ m, (results m).again ≠ true := by
    by_contra hnever
    have hpast := (hasks (info.length + 1) fun i _ => not_not.mp (not_exists.mp hnever i)).1
    omega
  obtain ⟨m, hm, hagain⟩ : ∃ m, (results m).again ≠ true ∧ ∀ i < m, (results i).again = true :=
    ⟨Nat.find hstops, Nat.find_spec hstops, fun i hi => not_not.mp (Nat.find_min hstops hi)⟩
  obtain ⟨hwithin, hbound⟩ := hasks m hagain
  obtain ⟨s', hs'⟩ := hpossible (m + 1)
  obtain ⟨s, hs, hstep⟩ := behind_succ.mp hs'
  obtain rfl := behind_again hpos hagain hs
  rw [step_writes ⟨rfl, by dsimp only; omega⟩] at hstep
  cases hr : results m with
  | failed error =>
      cases error with
      | eagain => exact absurd (congrArg WriteResult.again hr) hm
      | ewouldblock => exact absurd (congrArg WriteResult.again hr) hm
      | other => exact .inr (.inr ⟨m, hagain, hr, hpos, hwithin, hbound⟩)
  | wrote count =>
      rw [hr, sendStep] at hstep
      obtain ⟨hcount, heq⟩ := Option.ite_none_right_eq_some.mp hstep
      obtain rfl := Option.some.inj heq
      have hle : (count : Int) ≤ totalLen info + m := by
        have hrequest : (count : Int) ≤ totalLen info - -m := hcount.2
        omega
      obtain ⟨rfl, hlength, rfl⟩ := whole_of_wrote (h _ _ hs') hcount.1 hle hbound
      exact .inr (.inl ⟨hlength, hr⟩)

theorem sentSoFar_again {m j : Nat} (hle : m ≤ j) (hwithin : totalLen info + j ≤ info.length)
    (hbound : totalLen info + j < 2 ^ 31) (hpos : 0 < totalLen info) :
    SentSoFar info { sendLen := -m, sent := [], broken := false } := by
  have hask : requested info { sendLen := -m, sent := [], broken := false } = totalLen info + m :=
    Int.sub_neg ..
  refine ⟨fun _ => ?_, List.nil_prefix, fun hover _ => absurd ⟨rfl, ?_⟩ hover⟩
  · rw [hask]
    exact ⟨by omega, fun i hi => ⟨by omega, List.not_mem_nil⟩⟩
  · dsimp only
    omega

theorem sentSoFar_whole (hlen : info.length < 2 ^ 31) :
    SentSoFar info { sendLen := info.length, sent := List.range info.length, broken := false } := by
  have hall : ((List.range info.length).map fun i => info[i]?) = info.map some := by
    apply List.ext_getElem
    · simp
    · intro i hi hi'
      simp
  refine ⟨fun hw => ?_, hall ▸ List.prefix_refl _, fun _ _ => hall⟩
  have hlt : (info.length : Int) < totalLen info := hw.2
  rw [totalLen, toInt_natCast hlen] at hlt
  exact absurd hlt (Int.lt_irrefl _)

theorem sendsText_of_oneWrite (h : OneWrite info results) : SendsText info results := by
  intro n s hs
  rcases Nat.eq_zero_or_pos info.length with hnil | hsome
  · obtain rfl := List.length_eq_zero_iff.mp hnil
    have hover : ¬ Writes [] (sendError []).init := by decide
    rw [behind_over hover (fun s' => behind_zero.mp) (Nat.zero_le n) hs]
    exact sentSoFar_start (.inl rfl)
  rcases h with rfl | ⟨hlen, hfirst⟩ | ⟨j, hagain, hfails, hpos, hwithin, hbound⟩
  · exact absurd hsome (lt_irrefl 0)
  · have htotal : totalLen info = info.length := toInt_natCast hlen
    cases n with
    | zero =>
        obtain rfl := behind_zero.mp hs
        exact sentSoFar_start (.inr (by omega))
    | succ n =>
        have hover : ¬ Writes info
            { sendLen := info.length, sent := List.range info.length, broken := false } := by
          rintro ⟨-, hlt⟩
          dsimp only at hlt
          omega
        have hone : ∀ s', Behind info results 1 s' →
            s' = { sendLen := info.length, sent := List.range info.length, broken := false } := by
          intro s' hs'
          obtain ⟨s₀, hs₀, hstep⟩ := behind_succ.mp hs'
          obtain rfl := behind_zero.mp hs₀
          have hw : Writes info (sendError info).init := ⟨rfl, by show 0 < totalLen info; omega⟩
          rw [step_writes hw, hfirst, sendStep] at hstep
          obtain ⟨-, heq⟩ := Option.ite_none_right_eq_some.mp hstep
          rw [← Option.some.inj heq, SendState.mk.injEq]
          exact ⟨Int.zero_add _, List.nil_append _, rfl⟩
        rw [behind_over hover hone (Nat.le_add_left 1 n) hs]
        exact sentSoFar_whole hlen
  · rcases Nat.lt_or_ge j n with hlt | hle
    · have hover : ¬ Writes info { sendLen := -j, sent := [], broken := true } := by
        rintro ⟨hbroken, -⟩
        cases hbroken
      have hbreak : ∀ s', Behind info results (j + 1) s' →
          s' = { sendLen := -j, sent := [], broken := true } := by
        intro s' hs'
        obtain ⟨s₀, hs₀, hstep⟩ := behind_succ.mp hs'
        obtain rfl := behind_again hpos hagain hs₀
        rw [step_writes ⟨rfl, by dsimp only; omega⟩, hfails] at hstep
        exact (Option.some.inj hstep).symm
      rw [behind_over hover hbreak hlt hs]
      exact ⟨fun hw => absurd hw hover, List.nil_prefix, fun _ hnot => by cases hnot⟩
    · rw [behind_again hpos (fun i hi => hagain i (Nat.lt_of_lt_of_le hi hle)) hs]
      exact sentSoFar_again hle hwithin hbound hpos

/-- What is behind the last turn stays behind every later result. -/
theorem behind_stays {m : Nat} (hover : ¬ Writes info s) (hs : Behind info results m s) :
    m ≤ n → Behind info results n s := by
  intro hle
  induction n, hle using Nat.le_induction with
  | base => exact hs
  | succ n _ ih => exact behind_succ.mpr ⟨s, ih, (step_over hover).mpr rfl⟩

/-- **`SendError` sends its text** exactly if one `write` decides: for every text and every
sequence of results of which each count is one that `write` can return. -/
theorem sendError_iff (info : Bytes) (results : Nat → WriteResult)
    (hpossible : ∀ n, ∃ s, Behind info results n s) :
    SendsText info results ↔ OneWrite info results :=
  ⟨oneWrite_of_sendsText hpossible, sendsText_of_oneWrite⟩

/-- The socket takes "Server busy" at once. -/
theorem sendError_busy : SendsText (ascii "Server busy") (fun _ => .wrote 11) ↔
    OneWrite (ascii "Server busy") (fun _ => .wrote 11) := by
  apply sendError_iff
  rintro (_ | n)
  · exact ⟨_, behind_zero.mpr rfl⟩
  · exact ⟨_, behind_stays (s := ⟨11, List.range 11, false⟩) (by decide)
      ⟨[()], by decide⟩ (Nat.le_add_left 1 n)⟩

/-- The socket takes four bytes of "Server busy" at first: the next `write` begins with the "S"
again, and the client gets "ServServer ". -/
theorem sendError_short_write :
    (∀ n, ∃ s, Behind (ascii "Server busy") (fun n => .wrote (if n = 0 then 4 else 7)) n s) ∧
      ¬ SendsText (ascii "Server busy") (fun n => .wrote (if n = 0 then 4 else 7)) := by
  refine ⟨?_, fun h => ?_⟩
  · rintro (_ | _ | n)
    · exact ⟨_, behind_zero.mpr rfl⟩
    · exact ⟨⟨4, List.range 4, false⟩, [()], by decide⟩
    · exact ⟨_, behind_stays (s := ⟨11, List.range 4 ++ List.range 7, false⟩) (by decide)
        ⟨[(), ()], by decide⟩ (Nat.le_add_left 2 n)⟩
  · have hsent := (h 1 ⟨4, List.range 4, false⟩ ⟨[()], by decide⟩).request (by decide)
    exact (hsent.2 0 (by decide)).2 (by decide)

end SendError

end WhiteWebServer
