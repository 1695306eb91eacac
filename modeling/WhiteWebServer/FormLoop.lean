import WhiteWebServer.FormSegments
import WhiteWebServer.Lib.Orbit
import Mathlib.Data.List.Iterate

/-!
# The loop of `ParsePost`

The loop goes from one `&` to the next and keeps its positions in an `int`. §1 what a turn
can raise; §2 where the turns start, and the bodies on which a position wraps to one that
was passed before (`FormEnds` is that there is none); §3 on such a body the loop goes on for
ever, unless a turn raises; §4 on every other body it ends.
-/

namespace WhiteWebServer

open Outcome

/-- The ways out of a loop that is no return: an exception, an access outside the storage of
an object, a null pointer. -/
def Fault.Leaves (e : Fault) : Prop := e = .uncaught ∨ e = .outOfBounds ∨ e = .nullPointer

theorem Fault.leaves_iff {e : Fault} : e.Leaves ↔ e ≠ .diverges := by
  cases e <;> simp [Fault.Leaves]

/-- What jsoncpp documents of the two calls of `ParsePost`: they return or raise an exception,
and where one member could be set another can. -/
structure JsonCpp.Returns {J : Type} (js : JsonCpp J) : Prop where
  setMember : ∀ v key x e, js.setMember v key x = .error e → e = .uncaught
  setMember_again : ∀ v v' key x, js.setMember v key x = .ok v' →
    ∀ key' x', ∃ v'', js.setMember v' key' x' = .ok v''
  parse : ∀ document v e, js.parse document v = .error e → e = .uncaught

namespace HttpRequest

variable {J : Type} {js : JsonCpp J} {body : Bytes} {post : J}

/-! ## §1  What a turn raises -/

theorem charAt_error {str : Bytes} {i : Int} {e : Fault} (h : charAt str i = .error e) :
    e = .outOfBounds := by
  unfold charAt at h
  split at h
  · cases h
  · split at h
    · split at h
      · cases h
      · exact (Except.error.inj h).symm
    · exact (Except.error.inj h).symm

/-- The decoder ends, and all it raises is a read outside its string. -/
theorem convert_error {str : Bytes} {last : Int} {e : Fault} : ∀ (k : Nat) {i : Int},
    (last - i).toNat ≤ k → convertPercentEncoding str i last = .error e → e = .outOfBounds := by
  intro k
  induction k with
  | zero =>
      intro i hk h
      rw [convert_done (by omega)] at h
      cases h
  | succ k ih =>
      intro i hk h
      by_cases hi : i < last
      · have hmap : ∀ {j : Int} {f : Bytes → Bytes}, i < j →
            (convertPercentEncoding str j last).map f = .error e → e = .outOfBounds := by
          intro j f hj hmap
          cases hconvert : convertPercentEncoding str j last with
          | error e' =>
              rw [hconvert] at hmap
              obtain rfl := Except.error.inj hmap
              exact ih (by omega) hconvert
          | ok text =>
              rw [hconvert] at hmap
              cases hmap
        rw [convert_step hi] at h
        rcases bind_eq_error.mp h with hc | ⟨c, -, h⟩
        · exact charAt_error hc
        · split at h
          · exact hmap (by omega) h
          · split at h
            · rcases bind_eq_error.mp h with hhi | ⟨hi', -, h⟩
              · exact charAt_error hhi
              · rcases bind_eq_error.mp h with hlo | ⟨lo, -, h⟩
                · exact charAt_error hlo
                · exact hmap (by omega) h
            · exact hmap (by omega) h
      · rw [convert_done (Int.not_lt.mp hi)] at h
        cases h

theorem bindTurn_error (hjs : js.Returns) {t : FormTurn} {e : Fault}
    (h : bindTurn js body post t = .error e) : e.Leaves := by
  unfold bindTurn at h
  rcases bind_eq_error.mp h with hkey | ⟨key, -, h⟩
  · exact Or.inr (Or.inl (convert_error _ le_rfl hkey))
  · rcases bind_eq_error.mp h with hvalue | ⟨value, -, h⟩
    · exact Or.inr (Or.inl (convert_error _ le_rfl hvalue))
    · exact Or.inl (hjs.setMember _ _ _ _ h)

theorem turns_error (hjs : js.Returns) {e : Fault} : ∀ (turns : List FormTurn) {post : J},
    turns.foldlM (bindTurn js body) post = .error e → e.Leaves := by
  intro turns
  induction turns with
  | nil =>
      intro post h
      cases h
  | cons t turns ih =>
      intro post h
      rw [List.foldlM_cons] at h
      rcases bind_eq_error.mp h with ht | ⟨post', -, h⟩
      · exact bindTurn_error hjs ht
      · exact ih h

/-! ## §2  Where the turns start -/

/-- Where the turn behind one that starts at `first` starts. -/
def nextStart (body : Bytes) (first : Int) : Int := toInt (find body 38 (toSize first)) + 1

def turnAt (body : Bytes) (first : Int) : FormTurn :=
  { first := first
    split := toInt (find body 61 (toSize first))
    last := toInt (find body 38 (toSize first)) }

/-- The first `n` turns of a loop that does not end before. -/
def firstTurns (body : Bytes) (n : Nat) (first : Int) : List FormTurn :=
  (List.iterate (nextStart body) first n).map (turnAt body)

/-- The first `&` from position 2 ^ 31 on, if there is one, is at a position that is negative
as an `int`. -/
def FormEnds (body : Bytes) : Prop := toInt (find body 38 (2 ^ 31)) < 0

instance (body : Bytes) : Decidable (FormEnds body) :=
  inferInstanceAs (Decidable (toInt (find body 38 (2 ^ 31)) < 0))

theorem find_spec (str : Bytes) (c : Byte) (pos : Nat) :
    (c ∉ str.drop pos ∧ find str c pos = npos) ∨
      ∃ x y, str.drop pos = x ++ c :: y ∧ c ∉ x ∧ find str c pos = pos + x.length := by
  by_cases hc : c ∈ str.drop pos
  · obtain ⟨x, y, hxy, hx⟩ := List.eq_append_cons_of_mem hc
    refine Or.inr ⟨x, y, hxy, hx, ?_⟩
    rw [find, hxy, findIdx?_first hx]
  · refine Or.inl ⟨hc, ?_⟩
    rw [find, findIdx?_absent hc]

theorem length_of_find {str : Bytes} {pos : Nat} (c : Byte) (h : find str c pos ≠ npos) :
    pos < str.length := by
  rcases find_spec str c pos with ⟨-, hfind⟩ | ⟨x, y, hxy, -, -⟩
  · exact absurd hfind h
  · have hlength := congrArg List.length hxy
    rw [List.length_drop, List.length_append, List.length_cons] at hlength
    omega

/-- A search from further on, up to what the search found, finds the same. -/
theorem find_later {str : Bytes} {c : Byte} {pos pos' : Nat} (hpos : pos ≤ pos')
    (hpos' : pos' ≤ find str c pos) : find str c pos' = find str c pos := by
  have hdrop : str.drop pos' = (str.drop pos).drop (pos' - pos) := by
    rw [List.drop_drop, Nat.add_sub_cancel' hpos]
  rcases find_spec str c pos with ⟨hc, hfind⟩ | ⟨x, y, hxy, hx, hfind⟩
  · have hc' : c ∉ str.drop pos' := fun hmem => hc (List.mem_of_mem_drop (hdrop ▸ hmem))
    rw [hfind, find, findIdx?_absent hc']
  · rw [hfind] at hpos' ⊢
    have hx' : c ∉ x.drop (pos' - pos) := fun hmem => hx (List.mem_of_mem_drop hmem)
    rw [find, hdrop, hxy, List.drop_append_of_le_length (by omega), findIdx?_first hx',
      List.length_drop]
    show pos' + (x.length - (pos' - pos)) = pos + x.length
    omega

theorem toInt_range (n : Int) : -2 ^ 31 ≤ toInt n ∧ toInt n < 2 ^ 31 := by
  unfold toInt
  have hle := @Int.le_bmod n (2 ^ 32) (by decide)
  have hlt := @Int.bmod_lt n (2 ^ 32) (by decide)
  omega

theorem toSize_nat {i : Int} (h : 0 ≤ i) (h' : i ≤ 2 ^ 31) : toSize i = i.toNat := by
  rw [toSize, Int.emod_eq_of_lt h (by omega)]

/-- What a turn in front of position 2 ^ 31 finds. -/
theorem find_start {first : Int} (h : 0 ≤ first) (h' : first ≤ 2 ^ 31) :
    (first ≤ toInt (find body 38 (toSize first)) ∧
        toInt (find body 38 (toSize first)) < body.length) ∨
      find body 38 (toSize first) = find body 38 (2 ^ 31) := by
  rw [toSize_nat h h']
  by_cases hfar : 2 ^ 31 ≤ find body 38 first.toNat
  · exact Or.inr (find_later (by omega) hfar).symm
  · left
    rcases find_spec body 38 first.toNat with ⟨-, hfind⟩ | ⟨x, y, hxy, -, hfind⟩
    · rw [hfind] at hfar
      exact absurd (by decide) hfar
    · have hlength := congrArg List.length hxy
      rw [List.length_drop, List.length_append, List.length_cons] at hlength
      rw [toInt_natCast (Nat.not_le.mp hfar), hfind]
      omega

/-! ## §3  A loop that does not end -/

/-- On a body where a position wraps, each turn starts from 0 to 2 ^ 31 and is followed by
another. -/
theorem start_goesOn (h : ¬ FormEnds body) {first : Int} (hfirst : 0 ≤ first)
    (hfirst' : first ≤ 2 ^ 31) :
    0 ≤ toInt (find body 38 (toSize first)) ∧
      toSize (toInt (find body 38 (toSize first))) ≠ npos := by
  have hpos : 0 ≤ toInt (find body 38 (toSize first)) := by
    rcases @find_start body first hfirst hfirst' with ⟨hle, -⟩ | hfar
    · exact hfirst.trans hle
    · rw [hfar]
      exact Int.not_lt.mp h
  have hlt := (toInt_range (find body 38 (toSize first))).2
  refine ⟨hpos, ?_⟩
  rw [toSize_nat hpos hlt.le, npos]
  omega

theorem nextStart_range (h : ¬ FormEnds body) {first : Int} (hfirst : 0 ≤ first)
    (hfirst' : first ≤ 2 ^ 31) : 0 ≤ nextStart body first ∧ nextStart body first ≤ 2 ^ 31 := by
  have hpos := (start_goesOn h hfirst hfirst').1
  have hlt := (toInt_range (find body 38 (toSize first))).2
  unfold nextStart
  omega

/-- Its bound on the turns is used up, whatever it is. -/
theorem postLoop_forever (h : ¬ FormEnds body) : ∀ (fuel : Nat) {first : Int} (post : J),
    0 ≤ first → first ≤ 2 ^ 31 → postLoop js body fuel first post = (do
      let _ ← (firstTurns body fuel first).foldlM (bindTurn js body) post
      .error .diverges) := by
  intro fuel
  induction fuel with
  | zero =>
      intro first post _ _
      rfl
  | succ fuel ih =>
      intro first post hfirst hfirst'
      obtain ⟨hnext, hnext'⟩ := nextStart_range h hfirst hfirst'
      have hturns : firstTurns body (fuel + 1) first =
          turnAt body first :: firstTurns body fuel (nextStart body first) := rfl
      rw [postLoop, if_pos (start_goesOn h hfirst hfirst').2, hturns, List.foldlM_cons, bind_assoc,
        postSegment_eq]
      exact congrArg _ (funext fun post => ih post hnext hnext')

theorem starts_range (h : ¬ FormEnds body) (n : Nat) :
    0 ≤ (nextStart body)^[n] 0 ∧ (nextStart body)^[n] 0 ≤ 2 ^ 31 := by
  induction n with
  | zero => exact ⟨le_rfl, show (0 : Int) ≤ 2 ^ 31 by decide⟩
  | succ n ih =>
      rw [Function.iterate_succ_apply']
      exact nextStart_range h ih.1 ih.2

/-- The positions that a turn can start at. -/
theorem starts_mem (h : ¬ FormEnds body) (n : Nat) :
    (nextStart body)^[n] 0 ∈ (Finset.range (2 ^ 31 + 1)).image Int.ofNat := by
  obtain ⟨hpos, hle⟩ := starts_range h n
  refine Finset.mem_image.mpr ⟨((nextStart body)^[n] 0).toNat, ?_, Int.toNat_of_nonneg hpos⟩
  rw [Finset.mem_range, Nat.lt_succ_iff, Int.toNat_le]
  exact hle

/-- A body on which a position wraps is longer than there are starts. -/
theorem length_of_wraps (h : ¬ FormEnds body) : 2 ^ 31 < body.length := by
  refine length_of_find 38 fun hnone => h ?_
  rw [FormEnds, hnone, toInt_npos]
  decide

/-- Each of its turns is one of the first ones. -/
theorem mem_firstTurns (h : ¬ FormEnds body) {n : Nat} {t : FormTurn}
    (ht : t ∈ firstTurns body n 0) : t ∈ firstTurns body (body.length + 1) 0 := by
  obtain ⟨start, hstart, rfl⟩ := List.mem_map.mp ht
  obtain ⟨k, -, rfl⟩ := List.mem_iterate.mp hstart
  obtain ⟨m, hm, hsame⟩ := Orbit.exists_early (starts_mem h) k
  have hcard : ((Finset.range (2 ^ 31 + 1)).image Int.ofNat).card ≤ 2 ^ 31 + 1 :=
    Finset.card_image_le.trans (Finset.card_range _).le
  have hlong := length_of_wraps h
  exact List.mem_map.mpr ⟨_, List.mem_iterate.mpr ⟨m, by omega, hsame.symm⟩, rfl⟩

/-- The key and the value of a turn can be decoded. -/
def Decodes (body : Bytes) (t : FormTurn) : Prop :=
  (∃ key, convertPercentEncoding body t.first t.split = .ok key) ∧
    ∃ value, convertPercentEncoding body (t.split + 1) t.last = .ok value

theorem bindTurn_ok {t : FormTurn} {post' : J} (h : bindTurn js body post t = .ok post') :
    Decodes body t ∧ ∃ key value, js.setMember post key value = .ok post' := by
  obtain ⟨key, hkey, h⟩ := bind_eq_ok.mp h
  obtain ⟨value, hvalue, h⟩ := bind_eq_ok.mp h
  exact ⟨⟨⟨key, hkey⟩, value, hvalue⟩, key, value, h⟩

theorem decodes_of_turns : ∀ (turns : List FormTurn) {post post' : J},
    turns.foldlM (bindTurn js body) post = .ok post' → ∀ t ∈ turns, Decodes body t := by
  intro turns
  induction turns with
  | nil => exact fun _ t ht => absurd ht List.not_mem_nil
  | cons t turns ih =>
      intro post post' h s hs
      rw [List.foldlM_cons] at h
      obtain ⟨post₁, ht, h⟩ := bind_eq_ok.mp h
      rcases List.mem_cons.mp hs with rfl | hs
      · exact (bindTurn_ok ht).1
      · exact ih h s hs

/-- Where members can be set, decoding is all that can fail. -/
theorem turns_ok (hjs : js.Returns) : ∀ (turns : List FormTurn) {post : J},
    (∀ key x, ∃ v, js.setMember post key x = .ok v) → (∀ t ∈ turns, Decodes body t) →
      ∃ post', turns.foldlM (bindTurn js body) post = .ok post' := by
  intro turns
  induction turns with
  | nil => exact fun _ _ => ⟨_, rfl⟩
  | cons t turns ih =>
      intro post hset hdecodes
      obtain ⟨⟨key, hkey⟩, value, hvalue⟩ := hdecodes t List.mem_cons_self
      obtain ⟨post₁, hpost⟩ := hset key value
      have ht : bindTurn js body post t = .ok post₁ := by
        simp only [bindTurn, hkey, hvalue, bind, Except.bind, hpost]
      obtain ⟨post', hrest⟩ := ih (hjs.setMember_again _ _ _ _ hpost)
        fun s hs => hdecodes s (List.mem_cons_of_mem t hs)
      refine ⟨post', ?_⟩
      rw [List.foldlM_cons, ht]
      exact hrest

/-- A turn that raises is among the first ones: positions come again, and a value that took
one member takes every other. -/
theorem raises_early (hjs : js.Returns) (h : ¬ FormEnds body) {n : Nat} {e : Fault}
    (hraises : (firstTurns body n 0).foldlM (bindTurn js body) post = .error e) :
    ∃ e, (firstTurns body (body.length + 1) 0).foldlM (bindTurn js body) post = .error e := by
  cases hearly : (firstTurns body (body.length + 1) 0).foldlM (bindTurn js body) post with
  | error e => exact ⟨e, rfl⟩
  | ok post' =>
      exfalso
      have hdecodes := decodes_of_turns _ hearly
      cases n with
      | zero => cases hraises
      | succ n =>
          have hcons : ∀ k, firstTurns body (k + 1) 0 =
              turnAt body 0 :: firstTurns body k (nextStart body 0) := fun _ => rfl
          have hall : ∀ t ∈ firstTurns body (n + 1) 0, Decodes body t := fun t ht =>
            hdecodes t (mem_firstTurns h ht)
          rw [hcons, List.foldlM_cons] at hearly hraises
          rw [hcons] at hall
          obtain ⟨post₁, hfirst, -⟩ := bind_eq_ok.mp hearly
          obtain ⟨-, key, value, hset⟩ := bindTurn_ok hfirst
          obtain ⟨post', hrest⟩ := turns_ok hjs _ (hjs.setMember_again _ _ _ _ hset)
            fun t ht => hall t (List.mem_cons_of_mem _ ht)
          rw [hfirst] at hraises
          exact absurd (hrest.symm.trans hraises) (by simp)

/-! ## §4  A loop that ends -/

/-- A position that is negative as an `int` is behind the end of every string. -/
theorem find_negative {first : Int} (h : -2 ^ 31 ≤ first) (h' : first < 0)
    (hlen : body.length < 2 ^ 63) (c : Byte) : find body c (toSize first) = npos := by
  have hsize : body.length ≤ toSize first := by
    unfold toSize
    omega
  rw [find, List.drop_of_length_le hsize]
  rfl

theorem formTurns_end (fuel : Nat) {first : Int} (h : find body 38 (toSize first) = npos) :
    ∃ turns, formTurns body (fuel + 1) first = .ok turns := by
  rw [formTurns, h, toInt_npos, toSize_npos]
  exact ⟨_, rfl⟩

/-- A turn for each byte and one more are enough. -/
theorem formTurns_ends (h : FormEnds body) (hlen : body.length < 2 ^ 63) :
    ∀ (fuel : Nat) {first : Int}, 0 ≤ first → first ≤ 2 ^ 31 → first ≤ body.length →
      body.length < fuel + first → ∃ turns, formTurns body fuel first = .ok turns := by
  intro fuel
  induction fuel with
  | zero =>
      intro first _ _ hle hfuel
      omega
  | succ fuel ih =>
      intro first hfirst hfirst' hle hfuel
      by_cases hend : toSize (toInt (find body 38 (toSize first))) = npos
      · refine ⟨[⟨first, toInt (find body 61 (toSize first)), toInt body.length⟩], ?_⟩
        rw [formTurns, if_neg (not_not_intro hend)]
      · have hnext : ∃ turns, formTurns body fuel (toInt (find body 38 (toSize first)) + 1) =
            .ok turns := by
          have hrange := toInt_range (find body 38 (toSize first))
          rcases @find_start body first hfirst hfirst' with ⟨hpos, hlt⟩ | hfar
          · exact ih (by omega) (by omega) (by omega) (by omega)
          · -- the position is negative, and so is the next start
            have hneg : toInt (find body 38 (toSize first)) < 0 := by
              rw [hfar]
              exact h
            have hne : toInt (find body 38 (toSize first)) ≠ -1 := by
              intro heq
              rw [heq] at hend
              exact hend toSize_npos
            have hlong : 2 ^ 31 < body.length := by
              refine length_of_find 38 fun hnone => hend ?_
              rw [hfar, hnone, toInt_npos, toSize_npos]
            obtain ⟨k, rfl⟩ : ∃ k, fuel = k + 1 := ⟨fuel - 1, by omega⟩
            exact formTurns_end k (find_negative (by omega) (by omega) hlen 38)
        obtain ⟨turns, hturns⟩ := hnext
        refine ⟨turnAt body first :: turns, ?_⟩
        rw [formTurns, if_pos hend, hturns]
        rfl

/-- `ParsePost` comes to the end of a body: it is no form, no position of the form wraps, or
one of the turns raises. -/
def PostEnds (js : JsonCpp J) (ct body : Bytes) (post : J) : Prop :=
  strncasecmpEq ct formType 33 = true → FormEnds body ∨
    ∃ n e, (firstTurns body n 0).foldlM (bindTurn js body) post = .error e

/-- **`ParsePost` ends** exactly there; it returns or raises. -/
theorem postValue_ends_iff (hjs : js.Returns) {ct : Bytes} (hlen : body.length < 2 ^ 63) :
    (∀ e, postValue js ct body post = .error e → e.Leaves) ↔ PostEnds js ct body post := by
  have hform : ascii "application/x-www-form-urlencoded" = formType := rfl
  unfold PostEnds postValue
  rw [hform]
  cases strncasecmpEq ct formType 33 with
  | false =>
      refine iff_of_true (fun e he => ?_) (fun h => absurd h (by decide))
      rw [if_neg Bool.false_ne_true] at he
      split at he
      · cases hparse : js.parse body post with
        | error e' =>
            rw [hparse] at he
            obtain rfl := Except.error.inj he
            exact Or.inl (hjs.parse _ _ _ hparse)
        | ok r =>
            rw [hparse] at he
            cases he
      · cases he
  | true =>
      rw [if_pos rfl, imp_iff_right rfl]
      by_cases hends : FormEnds body
      · refine iff_of_true (fun e he => ?_) (Or.inl hends)
        obtain ⟨turns, hturns⟩ := formTurns_ends hends hlen (body.length + 1) le_rfl (by decide)
          (by omega) (by omega)
        rw [postLoop_turns js body _ 0 turns post hturns] at he
        exact turns_error hjs turns he
      · have hloop := @postLoop_forever J js body hends (body.length + 1) 0 post le_rfl (by decide)
        rw [hloop]
        constructor
        · intro hall
          right
          cases hturns : (firstTurns body (body.length + 1) 0).foldlM (bindTurn js body) post with
          | error e => exact ⟨_, e, hturns⟩
          | ok post' =>
              rw [hturns] at hall
              exact absurd rfl (Fault.leaves_iff.mp (hall .diverges rfl))
        · rintro (h | ⟨n, e, hraises⟩) e' he'
          · exact absurd h hends
          · obtain ⟨e₁, hearly⟩ := raises_early hjs hends hraises
            rw [hearly] at he'
            obtain rfl := Except.error.inj he'
            exact turns_error hjs _ hearly

end HttpRequest

end WhiteWebServer
