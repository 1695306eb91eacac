import WhiteWebServer.FormDecoding

/-!
# Segments of a form body

Which bytes `ParsePost` looks at while it decodes one segment between two `&`. The search
for `=` and the look behind a `%` stop at no end of a segment. §1 the positions the decoder
reads; §2 the positions each turn of the loop hands to it; §3 a turn that keeps to its
segment; §4 the bodies whose turns all do.
-/

namespace WhiteWebServer

open Outcome

namespace HttpRequest

variable {J : Type} {js : JsonCpp J}

/-! ## §1  Positions read -/

/-- The positions at which the loop of `ConvertPercentEncoding` reads its string. -/
def readLoop (str : Bytes) (last : Int) : Nat → Int → List Int
  | 0, _ => []
  | fuel + 1, i =>
      if i < last then
        match charAt str i with
        | .error _ => [i]
        | .ok c =>
            if c = percent then i :: (i + 1) :: (i + 2) :: readLoop str last fuel (i + 3)
            else i :: readLoop str last fuel (i + 1)
      else []

def positionsRead (str : Bytes) (first last : Int) : List Int :=
  readLoop str last (last - first).toNat first

section reads

variable {str piece text before after : Bytes} {c : Byte} {i j last : Int}

theorem readLoop_fuel (str : Bytes) (last : Int) : ∀ (fuel fuel' : Nat) (i : Int),
    last - i ≤ fuel → last - i ≤ fuel' →
      readLoop str last fuel i = readLoop str last fuel' i := by
  intro fuel
  induction fuel with
  | zero =>
      intro fuel' i h h'
      have hi : ¬ i < last := by omega
      cases fuel' <;> simp [readLoop, hi]
  | succ fuel ih =>
      intro fuel' i h h'
      by_cases hi : i < last
      · obtain ⟨fuel', rfl⟩ : ∃ n, fuel' = n + 1 := ⟨fuel' - 1, by omega⟩
        unfold readLoop
        rw [if_pos hi, if_pos hi, ih fuel' (i + 1) (by omega) (by omega),
          ih fuel' (i + 3) (by omega) (by omega)]
      · cases fuel' <;> simp [readLoop, hi]

theorem positionsRead_done (h : last ≤ i) : positionsRead str i last = [] := by
  have hfuel : (last - i).toNat = 0 := by omega
  rw [positionsRead, hfuel, readLoop]

theorem positionsRead_step (h : i < last) :
    positionsRead str i last =
      match charAt str i with
      | .error _ => [i]
      | .ok c =>
          if c = percent then i :: (i + 1) :: (i + 2) :: positionsRead str (i + 3) last
          else i :: positionsRead str (i + 1) last := by
  obtain ⟨fuel, hfuel⟩ : ∃ n, (last - i).toNat = n + 1 := ⟨(last - i).toNat - 1, by omega⟩
  rw [positionsRead, hfuel, readLoop, if_pos h,
    readLoop_fuel str last fuel (last - (i + 1)).toNat (i + 1) (by omega) (by omega),
    readLoop_fuel str last fuel (last - (i + 3)).toNat (i + 3) (by omega) (by omega)]
  rfl

/-- The first position is read, whatever stands there. -/
theorem first_read (h : i < last) : i ∈ positionsRead str i last := by
  rw [positionsRead_step h]
  rcases charAt str i with e | c
  · exact List.mem_singleton_self i
  · dsimp only
    split <;> exact List.mem_cons_self

theorem positionsRead_percent (h : i < last) (hc : charAt str i = .ok percent) :
    positionsRead str i last = i :: (i + 1) :: (i + 2) :: positionsRead str (i + 3) last := by
  rw [positionsRead_step h, hc]
  rfl

theorem positionsRead_plain (h : i < last) (hc : charAt str i = .ok c) (hne : c ≠ percent) :
    positionsRead str i last = i :: positionsRead str (i + 1) last := by
  rw [positionsRead_step h, hc]
  dsimp only
  rw [if_neg hne]

/-- What a decoder that ends regularly did at its position. -/
theorem convert_ok (h : convertPercentEncoding str i last = .ok text) (hi : i < last) :
    ∃ c d rest, charAt str i = .ok c ∧ text = d :: rest ∧
      ((c = percent ∧ convertPercentEncoding str (i + 3) last = .ok rest ∧
          ∃ hi lo, charAt str (i + 1) = .ok hi ∧ charAt str (i + 2) = .ok lo ∧ d = escaped hi lo) ∨
        (c ≠ percent ∧ convertPercentEncoding str (i + 1) last = .ok rest)) := by
  rw [convert_step hi] at h
  obtain ⟨c, hc, h⟩ := bind_eq_ok.mp h
  by_cases hplus : c = plus
  · rw [if_pos hplus] at h
    obtain ⟨rest, hrest, htext⟩ := map_eq_ok h
    exact ⟨c, SP, rest, hc, htext, Or.inr ⟨by rw [hplus]; decide, hrest⟩⟩
  · rw [if_neg hplus] at h
    by_cases hpercent : c = percent
    · rw [if_pos hpercent] at h
      obtain ⟨hi, hhi, h⟩ := bind_eq_ok.mp h
      obtain ⟨lo, hlo, h⟩ := bind_eq_ok.mp h
      obtain ⟨rest, hrest, htext⟩ := map_eq_ok h
      exact ⟨c, _, rest, hc, htext, Or.inl ⟨hpercent, hrest, hi, lo, hhi, hlo, rfl⟩⟩
    · rw [if_neg hpercent] at h
      obtain ⟨rest, hrest, htext⟩ := map_eq_ok h
      exact ⟨c, c, rest, hc, htext, Or.inr ⟨hpercent, hrest⟩⟩

/-- The positions from `start` on, `n` of them. -/
def Inside (start n : Nat) (j : Int) : Prop := start ≤ j ∧ j < start + n

theorem Token.positionsRead {token : Bytes} {b : Byte} {last : Int} (h : Token token b)
    (before after : Bytes) (hlast : (before.length : Int) < last) :
    ∃ js, (∀ j ∈ js, Inside before.length token.length j) ∧
      positionsRead (before ++ (token ++ after)) before.length last =
        js ++ positionsRead (before ++ (token ++ after)) (before.length + token.length) last := by
  have hread : ∀ c rest, charAt (before ++ c :: rest) before.length = .ok c :=
    fun c rest => charAt_append before rest rfl
  cases h with
  | plus =>
      refine ⟨[(before.length : Int)], ?_, positionsRead_plain hlast (hread _ _) (by decide)⟩
      simp [Inside]
  | escape hi lo =>
      refine ⟨[(before.length : Int), before.length + 1, before.length + 2], ?_,
        positionsRead_percent hlast (hread _ _)⟩
      simp [Inside]
  | literal hp he =>
      refine ⟨[(before.length : Int)], ?_, positionsRead_plain hlast (hread _ _) he⟩
      simp [Inside]

/-- A whole piece is read inside its own positions. -/
theorem positionsRead_past (h : unescape piece = some text) (before after : Bytes)
    (hlast : (before.length + piece.length : Int) ≤ last) :
    ∃ js, (∀ j ∈ js, Inside before.length piece.length j) ∧
      positionsRead (before ++ (piece ++ after)) before.length last =
        js ++ positionsRead (before ++ (piece ++ after)) (before.length + piece.length) last := by
  induction piece using token_induct generalizing text before with
  | nil => exact ⟨[], by simp, by simp⟩
  | cut rest hshort => simp [unescape_cut hshort] at h
  | cons token b rest htoken ih =>
      rw [htoken.unescape] at h
      obtain ⟨text, htext, rfl⟩ := Option.map_eq_some_iff.mp h
      have htokenLength := htoken.length
      rw [List.length_append, Nat.cast_add] at hlast
      obtain ⟨js, hjs, hread⟩ := htoken.positionsRead before (rest ++ after)
        (show (before.length : Int) < last by omega)
      obtain ⟨js', hjs', hrest⟩ := ih htext (before ++ token) (by rw [List.length_append]; omega)
      simp only [List.append_assoc, List.length_append, Nat.cast_add] at hrest
      refine ⟨js ++ js', fun j hj => ?_, ?_⟩
      · unfold Inside
        rw [List.length_append]
        rcases List.mem_append.mp hj with hj | hj
        · have := hjs j hj
          unfold Inside at this
          omega
        · have := hjs' j hj
          unfold Inside at this
          rw [List.length_append] at this
          omega
      · rw [List.append_assoc, hread, hrest, List.length_append, Nat.cast_add, ← add_assoc,
          List.append_assoc]

theorem positionsRead_whole (h : unescape piece = some text)
    (hstr : str = before ++ (piece ++ after)) (hi : i = before.length)
    (hlast : last = before.length + piece.length) :
    ∀ j ∈ positionsRead str i last, Inside before.length piece.length j := by
  subst hstr hi hlast
  obtain ⟨js, hjs, hread⟩ := positionsRead_past h before after le_rfl
  rw [hread, positionsRead_done le_rfl, List.append_nil]
  exact hjs

/-- A decoder that ends regularly gets to every position before the last. -/
theorem positionsRead_reach {z : Int} (h : convertPercentEncoding str i last = .ok text)
    (hi : i ≤ z) (hz : z < last) : ∃ j ∈ positionsRead str i last, z ≤ j := by
  induction hn : (last - i).toNat using Nat.strongRecOn generalizing i text with
  | ind n ih =>
      have hlt : i < last := by omega
      obtain ⟨c, d, rest, hc, -, ⟨rfl, hrest, -⟩ | ⟨hne, hrest⟩⟩ := convert_ok h hlt
      · rw [positionsRead_percent hlt hc]
        by_cases hnear : z ≤ i + 2
        · exact ⟨i + 2, by simp, hnear⟩
        · obtain ⟨j, hj, hle⟩ := ih _ (by omega) hrest (by omega) rfl
          exact ⟨j, by simp [hj], hle⟩
      · rw [positionsRead_plain hlt hc hne]
        by_cases hnear : z ≤ i
        · exact ⟨i, by simp, hnear⟩
        · obtain ⟨j, hj, hle⟩ := ih _ (by omega) hrest (by omega) rfl
          exact ⟨j, by simp [hj], hle⟩

/-- Each byte decoded takes one to three positions. -/
theorem convert_length (h : convertPercentEncoding str i last = .ok text) (hi : i ≤ last) :
    text.length ≤ last - i ∧ last - i ≤ 3 * text.length := by
  induction hn : (last - i).toNat using Nat.strongRecOn generalizing i text with
  | ind n ih =>
      by_cases hlt : i < last
      · obtain ⟨c, d, rest, -, rfl, ⟨-, hrest, -⟩ | ⟨-, hrest⟩⟩ := convert_ok h hlt
        · rw [List.length_cons]
          by_cases hnext : i + 3 ≤ last
          · have := ih _ (by omega) hrest hnext rfl
            omega
          · rw [convert_done (by omega)] at hrest
            obtain rfl := Except.ok.inj hrest
            simp
            omega
        · rw [List.length_cons]
          have := ih _ (by omega) hrest (by omega) rfl
          omega
      · rw [convert_done (by omega)] at h
        obtain rfl := Except.ok.inj h
        simp
        omega

end reads

/-! ## §2  The turns of the loop -/

/-- The positions of one turn of the loop of `ParsePost`: the key is decoded from `first` to
`split`, the value from behind `split` to `last`. -/
structure FormTurn where
  first : Int
  split : Int
  last : Int
deriving DecidableEq, Repr

def formTurns (body : Bytes) : Nat → Int → Except Fault (List FormTurn)
  | 0, _ => .error .diverges
  | fuel + 1, first =>
      let split := toInt (find body 61 (toSize first))
      let last := toInt (find body 38 (toSize first))
      if toSize last ≠ npos then do
        let turns ← formTurns body fuel (last + 1)
        return ⟨first, split, last⟩ :: turns
      else .ok [⟨first, split, toInt body.length⟩]

/-- What one turn does to `post_`. -/
def bindTurn (js : JsonCpp J) (body : Bytes) (post : J) (t : FormTurn) : Except Fault J := do
  let key ← convertPercentEncoding body t.first t.split
  let value ← convertPercentEncoding body (t.split + 1) t.last
  js.setMember post key value

theorem postSegment_eq (js : JsonCpp J) (body : Bytes) (post : J) (first last : Int) :
    postSegment js body post first last =
      bindTurn js body post ⟨first, toInt (find body 61 (toSize first)), last⟩ := by
  rw [postSegment, bindTurn]

/-- The loop is its turns, one after the other. -/
theorem postLoop_turns (js : JsonCpp J) (body : Bytes) : ∀ (fuel : Nat) (first : Int)
    (turns : List FormTurn) (post : J), formTurns body fuel first = .ok turns →
      postLoop js body fuel first post = turns.foldlM (bindTurn js body) post := by
  intro fuel
  induction fuel with
  | zero => intro first turns post h; cases h
  | succ fuel ih =>
      intro first turns post h
      rw [formTurns] at h
      rw [postLoop]
      split at h
      · rename_i hnpos
        obtain ⟨rest, hrest, hturns⟩ := bind_eq_ok.mp h
        obtain rfl := Except.ok.inj hturns
        rw [if_pos hnpos, List.foldlM_cons]
        have hnext : ∀ post, postLoop js body fuel (toInt (find body 38 (toSize first)) + 1) post =
            rest.foldlM (bindTurn js body) post := fun post => ih _ rest post hrest
        simp only [hnext, postSegment_eq]
      · rename_i hnpos
        obtain rfl := Except.ok.inj h
        rw [if_neg hnpos]
        simp only [List.foldlM_cons, List.foldlM_nil, bind_pure, postSegment_eq]

/-! ## §3  A turn that keeps to its segment -/

/-- A segment is split at its first `=`. -/
def keyPart (segment : Bytes) : Bytes := segment.takeWhile (· != equals)

/-- Empty when the segment has no `=`. -/
def valuePart (segment : Bytes) : Bytes := (segment.dropWhile (· != equals)).drop 1

/-- A turn over the segment that starts at `start`: key and value are what the decoder makes
of the two parts alone, no other byte is read, and no position leaves the range of `int`. -/
structure FormTurn.Own (body : Bytes) (start : Nat) (segment : Bytes) (t : FormTurn) : Prop where
  first : t.first = start
  int : t.first < 2 ^ 31 ∧ t.split + 1 < 2 ^ 31
  key : ∃ key, convertPercentEncoding body t.first t.split = .ok key ∧
    convertPercentEncoding (keyPart segment) 0 (keyPart segment).length = .ok key
  value : ∃ value, convertPercentEncoding body (t.split + 1) t.last = .ok value ∧
    convertPercentEncoding (valuePart segment) 0 (valuePart segment).length = .ok value
  reads : ∀ j ∈ positionsRead body t.first t.split ++ positionsRead body (t.split + 1) t.last,
    Inside start segment.length j

/-- The segments with the positions at which they start. -/
def placed : Nat → List Bytes → List (Nat × Bytes)
  | _, [] => []
  | start, segment :: segments => (start, segment) :: placed (start + segment.length + 1) segments

/-- Each turn keeps to its segment. -/
def SegmentsApart (body : Bytes) (turns : List FormTurn) : Prop :=
  List.Forall₂ (fun (s : Nat × Bytes) t => t.Own body s.1 s.2) (placed 0 (body.splitOn ampersand))
    turns

/-- A segment with an `=` in which no escape is cut short. -/
structure Whole (segment : Bytes) : Prop where
  equals : equals ∈ segment
  key : unescape (keyPart segment) ≠ none
  value : unescape (valuePart segment) ≠ none

section turns

variable {before after segment x y body : Bytes} {t : FormTurn}

theorem parts_of_equals (h : equals ∈ segment) :
    segment = keyPart segment ++ equals :: valuePart segment ∧ equals ∉ keyPart segment := by
  have hne : segment.dropWhile (· != equals) ≠ [] := by
    intro hnil
    have := List.dropWhile_eq_nil_iff.mp hnil equals h
    simp at this
  obtain ⟨c, rest, hrest⟩ := List.exists_cons_of_ne_nil hne
  have hc : c = equals := by
    have := List.head?_dropWhile_not (· != equals) segment
    rw [hrest] at this
    simpa using this
  refine ⟨?_, fun hmem => by simpa using List.mem_takeWhile_imp hmem⟩
  conv_lhs => rw [← List.takeWhile_append_dropWhile (p := (· != equals)) (l := segment)]
  rw [keyPart, valuePart, hrest, hc]
  rfl

theorem parts_of_no_equals (h : equals ∉ segment) :
    keyPart segment = segment ∧ valuePart segment = [] := by
  have hall : ∀ c ∈ segment, (c != equals) = true := by
    intro c hc
    rw [bne_iff_ne]
    rintro rfl
    exact h hc
  rw [keyPart, valuePart, List.takeWhile_eq_self_iff.mpr hall, List.dropWhile_eq_nil_iff.mpr hall]
  exact ⟨rfl, rfl⟩

/-- Where the key and the value of a segment stand in the body. -/
theorem parts_placed (before after : Bytes) (h : equals ∈ segment) :
    before ++ (segment ++ after) =
        before ++ (keyPart segment ++ equals :: (valuePart segment ++ after)) ∧
      before ++ (segment ++ after) =
        before ++ keyPart segment ++ [equals] ++ (valuePart segment ++ after) ∧
      ((before ++ keyPart segment ++ [equals]).length : Int) =
        before.length + (keyPart segment).length + 1 ∧
      segment.length = (keyPart segment).length + ((valuePart segment).length + 1) := by
  obtain ⟨hsegment, -⟩ := parts_of_equals h
  have hlength := congrArg List.length hsegment
  rw [List.length_append, List.length_cons] at hlength
  refine ⟨?_, ?_, ?_, hlength⟩
  · conv_lhs => rw [hsegment]
    simp
  · conv_lhs => rw [hsegment]
    simp
  · simp
    omega

/-- A whole segment is decoded from its own bytes. -/
theorem own_of_whole (before after : Bytes) (hwhole : Whole segment)
    (hlen : (before ++ (segment ++ after)).length < 2 ^ 31) :
    FormTurn.Own (before ++ (segment ++ after)) before.length segment
      ⟨before.length, before.length + (keyPart segment).length,
        before.length + segment.length⟩ := by
  obtain ⟨key, hkey⟩ := Option.ne_none_iff_exists'.mp hwhole.key
  obtain ⟨value, hvalue⟩ := Option.ne_none_iff_exists'.mp hwhole.value
  obtain ⟨hk, hv, hstart, hlength⟩ := parts_placed before after hwhole.equals
  rw [List.length_append, List.length_append] at hlen
  refine ⟨rfl, ⟨by dsimp only; omega, by dsimp only; omega⟩, ⟨key, ?_, ?_⟩, ⟨value, ?_, ?_⟩, ?_⟩
  · exact convert_whole _ _ hkey hk rfl rfl
  · exact convert_whole [] [] hkey (by simp) rfl (by simp)
  · exact convert_whole _ _ hvalue hv hstart.symm (by rw [hstart]; dsimp only; omega)
  · exact convert_whole [] [] hvalue (by simp) rfl (by simp)
  · intro j hj
    rcases List.mem_append.mp hj with hj | hj
    · have := positionsRead_whole hkey hk rfl rfl j hj
      unfold Inside at this ⊢
      omega
    · have := positionsRead_whole hvalue hv hstart.symm (by rw [hstart]; dsimp only; omega) j hj
      unfold Inside at this ⊢
      omega

/-- A piece that is not whole ends with an escape cut short. -/
theorem cut_of_unescape {piece : Bytes} (h : unescape piece = none) :
    ∃ q text r, unescape q = some text ∧ r.length < 2 ∧ piece = q ++ percent :: r := by
  induction piece using token_induct with
  | nil => cases h
  | cut rest hshort => exact ⟨[], [], rest, rfl, hshort, rfl⟩
  | cons token b rest htoken ih =>
      rw [htoken.unescape] at h
      obtain ⟨q, text, r, hq, hr, rfl⟩ := ih (Option.map_eq_none_iff.mp h)
      exact ⟨token ++ q, b :: text, r, by rw [htoken.unescape, hq]; rfl, hr, by simp⟩

theorem escaped_ne (hi : Byte) : escaped hi NUL ≠ escaped hi equals := by
  intro h
  have hnat := congrArg UInt8.toNat h
  have hnul : hexToDec NUL = -55 := by decide
  have hequals : hexToDec equals = 6 := by decide
  simp only [escaped, hnul, hequals, UInt8.toNat_ofNat'] at hnat
  omega

/-- At an escape that the last position cuts short the decoder reads on and is done. -/
theorem convert_cut {str text : Bytes} {i last : Int}
    (h : convertPercentEncoding str i last = .ok text) (hc : charAt str i = .ok percent)
    (hi : i < last) (hlast : last ≤ i + 3) :
    ∃ hi lo, charAt str (i + 1) = .ok hi ∧ charAt str (i + 2) = .ok lo ∧
      text = [escaped hi lo] := by
  obtain ⟨c, d, rest, hc', htext, ⟨-, hrest, hi, lo, hhi, hlo, hd⟩ | ⟨hne, -⟩⟩ := convert_ok h hi
  · rw [convert_done hlast] at hrest
    obtain rfl := Except.ok.inj hrest
    exact ⟨hi, lo, hhi, hlo, by rw [htext, hd]⟩
  · rw [hc] at hc'
    exact absurd (Except.ok.inj hc').symm hne

theorem charAt_end (str : Bytes) {i : Int} (hi : i = str.length) : charAt str i = .ok NUL := by
  rw [charAt, if_pos hi]

theorem charAt_behind {str : Bytes} {i : Int} (hi : (str.length : Int) < i) :
    charAt str i = .error .outOfBounds := by
  rw [charAt, if_neg (by omega), if_pos (by omega), List.getElem?_eq_none (by omega)]

/-- A key that ends inside an escape is not decoded from its own bytes: the look ahead
meets the `=`. -/
theorem key_whole {key : Bytes} (h : convertPercentEncoding (before ++ (x ++ equals :: after))
      before.length (before.length + x.length) = .ok key)
    (hown : convertPercentEncoding x 0 x.length = .ok key) : unescape x ≠ none := by
  intro hnone
  obtain ⟨q, text, r, hq, hr, rfl⟩ := cut_of_unescape hnone
  have hlength : ((q ++ percent :: r).length : Int) = q.length + (r.length + 1) := by simp
  have halone := convert_past hq [] (percent :: r)
    (show (([] : Bytes).length + q.length : Int) ≤ (q ++ percent :: r).length by
      simp only [List.length_nil]
      omega)
  simp only [List.nil_append, List.length_nil, Nat.cast_zero, zero_add] at halone
  rw [List.append_assoc, convert_past hq before (percent :: r ++ equals :: after) (by omega)] at h
  rw [halone] at hown
  obtain ⟨tail, htail, rfl⟩ := map_eq_ok hown
  obtain ⟨hi, lo, hhi, hlo, rfl⟩ := convert_cut htail (charAt_append q r rfl) (by omega) (by omega)
  rcases r with _ | ⟨d, _ | ⟨lo', r⟩⟩
  · -- behind the `%` there is only the terminator
    rw [charAt_behind (by simp)] at hlo
    cases hlo
  · obtain rfl : d = hi := by
      have hread := charAt_append (c := d) (q ++ [percent]) [] (k := q.length + 1) (by simp)
      rw [List.append_assoc, List.singleton_append, hhi] at hread
      exact (Except.ok.inj hread).symm
    obtain rfl : lo = NUL := by
      rw [charAt_end _ (by simp)] at hlo
      exact (Except.ok.inj hlo).symm
    obtain ⟨tail, htail', heq⟩ := map_eq_ok h
    have hstart : (before.length + q.length : Int) = (before ++ q).length := by simp
    have hpercent : charAt (before ++ (q ++ (percent :: [d] ++ equals :: after)))
        (before.length + q.length) = .ok percent := by
      rw [← List.append_assoc]
      exact charAt_append (before ++ q) _ hstart
    obtain ⟨hi', lo', hhi', hlo', rfl⟩ := convert_cut htail' hpercent (by omega) (by omega)
    have hd : charAt (before ++ (q ++ (percent :: [d] ++ equals :: after)))
        (before.length + q.length + 1) = .ok d := by
      have hread := charAt_append (c := d) (before ++ q ++ [percent]) (equals :: after)
        (k := before.length + q.length + 1) (by simp; omega)
      simpa using hread
    have hequals : charAt (before ++ (q ++ (percent :: [d] ++ equals :: after)))
        (before.length + q.length + 2) = .ok equals := by
      have hread := charAt_append (c := equals) (before ++ q ++ [percent, d]) after
        (k := before.length + q.length + 2) (by simp; omega)
      simpa using hread
    rw [hd] at hhi'
    rw [hequals] at hlo'
    obtain rfl := Except.ok.inj hhi'
    obtain rfl := Except.ok.inj hlo'
    exact escaped_ne d (List.head_eq_of_cons_eq (List.append_cancel_left heq))
  · simp only [List.length_cons] at hr
    omega

/-- A value that ends inside an escape is read past its end. -/
theorem value_whole {str : Bytes} (hstr : str = before ++ (y ++ after))
    (hread : ∀ j ∈ positionsRead str before.length (before.length + y.length),
      j < before.length + y.length) : unescape y ≠ none := by
  intro hnone
  obtain ⟨q, text, r, hq, hr, rfl⟩ := cut_of_unescape hnone
  have hlength : ((q ++ percent :: r).length : Int) = q.length + (r.length + 1) := by simp
  obtain ⟨js, -, hpast⟩ := positionsRead_past hq before (percent :: r ++ after)
    (show (before.length + q.length : Int) ≤ before.length + (q ++ percent :: r).length by omega)
  have hpercent : charAt (before ++ (q ++ (percent :: r ++ after))) (before.length + q.length) =
      .ok percent := by
    rw [← List.append_assoc]
    exact charAt_append (before ++ q) _ (by simp)
  rw [hstr, List.append_assoc, hpast, positionsRead_percent (by omega) hpercent] at hread
  have hlook := hread (before.length + q.length + 2) (by simp)
  omega

/-- A turn that keeps to a segment with an `=` shows the segment whole. -/
theorem FormTurn.Own.whole (h : FormTurn.Own (before ++ (segment ++ after)) before.length segment t)
    (hequals : equals ∈ segment)
    (hsplit : t.split = before.length + (keyPart segment).length)
    (hlast : t.last = before.length + segment.length) : Whole segment := by
  obtain ⟨hk, hv, hstart, hlength⟩ := parts_placed before after hequals
  refine ⟨hequals, ?_, ?_⟩
  · obtain ⟨key, hkey, hown⟩ := h.key
    rw [h.first, hsplit, hk] at hkey
    exact key_whole hkey hown
  · refine value_whole hv fun j hj => ?_
    have hlast' : t.last = (before ++ keyPart segment ++ [equals]).length +
        (valuePart segment).length := by omega
    have hread := h.reads j (List.mem_append_right _ (by rwa [hlast', hsplit, ← hstart]))
    unfold Inside at hread
    omega

/-- Without an `=` a turn keeps to its segment only where there is nothing to decode. -/
theorem FormTurn.Own.equals_mem
    (h : FormTurn.Own (before ++ (segment ++ after)) before.length segment t)
    (hafter : after = [] ∨ ∃ rest, after = ampersand :: rest)
    (hlen : (before ++ (segment ++ after)).length < 2 ^ 31)
    (hsplit : t.split = toInt (find (before ++ (segment ++ after)) 61 (toSize before.length)))
    (hlast : t.last = before.length + segment.length) :
    equals ∈ segment ∨ (before = [] ∧ segment = [] ∧ equals ∉ after) := by
  by_contra hnot
  rw [not_or] at hnot
  obtain ⟨hmem, hnot⟩ := hnot
  obtain ⟨key, hkey, hown⟩ := h.key
  rw [(parts_of_no_equals hmem).1] at hown
  rw [List.length_append, List.length_append] at hlen
  by_cases hafterEquals : equals ∈ after
  · -- the search finds the `=` of a later segment
    obtain ⟨x, rest, rfl, hx⟩ : ∃ x rest, after = x ++ equals :: rest ∧ equals ∉ x := by
      obtain ⟨hparts, hfirst⟩ := parts_of_equals hafterEquals
      exact ⟨_, _, hparts, hfirst⟩
    have hpos : 0 < x.length := by
      rcases hafter with hnil | ⟨rest', hcons⟩
      · simp at hnil
      · rcases x with _ | ⟨c, x⟩
        · simp at hcons
          exact absurd hcons.1 (by decide)
        · simp
    have hsplit' : t.split = before.length + (segment ++ x).length := by
      rw [hsplit, ← List.append_assoc segment]
      refine toInt_find (c := equals) (fun h => ?_) (by simp at hlen ⊢; omega)
      rcases List.mem_append.mp h with h | h
      · exact hmem h
      · exact hx h
    rw [List.length_append] at hsplit'
    rw [h.first] at hkey
    obtain ⟨j, hj, hle⟩ := positionsRead_reach (z := before.length + segment.length) hkey
      (by omega) (by omega)
    have hread := h.reads j (List.mem_append_left _ (by rwa [h.first]))
    unfold Inside at hread
    omega
  · have hsplit' : t.split = -1 := by
      rw [hsplit]
      refine toInt_find_none (fun h => ?_) (by omega)
      rcases List.mem_append.mp h with h | h
      · exact hmem h
      · exact hafterEquals h
    rw [h.first, hsplit', convert_done (by omega)] at hkey
    obtain rfl := Except.ok.inj hkey
    have hempty := (convert_length hown (by omega)).2
    rw [List.length_nil] at hempty
    have hsegment : segment = [] := List.length_eq_zero_iff.mp (by omega)
    subst hsegment
    refine hnot ⟨?_, rfl, hafterEquals⟩
    by_contra hbefore
    have hpos := List.length_pos_iff.mpr hbefore
    have hread := h.reads 0 (List.mem_append_right _ (by
      rw [hsplit', hlast]
      exact first_read (by simp; omega)))
    unfold Inside at hread
    omega

/-- A piece that starts below 2^31 and ends at 2^31 or behind is not decoded whole between
`int` positions. -/
theorem decode_short {str text : Bytes} {n : Nat} (first : Nat)
    (h : convertPercentEncoding str first (toInt (first + n : Nat)) = .ok text)
    (hown : convertPercentEncoding x 0 x.length = .ok text) (hx : x.length = n) (hn : 0 < n)
    (hfirst : first < 2 ^ 31) : first + n < 2 ^ 31 := by
  by_contra hlong
  have hdecoded := (convert_length hown (by omega)).2
  have hrange : toInt (first + n : Nat) < 2 ^ 31 := by
    rw [toInt]
    have := Int.bmod_lt (x := ((first + n : Nat) : Int)) (m := 2 ^ 32) (by decide)
    omega
  have hwrap : toInt (first + n : Nat) ≤ (first + n : Nat) - 2 ^ 32 := by
    have hmod : toInt (first + n : Nat) % 2 ^ 32 = ((first + n : Nat) : Int) % 2 ^ 32 :=
      Int.bmod_emod
    omega
  by_cases hle : (first : Int) ≤ toInt (first + n : Nat)
  · have := (convert_length h hle).1
    omega
  · rw [convert_done (by omega)] at h
    obtain rfl := Except.ok.inj h
    rw [List.length_nil] at hdecoded
    omega

/-- The last turn keeps to its segment only in a body whose length an `int` can hold. -/
theorem FormTurn.Own.short (h : FormTurn.Own (before ++ segment) before.length segment t)
    (hsplit : t.split = toInt (find (before ++ segment) 61 (toSize before.length)))
    (hlast : t.last = toInt (before ++ segment).length) : (before ++ segment).length < 2 ^ 31 := by
  have hfirst : before.length < 2 ^ 31 := by
    have := h.int.1
    rw [h.first] at this
    omega
  obtain ⟨key, hkey, hkeyOwn⟩ := h.key
  obtain ⟨value, hvalue, hvalueOwn⟩ := h.value
  rw [h.first, hsplit, toSize_length hfirst] at hkey
  rw [hsplit, hlast, toSize_length hfirst] at hvalue
  have hint := h.int.2
  rw [hsplit, toSize_length hfirst] at hint
  by_cases hequals : equals ∈ segment
  · obtain ⟨hsegment, hx⟩ := parts_of_equals hequals
    have hlength := congrArg List.length hsegment
    rw [List.length_append, List.length_cons] at hlength
    have hfind : find (before ++ segment) 61 before.length =
        before.length + (keyPart segment).length := by
      conv_lhs => rw [hsegment]
      exact find_append before _ hx
    rw [hfind] at hkey hvalue hint
    have hkeyShort : before.length + (keyPart segment).length < 2 ^ 31 := by
      rcases Nat.eq_zero_or_pos (keyPart segment).length with hzero | hpos
      · omega
      · exact decode_short _ hkey hkeyOwn rfl hpos hfirst
    rw [toInt_natCast hkeyShort] at hvalue hint
    rw [List.length_append]
    rcases Nat.eq_zero_or_pos (valuePart segment).length with hzero | hpos
    · omega
    · have hsum : (before ++ segment).length =
          before.length + (keyPart segment).length + 1 + (valuePart segment).length := by
        rw [List.length_append]
        omega
      rw [hsum] at hvalue
      have := decode_short (before.length + (keyPart segment).length + 1)
        (by simpa using hvalue) hvalueOwn rfl hpos (by omega)
      omega
  · have hfind : find (before ++ segment) 61 before.length = npos := find_none before hequals
    rw [hfind, toInt_npos, convert_done (by omega)] at hkey
    obtain rfl := Except.ok.inj hkey
    rw [(parts_of_no_equals hequals).1] at hkeyOwn
    have hempty := (convert_length hkeyOwn (by omega)).2
    rw [List.length_nil] at hempty
    rw [List.length_append]
    omega

/-! ## §4  The bodies whose turns keep apart -/

theorem formTurns_last (fuel : Nat) (hseg : ampersand ∉ segment) (hlen : before.length < 2 ^ 31) :
    formTurns (before ++ segment) (fuel + 1) before.length =
      .ok [⟨before.length, toInt (find (before ++ segment) 61 (toSize before.length)),
        toInt (before ++ segment).length⟩] := by
  have hfind : toInt (find (before ++ segment) 38 (toSize before.length)) = -1 :=
    toInt_find_none hseg hlen
  rw [formTurns, hfind, if_neg (not_not_intro toSize_npos)]

theorem formTurns_next (fuel : Nat) (hseg : ampersand ∉ segment) (hlen : before.length < 2 ^ 31) :
    formTurns (before ++ (segment ++ ampersand :: after)) (fuel + 1) before.length =
      if toSize (toInt (before.length + segment.length : Nat)) ≠ npos then do
        let turns ← formTurns (before ++ (segment ++ ampersand :: after)) fuel
          (toInt (before.length + segment.length : Nat) + 1)
        return ⟨before.length, toInt (find (before ++ (segment ++ ampersand :: after)) 61
          (toSize before.length)), toInt (before.length + segment.length : Nat)⟩ :: turns
      else .ok [⟨before.length, toInt (find (before ++ (segment ++ ampersand :: after)) 61
        (toSize before.length)), toInt (before ++ (segment ++ ampersand :: after)).length⟩] := by
  have hfind : find (before ++ (segment ++ ampersand :: after)) 38 (toSize before.length) =
      before.length + segment.length := by
    rw [toSize_length hlen]
    exact find_append before after hseg
  rw [formTurns, hfind]

theorem find_split (before after : Bytes) (hequals : equals ∈ segment)
    (hlen : before.length + segment.length < 2 ^ 31) :
    toInt (find (before ++ (segment ++ after)) 61 (toSize before.length)) =
      before.length + (keyPart segment).length := by
  obtain ⟨hparts, hx⟩ := parts_of_equals hequals
  have hlength := congrArg List.length hparts
  rw [List.length_append, List.length_cons] at hlength
  have hassoc : segment ++ after = keyPart segment ++ equals :: (valuePart segment ++ after) := by
    conv_lhs => rw [hparts]
    simp
  rw [hassoc]
  exact toInt_find hx (by omega)

theorem intercalate_next (segment next : Bytes) (segments : List Bytes) :
    [ampersand].intercalate (segment :: next :: segments) =
      segment ++ ampersand :: [ampersand].intercalate (next :: segments) := by
  rw [List.intercalate_cons_cons, List.append_assoc, List.singleton_append]

/-- Whole segments are each decoded by a turn of its own. -/
theorem turns_of_whole : ∀ (segments : List Bytes), segments ≠ [] →
    (∀ s ∈ segments, ampersand ∉ s ∧ Whole s) → ∀ (before : Bytes) (fuel : Nat),
      (before ++ [ampersand].intercalate segments).length < 2 ^ 31 → segments.length ≤ fuel →
        ∃ turns, formTurns (before ++ [ampersand].intercalate segments) fuel before.length =
            .ok turns ∧
          List.Forall₂ (fun (s : Nat × Bytes) t =>
            t.Own (before ++ [ampersand].intercalate segments) s.1 s.2)
            (placed before.length segments) turns := by
  intro segments
  induction segments with
  | nil => exact fun h => absurd rfl h
  | cons segment segments ih =>
      intro _ hall before fuel hlen hfuel
      obtain ⟨fuel, rfl⟩ : ∃ n, fuel = n + 1 := ⟨fuel - 1, by simp at hfuel; omega⟩
      obtain ⟨hseg, hwhole⟩ := hall segment List.mem_cons_self
      cases segments with
      | nil =>
          rw [List.intercalate_singleton] at hlen ⊢
          have hlength : (before ++ segment).length = before.length + segment.length :=
            List.length_append
          have hown := own_of_whole before [] hwhole (by simpa using hlen)
          have hsplit := find_split before [] hwhole.equals (by omega)
          rw [List.append_nil] at hown hsplit
          refine ⟨_, formTurns_last fuel hseg (by omega), ?_⟩
          rw [hsplit, toInt_natCast hlen, hlength, Nat.cast_add]
          exact .cons hown .nil
      | cons next segments =>
          rw [intercalate_next] at hlen ⊢
          have hlength : before.length + segment.length < 2 ^ 31 := by simp at hlen; omega
          have hown := own_of_whole _ _ hwhole hlen
          have hassoc :
              before ++ (segment ++ ampersand :: [ampersand].intercalate (next :: segments)) =
                before ++ segment ++ [ampersand] ++ [ampersand].intercalate (next :: segments) := by
            simp
          have hstart : (before ++ segment ++ [ampersand]).length =
              before.length + segment.length + 1 := by simp; omega
          obtain ⟨turns, hturns, hrest⟩ :=
            ih (by simp) (fun s hs => hall s (List.mem_cons_of_mem _ hs))
              (before ++ segment ++ [ampersand]) fuel (by rwa [← hassoc]) (by simpa using hfuel)
          rw [← hassoc, hstart] at hturns hrest
          refine ⟨_ :: turns, ?_, .cons hown hrest⟩
          rw [formTurns_next fuel hseg (by omega), toInt_natCast hlength,
            find_split _ _ hwhole.equals hlength, if_pos (toSize_ne_npos hlength)]
          rw [Nat.cast_add, Nat.cast_one] at hturns
          rw [hturns]
          simp [bind, Except.bind, pure, Except.pure]

theorem formTurns_first {fuel : Nat} {first : Int} {rest : List FormTurn}
    (h : formTurns body fuel first = .ok (t :: rest)) : t.first = first := by
  cases fuel with
  | zero => cases h
  | succ fuel =>
      rw [formTurns] at h
      split at h
      · obtain ⟨turns, -, hturns⟩ := bind_eq_ok.mp h
        obtain ⟨rfl, -⟩ := List.cons.inj (Except.ok.inj hturns)
        rfl
      · obtain ⟨rfl, -⟩ := List.cons.inj (Except.ok.inj h)
        rfl

/-- The last segment: no `&` follows, and the search for `=` ends with the body. -/
theorem whole_of_last {t : FormTurn} {rest : List FormTurn} (fuel : Nat)
    (hseg : ampersand ∉ segment) (hfirst : before.length < 2 ^ 31)
    (hturns : formTurns (before ++ segment) (fuel + 1) before.length = .ok (t :: rest))
    (ht : t.Own (before ++ segment) before.length segment) :
    (before ++ segment).length < 2 ^ 31 ∧ (Whole segment ∨ (before = [] ∧ segment = [])) := by
  rw [formTurns_last fuel hseg hfirst] at hturns
  obtain ⟨rfl, -⟩ := List.cons.inj (Except.ok.inj hturns)
  have hshort : (before ++ segment).length < 2 ^ 31 := by
    apply FormTurn.Own.short ht
    · dsimp only
    · dsimp only
  have hlength : (before ++ segment).length = before.length + segment.length :=
    List.length_append
  have hlast : toInt (before ++ segment).length = before.length + segment.length := by
    rw [toInt_natCast hshort, hlength, Nat.cast_add]
  refine ⟨hshort, ?_⟩
  rw [hlast] at ht
  have happ : before ++ segment = before ++ (segment ++ []) := by rw [List.append_nil]
  rw [happ] at ht hshort
  have hmem : equals ∈ segment ∨
      (before = [] ∧ segment = [] ∧ equals ∉ ([] : Bytes)) := by
    apply FormTurn.Own.equals_mem ht (Or.inl rfl) hshort
    · dsimp only
    · dsimp only
  rcases hmem with hequals | ⟨hbefore, hsegment, -⟩
  · refine Or.inl (ht.whole hequals ?_ (by dsimp only))
    dsimp only
    exact find_split _ _ hequals (by rw [List.append_nil] at hshort; omega)
  · exact Or.inr ⟨hbefore, hsegment⟩

/-- Turns that keep to their segments show a body that an `int` can index, with whole
segments or none. -/
theorem whole_of_turns : ∀ (segments : List Bytes), segments ≠ [] →
    (∀ s ∈ segments, ampersand ∉ s) → ∀ (before : Bytes) (fuel : Nat) (turns : List FormTurn),
      formTurns (before ++ [ampersand].intercalate segments) fuel before.length = .ok turns →
      List.Forall₂ (fun (s : Nat × Bytes) t =>
        t.Own (before ++ [ampersand].intercalate segments) s.1 s.2)
        (placed before.length segments) turns →
      (before ++ [ampersand].intercalate segments).length < 2 ^ 31 ∧
        ((∀ s ∈ segments, Whole s) ∨ (before = [] ∧ segments = [[]])) := by
  intro segments
  induction segments with
  | nil => exact fun h => absurd rfl h
  | cons segment segments ih =>
      intro _ hall before fuel turns hturns hown
      obtain ⟨fuel, rfl⟩ : ∃ n, fuel = n + 1 := by
        cases fuel with
        | zero => cases hturns
        | succ n => exact ⟨n, rfl⟩
      have hseg := hall segment List.mem_cons_self
      obtain ⟨t, rest, ht, hrest, rfl⟩ := List.forall₂_cons_left_iff.mp hown
      have hfirst : before.length < 2 ^ 31 := by
        have hint := ht.int.1
        rw [ht.first] at hint
        dsimp only at hint
        omega
      cases segments with
      | nil =>
          rw [List.intercalate_singleton] at hturns ht ⊢
          obtain ⟨hshort, hwhole⟩ := whole_of_last fuel hseg hfirst hturns ht
          refine ⟨hshort, ?_⟩
          rcases hwhole with hwhole | ⟨hbefore, hsegment⟩
          · refine Or.inl fun s hs => ?_
            obtain rfl := List.mem_singleton.mp hs
            exact hwhole
          · exact Or.inr ⟨hbefore, by rw [hsegment]⟩
      | cons next segments =>
          rw [intercalate_next] at hturns ht hrest ⊢
          rw [formTurns_next fuel hseg hfirst] at hturns
          split at hturns
          · rename_i hnpos
            obtain ⟨rest', hrest', hcons⟩ := bind_eq_ok.mp hturns
            obtain ⟨rfl, rfl⟩ := List.cons.inj (Except.ok.inj hcons)
            obtain ⟨t', turns, ht', hturns', rfl⟩ := List.forall₂_cons_left_iff.mp hrest
            have hposition := formTurns_first hrest'
            have hint := ht'.int.1
            rw [ht'.first] at hposition hint
            dsimp only at hposition hint
            have hshort : before.length + segment.length < 2 ^ 31 := by
              push_cast at hint
              omega
            have hassoc : before ++ (segment ++ ampersand :: [ampersand].intercalate
                (next :: segments)) =
                before ++ segment ++ [ampersand] ++ [ampersand].intercalate (next :: segments) := by
              simp
            have hstart : (before ++ segment ++ [ampersand]).length =
                before.length + segment.length + 1 := by simp; omega
            have hnext := ih (by simp) (fun s hs => hall s (List.mem_cons_of_mem _ hs))
              (before ++ segment ++ [ampersand]) fuel (t' :: turns)
            rw [← hassoc, hstart, hposition] at hnext
            obtain ⟨hlen, hothers⟩ := hnext hrest' (.cons ht' hturns')
            have hwhole : ∀ s ∈ next :: segments, Whole s := by
              refine hothers.resolve_right fun hempty => ?_
              simp at hempty
            refine ⟨hlen, Or.inl fun s hs => ?_⟩
            rcases List.mem_cons.mp hs with rfl | hs
            · rw [toInt_natCast hshort, Nat.cast_add] at ht
              have hmem : equals ∈ s ∨ (before = [] ∧ s = [] ∧
                  equals ∉ ampersand :: [ampersand].intercalate (next :: segments)) := by
                refine FormTurn.Own.equals_mem ht (Or.inr ⟨_, rfl⟩) hlen ?_ ?_
                · dsimp only
                · dsimp only
              rcases hmem with hequals | ⟨-, -, hnone⟩
              · refine ht.whole hequals ?_ (by dsimp only)
                dsimp only
                exact find_split _ _ hequals hshort
              · refine absurd (List.mem_cons_of_mem _ ?_) hnone
                have hmem := (hwhole next List.mem_cons_self).equals
                cases segments with
                | nil => rwa [List.intercalate_singleton]
                | cons s segments =>
                    rw [intercalate_next]
                    exact List.mem_append_left _ hmem
            · exact hwhole s hs
          · obtain ⟨-, rfl⟩ := List.cons.inj (Except.ok.inj hturns)
            cases hrest

theorem splitOn_spec (c : Byte) (l : Bytes) :
    (∀ s ∈ l.splitOn c, c ∉ s) ∧ (l.splitOn c).length ≤ l.length + 1 := by
  induction l with
  | nil => simp
  | cons a l ih =>
      obtain ⟨hmem, hlength⟩ := ih
      rw [List.splitOn_cons_eq_if_modifyHead]
      split
      · rw [List.length_cons, List.length_cons]
        refine ⟨fun s hs => ?_, by omega⟩
        rcases List.mem_cons.mp hs with rfl | hs
        · exact List.not_mem_nil
        · exact hmem s hs
      · rename_i hne
        rw [List.length_modifyHead, List.length_cons]
        refine ⟨fun s hs => ?_, by omega⟩
        rcases hsplit : l.splitOn c with _ | ⟨first, rest⟩
        · rw [hsplit] at hs
          cases hs
        · rw [hsplit, List.modifyHead_cons] at hs
          rw [hsplit] at hmem
          rcases List.mem_cons.mp hs with rfl | hs
          · intro hc
            rcases List.mem_cons.mp hc with rfl | hc
            · simp at hne
            · exact hmem first List.mem_cons_self hc
          · exact hmem s (List.mem_cons_of_mem _ hs)

end turns

/-- `ParsePost` binds, turn by turn, what each segment of the body holds and looks at no
other byte for it. -/
def BindsApart (js : JsonCpp J) (q : HttpRequest J) : Prop :=
  ∃ turns, formTurns q.body (q.body.length + 1) 0 = .ok turns ∧
    parsePost js q = (turns.foldlM (bindTurn js q.body) q.post).map (fun post =>
      { q with header := (q.header.access contentType).2, post := post }) ∧
    SegmentsApart q.body turns

theorem bindsApart_iff_turns {q : HttpRequest J}
    (htype : strncasecmpEq (q.header.access contentType).1 formType 33 = true) :
    BindsApart js q ↔ ∃ turns, formTurns q.body (q.body.length + 1) 0 = .ok turns ∧
      SegmentsApart q.body turns := by
  constructor
  · rintro ⟨turns, hturns, -, hapart⟩
    exact ⟨turns, hturns, hapart⟩
  rintro ⟨turns, hturns, hapart⟩
  refine ⟨turns, hturns, ?_, hapart⟩
  rw [parsePost_eq, postValue, show ascii "application/x-www-form-urlencoded" = formType from rfl,
    if_pos htype, postLoop_turns js q.body _ _ turns q.post hturns]

/-- In an empty body there is nothing to read. -/
theorem own_nil : FormTurn.Own [] 0 [] ⟨0, -1, 0⟩ := by
  have hnothing : ∀ {last : Int}, last ≤ 0 →
      convertPercentEncoding [] 0 last = .ok [] ∧ positionsRead [] 0 last = [] :=
    fun h => ⟨convert_done h, positionsRead_done h⟩
  refine ⟨rfl, ⟨by decide, by decide⟩, ⟨[], (hnothing (by decide)).1, (hnothing le_rfl).1⟩,
    ⟨[], (hnothing le_rfl).1, (hnothing le_rfl).1⟩, fun j hj => ?_⟩
  dsimp only at hj
  rw [(hnothing (by decide)).2, show (-1 : Int) + 1 = 0 from rfl, (hnothing le_rfl).2] at hj
  cases hj

/-- Segments keep apart exactly in a body an `int` can index whose segments all hold an `=`
and no escape cut short, and in the empty one. -/
theorem segments_apart_iff {q : HttpRequest J}
    (htype : strncasecmpEq (q.header.access contentType).1 formType 33 = true) :
    BindsApart js q ↔
      q.body.length < 2 ^ 31 ∧ (q.body = [] ∨ ∀ s ∈ q.body.splitOn ampersand, Whole s) := by
  obtain ⟨hmem, hlength⟩ := splitOn_spec ampersand q.body
  have hne := List.splitOn_ne_nil ampersand q.body
  rw [bindsApart_iff_turns htype]
  constructor
  · rintro ⟨turns, hturns, hapart⟩
    have hwhole := whole_of_turns (q.body.splitOn ampersand) hne hmem [] (q.body.length + 1) turns
    rw [List.intercalate_splitOn, List.nil_append] at hwhole
    obtain ⟨hlen, hall | ⟨-, hempty⟩⟩ := hwhole hturns hapart
    · exact ⟨hlen, Or.inr hall⟩
    · refine ⟨hlen, Or.inl ?_⟩
      have hbody : [ampersand].intercalate (q.body.splitOn ampersand) = q.body :=
        List.intercalate_splitOn ampersand
      rw [← hbody, hempty]
      rfl
  · rintro ⟨hlen, hempty | hall⟩
    · rw [hempty]
      exact ⟨[⟨0, -1, 0⟩], by decide, .cons own_nil .nil⟩
    · have hturns := turns_of_whole (q.body.splitOn ampersand) hne
        (fun s hs => ⟨hmem s hs, hall s hs⟩) [] (q.body.length + 1)
      rw [List.intercalate_splitOn, List.nil_append] at hturns
      exact hturns hlen hlength

instance (segment : Bytes) : Decidable (Whole segment) :=
  decidable_of_iff (equals ∈ segment ∧ unescape (keyPart segment) ≠ none ∧
      unescape (valuePart segment) ≠ none)
    ⟨fun h => ⟨h.1, h.2.1, h.2.2⟩, fun h => ⟨h.equals, h.key, h.value⟩⟩

/-- A form request with this body. -/
def postedForm (body : Bytes) : HttpRequest (Option HeaderMap) :=
  { blankForm with header := (∅ : HeaderMap).insert contentType formType, body := body }

theorem segments_apart_twice : BindsApart membersJson (postedForm twiceBody) :=
  (segments_apart_iff (by decide +kernel)).mpr ⟨by decide, Or.inr (by decide +kernel)⟩

/-- `a&b=c`: the first segment is decoded up to the `=` of the second. -/
theorem segments_leak : ¬ BindsApart membersJson (postedForm [97, 38, 98, 61, 99]) := by
  rintro ⟨turns, hturns, -, hapart⟩
  have hrun : formTurns [97, 38, 98, 61, 99] 6 0 = .ok [⟨0, 3, 1⟩, ⟨2, 3, 5⟩] := by
    decide +kernel
  have hall : turns = [⟨0, 3, 1⟩, ⟨2, 3, 5⟩] := by
    rw [show (postedForm [97, 38, 98, 61, 99]).body = [97, 38, 98, 61, 99] from rfl] at hturns
    exact (Except.ok.inj (hrun.symm.trans hturns)).symm
  rw [hall, SegmentsApart, show (postedForm [97, 38, 98, 61, 99]).body.splitOn ampersand =
    [[97], [98, 61, 99]] by decide +kernel] at hapart
  obtain ⟨key, hkey, hown⟩ := (List.forall₂_cons.mp hapart).1.key
  have hread : convertPercentEncoding [97, 38, 98, 61, 99] 0 3 = .ok [97, 38, 98] := by
    decide +kernel
  have halone : convertPercentEncoding [97] 0 1 = .ok [97] := by decide +kernel
  exact absurd (hkey.symm.trans hread) (by
    rw [show key = [97] from Except.ok.inj (hown.symm.trans halone)]
    decide)

end HttpRequest

end WhiteWebServer
