import WhiteWebServer.Completion

/-!
# Form bodies

`ParsePost` cuts a form body at `&` and `=` by two searches and undoes the escapes of each
piece in place. §1 the decoder as a recursion on its position; §2 pieces that do not end
inside an escape; §3 the searches; §4 encodings of a list of pairs; §5 the members of a
`Json::Value`.
-/

namespace WhiteWebServer

/-- The bytes with a meaning in a form body. -/
def percent : Byte := 37
def ampersand : Byte := 38
def plus : Byte := 43
def equals : Byte := 61

namespace HttpRequest

variable {J : Type} {js : JsonCpp J}

/-! ## §1  The decoder -/

section decoder

variable {str : Bytes} {i last : Int} {c hi lo : Byte}

/-- The byte an escape with the digits `hi` and `lo` stands for. -/
def escaped (hi lo : Byte) : Byte :=
  UInt8.ofNat ((hexToDec hi * 16 + hexToDec lo) % 256).toNat

theorem convertLoop_append (str : Bytes) (last : Int) : ∀ (fuel : Nat) (i : Int) (ret : Bytes),
    convertLoop str last fuel i ret = (convertLoop str last fuel i []).map (ret ++ ·) := by
  intro fuel
  induction fuel with
  | zero =>
      intro i ret
      unfold convertLoop
      split
      · rfl
      · simp [Except.map]
  | succ fuel ih =>
      intro i ret
      have hstep : ∀ (j : Int) (d : Byte), convertLoop str last fuel j (ret ++ [d]) =
          (convertLoop str last fuel j [d]).map (ret ++ ·) := by
        intro j d
        rw [ih j (ret ++ [d]), ih j [d]]
        cases convertLoop str last fuel j [] <;> simp [Except.map]
      unfold convertLoop
      by_cases hi : i < last
      · rw [if_pos hi, if_pos hi]
        rcases charAt str i with e | c
        · rfl
        · simp only [bind, Except.bind, List.nil_append, hstep]
          split
          · rfl
          · split
            · rcases charAt str (i + 1) with e | hi
              · rfl
              · rcases charAt str (i + 2) with e | lo <;> rfl
            · rfl
      · rw [if_neg hi, if_neg hi]
        simp [Except.map]

theorem convertLoop_fuel (str : Bytes) (last : Int) : ∀ (fuel fuel' : Nat) (i : Int) (ret : Bytes),
    last - i ≤ fuel → last - i ≤ fuel' →
      convertLoop str last fuel i ret = convertLoop str last fuel' i ret := by
  intro fuel
  induction fuel with
  | zero =>
      intro fuel' i ret h h'
      have hi : ¬ i < last := by omega
      cases fuel' <;> simp [convertLoop, hi]
  | succ fuel ih =>
      intro fuel' i ret h h'
      by_cases hi : i < last
      · obtain ⟨fuel', rfl⟩ : ∃ n, fuel' = n + 1 := ⟨fuel' - 1, by omega⟩
        unfold convertLoop
        rw [if_pos hi, if_pos hi]
        rcases charAt str i with e | c
        · rfl
        · have hone : ∀ ret, convertLoop str last fuel (i + 1) ret =
              convertLoop str last fuel' (i + 1) ret := fun ret =>
            ih fuel' (i + 1) ret (by omega) (by omega)
          have hthree : ∀ ret, convertLoop str last fuel (i + 2 + 1) ret =
              convertLoop str last fuel' (i + 2 + 1) ret := fun ret =>
            ih fuel' (i + 2 + 1) ret (by omega) (by omega)
          simp only [bind, Except.bind, hone, hthree]
      · cases fuel' <;> simp [convertLoop, hi]

theorem convert_done (h : last ≤ i) : convertPercentEncoding str i last = .ok [] := by
  have hfuel : (last - i).toNat = 0 := by omega
  rw [convertPercentEncoding, hfuel, convertLoop, if_neg (by omega)]

/-- `ConvertPercentEncoding` by what stands at its position. -/
theorem convert_step (h : i < last) :
    convertPercentEncoding str i last = (do
      let c ← charAt str i
      if c = plus then (convertPercentEncoding str (i + 1) last).map (SP :: ·)
      else if c = percent then do
        let hi ← charAt str (i + 1)
        let lo ← charAt str (i + 2)
        (convertPercentEncoding str (i + 3) last).map (escaped hi lo :: ·)
      else (convertPercentEncoding str (i + 1) last).map (c :: ·)) := by
  have hnext : ∀ (j : Int) (d : Byte), last - j ≤ (last - i).toNat - 1 →
      convertLoop str last ((last - i).toNat - 1) j ([] ++ [d]) =
        (convertPercentEncoding str j last).map (d :: ·) := by
    intro j d hj
    rw [convertLoop_fuel str last _ (last - j).toNat j _ (by omega) (by omega),
      convertLoop_append, convertPercentEncoding]
    rfl
  have hthree : i + 2 + 1 = i + 3 := by omega
  obtain ⟨fuel, hfuel⟩ : ∃ n, (last - i).toNat = n + 1 := ⟨(last - i).toNat - 1, by omega⟩
  rw [hfuel, Nat.add_sub_cancel] at hnext
  rw [convertPercentEncoding, hfuel, convertLoop, if_pos h]
  rcases charAt str i with e | c
  · rfl
  · simp only [bind, Except.bind, hnext (i + 1) _ (by omega), hthree,
      hnext (i + 3) _ (by omega)]
    rfl

theorem convert_plus (h : i < last) (hc : charAt str i = .ok plus) :
    convertPercentEncoding str i last =
      (convertPercentEncoding str (i + 1) last).map (SP :: ·) := by
  rw [convert_step h, hc]
  rfl

theorem convert_literal (h : i < last) (hc : charAt str i = .ok c) (hp : c ≠ plus)
    (he : c ≠ percent) :
    convertPercentEncoding str i last =
      (convertPercentEncoding str (i + 1) last).map (c :: ·) := by
  rw [convert_step h, hc]
  simp only [bind, Except.bind, if_neg hp, if_neg he]

theorem convert_escape (h : i < last) (hc : charAt str i = .ok percent)
    (hhi : charAt str (i + 1) = .ok hi) (hlo : charAt str (i + 2) = .ok lo) :
    convertPercentEncoding str i last =
      (convertPercentEncoding str (i + 3) last).map (escaped hi lo :: ·) := by
  rw [convert_step h, hc, hhi, hlo]
  rfl

theorem charAt_append (before after : Bytes) {k : Int} (hk : k = before.length) :
    charAt (before ++ c :: after) k = .ok c := by
  have hne : k ≠ (before ++ c :: after).length := by
    rw [List.length_append, List.length_cons]
    omega
  rw [charAt, if_neg hne, if_pos (by omega), hk, Int.toNat_natCast,
    List.getElem?_append_right le_rfl, Nat.sub_self]
  rfl

end decoder

/-! ## §2  Whole pieces -/

/-- What the escapes of a piece stand for; `none` when it ends inside one. -/
def unescape : Bytes → Option Bytes
  | [] => some []
  | c :: rest =>
      if c = plus then (unescape rest).map (SP :: ·)
      else if c = percent then
        match rest with
        | hi :: lo :: rest => (unescape rest).map (escaped hi lo :: ·)
        | _ => none
      else (unescape rest).map (c :: ·)

/-- One way to write one byte, as the decoder reads it. -/
inductive Token : Bytes → Byte → Prop where
  | plus : Token [plus] SP
  | escape (hi lo : Byte) : Token [percent, hi, lo] (escaped hi lo)
  | literal {c : Byte} (hp : c ≠ plus) (he : c ≠ percent) : Token [c] c

section pieces

variable {token piece text before after : Bytes} {b : Byte} {last : Int}

theorem Token.length (h : Token token b) : 1 ≤ token.length ∧ token.length ≤ 3 := by
  cases h <;> simp

theorem unescape_cons (c : Byte) (rest : Bytes) :
    unescape (c :: rest) =
      if c = plus then (unescape rest).map (SP :: ·)
      else if c = percent then
        match rest with
        | hi :: lo :: rest => (unescape rest).map (escaped hi lo :: ·)
        | _ => none
      else (unescape rest).map (c :: ·) := by
  rcases rest with _ | ⟨hi, _ | ⟨lo, rest⟩⟩ <;> simp [unescape]

theorem Token.unescape (h : Token token b) (rest : Bytes) :
    unescape (token ++ rest) = (HttpRequest.unescape rest).map (b :: ·) := by
  cases h with
  | plus => rw [List.singleton_append, unescape_cons, if_pos rfl]
  | escape hi lo =>
      rw [List.cons_append, unescape_cons, if_neg (by decide), if_pos rfl]
      rfl
  | literal hp he => rw [List.singleton_append, unescape_cons, if_neg hp, if_neg he]

/-- A piece starts with a token, unless it is empty or an escape cut short. -/
theorem token_cases (c : Byte) (rest : Bytes) :
    (∃ token b rest', Token token b ∧ c :: rest = token ++ rest') ∨
      (c = percent ∧ rest.length < 2) := by
  by_cases hp : c = plus
  · exact Or.inl ⟨[plus], SP, rest, .plus, by rw [hp]; rfl⟩
  · by_cases he : c = percent
    · rcases rest with _ | ⟨hi, _ | ⟨lo, rest⟩⟩
      · exact Or.inr ⟨he, by simp⟩
      · exact Or.inr ⟨he, by simp⟩
      · exact Or.inl ⟨[percent, hi, lo], escaped hi lo, rest, .escape hi lo, by rw [he]; rfl⟩
    · exact Or.inl ⟨[c], c, rest, .literal hp he, rfl⟩

/-- A piece is read token by token up to its end or to an escape cut short. -/
theorem token_induct {M : Bytes → Prop} (nil : M [])
    (cut : ∀ rest, rest.length < 2 → M (percent :: rest))
    (cons : ∀ token b rest, Token token b → M rest → M (token ++ rest)) (piece : Bytes) :
    M piece := by
  induction hn : piece.length using Nat.strongRecOn generalizing piece with
  | ind n ih =>
      cases piece with
      | nil => exact nil
      | cons c rest =>
          rcases token_cases c rest with ⟨token, b, rest', htoken, heq⟩ | ⟨rfl, hshort⟩
          · have hlength := congrArg List.length heq
            rw [List.length_append] at hlength
            have htokenLength := htoken.length
            rw [heq]
            exact cons token b rest' htoken (ih rest'.length (by omega) rest' rfl)
          · exact cut rest hshort

theorem unescape_cut {rest : Bytes} (h : rest.length < 2) : unescape (percent :: rest) = none := by
  rw [unescape_cons, if_neg (by decide), if_pos rfl]
  rcases rest with _ | ⟨hi, _ | ⟨lo, rest⟩⟩
  · rfl
  · rfl
  · rw [List.length_cons, List.length_cons] at h
    omega

theorem Token.convert (h : Token token b) (before after : Bytes)
    (hlast : (before.length : Int) < last) :
    convertPercentEncoding (before ++ (token ++ after)) before.length last =
      (convertPercentEncoding (before ++ (token ++ after)) (before.length + token.length)
        last).map (b :: ·) := by
  cases h with
  | plus => exact convert_plus hlast (charAt_append _ _ rfl)
  | escape hi lo =>
      apply convert_escape hlast (charAt_append before (hi :: lo :: after) rfl)
      · have hhi := charAt_append (c := hi) (before ++ [percent]) (lo :: after)
          (k := before.length + 1) (by simp)
        rwa [List.append_assoc] at hhi
      · have hlo := charAt_append (c := lo) (before ++ [percent, hi]) after
          (k := before.length + 2) (by simp)
        rwa [List.append_assoc] at hlo
  | literal hp he => exact convert_literal hlast (charAt_append _ _ rfl) hp he

/-- The decoder reads a whole piece and goes on behind it. -/
theorem convert_past (h : unescape piece = some text) (before after : Bytes)
    (hlast : (before.length + piece.length : Int) ≤ last) :
    convertPercentEncoding (before ++ (piece ++ after)) before.length last =
      (convertPercentEncoding (before ++ (piece ++ after)) (before.length + piece.length)
        last).map (text ++ ·) := by
  induction piece using token_induct generalizing text before with
  | nil =>
      obtain rfl : [] = text := by simpa [unescape] using h
      simp only [List.nil_append, List.length_nil, Nat.cast_zero, add_zero]
      cases convertPercentEncoding (before ++ after) before.length last <;> rfl
  | cut rest hshort => simp [unescape_cut hshort] at h
  | cons token b rest htoken ih =>
      rw [htoken.unescape] at h
      obtain ⟨text, htext, rfl⟩ := Option.map_eq_some_iff.mp h
      have htokenLength := htoken.length
      rw [List.length_append, Nat.cast_add] at hlast
      have hnext := ih htext (before ++ token) (by rw [List.length_append]; omega)
      simp only [List.append_assoc, List.length_append, Nat.cast_add] at hnext
      rw [List.append_assoc, htoken.convert before (rest ++ after) (by omega), hnext,
        List.length_append, Nat.cast_add, ← add_assoc]
      cases convertPercentEncoding (before ++ (token ++ (rest ++ after)))
        (before.length + token.length + rest.length) last <;> rfl

/-- Between the positions of a whole piece the decoder returns what it stands for. -/
theorem convert_whole {str : Bytes} {i : Int} (before after : Bytes)
    (h : unescape piece = some text)
    (hstr : str = before ++ (piece ++ after)) (hi : i = before.length)
    (hlast : last = before.length + piece.length) :
    convertPercentEncoding str i last = .ok text := by
  subst hstr hi hlast
  rw [convert_past h before after le_rfl, convert_done le_rfl]
  simp [Except.map]

end pieces

/-! ## §3  The searches -/

section searches

variable {c : Byte} {x : Bytes} {n : Nat}

theorem toInt_npos : toInt npos = -1 := by decide

theorem toSize_npos : toSize (-1) = npos := by decide

theorem find_append (before after : Bytes) (hx : c ∉ x) :
    find (before ++ (x ++ c :: after)) c before.length = before.length + x.length := by
  rw [find, List.drop_left, findIdx?_first hx]

theorem find_none (before : Bytes) (hx : c ∉ x) : find (before ++ x) c before.length = npos := by
  rw [find, List.drop_left, findIdx?_absent hx]

/-- A search from a position in the string, as the loop stores what it finds. -/
theorem toInt_find {before after : Bytes} (hx : c ∉ x)
    (hlen : before.length + x.length < 2 ^ 31) :
    toInt (find (before ++ (x ++ c :: after)) c (toSize before.length)) =
      before.length + x.length := by
  rw [toSize_length (by omega), find_append before after hx]
  exact_mod_cast toInt_natCast hlen

theorem toInt_find_none {before : Bytes} (hx : c ∉ x) (hlen : before.length < 2 ^ 31) :
    toInt (find (before ++ x) c (toSize before.length)) = -1 := by
  rw [toSize_length hlen, find_none before hx, toInt_npos]

theorem toSize_ne_npos (hn : n < 2 ^ 31) : toSize n ≠ npos := by
  rw [toSize_length hn, npos]
  omega

/-- A segment that holds a whole key, `=` and a whole value binds the one to the other. -/
theorem postSegment_own (js : JsonCpp J) {x y key value : Bytes} (hx : equals ∉ x)
    (hkey : unescape x = some key) (hvalue : unescape y = some value) (before after : Bytes)
    (hlen : (before ++ (x ++ equals :: y ++ after)).length < 2 ^ 31) (post : J) :
    postSegment js (before ++ (x ++ equals :: y ++ after)) post before.length
      (before.length + (x ++ equals :: y).length) = js.setMember post key value := by
  have hassoc : x ++ equals :: y ++ after = x ++ equals :: (y ++ after) := by simp
  have hsplit : toInt (find (before ++ (x ++ equals :: y ++ after)) 61 (toSize before.length)) =
      before.length + x.length := by
    rw [hassoc]
    exact toInt_find hx (by simp at hlen; omega)
  unfold postSegment
  dsimp only
  rw [hsplit, convert_whole before (equals :: (y ++ after)) hkey
      (by rw [hassoc]) rfl rfl,
    convert_whole (before ++ x ++ [equals]) after hvalue (by simp)
      (by simp; omega) (by simp; omega)]
  rfl

end searches

/-! ## §4  Encodings -/

/-- The value of a hexadecimal digit of either case. -/
def hexValue (d : Byte) : Option Nat :=
  if 48 ≤ d ∧ d ≤ 57 then some (d.toNat - 48)
  else if 65 ≤ d ∧ d ≤ 70 then some (d.toNat - 55)
  else if 97 ≤ d ∧ d ≤ 102 then some (d.toNat - 87)
  else none

/-- The bytes that have to be escaped. -/
def reserved : Bytes := [percent, plus, ampersand, equals, NUL]

/-- The ways to write a byte in a form. -/
inductive FormByte : Byte → Bytes → Prop where
  | literal {c : Byte} (h : c ∉ reserved) : FormByte c [c]
  | escape {c hi lo : Byte} (hhi : hexValue hi = some (c.toNat / 16))
      (hlo : hexValue lo = some (c.toNat % 16)) : FormByte c [percent, hi, lo]
  | plus : FormByte SP [plus]

/-- The ways to write a string. -/
inductive FormText : Bytes → Bytes → Prop where
  | nil : FormText [] []
  | cons {c : Byte} {token text written : Bytes} (hc : FormByte c token)
      (htext : FormText text written) : FormText (c :: text) (token ++ written)

/-- The ways to write a list of pairs of a key and a value. -/
inductive FormPairs : List (Bytes × Bytes) → Bytes → Prop where
  | last {key value x y : Bytes} (hkey : FormText key x) (hvalue : FormText value y) :
      FormPairs [(key, value)] (x ++ equals :: y)
  | cons {key value x y written : Bytes} {pairs : List (Bytes × Bytes)} (hkey : FormText key x)
      (hvalue : FormText value y) (hpairs : FormPairs pairs written) :
      FormPairs ((key, value) :: pairs) (x ++ equals :: y ++ ampersand :: written)

section encodings

variable {c d hi lo : Byte} {n : Nat} {token text written : Bytes}

theorem hexToDec_hexValue (h : hexValue d = some n) : hexToDec d = n ∧ n < 16 := by
  have hd := d.toNat_lt
  unfold hexValue at h
  simp only [UInt8.le_iff_toNat_le, UInt8.reduceToNat] at h
  have hupper : (toupper d).toNat = if 97 ≤ d.toNat ∧ d.toNat ≤ 122 then d.toNat - 32
      else d.toNat := by
    unfold toupper
    simp only [UInt8.le_iff_toNat_le, UInt8.reduceToNat]
    split
    · rename_i hsmall
      apply UInt8.toNat_sub_of_le
      rw [UInt8.le_iff_toNat_le]
      exact le_trans (by decide) hsmall.1
    · rfl
  unfold hexToDec charInt
  simp only [UInt8.lt_iff_toNat_lt, UInt8.reduceToNat, hupper]
  split at h
  · simp only [Option.some.injEq] at h
    split <;> split <;> omega
  · split at h
    · simp only [Option.some.injEq] at h
      split <;> split <;> omega
    · split at h
      · simp only [Option.some.injEq] at h
        split <;> split <;> omega
      · cases h

/-- Two digits of a byte give the byte back. -/
theorem escaped_hexValue (hhi : hexValue hi = some (c.toNat / 16))
    (hlo : hexValue lo = some (c.toNat % 16)) : escaped hi lo = c := by
  have hc := c.toNat_lt
  have hsum : (hexToDec hi * 16 + hexToDec lo) % 256 = (c.toNat : Int) := by
    rw [(hexToDec_hexValue hhi).1, (hexToDec_hexValue hlo).1]
    omega
  rw [escaped, hsum, Int.toNat_natCast, UInt8.ofNat_toNat]

theorem FormByte.isToken (h : FormByte c token) : Token token c := by
  cases h with
  | literal h =>
      exact .literal (fun h' => h (by rw [h']; decide)) (fun h' => h (by rw [h']; decide))
  | @escape _ hi lo hhi hlo =>
      have htoken := Token.escape hi lo
      rwa [escaped_hexValue hhi hlo] at htoken
  | plus => exact .plus

theorem FormText.unescape (h : FormText text written) : unescape written = some text := by
  induction h with
  | nil => rfl
  | cons hc htext ih => rw [hc.isToken.unescape, ih]; rfl

theorem hexValue_ne (h : hexValue d = some n) : d ≠ ampersand ∧ d ≠ equals := by
  constructor <;> rintro rfl <;> cases h

/-- No separator is left in what is written for a string. -/
theorem FormText.plain (h : FormText text written) : ∀ d ∈ written, d ≠ ampersand ∧ d ≠ equals := by
  induction h with
  | nil => simp
  | @cons c token text written hc htext ih =>
      intro d hd
      rcases List.mem_append.mp hd with hd | hd
      · cases hc with
        | literal h =>
            obtain rfl := List.mem_singleton.mp hd
            exact ⟨fun h' => h (by rw [h']; decide), fun h' => h (by rw [h']; decide)⟩
        | escape hhi hlo =>
            simp only [List.mem_cons, List.not_mem_nil, or_false] at hd
            rcases hd with rfl | rfl | rfl
            · decide
            · exact hexValue_ne hhi
            · exact hexValue_ne hlo
        | plus =>
            obtain rfl := List.mem_singleton.mp hd
            decide
      · exact ih d hd

end encodings

/-! ## §5  The loop over the segments -/

section segments

variable {before segment after : Bytes} {fuel : Nat}

theorem postLoop_last (hseg : ampersand ∉ segment) (hlen : (before ++ segment).length < 2 ^ 31)
    (post : J) :
    postLoop js (before ++ segment) (fuel + 1) before.length post =
      postSegment js (before ++ segment) post before.length (before.length + segment.length) := by
  have hfind : toInt (find (before ++ segment) 38 (toSize before.length)) = -1 :=
    toInt_find_none hseg (by simp at hlen; omega)
  have hend : toInt (before ++ segment).length = before.length + segment.length := by
    rw [toInt_natCast hlen, List.length_append, Nat.cast_add]
  rw [postLoop, hfind, if_neg (not_not_intro toSize_npos), hend]

theorem postLoop_next (hseg : ampersand ∉ segment)
    (hlen : (before ++ (segment ++ ampersand :: after)).length < 2 ^ 31) (post : J) :
    postLoop js (before ++ (segment ++ ampersand :: after)) (fuel + 1) before.length post =
      postSegment js (before ++ (segment ++ ampersand :: after)) post before.length
          (before.length + segment.length) >>= fun post =>
        postLoop js (before ++ (segment ++ ampersand :: after)) fuel
          (before.length + segment.length + 1) post := by
  have hlength : before.length + segment.length < 2 ^ 31 := by simp at hlen; omega
  have hfind : toInt (find (before ++ (segment ++ ampersand :: after)) 38
      (toSize before.length)) = before.length + segment.length := toInt_find hseg hlength
  have hsize : toSize ((before.length : Int) + segment.length) ≠ npos := by
    exact_mod_cast toSize_ne_npos hlength
  rw [postLoop, hfind, if_pos hsize]

end segments

theorem ampersand_not_mem {key value x y : Bytes} (hkey : FormText key x)
    (hvalue : FormText value y) : ampersand ∉ x ++ equals :: y := by
  intro hmem
  rcases List.mem_append.mp hmem with hx | hy
  · exact (hkey.plain _ hx).1 rfl
  · rcases List.mem_cons.mp hy with h | hy
    · exact absurd h (by decide)
    · exact (hvalue.plain _ hy).1 rfl

/-- The loop of `ParsePost` from the start of an encoding binds its pairs one after the
other. -/
theorem postLoop_pairs (js : JsonCpp J) {pairs : List (Bytes × Bytes)} {written : Bytes}
    (h : FormPairs pairs written) : ∀ (before : Bytes) (fuel : Nat) (post : J),
      (before ++ written).length < 2 ^ 31 → pairs.length ≤ fuel →
        postLoop js (before ++ written) fuel before.length post =
          pairs.foldlM (fun post p => js.setMember post p.1 p.2) post := by
  induction h with
  | @last key value x y hkey hvalue =>
      intro before fuel post hlen hfuel
      obtain ⟨fuel, rfl⟩ : ∃ n, fuel = n + 1 := ⟨fuel - 1, by simp at hfuel; omega⟩
      have hx : equals ∉ x := fun h => (hkey.plain _ h).2 rfl
      have hown := postSegment_own js hx hkey.unescape hvalue.unescape before []
        (by simpa using hlen) post
      rw [List.append_nil] at hown
      rw [postLoop_last (ampersand_not_mem hkey hvalue) hlen, hown, List.foldlM_cons]
      simp [bind, Except.bind, pure, Except.pure]
      cases js.setMember post key value <;> rfl
  | @cons key value x y written pairs hkey hvalue hpairs ih =>
      intro before fuel post hlen hfuel
      obtain ⟨fuel, rfl⟩ : ∃ n, fuel = n + 1 := ⟨fuel - 1, by simp at hfuel; omega⟩
      have hx : equals ∉ x := fun h => (hkey.plain _ h).2 rfl
      have hown := postSegment_own js hx hkey.unescape hvalue.unescape before
        (ampersand :: written) hlen post
      rw [postLoop_next (ampersand_not_mem hkey hvalue) hlen, hown, List.foldlM_cons]
      cases js.setMember post key value with
      | error e => rfl
      | ok post =>
          have hrest := ih (before ++ (x ++ equals :: y ++ [ampersand])) fuel post
            (by simpa using hlen) (by simpa using hfuel)
          simpa [bind, Except.bind, add_assoc] using hrest

/-! ## §6  The members of `post_` -/

abbrev Members := Finmap fun _ : Bytes => Bytes

/-- What jsoncpp documents of a value whose members are set by string keys: a null value
and a cleared one have none, and an assignment binds its key. -/
structure ObjectMap (js : JsonCpp J) (members : J → Option Members) : Prop where
  null : members js.null = some ∅
  clear : ∀ {v m}, members v = some m → ∃ v', js.clear v = .ok v' ∧ members v' = some ∅
  setMember : ∀ {v m} (key value : Bytes), members v = some m →
    ∃ v', js.setMember v key value = .ok v' ∧ members v' = some (m.insert key value)

section members

variable {members : J → Option Members} {m : Members} {v : J}

/-- `Init` leaves `post_` without members. -/
theorem init_members (hjs : ObjectMap js members) {q₀ q : HttpRequest J}
    (hpost : members q₀.post = some m) (h : init js q₀ = .ok q) : members q.post = some ∅ := by
  obtain ⟨post, hclear, hempty⟩ := hjs.clear hpost
  rw [init, hclear] at h
  obtain rfl := Except.ok.inj h
  exact hempty

/-- A list of assignments binds each key to the last value listed for it. -/
theorem assign_members (hjs : ObjectMap js members) : ∀ (pairs : List (Bytes × Bytes)) {v : J}
    {m : Members}, members v = some m →
      ∃ v', pairs.foldlM (fun post p => js.setMember post p.1 p.2) v = .ok v' ∧
        ∃ m', members v' = some m' ∧
          ∀ key, m'.lookup key = (pairs.reverse.lookup key).or (m.lookup key) := by
  intro pairs
  induction pairs with
  | nil => exact fun {v m} hv => ⟨v, rfl, m, hv, fun key => rfl⟩
  | cons p pairs ih =>
      intro v m hv
      obtain ⟨v₁, hset, hv₁⟩ := hjs.setMember p.1 p.2 hv
      obtain ⟨v', hfold, m', hv', hlookup⟩ := ih hv₁
      refine ⟨v', ?_, m', hv', fun key => ?_⟩
      · rw [List.foldlM_cons, hset]
        exact hfold
      · rw [hlookup key, List.reverse_cons, List.lookup_append, Option.or_assoc]
        congr 1
        by_cases hkey : key = p.1
        · rw [hkey, Finmap.lookup_insert, List.lookup_cons_self]
          rfl
        · rw [Finmap.lookup_insert_of_ne m hkey, List.lookup_singleton,
            if_neg fun h => hkey (beq_iff_eq.mp h)]
          rfl

end members

theorem FormPairs.length_le {pairs : List (Bytes × Bytes)} {written : Bytes}
    (h : FormPairs pairs written) : pairs.length ≤ written.length := by
  induction h with
  | last hkey hvalue =>
      simp only [List.length_append, List.length_cons, List.length_nil]
      omega
  | cons hkey hvalue hpairs ih =>
      rw [List.length_cons, List.length_append, List.length_cons]
      omega

/-- The content type of a form. -/
def formType : Bytes := ascii "application/x-www-form-urlencoded"

/-- Form decoding undoes form encoding. -/
theorem parsePost_decodes {members : J → Option Members} (hjs : ObjectMap js members)
    {q : HttpRequest J} {pairs : List (Bytes × Bytes)}
    (htype : strncasecmpEq (q.header.access contentType).1 formType 33 = true)
    (hencoded : FormPairs pairs q.body) (hlen : q.body.length < 2 ^ 31)
    (hpost : members q.post = some ∅) :
    ∃ q', parsePost js q = .ok q' ∧ ∃ m, members q'.post = some m ∧
      ∀ key, m.lookup key = pairs.reverse.lookup key := by
  obtain ⟨post, hfold, m, hm, hlookup⟩ := assign_members hjs pairs hpost
  have hloop := postLoop_pairs js hencoded [] (q.body.length + 1) q.post
    (by simpa using hlen) (hencoded.length_le.trans (Nat.le_succ _))
  simp only [List.nil_append, List.length_nil, Nat.cast_zero] at hloop
  rw [parsePost_eq, postValue, show ascii "application/x-www-form-urlencoded" = formType from rfl,
    if_pos htype, hloop, hfold]
  refine ⟨_, rfl, m, hm, fun key => ?_⟩
  rw [hlookup key, Finmap.lookup_empty, Option.or_none]

theorem membersJson_objectMap : ObjectMap membersJson fun v => some (v.getD ∅) where
  null := rfl
  clear := fun {v} _ _ => ⟨v.map fun _ => ∅, rfl, by cases v <;> rfl⟩
  setMember := fun key value hv => ⟨_, rfl, by
    obtain rfl := Option.some.inj hv
    rfl⟩

/-- `k=%26&k=+a` -/
def twiceBody : Bytes := [107, 61, 37, 50, 54, 38, 107, 61, 43, 97]

theorem twiceBody_pairs : FormPairs [([107], [38]), ([107], [32, 97])] twiceBody :=
  .cons (x := [107]) (y := [37, 50, 54])
    (.cons (.literal (by decide)) .nil) (.cons (.escape (by decide) (by decide)) .nil)
    (.last (x := [107]) (y := [43, 97]) (.cons (.literal (by decide)) .nil)
      (.cons .plus (.cons (.literal (by decide)) .nil)))

/-- The form of an earlier request has left a member `n` to `Init`. -/
def earlierForm : HttpRequest (Option HeaderMap) :=
  { blankForm with post := some ((∅ : HeaderMap).insert [110] [49]) }

theorem parsePost_decodes_twice :
    ∃ q₀, init membersJson earlierForm = .ok q₀ ∧
      let q := { q₀ with header := q₀.header.insert contentType formType, body := twiceBody }
      ∃ q', parsePost membersJson q = .ok q' ∧ ∃ m, some (q'.post.getD ∅) = some m ∧
        ∀ key, m.lookup key = [([107], [38]), ([107], [32, 97])].reverse.lookup key := by
  obtain ⟨q₀, hinit⟩ : ∃ q₀, init membersJson earlierForm = .ok q₀ := ⟨_, rfl⟩
  have hheader : q₀.header = ∅ := by
    cases hinit
    rfl
  have hpost := init_members membersJson_objectMap rfl hinit
  have htype : strncasecmpEq (HeaderMap.access ((∅ : HeaderMap).insert contentType formType)
      contentType).1 formType 33 = true := by
    decide +kernel
  have hlen : twiceBody.length < 2 ^ 31 := by decide
  refine ⟨q₀, hinit, ?_⟩
  rw [hheader]
  exact parsePost_decodes membersJson_objectMap htype twiceBody_pairs hlen hpost

end HttpRequest

end WhiteWebServer
