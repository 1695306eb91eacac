import Mathlib.Algebra.Ring.Int.Defs
import Mathlib.Algebra.Ring.Nat
import Mathlib.Data.List.Basic
import Mathlib.Data.List.TakeWhile
import WhiteWebServer.Lib.Outcome

/-!
# Bytes, faults and the C string functions

What the server's code takes from C and C++: bytes, the ways a call can leave
the defined behaviour of the language (`Fault`), and the functions of
`<cstring>`, `<strings.h>`, `<cctype>` and `std::stoi` it uses. A C string is
the list of its bytes without the terminating NUL; a pointer into a string is
the suffix it points at.
-/

namespace WhiteWebServer

abbrev Byte := UInt8
abbrev Bytes := List UInt8

/-- Leaving the defined behaviour: the process does not go on from here. -/
inductive Fault where
  | nullPointer      -- a null pointer handed to a string function
  | outOfBounds      -- an access outside the storage of an object
  | uncaught         -- a C++ exception nothing in the program catches
  | diverges         -- a loop that does not end
deriving DecidableEq, Repr

/-- The `errno` of a failed system call; `EWOULDBLOCK` is `EAGAIN` on Linux. -/
inductive Errno where
  | eagain
  | other
deriving DecidableEq, Repr

def ascii (s : String) : Bytes := s.toList.map fun c => UInt8.ofNat c.toNat

def NUL : Byte := 0
def TAB : Byte := 9
def LF : Byte := 10
def CR : Byte := 13
def SP : Byte := 32
def colon : Byte := 58
def slash : Byte := 47

def crlf : Bytes := [CR, LF]

/-! ## `<cctype>` and `<strings.h>` in the "C" locale -/

def toupper (b : Byte) : Byte := if 97 ≤ b ∧ b ≤ 122 then b - 32 else b

def strcasecmpEq (s t : Bytes) : Bool := s.map toupper == t.map toupper

/-- `strncasecmp(s, t, n) == 0` for a `t` of `n` bytes. -/
def strncasecmpEq (s t : Bytes) (n : Nat) : Bool :=
  (s.take n).map toupper == (t.take n).map toupper

/-! ## `<cstring>` -/

/-- Offset of the first byte of `s` that occurs in `accept`. -/
def strpbrk (s accept : Bytes) : Option Nat := s.findIdx? (accept.contains ·)

/-- Length of the longest prefix of `s` made of bytes in `accept`. -/
def strspn (s accept : Bytes) : Nat := (s.takeWhile (accept.contains ·)).length

/-- The suffix of `s` from its first `c` on. -/
def strchr (s : Bytes) (c : Byte) : Option Bytes :=
  (s.findIdx? (· == c)).map fun i => s.drop i

/-- The string that starts at the first byte of `mem`: up to the first NUL,
which has to be inside the storage. -/
def cstring (mem : Bytes) : Except Fault Bytes :=
  if mem.contains NUL then .ok (mem.takeWhile (· != NUL)) else .error .outOfBounds

/-! ## `std::stoi` -/

def isspace (b : Byte) : Bool := b == SP || (9 ≤ b && b ≤ 13)

def isdigit (b : Byte) : Bool := 48 ≤ b && b ≤ 57

/-- Value of a run of decimal digits. -/
def digitsValue (ds : Bytes) : Nat := ds.foldl (fun n d => n * 10 + (d.toNat - 48)) 0

/-- The range check of `std::stoi`. -/
def checkInt (value : Int) : Except Fault Int :=
  if -2 ^ 31 ≤ value ∧ value < 2 ^ 31 then .ok value else .error .uncaught

/-- What `strtol` in base 10 reads: behind white space an optional sign (whether
it is a minus) and as many digits as there are. -/
def strtolDigits (s : Bytes) : Bool × Bytes :=
  let s := s.dropWhile isspace
  (s.head? == some 45,
    (if s.head? == some 45 || s.head? == some 43 then s.drop 1 else s).takeWhile isdigit)

/-- Without a digit `std::stoi` throws `std::invalid_argument`, outside `int`
`std::out_of_range`. -/
def stoi (s : Bytes) : Except Fault Int :=
  if (strtolDigits s).2 = [] then .error .uncaught
  else
    let value : Int := digitsValue (strtolDigits s).2
    checkInt (if (strtolDigits s).1 then - value else value)

theorem checkInt_range {v n : Int} (h : checkInt v = .ok n) : -2 ^ 31 ≤ n ∧ n < 2 ^ 31 := by
  unfold checkInt at h
  split at h
  · rename_i hr
    obtain rfl : v = n := by simpa using h
    exact hr
  · simp at h

theorem stoi_range {s : Bytes} {n : Int} (h : stoi s = .ok n) : -2 ^ 31 ≤ n ∧ n < 2 ^ 31 := by
  unfold stoi at h
  by_cases hd : (strtolDigits s).2 = []
  · simp [hd] at h
  · rw [if_neg hd] at h
    exact checkInt_range h

/-- A `std::size_t` value stored in an `int`. -/
def toInt (n : Int) : Int := n.bmod (2 ^ 32)

/-- An `int` value converted to `std::size_t`. -/
def toSize (i : Int) : Nat := (i % 2 ^ 64).toNat

theorem toInt_natCast {n : Nat} (hn : n < 2 ^ 31) : toInt n = n := by
  rw [toInt, Int.bmod_eq_of_le (by omega) (by omega)]

/-! ## `std::to_string` -/

def decimal (n : Nat) : Bytes := (Nat.toDigits 10 n).map fun c => UInt8.ofNat c.toNat

/-- `std::to_string` of a signed number. -/
def toString (n : Int) : Bytes := if n < 0 then 45 :: decimal n.natAbs else decimal n.toNat

theorem mem_decimal {n : Nat} {c : Byte} (h : c ∈ decimal n) : 48 ≤ c.toNat ∧ c.toNat ≤ 57 := by
  obtain ⟨ch, hch, rfl⟩ := List.mem_map.mp h
  have hdigit := Char.isDigit_iff_toNat.mp
    (Nat.isDigit_of_mem_toDigits (by decide) (by decide) hch)
  simp only [Char.reduceToNat] at hdigit
  rw [UInt8.toNat_ofNat_of_lt' (by show ch.toNat < 256; omega)]
  exact hdigit

/-- The digits read back. -/
theorem digitsValue_decimal (n : Nat) : digitsValue (decimal n) = n := by
  have hfold : ∀ (cs : List Char) (k : Nat), (∀ c ∈ cs, c.isDigit) →
      (cs.map fun c => UInt8.ofNat c.toNat).foldl (fun n d => n * 10 + (d.toNat - 48)) k =
        Nat.ofDigitChars 10 cs k := by
    intro cs
    induction cs with
    | nil => intro k _; rfl
    | cons c cs ih =>
        intro k hdigits
        have hc := Char.isDigit_iff_toNat.mp (hdigits c List.mem_cons_self)
        simp only [Char.reduceToNat] at hc
        have hbyte : (UInt8.ofNat c.toNat).toNat = c.toNat :=
          UInt8.toNat_ofNat_of_lt' (by show c.toNat < 256; omega)
        rw [List.map_cons, List.foldl_cons, hbyte, Nat.ofDigitChars_cons, Nat.mul_comm k 10]
        exact ih _ fun d hd => hdigits d (List.mem_cons_of_mem c hd)
  rw [digitsValue, decimal, hfold _ _ fun c hc =>
    Nat.isDigit_of_mem_toDigits (by decide) (by decide) hc]
  exact Nat.ofDigitChars_toDigits (by decide) (by decide)

theorem decimal_injective : Function.Injective decimal := by
  intro m n h
  rw [← digitsValue_decimal m, h, digitsValue_decimal]

/-! ## `inet_ntoa` -/

def dottedQuad (a b c d : Byte) : Bytes :=
  decimal a.toNat ++ [46] ++ decimal b.toNat ++ [46] ++ decimal c.toNat ++ [46] ++ decimal d.toNat

/-! ## Searches -/

section searches

variable {s t accept : Bytes} {c : Byte}

theorem findIdx?_first (hs : c ∉ s) : (s ++ c :: t).findIdx? (· == c) = some s.length := by
  rw [List.findIdx?_append, List.findIdx?_eq_none_iff.mpr, List.findIdx?_cons]
  · simp
  · intro d hd
    exact beq_eq_false_iff_ne.mpr fun h => hs (h ▸ hd)

theorem findIdx?_absent (hs : c ∉ s) : s.findIdx? (· == c) = none :=
  List.findIdx?_eq_none_iff.mpr fun _ hd => beq_eq_false_iff_ne.mpr fun h => hs (h ▸ hd)

/-- The bytes before the first byte in `accept` are not in it. -/
theorem not_mem_of_strpbrk {i : Nat} (h : strpbrk s accept = some i) :
    ∀ c ∈ s.take i, c ∉ accept := by
  intro c hc
  obtain ⟨hlt, -, hnot⟩ := List.findIdx?_eq_some_iff_getElem.mp h
  obtain ⟨j, hj, rfl⟩ := List.mem_take_iff_getElem.mp hc
  simpa using hnot j (by omega)

theorem strpbrk_append_cons (hs : ∀ c ∈ s, c ∉ accept) (hc : c ∈ accept) :
    strpbrk (s ++ c :: t) accept = some s.length := by
  induction s with
  | nil =>
      unfold strpbrk
      rw [List.nil_append, List.findIdx?_cons, if_pos (by simpa using hc)]
      rfl
  | cons a s ih =>
      have ha : a ∉ accept := hs a (by simp)
      have ih' := ih fun c hc => hs c (by simp [hc])
      unfold strpbrk at ih' ⊢
      rw [List.cons_append, List.findIdx?_cons, ih']
      simp [ha]

theorem drop_strspn : s.drop (strspn s accept) = s.dropWhile (accept.contains ·) := by
  unfold strspn
  conv_lhs => rw [← List.takeWhile_append_dropWhile (p := (accept.contains ·)) (l := s)]
  rw [List.drop_left' (by simp)]

theorem drop_strspn_of_head (h : ∀ c, s.head? = some c → c ∉ accept) :
    s.drop (strspn s accept) = s := by
  cases s with
  | nil => simp
  | cons a s => simp [strspn, h a rfl]

/-- Behind the bytes in `accept` comes a byte that is not. -/
theorem head_drop_strspn : ∀ c, (s.drop (strspn s accept)).head? = some c → c ∉ accept := by
  intro c hc
  rw [drop_strspn] at hc
  have := List.head?_dropWhile_not (accept.contains ·) s
  rw [hc] at this
  simpa using this

theorem strchr_suffix (h : strchr s c = some t) : t <:+ s := by
  obtain ⟨i, -, rfl⟩ := Option.map_eq_some_iff.mp h
  exact List.drop_suffix i s

/-- `toupper` makes a capital of a small letter and leaves other bytes. -/
theorem toupper_cases (b : Byte) :
    toupper b = b ∨ (65 ≤ (toupper b).toNat ∧ (toupper b).toNat ≤ 90) := by
  unfold toupper
  split
  · rename_i h
    obtain ⟨h₁, h₂⟩ := h
    rw [UInt8.le_iff_toNat_le] at h₁ h₂
    have h32 : (b - 32).toNat = b.toNat - 32 := UInt8.toNat_sub_of_le _ _ (by
      rw [UInt8.le_iff_toNat_le]
      exact le_trans (by decide) h₁)
    simp only [UInt8.reduceToNat] at h₁ h₂
    exact Or.inr ⟨by omega, by omega⟩
  · exact Or.inl rfl

theorem toupper_toupper (b : Byte) : toupper (toupper b) = toupper b := by
  rcases toupper_cases b with h | ⟨-, h⟩
  · rw [h, h]
  · have hlow : ¬ (97 ≤ toupper b ∧ toupper b ≤ 122) := by
      rintro ⟨h', -⟩
      rw [UInt8.le_iff_toNat_le] at h'
      exact absurd (le_trans h' h) (by decide)
    conv_lhs => rw [toupper, if_neg hlow]

/-- A byte below the capitals comes from itself only. -/
theorem toupper_eq_small {b c : Byte} (hc : c.toNat < 65) (h : toupper b = c) : b = c := by
  rcases toupper_cases b with h' | ⟨h', -⟩
  · rw [← h, h']
  · rw [h] at h'
    exact absurd hc (not_lt.mpr h')

end searches

end WhiteWebServer
