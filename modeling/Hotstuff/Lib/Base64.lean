import Mathlib

/-! # Base64

The encoding of bytes by the 64 letters of the standard alphabet, four for each three bytes, padded
with `=`. Decoding inverts the encoding (`decode_encode`). It accepts a text from whose end some or
all of the padding is missing, but neither more padding nor bits left over that are not zero. -/

namespace Hotstuff.Lib.Base64

def letters : List Char :=
  "ABCDEFGHIJKLMNOPQRSTUVWXYZabcdefghijklmnopqrstuvwxyz0123456789+/".toList

/-- The letter of a six-bit number. -/
def letter (n : ℕ) : Char := letters.getD n 'A'

/-- The six-bit number of a letter. -/
def value (c : Char) : Option ℕ := if c ∈ letters then some (letters.idxOf c) else none

def encodeChars : List UInt8 → List Char
  | [] => []
  | [a] => [letter (a.toNat / 4), letter (a.toNat % 4 * 16), '=', '=']
  | [a, b] =>
    [letter (a.toNat / 4), letter (a.toNat % 4 * 16 + b.toNat / 16),
      letter (b.toNat % 16 * 4), '=']
  | a :: b :: c :: l =>
    letter (a.toNat / 4) :: letter (a.toNat % 4 * 16 + b.toNat / 16) ::
      letter (b.toNat % 16 * 4 + c.toNat / 64) :: letter (c.toNat % 64) :: encodeChars l

/-- One byte from two letters; the bits left over are zero. -/
def tail₁ (w x : ℕ) : Option (List UInt8) :=
  if x % 16 = 0 then some [UInt8.ofNat (w * 4 + x / 16)] else none

/-- Two bytes from three letters; the bits left over are zero. -/
def tail₂ (w x y : ℕ) : Option (List UInt8) :=
  if y % 4 = 0 then some [UInt8.ofNat (w * 4 + x / 16), UInt8.ofNat (x % 16 * 16 + y / 4)]
  else none

/-- Three bytes from four letters. -/
def full (w x y z : ℕ) : List UInt8 :=
  [UInt8.ofNat (w * 4 + x / 16), UInt8.ofNat (x % 16 * 16 + y / 4), UInt8.ofNat (y % 4 * 64 + z)]

/-- The last letters, without the padding that a fourth letter could be. -/
def short (w x y : Char) : Option (List UInt8) := do
  let w ← value w
  let x ← value x
  if y = '=' then tail₁ w x else tail₂ w x (← value y)

def decodeChars : List Char → Option (List UInt8)
  | [] => some []
  | [_] => none
  | [w, x] => short w x '='
  | [w, x, y] => short w x y
  | w :: x :: y :: z :: l =>
    if z = '=' ∧ l = [] then short w x y
    else do return full (← value w) (← value x) (← value y) (← value z) ++ (← decodeChars l)

def encode (l : List UInt8) : String := String.ofList (encodeChars l)

def decode (s : String) : Option (List UInt8) := decodeChars s.toList

/-! ### Decoding inverts the encoding -/

theorem value_letter : ∀ n < 64, value (letter n) = some n := by decide

theorem letter_ne_pad : ∀ n < 64, letter n ≠ '=' := by decide +kernel

section Bytes

variable (a b c : UInt8)

theorem first_byte {n : ℕ} (hn : n < 16) :
    UInt8.ofNat (a.toNat / 4 * 4 + (a.toNat % 4 * 16 + n) / 16) = a := by
  have h : a.toNat / 4 * 4 + (a.toNat % 4 * 16 + n) / 16 = a.toNat := by omega
  rw [h, UInt8.ofNat_toNat]

theorem second_byte {m n : ℕ} (hn : n < 4) :
    UInt8.ofNat ((m * 16 + b.toNat / 16) % 16 * 16 + (b.toNat % 16 * 4 + n) / 4) = b := by
  have hlt := b.toNat_lt
  have h : (m * 16 + b.toNat / 16) % 16 * 16 + (b.toNat % 16 * 4 + n) / 4 = b.toNat := by omega
  rw [h, UInt8.ofNat_toNat]

theorem third_byte {m : ℕ} : UInt8.ofNat ((m * 4 + c.toNat / 64) % 4 * 64 + c.toNat % 64) = c := by
  have hlt := c.toNat_lt
  have h : (m * 4 + c.toNat / 64) % 4 * 64 + c.toNat % 64 = c.toNat := by omega
  rw [h, UInt8.ofNat_toNat]

end Bytes

section Groups

variable {w x y z : Char} {w' x' y' z' : ℕ} (hw : value w = some w') (hx : value x = some x')
include hw hx

theorem decodeChars_tail₁ : decodeChars [w, x, '=', '='] = tail₁ w' x' := by
  simp [decodeChars, short, hw, hx]

variable (hy : value y = some y')
include hy

theorem decodeChars_tail₂ (hne : y ≠ '=') : decodeChars [w, x, y, '='] = tail₂ w' x' y' := by
  simp [decodeChars, short, hw, hx, hy, hne]

theorem decodeChars_full (hz : value z = some z') (hne : z ≠ '=') (l : List Char) :
    decodeChars (w :: x :: y :: z :: l) = (decodeChars l).map (full w' x' y' z' ++ ·) := by
  rw [Option.map_eq_bind]
  simp [decodeChars, hw, hx, hy, hz, hne]

end Groups

theorem decodeChars_encodeChars : ∀ l, decodeChars (encodeChars l) = some l
  | [] => rfl
  | [a] => by
    have ha := a.toNat_lt
    have ha1 := first_byte a (n := 0) (by omega)
    rw [encodeChars, decodeChars_tail₁ (value_letter _ (by omega)) (value_letter _ (by omega)),
      tail₁, if_pos (by omega)]
    simpa using ha1
  | [a, b] => by
    have ha := a.toNat_lt
    have hb := b.toNat_lt
    rw [encodeChars, decodeChars_tail₂ (value_letter _ (by omega)) (value_letter _ (by omega))
      (value_letter _ (by omega)) (letter_ne_pad _ (by omega)), tail₂, if_pos (by omega),
      first_byte a (by omega)]
    have hb2 := second_byte b (m := a.toNat % 4) (n := 0) (by omega)
    simpa using hb2
  | a :: b :: c :: l => by
    have ha := a.toNat_lt
    have hb := b.toNat_lt
    have hc := c.toNat_lt
    rw [encodeChars, decodeChars_full (value_letter _ (by omega)) (value_letter _ (by omega))
      (value_letter _ (by omega)) (value_letter _ (by omega)) (letter_ne_pad _ (by omega)),
      decodeChars_encodeChars l, full, first_byte a (by omega), second_byte b (by omega),
      third_byte c]
    rfl

theorem decode_encode (l : List UInt8) : decode (encode l) = some l := by
  rw [decode, encode, String.toList_ofList, decodeChars_encodeChars]

/-- The padding may be missing, in part or all of it. -/
example : ["AA==", "AA=", "AA"].map decode = List.replicate 3 (some [0]) := by decide

end Hotstuff.Lib.Base64
