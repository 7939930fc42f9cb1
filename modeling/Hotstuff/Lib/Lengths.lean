import Hotstuff.Lib.Bytes

/-! # Strings with their lengths

A list of byte strings, written with its length and the lengths of the strings in front, eight bytes
for each. A length of `2^56` or more takes more bytes, so that every list can be read back
(`readStrings_strings`). -/

namespace Hotstuff.Lib.Lengths

open Hotstuff.Lib.Bytes

/-! ### Lengths -/

/-- Seven bytes, the lowest one first, and what does not fit in them in ones. -/
def length (n : ℕ) : List UInt8 := le 7 n ++ (List.replicate (n / 256 ^ 7) 1 ++ [0])

def readLe : ℕ → List UInt8 → ℕ × List UInt8
  | 0, l => (0, l)
  | _ + 1, [] => (0, [])
  | k + 1, x :: l => (x.toNat + 256 * (readLe k l).1, (readLe k l).2)

/-- The number of ones up to the next other byte. -/
def readOnes : List UInt8 → ℕ × List UInt8
  | [] => (0, [])
  | x :: l => if x = 1 then ((readOnes l).1 + 1, (readOnes l).2) else (0, l)

def readLength (l : List UInt8) : ℕ × List UInt8 :=
  ((readLe 7 l).1 + 256 ^ 7 * (readOnes (readLe 7 l).2).1, (readOnes (readLe 7 l).2).2)

theorem readLe_le : ∀ (k n : ℕ) (l : List UInt8), readLe k (le k n ++ l) = (n % 256 ^ k, l)
  | 0, n, l => by simp [readLe, le, Nat.mod_one]
  | k + 1, n, l => by
    have hlow : (UInt8.ofNat n).toNat = n % 256 := by simp
    rw [le, List.cons_append, readLe, readLe_le k, hlow, pow_succ', Nat.mod_mul]

theorem readOnes_ones : ∀ (n : ℕ) (l : List UInt8),
    readOnes (List.replicate n 1 ++ 0 :: l) = (n, l)
  | 0, l => by simp [readOnes]
  | n + 1, l => by simp [List.replicate_succ, readOnes, readOnes_ones n l]

theorem readLength_length (n : ℕ) (l : List UInt8) : readLength (length n ++ l) = (n, l) := by
  unfold readLength length
  rw [List.append_assoc, readLe_le, List.append_assoc, List.singleton_append, readOnes_ones,
    Nat.mod_add_div]

/-! ### Strings -/

def string (s : List UInt8) : List UInt8 := length s.length ++ s

def strings (ss : List (List UInt8)) : List UInt8 := length ss.length ++ ss.flatMap string

def readMany : ℕ → List UInt8 → List (List UInt8)
  | 0, _ => []
  | k + 1, l =>
    (readLength l).2.take (readLength l).1 :: readMany k ((readLength l).2.drop (readLength l).1)

/-- The strings are read; what follows them is ignored. -/
def readStrings (l : List UInt8) : List (List UInt8) := readMany (readLength l).1 (readLength l).2

theorem readMany_flatMap : ∀ (ss : List (List UInt8)) (l : List UInt8),
    readMany ss.length (ss.flatMap string ++ l) = ss
  | [], _ => rfl
  | s :: ss, l => by
    rw [List.flatMap_cons, string, List.append_assoc, List.append_assoc, List.length_cons, readMany,
      readLength_length, List.take_left, List.drop_left, readMany_flatMap ss]

theorem readStrings_strings (ss : List (List UInt8)) : readStrings (strings ss) = ss := by
  unfold readStrings strings
  rw [readLength_length]
  simpa using readMany_flatMap ss []

end Hotstuff.Lib.Lengths
