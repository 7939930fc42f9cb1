import Mathlib

/-! # Byte strings

Numbers as a fixed number of bytes, and strings of blocks of a fixed length. Both determine what
they were made of. -/

namespace Hotstuff.Lib.Bytes

/-- The `k` low bytes of a number, the lowest one first. -/
def le : ℕ → ℕ → List UInt8
  | 0, _ => []
  | k + 1, n => .ofNat n :: le k (n / 256)

@[simp] theorem length_le : ∀ k n, (le k n).length = k
  | 0, _ => rfl
  | k + 1, n => by simp [le, length_le]

theorem le_injective : ∀ {k n m : ℕ}, n < 256 ^ k → m < 256 ^ k → le k n = le k m → n = m
  | 0, n, m, hn, hm, _ => by omega
  | k + 1, n, m, hn, hm, h => by
    simp only [le, List.cons.injEq] at h
    have hlow : n % 256 = m % 256 := by simpa using congrArg UInt8.toNat h.1
    rw [pow_succ] at hn hm
    have hhigh : n / 256 = m / 256 :=
      le_injective (Nat.div_lt_of_lt_mul (by omega)) (Nat.div_lt_of_lt_mul (by omega)) h.2
    omega

/-- A concatenation of blocks of one positive length determines the blocks. -/
theorem flatMap_inj_of_length {α β : Type*} {f : α → List β} {len : ℕ} (hpos : 0 < len)
    (hlen : ∀ a, (f a).length = len) (hf : Function.Injective f) :
    ∀ {xs ys : List α}, xs.flatMap f = ys.flatMap f → xs = ys
  | [], [], _ => rfl
  | [], y :: ys, h => by
    have := congrArg List.length h
    simp [hlen] at this
    omega
  | x :: xs, [], h => by
    have := congrArg List.length h
    simp [hlen] at this
    omega
  | x :: xs, y :: ys, h => by
    rw [List.flatMap_cons, List.flatMap_cons] at h
    obtain ⟨hx, hxs⟩ := List.append_inj h (by rw [hlen, hlen])
    rw [hf hx, flatMap_inj_of_length hpos hlen hf hxs]

end Hotstuff.Lib.Bytes
