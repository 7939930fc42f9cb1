import Mathlib

/-! # Rounds, hashes and signatures

The code below the protocol: round numbers are `u64`, and the `crypto` crate wraps SHA-512 and
Ed25519. A `Crypto` has the types of that crate and its functions as parameters; nothing is assumed
of them here. What a claim assumes (no collisions, sound batch verification) it names:
`NoCollision`, `BatchSound`, `BatchComplete`, `SignBinds`, `SignVerifies`.

The code hashes three kinds of strings, each the concatenation of a few fields; `Preimage` has one
constructor for each kind, with the fields in the order in which they are fed to the hasher. -/

namespace Hotstuff.Primitives

/-- The consensus round number. -/
abbrev Round := UInt64

/-- The voting power of an authority. -/
abbrev Stake := UInt32

/-- A point in time, in milliseconds. -/
abbrev Instant := ℕ

/-! ### Machine integers -/

theorem toNat_max (a b : Round) : (max a b).toNat = max a.toNat b.toNat := by
  show (if a ≤ b then b else a).toNat = _
  have h := UInt64.le_iff_toNat_le (a := a) (b := b)
  split_ifs with hab
  · rw [max_eq_right (h.mp hab)]
  · rw [max_eq_left (by rw [h] at hab; omega)]

theorem le_max_left (a b : Round) : a ≤ max a b := by
  rw [UInt64.le_iff_toNat_le, toNat_max]; omega

theorem le_max_right (a b : Round) : b ≤ max a b := by
  rw [UInt64.le_iff_toNat_le, toNat_max]; omega

instance : Std.LawfulOrderMax Round where
  max_eq_or a b := by
    rcases Nat.le_total a.toNat b.toNat with h | h
    · right; exact UInt64.toNat_inj.mp (by rw [toNat_max]; omega)
    · left; exact UInt64.toNat_inj.mp (by rw [toNat_max]; omega)
  max_le_iff a b c := by
    simp only [UInt64.le_iff_toNat_le, toNat_max]; omega

/-- Adding one wraps exactly at the last round. -/
theorem toNat_add_one {r : Round} (h : r + 1 ≠ 0) : (r + 1).toNat = r.toNat + 1 := by
  have hlt := r.toNat_lt
  have h1 : (r + 1).toNat = (r.toNat + 1) % 2 ^ 64 := UInt64.toNat_add r 1
  have h0 : (r + 1).toNat ≠ 0 := fun h0 => h (UInt64.toNat_inj.mp h0)
  rcases Nat.lt_or_ge (r.toNat + 1) (2 ^ 64) with hr | hr
  · rw [h1, Nat.mod_eq_of_lt hr]
  · have hr' : r.toNat + 1 = 2 ^ 64 := by omega
    rw [hr', Nat.mod_self] at h1
    exact absurd h1 h0

theorem lt_add_one {r : Round} (h : r + 1 ≠ 0) : r < r + 1 := by
  rw [UInt64.lt_iff_toNat_lt, toNat_add_one h]; omega

theorem pos_of_lt {a b : Round} (h : a < b) : b ≠ 0 := by
  rintro rfl
  rw [UInt64.lt_iff_toNat_lt] at h
  exact Nat.not_lt_zero _ h

/-! ### Hashes and signatures -/

/-- What is fed to the hasher: by `Block::digest`; by `Vote::digest` and `QC::digest`; by
`Timeout::digest` and, for each entry, by `TC::verify`. -/
inductive Preimage (PublicKey Digest : Type) where
  | block (author : PublicKey) (round : Round) (payload : List Digest) (qcHash : Digest)
  | vote (hash : Digest) (round : Round)
  | timeout (round highQcRound : Round)

/-- The types and functions of the `crypto` crate, and the batches of the mempool, which are only
hashed and stored. -/
structure Crypto where
  PublicKey : Type
  Digest : Type
  Signature : Type
  Batch : Type
  [keyOrder : LinearOrder PublicKey]
  [digestEq : DecidableEq Digest]
  defaultKey : PublicKey
  defaultDigest : Digest
  defaultSignature : Signature
  /-- The first 32 bytes of SHA-512. -/
  hash : Preimage PublicKey Digest → Digest
  /-- The digest of a serialized batch. -/
  batchDigest : Batch → Digest
  /-- The signature service of the owner of a key. -/
  sign : PublicKey → Digest → Signature
  /-- `Signature::verify`. -/
  verify : Signature → Digest → PublicKey → Bool
  /-- `Signature::verify_batch`. -/
  verifyBatch : Digest → List (PublicKey × Signature) → Bool

attribute [instance] Crypto.keyOrder Crypto.digestEq

instance {C : Crypto} (k : C.PublicKey) (l : List C.PublicKey) : Decidable (k ∈ l) := inferInstance

instance {C : Crypto} (d : C.Digest) (l : List C.Digest) : Decidable (d ∈ l) := inferInstance

variable (C : Crypto)

/-- The hash has no collisions. -/
def NoCollision : Prop := Function.Injective C.hash

/-- A batch is accepted only if each of its signatures verifies. -/
def BatchSound : Prop :=
  ∀ d votes, C.verifyBatch d votes = true → ∀ v ∈ votes, C.verify v.2 d v.1 = true

/-- A batch is accepted if each of its signatures verifies. -/
def BatchComplete : Prop :=
  ∀ d votes, (∀ v ∈ votes, C.verify v.2 d v.1 = true) → C.verifyBatch d votes = true

/-- A signature made for a digest verifies for no other. -/
def SignBinds : Prop := ∀ k k' d d', C.verify (C.sign k d) d' k' = true → d = d'

/-- What a key signs verifies under it. -/
def SignVerifies : Prop := ∀ k d, C.verify (C.sign k d) d k = true

end Hotstuff.Primitives
