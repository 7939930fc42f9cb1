import Hotstuff.Consensus.Messages
import Hotstuff.Lib.Bytes

/-! # What is fed to the hasher

Keys and digests are arrays of 32 bytes, rounds are written as 8 bytes, and the strings that are
hashed are concatenations without lengths or tags. A block is hashed as `72 + 32n` bytes, a vote or
a QC as 40 and a timeout as 16, so that the length of a string tells the kind of message and the
number `n` of payloads, and the string determines all fields (`encode_injective`). Two messages of
different content whose digests are the same are a collision of SHA-512 (`unambiguous`). -/

namespace Hotstuff.Consensus.Encoding

open Hotstuff.Primitives Hotstuff.Consensus.Messages Hotstuff.Lib.Bytes

variable {C : Crypto}

/-- `Round::to_le_bytes`. -/
def toLeBytes (r : Round) : List UInt8 := le 8 r.toNat

theorem length_toLeBytes (r : Round) : (toLeBytes r).length = 8 := length_le _ _

theorem toLeBytes_injective : Function.Injective toLeBytes := fun r r' h =>
  UInt64.toNat_inj.mp (le_injective r.toNat_lt r'.toNat_lt h)

/-- Keys and digests as arrays of bytes. -/
structure Arrays (K D : Type) where
  key : K → Vector UInt8 32
  digest : D → Vector UInt8 32
  key_injective : Function.Injective key
  digest_injective : Function.Injective digest

namespace Arrays

variable {K D : Type} (A : Arrays K D)

def keyBytes (k : K) : List UInt8 := (A.key k).toList

def digestBytes (d : D) : List UInt8 := (A.digest d).toList

/-- The concatenation of the fields. -/
def encode : Preimage K D → List UInt8
  | .block author round payload qcHash =>
    A.keyBytes author ++ toLeBytes round ++ payload.flatMap A.digestBytes ++ A.digestBytes qcHash
  | .vote hash round => A.digestBytes hash ++ toLeBytes round
  | .timeout round highQcRound => toLeBytes round ++ toLeBytes highQcRound

@[simp] theorem length_keyBytes (k : K) : (A.keyBytes k).length = 32 := by
  simp [keyBytes]

@[simp] theorem length_digestBytes (d : D) : (A.digestBytes d).length = 32 := by
  simp [digestBytes]

theorem keyBytes_injective : Function.Injective A.keyBytes := fun _ _ h =>
  A.key_injective (Vector.toList_inj.mp h)

theorem digestBytes_injective : Function.Injective A.digestBytes := fun _ _ h =>
  A.digest_injective (Vector.toList_inj.mp h)

theorem length_encode (x : Preimage K D) : (A.encode x).length =
    match x with
    | .block _ _ payload _ => 72 + 32 * payload.length
    | .vote _ _ => 40
    | .timeout _ _ => 16 := by
  cases x with
  | block => simp [encode, length_toLeBytes]; omega
  | vote | timeout => simp [encode, length_toLeBytes]

/-- **The string determines the kind of the message and its fields.** -/
theorem encode_injective : Function.Injective A.encode := by
  intro x y h
  have hlen := congrArg List.length h
  rw [length_encode, length_encode] at hlen
  cases x with
  | block author round payload qcHash =>
    cases y with
    | block author' round' payload' qcHash' =>
      -- the last 32 bytes, then the first 40
      obtain ⟨h, hqc⟩ := List.append_inj' h (by simp)
      obtain ⟨h, hpayload⟩ := List.append_inj h (by simp [length_toLeBytes])
      obtain ⟨hauthor, hround⟩ := List.append_inj h (by simp)
      rw [A.keyBytes_injective hauthor, toLeBytes_injective hround,
        flatMap_inj_of_length (by norm_num) A.length_digestBytes A.digestBytes_injective hpayload,
        A.digestBytes_injective hqc]
    | vote | timeout => simp at hlen; omega
  | vote hash round =>
    cases y with
    | vote hash' round' =>
      obtain ⟨hhash, hround⟩ := List.append_inj h (by simp)
      rw [A.digestBytes_injective hhash, toLeBytes_injective hround]
    | block | timeout => simp at hlen; try omega
  | timeout round highQcRound =>
    cases y with
    | timeout round' highQcRound' =>
      obtain ⟨hround, hhigh⟩ := List.append_inj h (by simp [length_toLeBytes])
      rw [toLeBytes_injective hround, toLeBytes_injective hhigh]
    | block | vote => simp at hlen; try omega

end Arrays

/-- The hasher: the strings are hashed by `sha`, the first 32 bytes of SHA-512. -/
structure Hasher (C : Crypto) extends Arrays C.PublicKey C.Digest where
  sha : List UInt8 → C.Digest
  hash_eq : ∀ x, C.hash x = sha (toArrays.encode x)

/-! ### Messages -/

/-- What is signed, or has digests that are signed. -/
inductive Signable (C : Crypto) where
  | block (block : Block C)
  | vote (vote : Vote C)
  | qc (qc : QC C)
  | timeout (timeout : Timeout C)
  /-- An entry of a TC. -/
  | entry (tc : TC C) (highQcRound : Round)

namespace Signable

def digest : Signable C → C.Digest
  | .block b => b.digest
  | .vote v => v.digest
  | .qc q => q.digest
  | .timeout t => t.digest
  | .entry tc highQcRound => timeoutDigest tc.round highQcRound

/-- The kind of the message, with the fields that are hashed. -/
def content : Signable C → Preimage C.PublicKey C.Digest
  | .block b => .block b.author b.round b.payload b.qc.hash
  | .vote v => .vote v.hash v.round
  | .qc q => .vote q.hash q.round
  | .timeout t => .timeout t.round t.highQc.round
  | .entry tc highQcRound => .timeout tc.round highQcRound

/-- The bytes that `digest` feeds to the hasher, one `update` after the other. -/
def bytes (A : Arrays C.PublicKey C.Digest) : Signable C → List UInt8
  | .block b =>
    A.keyBytes b.author ++ toLeBytes b.round ++ b.payload.flatMap A.digestBytes ++
      A.digestBytes b.qc.hash
  | .vote v => A.digestBytes v.hash ++ toLeBytes v.round
  | .qc q => A.digestBytes q.hash ++ toLeBytes q.round
  | .timeout t => toLeBytes t.round ++ toLeBytes t.highQc.round
  | .entry tc highQcRound => toLeBytes tc.round ++ toLeBytes highQcRound

theorem bytes_eq (A : Arrays C.PublicKey C.Digest) (m : Signable C) :
    m.bytes A = A.encode m.content := by
  cases m <;> rfl

theorem digest_eq (H : Hasher C) (m : Signable C) : m.digest = H.sha (m.bytes H.toArrays) := by
  rw [bytes_eq, ← H.hash_eq]
  cases m <;> rfl

end Signable

/-- The strings are different and have the same hash. -/
def Collide (H : Hasher C) (s s' : List UInt8) : Prop := s ≠ s' ∧ H.sha s = H.sha s'

/-- **Signed messages are unambiguous**: the bytes that are hashed determine the kind of a message
and its hashed fields, and unless there is a collision a signature made for one does not verify for
another. -/
theorem unambiguous (H : Hasher C) :
    (∀ m m' : Signable C, m.bytes H.toArrays = m'.bytes H.toArrays → m.content = m'.content) ∧
      (SignBinds C → ∀ (m m' : Signable C) (k k' : C.PublicKey),
        ¬ Collide H (m.bytes H.toArrays) (m'.bytes H.toArrays) →
          C.verify (C.sign k m.digest) m'.digest k' = true → m.content = m'.content) := by
  have hinj : ∀ m m' : Signable C, m.bytes H.toArrays = m'.bytes H.toArrays →
      m.content = m'.content := fun m m' h => by
    rw [Signable.bytes_eq, Signable.bytes_eq] at h
    exact H.encode_injective h
  refine ⟨hinj, fun hb m m' k k' hcol hver => hinj m m' ?_⟩
  have hd := hb _ _ _ _ hver
  rw [Signable.digest_eq H, Signable.digest_eq H] at hd
  by_contra hne
  exact hcol ⟨hne, hd⟩

/-! ### Keys and digests of 32 bytes -/

/-- The array of the byte `k` stands for the key `k`. -/
def toyArrays : Arrays (Fin 256) (Vector UInt8 32) where
  key k := .replicate 32 (.ofNat k)
  digest d := d
  key_injective k k' h := by
    have h0 := congrArg (fun v : Vector UInt8 32 => v[0].toNat) h
    simp at h0
    omega
  digest_injective _ _ h := h

/-- The first 32 bytes of a string, instead of a hash. -/
def firstBytes (s : List UInt8) : Vector UInt8 32 := .ofFn fun i => s.getD i 0

/-- A crypto of 32 bytes. -/
def toyCrypto : Crypto where
  PublicKey := Fin 256
  Digest := Vector UInt8 32
  Signature := Fin 256 × Vector UInt8 32
  Batch := List UInt8
  defaultKey := 0
  defaultDigest := .replicate 32 0
  defaultSignature := (0, .replicate 32 0)
  hash x := firstBytes (toyArrays.encode x)
  batchDigest := firstBytes
  sign k d := (k, d)
  verify s d k := s = (k, d)
  verifyBatch d votes := votes.all fun v => v.2 = (v.1, d)

def toyHasher : Hasher toyCrypto := { toyArrays with sha := firstBytes, hash_eq := fun _ => rfl }

theorem signBinds_toy : SignBinds toyCrypto := by
  intro k k' d d' h
  have hs : ((k, d) : Fin 256 × Vector UInt8 32) = (k', d') := by simpa [toyCrypto] using h
  exact congrArg Prod.snd hs

def toyVote : Vote toyCrypto := ⟨.replicate 32 1, 1, (0 : Fin 256), (0, .replicate 32 0)⟩

def toyQc : QC toyCrypto := ⟨.replicate 32 1, 1, []⟩

/-- The signature of a vote verifies for the QC of the same block. -/
theorem unambiguous_toy : (Signable.vote toyVote).content = (Signable.qc toyQc).content :=
  (unambiguous toyHasher).2 signBinds_toy _ _ (0 : Fin 256) (0 : Fin 256) (fun h => h.1 rfl)
    (by simp [toyCrypto]; rfl)

end Hotstuff.Consensus.Encoding
