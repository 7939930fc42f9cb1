import Hotstuff.Lib.Base64

/-! # Keys in base64

`decode_base64` cuts the decoded bytes to the length of a key before it converts them, so that the
conversion never fails: too many bytes are cut off and too few panic. A string is treated as it
should be exactly if it decodes to as many bytes as a key has, or not at all (`exact_iff`). The keys
of a network message are decoded in the order of its fields, and deserializing it panics exactly if
one that is reached is too short (`deserialize_panics_iff`). -/

namespace Hotstuff.Keys

/-- The `base64` crate. -/
structure Codec where
  DecodeError : Type
  /-- `DecodeError::InvalidLength`. -/
  invalidLength : DecodeError
  encode : List UInt8 → String
  decode : String → Except DecodeError (List UInt8)

/-- Decoding inverts the encoding. -/
def Codec.Inverts (B : Codec) : Prop := ∀ bytes, B.decode (B.encode bytes) = .ok bytes

/-- A call returns a value or an error, or panics. -/
inductive Outcome (ε α : Type) where
  | ok (a : α)
  | err (e : ε)
  | panic

/-- The operator `?`. -/
def Outcome.bind {ε α β : Type} : Outcome ε α → (α → Outcome ε β) → Outcome ε β
  | .ok a, f => f a
  | .err e, _ => .err e
  | .panic, _ => .panic

instance {ε : Type} : Monad (Outcome ε) where
  pure := .ok
  bind := .bind

/-- An array of `n` bytes. -/
@[ext]
structure Key (n : ℕ) where
  bytes : List UInt8
  length_eq : bytes.length = n

/-- The public keys. -/
abbrev PublicKey := Key 32

/-- The secret keys. -/
abbrev SecretKey := Key 64

variable {B : Codec} {n : ℕ}

/-! ### One key -/

/-- `bytes.try_into()`. -/
def tryInto (n : ℕ) (bytes : List UInt8) : Option (Key n) :=
  if h : bytes.length = n then some ⟨bytes, h⟩ else none

def encodeBase64 (B : Codec) (k : Key n) : String := B.encode k.bytes

/-- `decode_base64`, of `PublicKey` and of `SecretKey`. -/
def decodeBase64 (B : Codec) (n : ℕ) (s : String) : Outcome B.DecodeError (Key n) :=
  match B.decode s with
  | .error e => .err e
  | .ok bytes =>
    -- the slice `bytes[..n]`
    if n ≤ bytes.length then
      match tryInto n (bytes.take n) with
      | some k => .ok k
      | none => .err B.invalidLength
    else .panic

def PublicKey.decodeBase64 (B : Codec) : String → Outcome B.DecodeError PublicKey :=
  Keys.decodeBase64 B 32

def SecretKey.decodeBase64 (B : Codec) : String → Outcome B.DecodeError SecretKey :=
  Keys.decodeBase64 B 64

/-- **What decoding should do with a string**: return the key that it encodes, or else an error. -/
structure Exact (B : Codec) (s : String) (r : Outcome B.DecodeError (Key n)) : Prop where
  ok : ∀ k, r = .ok k ↔ B.decode s = .ok k.bytes
  err : (∀ k : Key n, B.decode s ≠ .ok k.bytes) → ∃ e, r = .err e

/-- The string decodes to `n` bytes, or not at all. -/
def Whole (B : Codec) (n : ℕ) (s : String) : Prop :=
  ∀ bytes, B.decode s = .ok bytes → bytes.length = n

/-- The string decodes to less than `n` bytes. -/
def Short (B : Codec) (n : ℕ) (s : String) : Prop :=
  ∃ bytes, B.decode s = .ok bytes ∧ bytes.length < n

/-- The string decodes to `n` bytes or more. -/
def Enough (B : Codec) (n : ℕ) (s : String) : Prop :=
  ∃ bytes, B.decode s = .ok bytes ∧ n ≤ bytes.length

/-- The cut has the length of a key, so that its conversion does not fail. -/
theorem tryInto_take {bytes : List UInt8} (h : n ≤ bytes.length) :
    ∃ k : Key n, tryInto n (bytes.take n) = some k ∧ k.bytes = bytes.take n :=
  ⟨⟨bytes.take n, List.length_take_of_le h⟩, dif_pos (List.length_take_of_le h), rfl⟩

theorem decodeBase64_of_error {s : String} {e : B.DecodeError} (h : B.decode s = .error e) :
    decodeBase64 B n s = .err e := by
  simp only [decodeBase64, h]

theorem decodeBase64_of_ok {s : String} {bytes : List UInt8} (h : B.decode s = .ok bytes) :
    (n ≤ bytes.length → ∃ k : Key n, decodeBase64 B n s = .ok k ∧ k.bytes = bytes.take n) ∧
      (bytes.length < n → decodeBase64 B n s = .panic) := by
  simp only [decodeBase64, h]
  refine ⟨fun hn => ?_, fun hn => if_neg (by omega)⟩
  obtain ⟨k, hk, hb⟩ := tryInto_take hn
  exact ⟨k, by simp only [if_pos hn, hk], hb⟩

/-- **A string is treated as it should be exactly if** it decodes to as many bytes as a key has, or
not at all. -/
theorem exact_iff (s : String) : Exact B s (decodeBase64 B n s) ↔ Whole B n s := by
  rcases hs : B.decode s with e | bytes
  · rw [decodeBase64_of_error hs]
    refine iff_of_true ⟨fun k => by simp [hs], fun _ => ⟨e, rfl⟩⟩ fun bytes h => ?_
    rw [hs] at h
    cases h
  have hwhole : Whole B n s ↔ bytes.length = n := by simp [Whole, hs]
  rw [hwhole]
  obtain ⟨hok, hpanic⟩ := decodeBase64_of_ok (n := n) hs
  rcases Nat.lt_or_ge bytes.length n with hlt | hge
  · -- too short: no key has these bytes, and there is no error
    rw [hpanic hlt]
    refine iff_of_false (fun h => ?_) (by omega)
    obtain ⟨e, he⟩ := h.err fun k hk => by
      rw [hs] at hk
      cases hk
      exact absurd k.length_eq (by omega)
    cases he
  · obtain ⟨k, hk, hbytes⟩ := hok hge
    rw [hk]
    constructor
    · intro h
      have hdec := (h.ok k).mp rfl
      rw [hs] at hdec
      cases hdec
      exact k.length_eq
    · intro hlen
      rw [List.take_of_length_le hlen.le] at hbytes
      refine ⟨fun k' => ?_, fun h => absurd hs (hbytes ▸ h k)⟩
      rw [hs]
      constructor
      · rintro ⟨⟩
        rw [hbytes]
      · intro h
        cases h
        rw [Key.ext hbytes]

theorem decode_encode (hB : B.Inverts) (k : Key n) :
    decodeBase64 B n (encodeBase64 B k) = .ok k := by
  have hk : B.decode (encodeBase64 B k) = .ok k.bytes := hB k.bytes
  refine (((exact_iff (encodeBase64 B k)).mpr fun bytes h => ?_).ok k).mpr hk
  rw [hk] at h
  cases h
  exact k.length_eq

/-! ### The keys of a message -/

/-- The network messages of the consensus and the mempool, their keys in the order of the fields;
what else they contain is taken to be readable. -/
inductive Message (K : Type) where
  | propose (qcVotes : List K) (tcVotes : Option (List K)) (author : K)
  | vote (author : K)
  | timeout (qcVotes : List K) (author : K)
  | tc (votes : List K)
  | syncRequest (origin : K)
  | batch
  | batchRequest (origin : K)

namespace Message

/-- The keys in the order in which they are deserialized. -/
def keys {K : Type} : Message K → List K
  | .propose qcVotes tcVotes author => qcVotes ++ (tcVotes.getD [] ++ [author])
  | .vote author => [author]
  | .timeout qcVotes author => qcVotes ++ [author]
  | .tc votes => votes
  | .syncRequest origin => [origin]
  | .batch => []
  | .batchRequest origin => [origin]

/-- Serializing replaces each key by its encoding. -/
def serialize (B : Codec) : Message PublicKey → Message String
  | .propose qcVotes tcVotes author =>
    .propose (qcVotes.map (encodeBase64 B)) (tcVotes.map (List.map (encodeBase64 B)))
      (encodeBase64 B author)
  | .vote author => .vote (encodeBase64 B author)
  | .timeout qcVotes author => .timeout (qcVotes.map (encodeBase64 B)) (encodeBase64 B author)
  | .tc votes => .tc (votes.map (encodeBase64 B))
  | .syncRequest origin => .syncRequest (encodeBase64 B origin)
  | .batch => .batch
  | .batchRequest origin => .batchRequest (encodeBase64 B origin)

end Message

/-- The keys of a vector, one after the other. -/
def readKeys (B : Codec) : List String → Outcome B.DecodeError (List PublicKey)
  | [] => pure []
  | s :: l => do
    let k ← PublicKey.decodeBase64 B s
    let ks ← readKeys B l
    return k :: ks

/-- The keys of a vector that may be missing. -/
def readOption (B : Codec) : Option (List String) → Outcome B.DecodeError (Option (List PublicKey))
  | none => pure none
  | some l => do
    let ks ← readKeys B l
    return some ks

/-- `Deserialize`, as it is derived for the messages. -/
def Message.deserialize (B : Codec) : Message String → Outcome B.DecodeError (Message PublicKey)
  | .propose qcVotes tcVotes author => do
    let qcVotes ← readKeys B qcVotes
    let tcVotes ← readOption B tcVotes
    let author ← PublicKey.decodeBase64 B author
    return .propose qcVotes tcVotes author
  | .vote author => do
    let author ← PublicKey.decodeBase64 B author
    return .vote author
  | .timeout qcVotes author => do
    let qcVotes ← readKeys B qcVotes
    let author ← PublicKey.decodeBase64 B author
    return .timeout qcVotes author
  | .tc votes => do
    let votes ← readKeys B votes
    return .tc votes
  | .syncRequest origin => do
    let origin ← PublicKey.decodeBase64 B origin
    return .syncRequest origin
  | .batch => return .batch
  | .batchRequest origin => do
    let origin ← PublicKey.decodeBase64 B origin
    return .batchRequest origin

/-- Of the strings that are decoded one after the other, one that is reached is too short. -/
def Crashes (B : Codec) : List String → Prop
  | [] => False
  | s :: l => Short B 32 s ∨ Enough B 32 s ∧ Crashes B l

/-- Reading `x` decodes the strings `l`: it panics if one that is reached is too short, and returns
a value if none is and all are in base64. -/
structure Reads {α : Type} (x : Outcome B.DecodeError α) (l : List String) : Prop where
  panic : x = .panic ↔ Crashes B l
  ok : (∃ a, x = .ok a) ↔ ∀ s ∈ l, Enough B 32 s

section Reads

variable {α β : Type} {x : Outcome B.DecodeError α} {f : α → Outcome B.DecodeError β}
  {l l' : List String}

theorem crashes_append : Crashes B (l ++ l') ↔
    Crashes B l ∨ (∀ s ∈ l, Enough B 32 s) ∧ Crashes B l' := by
  induction l with
  | nil => simp [Crashes]
  | cons s l ih =>
    rw [List.cons_append, Crashes, Crashes, ih, List.forall_mem_cons]
    tauto

theorem reads_pure (a : α) : Reads (B := B) (pure a) [] :=
  ⟨iff_of_false nofun id, iff_of_true ⟨a, rfl⟩ (by simp)⟩

theorem reads_bind (hx : Reads x l) (hf : ∀ a, Reads (f a) l') : Reads (x >>= f) (l ++ l') := by
  obtain ⟨hpanic, hok⟩ := hx
  cases x with
  | ok a =>
    have hl : ∀ s ∈ l, Enough B 32 s := hok.mp ⟨a, rfl⟩
    have hc : ¬ Crashes B l := fun h => nomatch hpanic.mpr h
    refine ⟨?_, ?_⟩
    · rw [crashes_append, or_iff_right hc, and_iff_right hl]
      exact (hf a).panic
    · rw [List.forall_mem_append, and_iff_right hl]
      exact (hf a).ok
  | err e =>
    have hl : ¬ ∀ s ∈ l, Enough B 32 s := fun h => by
      obtain ⟨a, ha⟩ := hok.mpr h
      cases ha
    have hc : ¬ Crashes B l := fun h => nomatch hpanic.mpr h
    refine ⟨iff_of_false nofun ?_, iff_of_false (fun ⟨_, h⟩ => nomatch h) ?_⟩
    · rw [crashes_append]
      exact fun h => h.elim hc fun h => hl h.1
    · rw [List.forall_mem_append]
      exact fun h => hl h.1
  | panic =>
    have hl : ¬ ∀ s ∈ l, Enough B 32 s := fun h => by
      obtain ⟨a, ha⟩ := hok.mpr h
      cases ha
    refine ⟨iff_of_true rfl (crashes_append.mpr (.inl (hpanic.mp rfl))), ?_⟩
    rw [List.forall_mem_append]
    exact iff_of_false (fun ⟨_, h⟩ => nomatch h) fun h => hl h.1

theorem reads_decode (s : String) : Reads (PublicKey.decodeBase64 B s) [s] := by
  rcases hs : B.decode s with e | bytes
  · rw [PublicKey.decodeBase64, decodeBase64_of_error hs]
    exact ⟨iff_of_false nofun (by simp [Crashes, Short, hs]),
      iff_of_false (fun ⟨_, h⟩ => nomatch h) (by simp [Enough, hs])⟩
  have hcrash : Crashes B [s] ↔ bytes.length < 32 := by simp [Crashes, Short, hs]
  have henough : (∀ t ∈ [s], Enough B 32 t) ↔ 32 ≤ bytes.length := by simp [Enough, hs]
  obtain ⟨hok, hpanic⟩ := decodeBase64_of_ok (n := 32) hs
  rcases Nat.lt_or_ge bytes.length 32 with hlt | hge
  · rw [PublicKey.decodeBase64, hpanic hlt]
    exact ⟨iff_of_true rfl (hcrash.mpr hlt),
      iff_of_false (fun ⟨_, h⟩ => nomatch h) fun h => absurd (henough.mp h) (by omega)⟩
  · obtain ⟨k, hk, -⟩ := hok hge
    rw [PublicKey.decodeBase64, hk]
    exact ⟨iff_of_false nofun fun h => absurd (hcrash.mp h) (by omega),
      iff_of_true ⟨k, rfl⟩ (henough.mpr hge)⟩

/-- What is returned in the end does not matter. -/
theorem reads_map (hx : Reads x l) (g : α → β) : Reads (x >>= fun a => pure (g a)) l := by
  simpa using reads_bind hx fun a => reads_pure (g a)

theorem reads_keys : ∀ l, Reads (readKeys B l) l
  | [] => reads_pure []
  | s :: l => reads_bind (reads_decode s) fun k => reads_map (reads_keys l) (k :: ·)

theorem reads_option : ∀ o, Reads (readOption B o) (o.getD [])
  | none => reads_pure none
  | some l => reads_map (reads_keys l) some

/-- A message is read key by key. -/
theorem reads_message (m : Message String) : Reads (m.deserialize B) m.keys := by
  cases m with
  | propose qcVotes tcVotes author =>
    exact reads_bind (reads_keys _) fun _ => reads_bind (reads_option _) fun _ =>
      reads_map (reads_decode author) _
  | vote author => exact reads_map (reads_decode author) _
  | timeout qcVotes author =>
    exact reads_bind (reads_keys _) fun _ => reads_map (reads_decode author) _
  | tc votes => exact reads_map (reads_keys votes) _
  | syncRequest origin => exact reads_map (reads_decode origin) _
  | batch => exact reads_pure _
  | batchRequest origin => exact reads_map (reads_decode origin) _

end Reads

/-! ### Round trips -/

section RoundTrip

variable (hB : B.Inverts)
include hB

theorem readKeys_encode : ∀ l : List PublicKey, readKeys B (l.map (encodeBase64 B)) = .ok l
  | [] => rfl
  | k :: l => by
    rw [List.map_cons, readKeys, PublicKey.decodeBase64, decode_encode hB k, readKeys_encode l]
    rfl

theorem readOption_encode (o : Option (List PublicKey)) :
    readOption B (o.map (List.map (encodeBase64 B))) = .ok o := by
  cases o with
  | none => rfl
  | some l =>
    rw [Option.map_some, readOption, readKeys_encode hB l]
    rfl

/-- Deserializing inverts serializing. -/
theorem deserialize_serialize (m : Message PublicKey) :
    (m.serialize B).deserialize B = .ok m := by
  cases m <;> simp only [Message.serialize, Message.deserialize, PublicKey.decodeBase64,
    readKeys_encode hB, readOption_encode hB, decode_encode hB] <;> rfl

end RoundTrip

/-- **Keys and messages are decoded exactly, without a panic, exactly if** each key that is reached
has its length. -/
theorem decode_exact_iff (hB : B.Inverts) :
    (∀ s, Exact B s (PublicKey.decodeBase64 B s) ↔ Whole B 32 s) ∧
    (∀ s, Exact B s (SecretKey.decodeBase64 B s) ↔ Whole B 64 s) ∧
    (∀ k, PublicKey.decodeBase64 B (encodeBase64 B k) = .ok k) ∧
    (∀ k, SecretKey.decodeBase64 B (encodeBase64 B k) = .ok k) ∧
    (∀ m, (Message.serialize B m).deserialize B = .ok m) ∧
    ∀ m : Message String, m.deserialize B = .panic ↔ Crashes B m.keys :=
  ⟨exact_iff, exact_iff, decode_encode hB, decode_encode hB, deserialize_serialize hB,
    fun m => (reads_message m).panic⟩

/-! ### The standard alphabet -/

/-- Base64 as it is, up to the details of its errors: the padding is optional. -/
def standard : Codec where
  DecodeError := Unit
  invalidLength := ()
  encode := Lib.Base64.encode
  decode s := (Lib.Base64.decode s).elim (.error ()) .ok

theorem standard_inverts : standard.Inverts := by
  intro bytes
  simp only [standard, Lib.Base64.decode_encode, Option.elim_some]

theorem standard_exact : (∀ s, Exact standard s (PublicKey.decodeBase64 standard s) ↔
    Whole standard 32 s) ∧
    (∀ m : Message String, m.deserialize standard = .panic ↔ Crashes standard m.keys) :=
  ⟨(decode_exact_iff standard_inverts).1, (decode_exact_iff standard_inverts).2.2.2.2.2⟩

/-- The empty string panics, alone and as the author of a vote; what encodes 33 bytes is accepted as
a key. -/
theorem empty_panics : standard.Inverts ∧ PublicKey.decodeBase64 standard "" = .panic ∧
    ¬ Exact standard "" (PublicKey.decodeBase64 standard "") ∧
    (Message.vote "").deserialize standard = .panic ∧
    ∃ k, PublicKey.decodeBase64 standard (standard.encode (List.replicate 33 0)) = .ok k := by
  have hempty : standard.decode "" = .ok [] := rfl
  have hlong : standard.decode (standard.encode (List.replicate 33 0)) = .ok _ :=
    standard_inverts _
  have hpanic : PublicKey.decodeBase64 standard "" = .panic :=
    (decodeBase64_of_ok hempty).2 (by decide)
  refine ⟨standard_inverts, hpanic, fun h => ?_, ?_, ?_⟩
  · rw [PublicKey.decodeBase64, exact_iff] at h
    exact absurd (h [] hempty) (by decide)
  · rw [Message.deserialize, hpanic]
    rfl
  · obtain ⟨k, hk, -⟩ := (decodeBase64_of_ok (n := 32) hlong).1 (by decide)
    exact ⟨k, hk⟩

end Hotstuff.Keys
