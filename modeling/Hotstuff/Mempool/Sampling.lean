import Hotstuff.Lib.Transition
import Hotstuff.Mempool.BatchMaker
import Hotstuff.Ideal

/-! # The sample transactions of a batch

With the `benchmark` feature `seal` logs the ids of the sample transactions, which start with `0`
and have more than 8 bytes. The filter looks at the first byte of each transaction before it looks
at its length, so that sealing a batch with an empty transaction panics. A run goes as it does
without the feature, and logs what it should, exactly if no batch that is sealed has an empty
transaction (`sampling_iff`). -/

namespace Hotstuff.Mempool.Sampling

open Hotstuff.Primitives Hotstuff.Mempool Hotstuff.Mempool.BatchMaker Hotstuff.Lib.Transition
open Hotstuff.Ideal

variable {C : Crypto}

/-- What is fixed for the task, with the feature. -/
structure Settings (C : Crypto) extends BatchMaker.Settings C where
  /-- The first 32 bytes of the SHA-512 of a serialized message. -/
  digest : SerializedBatchMessage → C.Digest

/-- The lines that `seal` logs. -/
inductive Line (C : Crypto) where
  | sample (digest : C.Digest) (id : UInt64)
  | size (digest : C.Digest) (bytes : ℕ)

/-- The task with the feature, and what it has logged. -/
structure Sampler (C : Crypto) where
  maker : BatchMaker C
  log : List (Line C)

/-- `u64::from_be_bytes`. -/
def fromBeBytes (bytes : List UInt8) : UInt64 :=
  bytes.foldl (fun n b => n * 256 + UInt64.ofNat b.toNat) 0

/-- `tx[0] == 0u8 && tx.len() > 8`. There is no result if the index is out of bounds. -/
def isSample (tx : Transaction) : Option Bool := do
  let b ← tx[0]?
  return b = 0 && 8 < tx.length

/-- `tx[1..9].try_into().ok()`. There is no result if the range is out of bounds; what is converted
has 8 bytes. -/
def sampleId (tx : Transaction) : Option (List UInt8) :=
  if 9 ≤ tx.length then some ((tx.drop 1).take 8) else none

/-- The ids of the samples in the batch, unless there is a panic. -/
def gatherIds : Batch → Option (List (List UInt8))
  | [] => some []
  | tx :: batch => do
    if ← isSample tx then
      let id ← sampleId tx
      return id :: (← gatherIds batch)
    else gatherIds batch

variable (cfg : Settings C)

/-- `BatchMaker::seal` with the feature, unless it panics. -/
def sealBatch (s : Sampler C) (cause : Cause) : Option (Sampler C) := do
  let txIds ← gatherIds s.maker.currentBatch
  let digest := cfg.digest (cfg.serialize s.maker.currentBatch)
  return {
    maker := s.maker.sealBatch cfg.toSettings cause
    log := s.log ++ (txIds.map fun id => .sample digest (fromBeBytes id)) ++
      [.size digest s.maker.currentBatchSize] }

/-- The main loop. -/
def handle (s : Sampler C) : Event → Option (Sampler C)
  | .transaction transaction =>
    let s := { s with maker := { s.maker with
      currentBatchSize := s.maker.currentBatchSize + transaction.length
      currentBatch := s.maker.currentBatch ++ [transaction] } }
    if cfg.batchSize ≤ s.maker.currentBatchSize then sealBatch cfg s .transaction else some s
  | .timer => if s.maker.currentBatch.isEmpty then some s else sealBatch cfg s .timer

/-- The state after a sequence of events, unless there was a panic. -/
def run (es : List Event) : Option (Sampler C) := es.foldlM (handle cfg) ⟨.new, []⟩

/-! ### What is logged -/

/-- The transaction starts with `0` and has more than 8 bytes. -/
def IsSample (tx : Transaction) : Prop := tx.head? = some 0 ∧ 8 < tx.length

instance (tx : Transaction) : Decidable (IsSample tx) := by unfold IsSample; infer_instance

/-- The id of a sample: the 8 bytes behind the first. -/
def idOf (tx : Transaction) : UInt64 := fromBeBytes ((tx.drop 1).take 8)

/-- What should be logged for a batch. -/
def lines (x : Sealed) : List (Line C) :=
  ((x.batch.filter fun tx => IsSample tx).map fun tx =>
      .sample (cfg.digest (cfg.serialize x.batch)) (idOf tx)) ++
    [.size (cfg.digest (cfg.serialize x.batch)) (size x.batch)]

/-- The event does not seal a batch with an empty transaction. -/
def Harmless (s : BatchMaker C) : Event → Prop
  | .transaction transaction => cfg.batchSize ≤ s.currentBatchSize + transaction.length →
      [] ∉ s.currentBatch ++ [transaction]
  | .timer => [] ∉ s.currentBatch

/-- The ids are found exactly if no transaction is empty, and are then those of the samples. -/
theorem gatherIds_eq : ∀ batch : Batch, gatherIds batch =
    if [] ∈ batch then none
    else some ((batch.filter fun tx => IsSample tx).map fun tx => (tx.drop 1).take 8)
  | [] => rfl
  | [] :: batch => by simp [gatherIds, isSample]
  | (b :: tx) :: batch => by
    have hs : isSample (b :: tx) = some (decide (IsSample (b :: tx))) := by
      simp [isSample, IsSample]
    rw [gatherIds, hs, gatherIds_eq batch]
    by_cases hsample : IsSample (b :: tx)
    · have hid : sampleId (b :: tx) = some (((b :: tx).drop 1).take 8) := if_pos hsample.2
      by_cases hempty : [] ∈ batch <;> simp [hsample, hid, hempty]
    · by_cases hempty : [] ∈ batch <;> simp [hsample, hempty]

/-! ### One event -/

section Step

variable {m : BatchMaker C}

/-- The task that has gone as without the feature and has logged what it should. -/
def sampled (m : BatchMaker C) : Sampler C :=
  ⟨m, m.sealed.flatMap (lines cfg)⟩

theorem sealBatch_sampled (hsize : m.currentBatchSize = size m.currentBatch) (cause : Cause) :
    sealBatch cfg ⟨m, m.sealed.flatMap (lines cfg)⟩ cause =
      if [] ∈ m.currentBatch then none
      else some (sampled cfg (m.sealBatch cfg.toSettings cause)) := by
  rw [sealBatch, gatherIds_eq]
  split_ifs with hempty
  · rfl
  · simp [sampled, BatchMaker.sealBatch, lines, idOf, hsize]

/-- **A step**: the event is handled as without the feature if it is harmless, or else there is a
panic. -/
theorem handle_sampled (hsize : m.currentBatchSize = size m.currentBatch) (e : Event) :
    (Harmless cfg m e → handle cfg (sampled cfg m) e =
      some (sampled cfg (m.handle cfg.toSettings e))) ∧
    (¬ Harmless cfg m e → handle cfg (sampled cfg m) e = none) := by
  cases e with
  | transaction transaction =>
    have hadd := size_concat m.currentBatch transaction
    rw [← hsize] at hadd
    have hseal := sealBatch_sampled cfg (m := { m with
      currentBatchSize := m.currentBatchSize + transaction.length
      currentBatch := m.currentBatch ++ [transaction] }) hadd.symm .transaction
    by_cases hfull : cfg.batchSize ≤ m.currentBatchSize + transaction.length
    · simp only [Harmless, handle, BatchMaker.handle, sampled, if_pos hfull, hseal]
      exact ⟨fun h => if_neg (h hfull), fun h => if_pos (by_contra fun hn => h fun _ => hn)⟩
    · simp only [Harmless, handle, BatchMaker.handle, sampled, hfull, if_false]
      exact ⟨fun _ => trivial, fun h => absurd False.elim h⟩
  | timer =>
    by_cases hnil : m.currentBatch.isEmpty
    · simp only [Harmless, handle, BatchMaker.handle, sampled, hnil, if_true]
      exact ⟨fun _ => trivial, fun h => absurd (by simp [List.isEmpty_iff.mp hnil]) h⟩
    · simp only [Harmless, handle, BatchMaker.handle, sampled, if_neg hnil,
        sealBatch_sampled cfg hsize]
      exact ⟨fun h => if_neg h, fun h => if_pos (not_not.mp h)⟩

end Step

/-! ### Runs -/

/-- Without the feature, each event leads to one state. -/
abbrev Step (s : BatchMaker C) (e : Event) (s' : BatchMaker C) : Prop :=
  s.handle cfg.toSettings e = s'

theorem run_concat (es : List Event) (e : Event) :
    BatchMaker.run cfg.toSettings (es ++ [e]) =
      (BatchMaker.run cfg.toSettings es).handle cfg.toSettings e :=
  List.foldl_append

theorem step_run (es : List Event) :
    Run (Step cfg) .new es (BatchMaker.run cfg.toSettings es) := by
  induction es using List.reverseRecOn with
  | nil => exact .nil
  | append_singleton es e ih =>
    rw [run_concat]
    exact .snoc ih rfl

/-- **Run lemma.** -/
theorem run_sampled (es : List Event) :
    (Every (Step cfg) .new (Harmless cfg) es →
      run cfg es = some (sampled cfg (BatchMaker.run cfg.toSettings es))) ∧
    (¬ Every (Step cfg) .new (Harmless cfg) es → run cfg es = none) := by
  induction es using List.reverseRecOn with
  | nil => exact ⟨fun _ => rfl, fun h => absurd every_nil h⟩
  | append_singleton es e ih =>
    have hsize := (partitions_run cfg.toSettings es).1.size
    obtain ⟨hgood, hbad⟩ := handle_sampled cfg hsize e
    rw [every_snoc (fun _ _ _ _ h h' => h.symm.trans h') (step_run cfg es), run_concat, run,
      List.foldlM_append, ← run]
    by_cases hes : Every (Step cfg) .new (Harmless cfg) es
    · rw [ih.1 hes]
      simp only [hes, true_and]
      exact ⟨fun h => by simpa using hgood h, fun h => by simpa using hbad h⟩
    · rw [ih.2 hes]
      exact ⟨fun h => absurd h.1 hes, fun _ => rfl⟩

/-- **With the feature there is no panic exactly if** no event seals a batch with an empty
transaction. As long as there is none, the task does what it does without the feature, and for each
batch sealed it logs the ids of the transactions that start with `0` and have more than 8 bytes. -/
theorem sampling_iff (cfg : Settings C) (es : List Event) :
    ((run cfg es).isSome ↔ Every (Step cfg) .new (Harmless cfg) es) ∧
    ∀ s, run cfg es = some s → s.maker = BatchMaker.run cfg.toSettings es ∧
      s.log = s.maker.sealed.flatMap fun x =>
        ((x.batch.filter fun tx => IsSample tx).map fun tx =>
          .sample (cfg.digest (cfg.serialize x.batch)) (idOf tx)) ++
        [.size (cfg.digest (cfg.serialize x.batch)) (size x.batch)] := by
  obtain ⟨hgood, hbad⟩ := run_sampled cfg es
  by_cases hes : Every (Step cfg) .new (Harmless cfg) es
  · rw [hgood hes]
    refine ⟨iff_of_true rfl hes, ?_⟩
    rintro s ⟨⟩
    exact ⟨rfl, rfl⟩
  · rw [hbad hes]
    exact ⟨iff_of_false (by simp) hes, by simp⟩

/-! ### An empty transaction -/

def plainSettings : Settings crypto where
  batchSize := 100
  mempoolAddresses := []
  serialize batch := batch.flatten
  digest _ := .leaf 0

/-- The sample with the id 1 is logged when the timer expires. -/
theorem sample_logged :
    ∃ s, run plainSettings [.transaction [0, 0, 0, 0, 0, 0, 0, 0, 1, 5], .timer] = some s ∧
      s.log = [.sample (.leaf 0) 1, .size (.leaf 0) 10] := by
  obtain ⟨s, hs⟩ : ∃ s, run plainSettings
      [.transaction [0, 0, 0, 0, 0, 0, 0, 0, 1, 5], .timer] = some s := ⟨_, rfl⟩
  obtain ⟨hmaker, hlog⟩ := (sampling_iff plainSettings _).2 s hs
  rw [hmaker] at hlog
  exact ⟨s, hs, hlog.trans rfl⟩

/-- A client sends an empty transaction, and the timer expires. -/
theorem empty_transaction_panics :
    (run plainSettings [.transaction [], .timer]).isSome = false := rfl

end Hotstuff.Mempool.Sampling
