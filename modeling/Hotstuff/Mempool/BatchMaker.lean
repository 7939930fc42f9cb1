import Hotstuff.Primitives

/-! # Making batches

The task of `mempool/src/batch_maker.rs`, without the `benchmark` feature. The transactions of the
clients are put in the current batch, which is sealed when its size reaches `batch_size`, or when
the timer expires; the timer may expire at any time. A sealed batch is broadcast to the other
mempools, and goes to the quorum waiter with the cancel handlers of the broadcast. `sealed` is the
history of the batches.

The sealed batches and the current one are a partition of what was received (`partition`). -/

namespace Hotstuff.Mempool

open Hotstuff.Primitives

variable {C : Crypto}

abbrev Transaction := List UInt8

abbrev Batch := List Transaction

/-- A serialized `MempoolMessage::Batch`. -/
abbrev SerializedBatchMessage := List UInt8

abbrev SocketAddr := String

/-- The cancel handler of a message stands for its number among the messages of the sender. -/
abbrev CancelHandler := ℕ

/-- A batch with the handlers of its broadcast. -/
structure QuorumWaiterMessage (C : Crypto) where
  batch : SerializedBatchMessage
  handlers : List (C.PublicKey × CancelHandler)

namespace BatchMaker

/-- What is fixed for the task. The addresses are `Committee::broadcast_addresses`, those of all
authorities except the node. -/
structure Settings (C : Crypto) where
  batchSize : ℕ
  mempoolAddresses : List (C.PublicKey × SocketAddr)
  /-- `bincode::serialize` of a `MempoolMessage::Batch`. -/
  serialize : Batch → SerializedBatchMessage

/-- The messages given to the `ReliableSender`. -/
abbrev ReliableSender := List (SocketAddr × SerializedBatchMessage)

/-- `ReliableSender::broadcast`: the handlers are in the order of the addresses. -/
def broadcast (network : ReliableSender) (addresses : List SocketAddr)
    (data : SerializedBatchMessage) : ReliableSender × List CancelHandler :=
  (network ++ addresses.map fun address => (address, data),
    List.range' network.length addresses.length)

/-- What a batch was sealed by. -/
inductive Cause where
  | transaction
  | timer

structure Sealed where
  batch : Batch
  cause : Cause

end BatchMaker

open BatchMaker

structure BatchMaker (C : Crypto) where
  currentBatch : Batch
  /-- The size of the current batch, in bytes. -/
  currentBatchSize : ℕ
  network : ReliableSender
  txMessage : List (QuorumWaiterMessage C)
  /-- The batches sealed so far. -/
  sealed : List Sealed

namespace BatchMaker

variable (cfg : Settings C)

def new : BatchMaker C := ⟨[], 0, [], [], []⟩

/-- `BatchMaker::seal`. -/
def sealBatch (s : BatchMaker C) (cause : Cause) : BatchMaker C :=
  let serialized := cfg.serialize s.currentBatch
  let names := cfg.mempoolAddresses.map Prod.fst
  let addresses := cfg.mempoolAddresses.map Prod.snd
  { currentBatch := []
    currentBatchSize := 0
    network := (broadcast s.network addresses serialized).1
    txMessage := s.txMessage ++
      [{ batch := serialized
         handlers := names.zip (broadcast s.network addresses serialized).2 }]
    sealed := s.sealed ++ [⟨s.currentBatch, cause⟩] }

inductive Event where
  /-- A transaction of a client. -/
  | transaction (transaction : Transaction)
  /-- The timer expires. -/
  | timer

/-- The main loop. -/
def handle (s : BatchMaker C) : Event → BatchMaker C
  | .transaction transaction =>
    let s := { s with
      currentBatchSize := s.currentBatchSize + transaction.length
      currentBatch := s.currentBatch ++ [transaction] }
    if cfg.batchSize ≤ s.currentBatchSize then s.sealBatch cfg .transaction else s
  | .timer => if s.currentBatch.isEmpty then s else s.sealBatch cfg .timer

/-- The state after a sequence of events. -/
def run (es : List Event) : BatchMaker C := es.foldl (handle cfg) new

/-! ### Sizes -/

/-- The transaction that the event brings. -/
def Event.received : Event → Option Transaction
  | .transaction tx => some tx
  | .timer => none

/-- The size of a batch, in bytes. -/
def size (batch : Batch) : ℕ := (batch.map List.length).sum

theorem size_concat (batch : Batch) (transaction : Transaction) :
    size (batch ++ [transaction]) = size batch + transaction.length := by
  simp [size]

/-- The batch is full, and was not before its last transaction. -/
def Fills (batchSize : ℕ) (batch : Batch) : Prop :=
  batchSize ≤ size batch ∧ (0 < batchSize → size batch.dropLast < batchSize)

/-! ### The partition -/

/-- The sealed batches and the current one are what was received, and what was sealed was sent. -/
structure Partitions (txs : List Transaction) (s : BatchMaker C) : Prop where
  all : (s.sealed.map Sealed.batch).flatten ++ s.currentBatch = txs
  nonempty : ∀ x ∈ s.sealed, x.batch ≠ []
  size : s.currentBatchSize = size s.currentBatch
  full : ∀ x ∈ s.sealed, x.cause = .transaction → Fills cfg.batchSize x.batch
  delivered : s.txMessage.map QuorumWaiterMessage.batch =
    s.sealed.map fun x => cfg.serialize x.batch
  broadcast : s.network = s.sealed.flatMap fun x =>
    cfg.mempoolAddresses.map fun a => (a.2, cfg.serialize x.batch)

variable {cfg} {txs : List Transaction} {s : BatchMaker C}

/-- **Sealing a batch** that is not empty and, if a transaction is the cause, is full. -/
theorem Partitions.sealBatch (h : Partitions cfg txs s) (hne : s.currentBatch ≠ []) {cause : Cause}
    (hfull : cause = .transaction → Fills cfg.batchSize s.currentBatch) :
    Partitions cfg txs (s.sealBatch cfg cause) := by
  refine ⟨?_, ?_, rfl, ?_, ?_, ?_⟩
  · rw [← h.all]
    simp [BatchMaker.sealBatch]
  · intro x hx
    rcases List.mem_append.mp hx with hx | hx
    · exact h.nonempty x hx
    · rw [List.mem_singleton.mp hx]
      exact hne
  · intro x hx
    rcases List.mem_append.mp hx with hx | hx
    · exact h.full x hx
    · rw [List.mem_singleton.mp hx]
      exact hfull
  · simp [BatchMaker.sealBatch, h.delivered]
  · simp [BatchMaker.sealBatch, BatchMaker.broadcast, h.broadcast]

/-- The current batch is not full. -/
def Open (cfg : Settings C) (s : BatchMaker C) : Prop :=
  0 < cfg.batchSize → BatchMaker.size s.currentBatch < cfg.batchSize

/-- **A step.** -/
theorem partitions_handle (h : Partitions cfg txs s) (ho : Open cfg s) (e : Event) :
    Partitions cfg (txs ++ e.received.toList) (s.handle cfg e) ∧ Open cfg (s.handle cfg e) := by
  cases e with
  | transaction transaction =>
    have hsize := size_concat s.currentBatch transaction
    rw [← h.size] at hsize
    have hadd : Partitions cfg (txs ++ [transaction]) { s with
        currentBatchSize := s.currentBatchSize + transaction.length
        currentBatch := s.currentBatch ++ [transaction] } :=
      ⟨by rw [← h.all, List.append_assoc], h.nonempty, hsize.symm, h.full, h.delivered,
        h.broadcast⟩
    unfold handle
    dsimp only
    split_ifs with hfull
    · refine ⟨hadd.sealBatch (by simp) fun _ => ⟨by rw [hsize]; exact hfull, fun hpos => ?_⟩, id⟩
      rw [List.dropLast_concat]
      exact ho hpos
    · exact ⟨hadd, fun _ => by rw [hsize]; exact not_le.mp hfull⟩
  | timer =>
    simp only [Event.received, Option.toList_none, List.append_nil, handle]
    split_ifs with hempty
    · exact ⟨h, ho⟩
    · refine ⟨h.sealBatch (fun hnil => hempty ?_) (fun hc => ?_), id⟩
      · rw [hnil]
        rfl
      · cases hc

/-- **Run lemma.** -/
theorem partitions_run (cfg : Settings C) (es : List Event) :
    Partitions cfg (es.filterMap Event.received) (run cfg es) ∧ Open cfg (run cfg es) := by
  induction es using List.reverseRecOn with
  | nil => exact ⟨⟨rfl, by simp [run, new], rfl, by simp [run, new], rfl, rfl⟩, id⟩
  | append_singleton es e ih =>
    have hstep := partitions_handle ih.1 ih.2 e
    rw [List.filterMap_append, show run cfg (es ++ [e]) = (run cfg es).handle cfg e from
      List.foldl_append]
    rcases e with transaction | _ <;> exact hstep

/-- **Batch making is a partition.** After any sequence of transactions and expiries of the timer,
for every `batch_size`: the batches sealed, in order, and then the current batch are the
transactions received, in order; no batch sealed is empty; `current_batch_size` is the size of the
current batch; and a batch sealed by a transaction is full, and was not before its last
transaction. The batches sealed are those that went to the quorum waiter and, for each other
mempool, to the network. -/
theorem partition (cfg : Settings C) (es : List Event) :
    ((run cfg es).sealed.map Sealed.batch).flatten ++ (run cfg es).currentBatch =
        es.filterMap Event.received ∧
      (∀ x ∈ (run cfg es).sealed, x.batch ≠ []) ∧
      (run cfg es).currentBatchSize = size (run cfg es).currentBatch ∧
      (∀ x ∈ (run cfg es).sealed, x.cause = .transaction → cfg.batchSize ≤ size x.batch ∧
        (0 < cfg.batchSize → size x.batch.dropLast < cfg.batchSize)) ∧
      (run cfg es).txMessage.map QuorumWaiterMessage.batch =
        (run cfg es).sealed.map (fun x => cfg.serialize x.batch) ∧
      (run cfg es).network = (run cfg es).sealed.flatMap fun x =>
        cfg.mempoolAddresses.map fun a => (a.2, cfg.serialize x.batch) := by
  obtain ⟨h, -⟩ := partitions_run cfg es
  exact ⟨h.all, h.nonempty, h.size, h.full, h.delivered, h.broadcast⟩

end BatchMaker

end Hotstuff.Mempool
