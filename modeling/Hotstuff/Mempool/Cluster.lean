import Hotstuff.Lib.Channels
import Hotstuff.Consensus.Messages
import Hotstuff.Mempool.QuorumWaiter
import Hotstuff.Network.Acknowledging

/-! # The mempools of a committee

The tasks of `mempool/src/mempool.rs` put together, for all authorities. At each node there are a
`BatchMaker` with a `QuorumWaiter`, the handler of the network receiver, two `Processor`s that write
to the store, and a `Helper` that reads it. From each node there is a `Link` to each address that
its batch maker sends to; the batches of the batch maker go there, and its cancel handlers stand for
the messages of these links.

The store is not the mempool's alone: the consensus core of the node writes its blocks to it, here
at any time and whatever they are. All writes to the store are taken to succeed.

The Byzantine authorities have no tasks here. They acknowledge what they want on the links to them,
and anything may be received by a node from other senders. -/

namespace Hotstuff.Mempool

open Hotstuff.Primitives Hotstuff.Consensus.Config Hotstuff.Lib.Channels Hotstuff.Lib.Transition
open Hotstuff.Network.ReliableSender hiding Event
open Hotstuff.Network.Receiving Hotstuff.Network.Acknowledging

variable {C : Crypto}

/-- The message exchanged between the mempools. -/
inductive MempoolMessage (C : Crypto) where
  | batch (batch : Batch)
  | batchRequest (missing : List C.Digest) (origin : C.PublicKey)

namespace Cluster

/-- A value in a channel of the `MempoolReceiverHandler`. -/
inductive Delivery (C : Crypto) where
  | txProcessor (batch : SerializedBatchMessage)
  | txHelper (missing : List C.Digest) (requestor : C.PublicKey)

/-- What is fixed for the mempools of a committee, each of which listens at its address. -/
structure Setup (C : Crypto) where
  committee : Committee C
  /-- `Committee::mempool_address`, for the authorities. -/
  mempoolAddress : C.PublicKey → SocketAddr
  /-- Who listens at an address. -/
  listener : SocketAddr → C.PublicKey
  listens : ∀ k ∈ committee.keys, listener (mempoolAddress k) = k
  byzantine : Finset C.PublicKey
  batchSize : ℕ
  /-- `bincode::serialize` of a `MempoolMessage::Batch`. -/
  serialize : Batch → SerializedBatchMessage
  /-- `bincode::deserialize`, which reads back what has been serialized. -/
  deserialize : List UInt8 → Option (MempoolMessage C)
  deserialize_serialize : ∀ batch, deserialize (serialize batch) = some (.batch batch)
  /-- The first 32 bytes of SHA-512. -/
  digest : SerializedBatchMessage → C.Digest
  /-- `bincode::serialize` of a block. -/
  serializeBlock : Consensus.Messages.Block C → List UInt8
  /-- The digest of a block is not taken of a message with a batch, and there are no collisions. -/
  digest_ne : ∀ (block : Consensus.Messages.Block C) {data batch},
    deserialize data = some (.batch batch) → block.digest ≠ digest data

variable (cfg : Setup C)

namespace Setup

def Honest (k : C.PublicKey) : Prop := k ∈ cfg.committee.keys ∧ k ∉ cfg.byzantine

instance (k : C.PublicKey) : Decidable (cfg.Honest k) := by unfold Honest; infer_instance

/-- `Committee::broadcast_addresses`. -/
def broadcastAddresses (myself : C.PublicKey) : List (C.PublicKey × SocketAddr) :=
  (cfg.committee.keys.filter (· ≠ myself)).map fun name => (name, cfg.mempoolAddress name)

/-- What is fixed for the batch maker of a node. -/
def settings (k : C.PublicKey) : BatchMaker.Settings C :=
  ⟨cfg.batchSize, cfg.broadcastAddresses k, cfg.serialize⟩

/-- `MempoolReceiverHandler`: the reply comes before the message is looked at, and an error of the
deserialization is only logged. -/
def receiverHandler : Handler (List UInt8) String (Delivery C) where
  dispatch serialized := .reply "Ack" ::
    match cfg.deserialize serialized with
    | some (.batch _) => [.deliver (.txProcessor serialized)]
    | some (.batchRequest missing requestor) => [.deliver (.txHelper missing requestor)]
    | none => []
  ok _ := true

end Setup

/-- A link between mempools. -/
abbrev MempoolLink (C : Crypto) := Link (List UInt8) String (Delivery C)

/-- The mempool of a node. -/
structure Node (C : Crypto) where
  batchMaker : BatchMaker C
  quorumWaiter : QuorumWaiter C
  /-- The channel from the quorum waiter to its processor. -/
  ownBatches : List SerializedBatchMessage
  /-- The channel from the network to its processor. -/
  peerBatches : List SerializedBatchMessage
  rxHelper : List (List C.Digest × C.PublicKey)
  store : List (C.Digest × SerializedBatchMessage)
  /-- The digests given to the consensus. -/
  txConsensus : List C.Digest
  /-- The batches that the helper has sent. -/
  helped : List (C.PublicKey × SerializedBatchMessage)

namespace Node

def new : Node C := ⟨.new, .new, [], [], [], [], [], []⟩

/-- A value is put into a channel by the `MempoolReceiverHandler`. -/
def deliver (n : Node C) : Delivery C → Node C
  | .txProcessor batch => { n with peerBatches := n.peerBatches ++ [batch] }
  | .txHelper missing requestor => { n with rxHelper := n.rxHelper ++ [(missing, requestor)] }

/-- A step of the batch maker; its messages go to the quorum waiter. -/
def make (n : Node C) (k : C.PublicKey) (e : BatchMaker.Event) : Node C :=
  let batchMaker := n.batchMaker.handle (cfg.settings k) e
  { n with
    batchMaker := batchMaker
    quorumWaiter := { n.quorumWaiter with
      rxMessage := n.quorumWaiter.rxMessage ++
        batchMaker.txMessage.drop n.batchMaker.txMessage.length } }

/-- The loop of a `Processor`, for the processor of own batches or for the other one. -/
def process (n : Node C) (batch : SerializedBatchMessage) : Node C :=
  { n with
    store := (cfg.digest batch, batch) :: n.store
    txConsensus := n.txConsensus ++ [cfg.digest batch] }

/-- `Core::store_block`, in the same store. -/
def storeBlock (n : Node C) (block : Consensus.Messages.Block C) : Node C :=
  { n with store := (block.digest, cfg.serializeBlock block) :: n.store }

/-- The loop of the `Helper`. -/
def help (n : Node C) (digests : List C.Digest) (origin : C.PublicKey) : Node C :=
  if origin ∈ cfg.committee.keys then
    { n with
      helped := n.helped ++
        digests.filterMap fun digest => (n.store.lookup digest).map fun data => (origin, data) }
  else n

end Node

end Cluster

open Cluster

structure Cluster (C : Crypto) where
  nodes : C.PublicKey → Node C
  links : C.PublicKey → SocketAddr → MempoolLink C

namespace Cluster

inductive Event (C : Crypto) where
  | batchMaker (event : BatchMaker.Event)
  | quorumWaiter (event : QuorumWaiter.Event C)
  /-- The receiving end of a cancel handler is dropped; the quorum waiter does not hold it. -/
  | drop (handler : CancelHandler)
  /-- An event of the link to an address. -/
  | link (address : SocketAddr) (event : Network.Receiving.Event (List UInt8) String)
  /-- An event of the connection to an address of a Byzantine authority. -/
  | byzantine (address : SocketAddr) (event : Network.ReliableSender.Event (List UInt8) String)
  /-- A message of another sender is received. -/
  | message (serialized : List UInt8)
  | ownProcessor
  | peerProcessor
  | helper
  /-- The consensus core of the node stores a block. -/
  | core (block : Consensus.Messages.Block C)

/-- The handlers that the quorum waiter holds. -/
def heldHandlers (s : QuorumWaiter C) : List CancelHandler :=
  (s.rxMessage.flatMap QuorumWaiterMessage.handlers ++
    s.waiting.toList.flatMap QuorumWaiter.Waiting.waitForQuorum ++
    s.pending.flatMap QuorumWaiter.Dissemination.waitForQuorum).map Prod.snd

/-- What becomes of the handler, if it is one: it is acknowledged, or its sending end is dropped. -/
def Resolved (network : BatchMaker.ReliableSender) (links : SocketAddr → MempoolLink C)
    (handler : CancelHandler) (acked : Bool) : Prop :=
  match network[handler]? with
  | none => False
  | some (address, _) =>
    if acked then number network address handler ∈ (links address).connection.acked
    else number network address handler ∈ (links address).connection.dropped

instance (network : BatchMaker.ReliableSender) (links : SocketAddr → MempoolLink C)
    (handler : CancelHandler) (acked : Bool) :
    Decidable (Resolved network links handler acked) := by
  unfold Resolved; split <;> infer_instance

/-- The handler of an event of the quorum waiter. -/
def resolvedHandler (s : QuorumWaiter C) : QuorumWaiter.Event C → Option (CancelHandler × Bool)
  | .resolve i acked _ =>
    s.waiting.bind fun w => w.waitForQuorum[i]?.map fun x => (x.2, acked)
  | _ => none

/-- A message is put into the channel of a connection. -/
def submit (s : MempoolLink C) (data : List UInt8) : MempoolLink C :=
  { s with connection := { s.connection with
    receiver := s.connection.receiver ++ [⟨data, s.connection.submitted⟩]
    submitted := s.connection.submitted + 1 } }

/-- What the batch maker sends is submitted at its links. -/
def submitAll (links : SocketAddr → MempoolLink C) (sent : BatchMaker.ReliableSender) :
    SocketAddr → MempoolLink C :=
  fun address => (sentTo sent address).foldl submit (links address)

def cancel (s : MempoolLink C) (n : ℕ) : MempoolLink C :=
  { s with connection := { s.connection with closed := n :: s.connection.closed } }

def new : Cluster C := ⟨fun _ => .new, fun _ _ => .new⟩

/-- The mempool of `k` becomes `n`. -/
def setNode (S : Cluster C) (k : C.PublicKey) (n : Node C) : Cluster C :=
  { S with nodes := Function.update S.nodes k n }

/-- The links of `k` become `links`. -/
def setLinks (S : Cluster C) (k : C.PublicKey) (links : SocketAddr → MempoolLink C) : Cluster C :=
  { S with links := Function.update S.links k links }

/-- The link of `k` to an address becomes `l`. -/
def setLink (S : Cluster C) (k : C.PublicKey) (address : SocketAddr) (l : MempoolLink C) :
    Cluster C :=
  S.setLinks k (Function.update (S.links k) address l)

variable (cfg : Setup C)

/-- One event at the mempool of an honest node. -/
def step (S : Cluster C) (x : C.PublicKey × Event C) : Option (Cluster C) :=
  let k := x.1
  let n := S.nodes k
  if cfg.Honest k then
    match x.2 with
    | .batchMaker e =>
      let n' := n.make cfg k e
      some ((S.setNode k n').setLinks k
        (submitAll (S.links k) (n'.batchMaker.network.drop n.batchMaker.network.length)))
    | .quorumWaiter e =>
      match e.message, resolvedHandler n.quorumWaiter e with
      | some _, _ => none
      | none, r =>
        if ∀ x ∈ r, Resolved n.batchMaker.network (S.links k) x.1 x.2 then
          (n.quorumWaiter.step cfg.committee k e).map fun quorumWaiter =>
            S.setNode k { n with
              quorumWaiter := quorumWaiter
              ownBatches := n.ownBatches ++
                quorumWaiter.txBatch.drop n.quorumWaiter.txBatch.length }
        else none
    | .drop handler =>
      if handler ∈ heldHandlers n.quorumWaiter then none
      else
        n.batchMaker.network[handler]?.map fun (address, _) =>
          S.setLink k address
            (cancel (S.links k address) (number n.batchMaker.network address handler))
    | .link address e =>
      if Internal e ∧ cfg.Honest (cfg.listener address) then
        ((S.links k address).step cfg.receiverHandler e).map fun l =>
          (S.setLink k address l).setNode (cfg.listener address)
            ((l.delivered.drop (S.links k address).delivered.length).foldl Node.deliver
              (S.nodes (cfg.listener address)))
      else none
    | .byzantine address e =>
      if Internal (.sender e) ∧ ¬ cfg.Honest (cfg.listener address) then
        ((S.links k address).connection.step e).map fun c =>
          S.setLink k address { S.links k address with connection := c }
      else none
    | .message serialized =>
      some (S.setNode k ((deliversIn (cfg.receiverHandler.dispatch serialized)).foldl
        Node.deliver n))
    | .ownProcessor =>
      match n.ownBatches with
      | [] => none
      | batch :: batches =>
        some (S.setNode k ({ n with ownBatches := batches }.process cfg batch))
    | .peerProcessor =>
      match n.peerBatches with
      | [] => none
      | batch :: batches =>
        some (S.setNode k ({ n with peerBatches := batches }.process cfg batch))
    | .helper =>
      match n.rxHelper with
      | [] => none
      | (digests, origin) :: requests =>
        some (S.setNode k ({ n with rxHelper := requests }.help cfg digests origin))
    | .core block => some (S.setNode k (n.storeBlock cfg block))
  else none

/-- The event leads from `S` to `S'`. -/
abbrev Next (S : Cluster C) (x : C.PublicKey × Event C) (S' : Cluster C) : Prop :=
  step cfg S x = some S'

/-- The events `es` lead from the start to `S`. -/
abbrev ClusterRun : List (C.PublicKey × Event C) → Cluster C → Prop := Run (Next cfg) new

/-! ### Changes -/

/-- What one event at the mempool of `k` does. -/
inductive Change (S : Cluster C) (k : C.PublicKey) : Event C → Cluster C → Prop
  | made (e : BatchMaker.Event) :
      Change S k (.batchMaker e) ((S.setNode k ((S.nodes k).make cfg k e)).setLinks k
        (submitAll (S.links k) (((S.nodes k).batchMaker.handle (cfg.settings k) e).network.drop
          (S.nodes k).batchMaker.network.length)))
  | waited {e : QuorumWaiter.Event C} {q : QuorumWaiter C} (he : e.message = none)
      (hr : ∀ x ∈ resolvedHandler (S.nodes k).quorumWaiter e,
        Resolved (S.nodes k).batchMaker.network (S.links k) x.1 x.2)
      (hq : (S.nodes k).quorumWaiter.step cfg.committee k e = some q) :
      Change S k (.quorumWaiter e) (S.setNode k { S.nodes k with
        quorumWaiter := q
        ownBatches := (S.nodes k).ownBatches ++
          q.txBatch.drop (S.nodes k).quorumWaiter.txBatch.length })
  | dropped {handler : CancelHandler} {address : SocketAddr} {data : SerializedBatchMessage}
      (hh : handler ∉ heldHandlers (S.nodes k).quorumWaiter)
      (hn : (S.nodes k).batchMaker.network[handler]? = some (address, data)) :
      Change S k (.drop handler) (S.setLink k address (cancel (S.links k address)
        (number (S.nodes k).batchMaker.network address handler)))
  | linked {address : SocketAddr} {e : Network.Receiving.Event (List UInt8) String}
      {l : MempoolLink C} (he : Internal e) (ha : cfg.Honest (cfg.listener address))
      (hl : (S.links k address).step cfg.receiverHandler e = some l) :
      Change S k (.link address e) ((S.setLink k address l).setNode (cfg.listener address)
        ((l.delivered.drop (S.links k address).delivered.length).foldl Node.deliver
          (S.nodes (cfg.listener address))))
  | acted {address : SocketAddr} {e : Network.ReliableSender.Event (List UInt8) String}
      {c : Network.ReliableSender.Connection (List UInt8) String} (he : Internal (.sender e))
      (ha : ¬ cfg.Honest (cfg.listener address))
      (hc : (S.links k address).connection.step e = some c) :
      Change S k (.byzantine address e)
        (S.setLink k address { S.links k address with connection := c })
  | messaged (serialized : List UInt8) :
      Change S k (.message serialized) (S.setNode k
        ((deliversIn (cfg.receiverHandler.dispatch serialized)).foldl Node.deliver (S.nodes k)))
  | own {batch : SerializedBatchMessage} {batches : List SerializedBatchMessage}
      (h : (S.nodes k).ownBatches = batch :: batches) :
      Change S k .ownProcessor
        (S.setNode k ({ S.nodes k with ownBatches := batches }.process cfg batch))
  | peer {batch : SerializedBatchMessage} {batches : List SerializedBatchMessage}
      (h : (S.nodes k).peerBatches = batch :: batches) :
      Change S k .peerProcessor
        (S.setNode k ({ S.nodes k with peerBatches := batches }.process cfg batch))
  | helped {digests : List C.Digest} {origin : C.PublicKey}
      {requests : List (List C.Digest × C.PublicKey)}
      (h : (S.nodes k).rxHelper = (digests, origin) :: requests) :
      Change S k .helper
        (S.setNode k ({ S.nodes k with rxHelper := requests }.help cfg digests origin))
  | stored (block : Consensus.Messages.Block C) :
      Change S k (.core block) (S.setNode k ((S.nodes k).storeBlock cfg block))

variable {cfg} {S S' : Cluster C} {j k : C.PublicKey}

theorem setNode_self (S : Cluster C) (k : C.PublicKey) (n : Node C) : (S.setNode k n).nodes k = n :=
  Function.update_self ..

theorem setNode_of_ne (S : Cluster C) (h : j ≠ k) (n : Node C) :
    (S.setNode k n).nodes j = S.nodes j := Function.update_of_ne h ..

theorem setLinks_self (S : Cluster C) (k : C.PublicKey) (links : SocketAddr → MempoolLink C) :
    (S.setLinks k links).links k = links := Function.update_self ..

theorem setLinks_of_ne (S : Cluster C) (h : j ≠ k) (links : SocketAddr → MempoolLink C) :
    (S.setLinks k links).links j = S.links j := Function.update_of_ne h ..

@[simp] theorem setNode_links (S : Cluster C) (k : C.PublicKey) (n : Node C) :
    (S.setNode k n).links = S.links := rfl

@[simp] theorem setLinks_nodes (S : Cluster C) (k : C.PublicKey)
    (links : SocketAddr → MempoolLink C) : (S.setLinks k links).nodes = S.nodes := rfl

@[simp] theorem setLink_nodes (S : Cluster C) (k : C.PublicKey) (address : SocketAddr)
    (l : MempoolLink C) : (S.setLink k address l).nodes = S.nodes := rfl

/-- What of a node does not change. -/
theorem view_setNode {β : Type} (f : Node C → β) {n : Node C} (h : f n = f (S.nodes k))
    (j : C.PublicKey) : f ((S.setNode k n).nodes j) = f (S.nodes j) := by
  by_cases hj : j = k
  · rw [hj, setNode_self, h]
  · rw [setNode_of_ne S hj]

/-- **An event is at the mempool of an honest node, and is one of the changes.** -/
theorem step_change {x : C.PublicKey × Event C} (h : step cfg S x = some S') :
    cfg.Honest x.1 ∧ Change cfg S x.1 x.2 S' := by
  obtain ⟨k, e⟩ := x
  unfold step at h
  dsimp only at h
  split_ifs at h with hk
  refine ⟨hk, ?_⟩
  cases e with
  | batchMaker e =>
    cases h
    exact .made e
  | quorumWaiter e =>
    dsimp only at h
    rcases he : e.message with _ | message <;> simp only [he, reduceCtorEq] at h
    split_ifs at h with hr
    obtain ⟨q, hq, rfl⟩ := Option.map_eq_some_iff.mp h
    exact .waited he hr hq
  | drop handler =>
    dsimp only at h
    split_ifs at h with hh
    obtain ⟨⟨address, data⟩, hn, rfl⟩ := Option.map_eq_some_iff.mp h
    exact .dropped hh hn
  | link address e =>
    dsimp only at h
    split_ifs at h with he
    obtain ⟨l, hl, rfl⟩ := Option.map_eq_some_iff.mp h
    exact .linked he.1 he.2 hl
  | byzantine address e =>
    dsimp only at h
    split_ifs at h with he
    obtain ⟨c, hc, rfl⟩ := Option.map_eq_some_iff.mp h
    exact .acted he.1 he.2 hc
  | message serialized =>
    cases h
    exact .messaged serialized
  | ownProcessor =>
    dsimp only at h
    rcases ho : (S.nodes k).ownBatches with _ | ⟨batch, batches⟩ <;>
      simp only [ho, reduceCtorEq] at h
    cases h
    exact .own ho
  | peerProcessor =>
    dsimp only at h
    rcases hp : (S.nodes k).peerBatches with _ | ⟨batch, batches⟩ <;>
      simp only [hp, reduceCtorEq] at h
    cases h
    exact .peer hp
  | helper =>
    dsimp only at h
    rcases hx : (S.nodes k).rxHelper with _ | ⟨⟨digests, origin⟩, requests⟩ <;>
      simp only [hx, reduceCtorEq] at h
    cases h
    exact .helped hx
  | core block =>
    cases h
    exact .stored block

end Cluster

end Hotstuff.Mempool
