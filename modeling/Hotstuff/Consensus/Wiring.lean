import Hotstuff.Lib.Transition
import Hotstuff.Consensus.Steps
import Hotstuff.Consensus.Tasks

/-! # A node

`Node` wires the core to its tasks as `Consensus::spawn` does, and `Node.step` is one event: the
core takes a message, a block of the loopback channel or an expiry of its timer; a task takes a
step; the mempool stores a batch and passes its digest on. The events come in any order.

A write of the store may fail, that of a block as that of a batch. Neither the core nor the mempool
learns of it, and those who wait for the key are told that it was written.

A handler of the core is one event: meanwhile the other tasks only append to channels and, for the
mempool, add batches to the store, which might as well happen before or after. Channels are
unbounded. A panic of the core ends its task. -/

namespace Hotstuff.Consensus.Wiring

open Hotstuff.Primitives Hotstuff.Consensus.Config Hotstuff.Consensus.Messages
open Hotstuff.Consensus.Handlers Hotstuff.Consensus.Steps Hotstuff.Consensus.Tasks
open Hotstuff.Consensus.Pacing Hotstuff.Lib.Transition

variable {C : Crypto} {T : Type}

structure Node (C : Crypto) (T : Type) where
  core : Core C T
  payloadWaiter : PayloadWaiter C
  synchronizer : Synchronizer C
  proposer : Proposer C
  rxLoopback : List (Block C)
  halted : Option Panic

/-! ### What the core sends to the tasks -/

def toPayloadWaiter : Action C → Option (PayloadWaiterMessage C)
  | .wait missing block => some (.wait missing block)
  | .gc round => some (.cleanup round)
  | _ => none

def toSynchronizer : Action C → Option (Block C)
  | .suspend block => some block
  | _ => none

/-- `cleanup_proposer` sends the digests of three blocks. -/
def toProposer : Action C → Option (ProposerMessage C)
  | .make round qc tc => some (.make round qc tc)
  | .cleanup b0 b1 block => some (.cleanup (b0.payload ++ b1.payload ++ block.payload))
  | _ => none

/-- The key of a block that was to be written and is not in the store. Who waits for a key that is
in the store may go on anyway. -/
def unwritten (st : Store C) : Action C → Option C.Digest
  | .store block => if (st.lookup block.digest).isNone then some block.digest else none
  | _ => none

/-- Those who wait for the keys `written` are answered. -/
def Node.answer (n : Node C T) (written : List C.Digest) : Node C T :=
  { n with
    payloadWaiter := n.payloadWaiter.answer written
    synchronizer := n.synchronizer.answer written }

/-- The messages of the core, which has added `new` to its trace. -/
def Node.send (n : Node C T) (new : List (Action C)) : Node C T :=
  { n with
    payloadWaiter := { n.payloadWaiter with
      rxMessage := n.payloadWaiter.rxMessage ++ new.filterMap toPayloadWaiter }
    synchronizer := { n.synchronizer with
      rxInner := n.synchronizer.rxInner ++ new.filterMap toSynchronizer }
    proposer := { n.proposer with
      rxMessage := n.proposer.rxMessage ++ new.filterMap toProposer } }

/-- The state after the core has added `new` to its trace. -/
def Node.route (n : Node C T) (new : List (Action C)) : Node C T :=
  (n.answer (new.filterMap (unwritten n.core.store))).send new

/-- The core's task ends with a panic. -/
def Node.halt (n : Node C T) : Except (Stop C) Unit → Node C T
  | .error (.panic p) => { n with halted := some p }
  | _ => n

/-- The state after a call of a handler. -/
def Node.call (n : Node C T) (r : Call C T Unit) : Node C T :=
  ({ n with core := r.1 }.route (r.1.trace.drop n.core.trace.length)).halt r.2

/-! ### Events -/

variable [RoundTimer T] (env : Env C)

/-- The state when the main loop of the core starts. -/
def Node.boot (io : Io C) (timer : T) : Node C T :=
  let core := Core.boot env io timer
  Node.route ⟨core, .new, .new, .new, [], none⟩ core.trace

section Boot

variable (io : Io C) (timer : T)

@[simp] theorem boot_halted : (Node.boot env io timer).halted = none := rfl

@[simp] theorem boot_rxLoopback : (Node.boot env io timer).rxLoopback = [] := rfl

@[simp] theorem boot_futures : (Node.boot env io timer).payloadWaiter.waiting = [] := rfl

@[simp] theorem boot_waiting : (Node.boot env io timer).synchronizer.waiting = [] := rfl

@[simp] theorem boot_network : (Node.boot env io timer).synchronizer.network = [] := rfl

@[simp] theorem boot_rxMempool : (Node.boot env io timer).proposer.rxMempool = [] := rfl

@[simp] theorem boot_buffer : (Node.boot env io timer).proposer.buffer = [] := rfl

@[simp] theorem boot_created : (Node.boot env io timer).proposer.trace = [] := rfl

end Boot

inductive Event (C : Crypto) where
  /-- A message of the network. -/
  | message (m : ConsensusMessage C) (io : Io C)
  | loopback (io : Io C)
  | timeout (io : Io C)
  /-- The payload waiter takes a message; a future of it completes, is cancelled or fails. -/
  | payloadMessage
  | payloadReady (i : ℕ)
  | payloadCancelled (i : ℕ)
  | payloadFailed (i : ℕ)
  /-- The synchronizer takes a block; a future of it completes or fails; its timer expires. -/
  | syncBlock (now : Instant)
  | syncReady (i : ℕ)
  | syncFailed (i : ℕ)
  | syncTimer (syncRetryDelay : ℕ) (now : Instant)
  /-- The proposer takes a digest, a message or an acknowledgement. -/
  | digest
  | proposerMessage (payload : List C.Digest)
  | ack (i : ℕ)
  /-- The mempool stores a batch; or it means to, but the write fails. -/
  | batch (x : C.Batch)
  | batchLost (x : C.Batch)

/-- The writes of blocks that fail during the event. -/
def Event.writeFails : Event C → C.Digest → Bool
  | .message _ io | .loopback io | .timeout io => io.writeFails
  | _ => fun _ => false

/-- No write fails. -/
def Event.Writes : Event C → Prop
  | .message _ io | .loopback io | .timeout io => ∀ d, io.writeFails d = false
  | .batchLost _ => False
  | _ => True

/-- The events of the core. -/
def Node.coreStep (n : Node C T) : Event C → Option (Node C T)
  | .message m io => some (n.call (handleMessage env io n.core m))
  | .loopback io =>
    match n.rxLoopback with
    | [] => none
    | block :: blocks =>
      some ({ n with rxLoopback := blocks }.call (processBlock env io n.core block))
  | .timeout io => some (n.call (localTimeoutRound env io n.core))
  | _ => none

def Node.loop (n : Node C T) (block : Block C) : Node C T :=
  { n with rxLoopback := n.rxLoopback ++ [block] }

def Node.proposed (n : Node C T) (p : Proposer C) : Option (Block C) → Node C T
  | none => { n with proposer := p }
  | some block => { n with proposer := p }.loop block

/-- The events of the other tasks. -/
def Node.taskStep (n : Node C T) : Event C → Option (Node C T)
  | .payloadMessage => n.payloadWaiter.receive.map fun w => { n with payloadWaiter := w }
  | .payloadReady i =>
    (n.payloadWaiter.ready n.core.store i).map fun r => { n with payloadWaiter := r.1 }.loop r.2
  | .payloadCancelled i =>
    (n.payloadWaiter.cancelled i).map fun w => { n with payloadWaiter := w }
  | .payloadFailed i => (n.payloadWaiter.failed i).map fun w => { n with payloadWaiter := w }
  | .syncBlock now => (n.synchronizer.receive now).map fun w => { n with synchronizer := w }
  | .syncReady i =>
    (n.synchronizer.ready n.core.store i).map fun r => { n with synchronizer := r.1 }.loop r.2
  | .syncFailed i => (n.synchronizer.failed i).map fun w => { n with synchronizer := w }
  | .syncTimer delay now => some { n with synchronizer := n.synchronizer.retry delay now }
  | .digest => n.proposer.receiveDigest.map fun p => { n with proposer := p }
  | .proposerMessage payload =>
    (n.proposer.receiveMessage env payload).map fun r => n.proposed r.1 r.2
  | .ack i => (n.proposer.acknowledge env.committee i).map fun p => { n with proposer := p }
  | .batch x =>
    some { n with
      core := { n.core with store := (C.batchDigest x, .batch x) :: n.core.store }
      proposer := { n.proposer with rxMempool := n.proposer.rxMempool ++ [C.batchDigest x] } }
  | .batchLost x =>
    some ({ n with
      proposer := { n.proposer with
        rxMempool := n.proposer.rxMempool ++ [C.batchDigest x] } }.answer [C.batchDigest x])
  | _ => none

/-- An event of the core. -/
def Event.isCore : Event C → Bool
  | .message _ _ | .loopback _ | .timeout _ => true
  | _ => false

/-- **One event of a node.** After a panic the core takes no more events. -/
def Node.step (n : Node C T) (e : Event C) : Option (Node C T) :=
  if e.isCore then if n.halted = none then n.coreStep env e else none else n.taskStep env e

/-- `NodeRun env n₀ es n`: the events `es` lead from `n₀` to `n`. -/
abbrev NodeRun (n₀ : Node C T) : List (Event C) → Node C T → Prop :=
  Run (fun n e n' => n.step env e = some n') n₀

end Hotstuff.Consensus.Wiring
