import Hotstuff.Consensus.Aggregation
import Hotstuff.Consensus.Pacing

/-! # The core: handlers of the consensus state machine

`Core` is the state of the task of `core.rs`, together with the store it shares with the other tasks
of the node and with `trace`, the history of what it did: messages sent to the other tasks and to
the network, blocks stored and committed, votes and timeouts signed. The order of the trace is the
order of execution. Each handler of `core.rs`, and of the mempool driver and the synchronizer which
the core calls, is a function from the state before to the state after with the result of the call:
a value, an error that the main loop logs (what was done before it stays done), or a panic.

What differs from call to call and comes from outside is in `Io`: the clock, and which accesses of
the database fail. An error of a read is passed on to the caller; that of a write is dropped by the
store, and the block is lost. What is fixed for a node is in `Env`: its name, the committee, and
what the bytes of a batch happen to deserialize to when read as a block.

No time passes within a handler, but for the broadcast of a timeout: it sleeps before each address,
so that the node handles its own message at a later time (`Io.later`). The other sleeps of the
network come after the last call of the timer. -/

namespace Hotstuff.Consensus.Handlers

open Hotstuff.Primitives Hotstuff.Consensus.Config Hotstuff.Consensus.Messages
open Hotstuff.Consensus.Aggregation Hotstuff.Consensus.Pacing

variable {C : Crypto} {T : Type}

/-! ### The store -/

/-- What the store holds: serialized blocks of the consensus, and batches of the mempool. -/
inductive Value (C : Crypto) where
  | block (b : Block C)
  | batch (x : C.Batch)

/-- The database, as the list of its writes, the last one first. -/
abbrev Store (C : Crypto) := List (C.Digest × Value C)

/-- A key is bound in the store. -/
def Store.Has (s : Store C) (k : C.Digest) : Prop := ∃ v, (k, v) ∈ s

structure Env (C : Crypto) where
  name : C.PublicKey
  committee : Committee C
  /-- What `bincode::deserialize` makes of a batch where a block is expected. -/
  batchAsBlock : C.Batch → Option (Block C)

structure Io (C : Crypto) where
  now : Instant
  /-- The time after the broadcast of a timeout. -/
  later : Instant
  readFails : C.Digest → Bool
  writeFails : C.Digest → Bool

/-- A read of the store. -/
def Store.read (s : Store C) (io : Io C) (k : C.Digest) :
    Except (ConsensusError C) (Option (Value C)) :=
  if io.readFails k then .error .storeError else .ok (s.lookup k)

/-- `bincode::deserialize` of a value of the store, as a block. -/
def Env.deserialize (env : Env C) : Value C → Option (Block C)
  | .block b => some b
  | .batch x => env.batchAsBlock x

/-! ### The state -/

/-- The reasons for a panic. `endless` stands for a loop that does not terminate. -/
inductive Panic where
  /-- "We should have all ancestors of delivered blocks" -/
  | missingAncestor
  /-- "We should have all the ancestors by now" -/
  | missingCommitAncestor
  /-- "Empty TC" -/
  | emptyTc
  | emptyCommittee
  | endless
deriving DecidableEq

/-- Why a call did not return normally. -/
inductive Stop (C : Crypto) where
  | err (e : ConsensusError C)
  | panic (p : Panic)

/-- An entry of the trace. -/
inductive Action (C : Crypto) where
  /-- A proposal passed the checks. -/
  | accept (block : Block C)
  /-- `process_qc` is called while the node is in `round`. -/
  | processQc (qc : QC C) (round : Round)
  /-- "Moved to round" -/
  | moved (round : Round)
  /-- The mempool is asked for batches. -/
  | synchronize (missing : List C.Digest) (target : C.PublicKey)
  /-- The block is handed to the payload waiter. -/
  | wait (missing : List C.Digest) (block : Block C)
  /-- The block is handed to the synchronizer. -/
  | suspend (block : Block C)
  | store (block : Block C)
  /-- The proposer is told to drop the payloads of a block and of its two ancestors. -/
  | cleanup (b0 b1 block : Block C)
  /-- The mempool and the payload waiter are told to clean up. -/
  | gc (round : Round)
  /-- `commit` is called while `last_committed_round` is `last`. -/
  | commit (last : Round) (block : Block C)
  /-- The block is sent to the application. -/
  | deliver (block : Block C)
  /-- A vote for the block is signed. -/
  | vote (block : Block C)
  | sendVote (vote : Vote C) (dest : C.PublicKey)
  /-- A timeout is signed and broadcast. -/
  | timeout (timeout : Timeout C)
  /-- An assembled timeout certificate is broadcast. -/
  | tc (tc : TC C)
  /-- The proposer is told to make a block. -/
  | make (round : Round) (qc : QC C) (tc : Option (TC C))

structure Core (C : Crypto) (T : Type) where
  round : Round
  lastVotedRound : Round
  lastCommittedRound : Round
  highQc : QC C
  timer : T
  aggregator : Aggregator C
  store : Store C
  trace : List (Action C)

/-- The state after a call, with what the call returns. -/
abbrev Call (C : Crypto) (T α : Type) := Core C T × Except (Stop C) α

def Core.emit (s : Core C T) (a : Action C) : Core C T := { s with trace := s.trace ++ [a] }

variable [RoundTimer T] (env : Env C) (io : Io C)

/-! ### Rounds and certificates -/

/-- The node is the leader of its round. -/
def Core.IsLeader (s : Core C T) : Prop := getLeader env.committee s.round = some env.name

instance (s : Core C T) : Decidable (s.IsLeader env) := by unfold Core.IsLeader; infer_instance

/-- `store_block`: the core does not learn whether the write succeeds. -/
def storeBlock (s : Core C T) (block : Block C) : Core C T :=
  Core.emit
    { s with
      store :=
        if io.writeFails block.digest then s.store else (block.digest, .block block) :: s.store }
    (.store block)

def increaseLastVotedRound (s : Core C T) (target : Round) : Core C T :=
  { s with lastVotedRound := max s.lastVotedRound target }

def updateHighQc (s : Core C T) (qc : QC C) : Core C T :=
  if s.highQc.round < qc.round then { s with highQc := qc } else s

def advanceRound (s : Core C T) (round : Round) : Core C T :=
  if round < s.round then s
  else
    Core.emit
      { s with
        timer := RoundTimer.startRound io.now (RoundTimer.reset io.now s.timer)
        round := round + 1
        aggregator := s.aggregator.cleanup (round + 1) }
      (.moved (round + 1))

def processQc (s : Core C T) (qc : QC C) : Core C T :=
  let s := Core.emit { s with timer := RoundTimer.onRoundComplete io.now s.timer }
    (.processQc qc s.round)
  updateHighQc (advanceRound io s qc.round) qc

def generateProposal (s : Core C T) (tc : Option (TC C)) : Core C T :=
  s.emit (.make s.round s.highQc tc)

/-! ### Votes and timeouts -/

/-- The second rule of `make_vote`. -/
def safetyRule2 (block : Block C) : Except (Stop C) Bool :=
  let oneAbove := decide (block.qc.round + 1 = block.round)
  match block.tc with
  | none => .ok oneAbove
  | some tc =>
    match tc.highQcRounds.max? with
    | none => .error (.panic .emptyTc)
    | some highest =>
      .ok (oneAbove || (decide (tc.round + 1 = block.round) && decide (highest ≤ block.qc.round)))

def makeVote (s : Core C T) (block : Block C) : Call C T (Option (Vote C)) :=
  match safetyRule2 block with
  | .error e => (s, .error e)
  | .ok rule2 =>
    if s.lastVotedRound < block.round ∧ rule2 = true then
      ((increaseLastVotedRound s block.round).emit (.vote block),
        .ok (some (Vote.new block env.name)))
    else (s, .ok none)

def handleVote (s : Core C T) (vote : Vote C) : Call C T Unit :=
  if vote.round < s.round then (s, .ok ())
  else
    match vote.verify env.committee with
    | .error e => (s, .error (.err e))
    | .ok () =>
      match s.aggregator.addVote env.committee vote with
      | (aggregator, .error e) => ({ s with aggregator := aggregator }, .error (.err e))
      | (aggregator, .ok none) => ({ s with aggregator := aggregator }, .ok ())
      | (aggregator, .ok (some qc)) =>
        let s := processQc io { s with aggregator := aggregator } qc
        (if s.IsLeader env then generateProposal s none else s, .ok ())

def handleTimeout (s : Core C T) (timeout : Timeout C) : Call C T Unit :=
  if timeout.round < s.round then (s, .ok ())
  else
    match timeout.verify env.committee with
    | .error e => (s, .error (.err e))
    | .ok () =>
      let s := processQc io s timeout.highQc
      match s.aggregator.addTimeout env.committee timeout with
      | (aggregator, .error e) => ({ s with aggregator := aggregator }, .error (.err e))
      | (aggregator, .ok none) => ({ s with aggregator := aggregator }, .ok ())
      | (aggregator, .ok (some tc)) =>
        let s := (advanceRound io { s with aggregator := aggregator } tc.round).emit (.tc tc)
        (if s.IsLeader env then generateProposal s (some tc) else s, .ok ())

def handleTc (s : Core C T) (tc : TC C) : Call C T Unit :=
  match tc.verify env.committee with
  | .error e => (s, .error (.err e))
  | .ok () =>
    if tc.round < s.round then (s, .ok ())
    else
      let s := advanceRound io s tc.round
      (if s.IsLeader env then generateProposal s (some tc) else s, .ok ())

def localTimeoutRound (s : Core C T) : Call C T Unit :=
  let s := increaseLastVotedRound s s.round
  let timeout := Timeout.new s.highQc s.round env.name
  let s := { s with timer := RoundTimer.startRound io.now (RoundTimer.reset io.now s.timer) }
  handleTimeout env { io with now := io.later } (s.emit (.timeout timeout)) timeout

/-! ### Ancestors and commits -/

/-- `Synchronizer::get_parent_block`. -/
def getParentBlock (s : Core C T) (block : Block C) : Call C T (Option (Block C)) :=
  if block.qc.IsGenesis then (s, .ok (some Block.genesis))
  else
    match s.store.read io block.parent with
    | .error e => (s, .error (.err e))
    | .ok none => (s.emit (.suspend block), .ok none)
    | .ok (some value) =>
      match env.deserialize value with
      | none => (s, .error (.err .serializationError))
      | some parent => (s, .ok (some parent))

/-- `Synchronizer::get_ancestors`: the parent `b1` and its parent `b0`, in the order of the code. -/
def getAncestors (s : Core C T) (block : Block C) : Call C T (Option (Block C × Block C)) :=
  match getParentBlock env io s block with
  | (s, .error e) => (s, .error e)
  | (s, .ok none) => (s, .ok none)
  | (s, .ok (some b1)) =>
    match getParentBlock env io s b1 with
    | (s, .error e) => (s, .error e)
    | (s, .ok none) => (s, .error (.panic .missingAncestor))
    | (s, .ok (some b0)) => (s, .ok (some (b0, b1)))

/-- The loop of `commit`: ancestors are pushed to the front of `toCommit` until `parent` is of the
round after `last`. The number bounds the iterations; the store does not change in the loop, so once
they outnumber its entries a block has come up twice and the loop does not end. -/
def gatherAncestors (last : Round) : ℕ → Core C T → Block C → List (Block C) →
    Call C T (List (Block C))
  | 0, s, _, _ => (s, .error (.panic .endless))
  | n + 1, s, parent, toCommit =>
    if last + 1 < parent.round then
      match getParentBlock env io s parent with
      | (s, .error e) => (s, .error e)
      | (s, .ok none) => (s, .error (.panic .missingCommitAncestor))
      | (s, .ok (some ancestor)) => gatherAncestors last n s ancestor (ancestor :: toCommit)
    else (s, .ok toCommit)

def commit (s : Core C T) (block : Block C) : Call C T Unit :=
  let s := s.emit (.commit s.lastCommittedRound block)
  if block.round ≤ s.lastCommittedRound then (s, .ok ())
  else
    match gatherAncestors env io s.lastCommittedRound (s.store.length + 2) s block [] with
    | (s, .error e) => (s, .error e)
    | (s, .ok toCommit) =>
      -- the block is pushed to the front, and the deque is emptied from the back
      let toCommit := block :: toCommit
      let s := { s with lastCommittedRound := block.round }
      (toCommit.reverse.foldl (fun s b => s.emit (.deliver b)) s, .ok ())

/-! ### Blocks -/

/-- What follows `make_vote` in `process_block`. -/
def sendVote (s : Core C T) (vote : Vote C) : Call C T Unit :=
  match getLeader env.committee (s.round + 1) with
  | none => (s, .error (.panic .emptyCommittee))
  | some nextLeader =>
    if nextLeader = env.name then handleVote env io s vote
    else (s.emit (.sendVote vote nextLeader), .ok ())

/-- The end of `process_block`: vote for the block if it is of the current round. -/
def voteFor (s : Core C T) (block : Block C) : Call C T Unit :=
  if block.round = s.round then
    match makeVote env s block with
    | (s, .error e) => (s, .error e)
    | (s, .ok none) => (s, .ok ())
    | (s, .ok (some vote)) => sendVote env io s vote
  else (s, .ok ())

/-- The commit rule of `process_block`. -/
def commitRule (s : Core C T) (b0 b1 : Block C) : Call C T Unit :=
  if b0.round + 1 = b1.round then commit env io (s.emit (.gc b0.round)) b0 else (s, .ok ())

def processBlock (s : Core C T) (block : Block C) : Call C T Unit :=
  match getAncestors env io s block with
  | (s, .error e) => (s, .error e)
  | (s, .ok none) => (s, .ok ())
  | (s, .ok (some (b0, b1))) =>
    let s := (storeBlock io s block).emit (.cleanup b0 b1 block)
    match commitRule env io s b0 b1 with
    | (s, .error e) => (s, .error e)
    | (s, .ok ()) => voteFor env io s block

/-- The digests of the payload that are not in the store. -/
def missingPayload (s : Store C) : List C.Digest → Except (ConsensusError C) (List C.Digest)
  | [] => .ok []
  | x :: xs =>
    match s.read io x with
    | .error e => .error e
    | .ok value =>
      match missingPayload s xs with
      | .error e => .error e
      | .ok missing => .ok (if value.isNone then x :: missing else missing)

/-- `MempoolDriver::verify`. -/
def mempoolVerify (s : Core C T) (block : Block C) : Call C T Bool :=
  match missingPayload io s.store block.payload with
  | .error e => (s, .error (.err e))
  | .ok [] => (s, .ok true)
  | .ok missing =>
    ((s.emit (.synchronize missing block.author)).emit (.wait missing block), .ok false)

/-- The certificates of a proposal are processed before its payload is looked at. -/
def processCertificates (s : Core C T) (block : Block C) : Core C T :=
  let s := processQc io s block.qc
  match block.tc with
  | none => s
  | some tc => advanceRound io s tc.round

def handleProposal (s : Core C T) (block : Block C) : Call C T Unit :=
  if getLeader env.committee block.round = some block.author then
    match block.verify env.committee with
    | .error e => (s, .error (.err e))
    | .ok () =>
      let s := processCertificates io (s.emit (.accept block)) block
      match mempoolVerify io s block with
      | (s, .error e) => (s, .error e)
      | (s, .ok false) => (s, .ok ())
      | (s, .ok true) => processBlock env io s block
  else (s, .error (.err (.wrongLeader block.digest block.author block.round)))

/-! ### Boot and messages -/

/-- The state before the main loop. -/
def Core.boot (timer : T) : Core C T :=
  let s : Core C T :=
    { round := 1, lastVotedRound := 0, lastCommittedRound := 0, highQc := QC.genesis
      timer := RoundTimer.startRound io.now (RoundTimer.reset io.now timer)
      aggregator := Aggregator.new, store := [], trace := [] }
  if s.IsLeader env then generateProposal s none else s

/-- The arm of the main loop for messages. -/
def handleMessage (s : Core C T) : ConsensusMessage C → Call C T Unit
  | .propose block => handleProposal env io s block
  | .vote vote => handleVote env io s vote
  | .timeout timeout => handleTimeout env io s timeout
  | .tc tc => handleTc env io s tc

end Hotstuff.Consensus.Handlers
