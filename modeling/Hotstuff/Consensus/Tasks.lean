import Hotstuff.Consensus.Handlers

/-! # The tasks beside the core

The payload waiter (`mempool.rs`), the synchronizer (`synchronizer.rs`) and the proposer
(`proposer.rs`) run beside the core and feed blocks back to it. Each is a state with its input
channels, which are FIFO queues, and one function for each arm of its `select!`; the block that an
arm sends on the loopback channel is part of the result.

A future that waits for keys of the store is an entry of a list. When it completes is up to the
scheduler, which only has to respect what the future waits for: a key that is in the store, or that
was written while the future waited for it. The store answers those who wait for a key whether or
not its write succeeds (`answer`). -/

namespace Hotstuff.Consensus.Tasks

open Hotstuff.Primitives Hotstuff.Consensus.Config Hotstuff.Consensus.Messages
open Hotstuff.Consensus.Handlers

variable {C : Crypto}

/-! ### The payload waiter -/

inductive PayloadWaiterMessage (C : Crypto) where
  | wait (missing : List C.Digest) (block : Block C)
  | cleanup (round : Round)

/-- A future of `PayloadWaiter::waiter`. The number stands for its cancel channel. -/
structure PayloadFuture (C : Crypto) where
  handler : ℕ
  missing : List C.Digest
  deliver : Block C

structure PayloadWaiter (C : Crypto) where
  rxMessage : List (PayloadWaiterMessage C)
  waiting : List (PayloadFuture C)
  /-- The round of the block and the sending end of the cancel channel. -/
  pending : C.Digest → Option (Round × ℕ)
  /-- The next cancel channel. -/
  nextHandler : ℕ

namespace PayloadWaiter

def new : PayloadWaiter C := ⟨[], [], fun _ => none, 0⟩

def handle (w : PayloadWaiter C) : PayloadWaiterMessage C → PayloadWaiter C
  | .wait missing block =>
    if (w.pending block.digest).isSome then w
    else
      { w with
        waiting := w.waiting ++ [⟨w.nextHandler, missing, block⟩]
        pending := fun d =>
          if d = block.digest then some (block.round, w.nextHandler) else w.pending d
        nextHandler := w.nextHandler + 1 }
  | .cleanup round =>
    { w with
      pending := fun d =>
        match w.pending d with
        | none => none
        | some (r, handler) => if round < r then some (r, handler) else none }

/-- The next message. -/
def receive (w : PayloadWaiter C) : Option (PayloadWaiter C) :=
  match w.rxMessage with
  | [] => none
  | m :: ms => some ({ w with rxMessage := ms }.handle m)

/-- A future completes as all it waits for is in the store. -/
def ready (w : PayloadWaiter C) (st : Store C) (i : ℕ) :
    Option (PayloadWaiter C × Block C) :=
  match w.waiting[i]? with
  | none => none
  | some f =>
    if f.missing.all fun d => (st.lookup d).isSome then
      some ({ w with
        waiting := w.waiting.eraseIdx i
        pending := fun d => if d = f.deliver.digest then none else w.pending d }, f.deliver)
    else none

/-- A future completes without a block: the sending end of its channel has been used or dropped. -/
def cancelled (w : PayloadWaiter C) (i : ℕ) : Option (PayloadWaiter C) :=
  match w.waiting[i]? with
  | none => none
  | some f =>
    if (w.pending f.deliver.digest).map Prod.snd = some f.handler then none
    else some { w with waiting := w.waiting.eraseIdx i }

/-- A read of the store fails: the error is logged. -/
def failed (w : PayloadWaiter C) (i : ℕ) : Option (PayloadWaiter C) :=
  if i < w.waiting.length then some { w with waiting := w.waiting.eraseIdx i } else none

/-- The store answers those who wait for the keys `written`: the futures wait for the others. -/
def answer (w : PayloadWaiter C) (written : List C.Digest) : PayloadWaiter C :=
  { w with waiting := w.waiting.map fun f => { f with missing := f.missing.filter (· ∉ written) } }

variable {w w' : PayloadWaiter C} {i : ℕ}

theorem answer_nil : w.answer [] = w := by
  simp [answer]

theorem mem_answer {written : List C.Digest} {f' : PayloadFuture C}
    (h : f' ∈ (w.answer written).waiting) : ∃ f ∈ w.waiting, f.deliver = f'.deliver ∧
      ∀ d ∈ f.missing, d ∈ f'.missing ∨ d ∈ written := by
  obtain ⟨f, hf, rfl⟩ := List.mem_map.mp h
  refine ⟨f, hf, rfl, fun d hd => ?_⟩
  by_cases hw : d ∈ written
  · exact .inr hw
  · exact .inl (List.mem_filter.mpr ⟨hd, by simpa using hw⟩)

theorem receive_eq (h : w.receive = some w') :
    ∃ m ms, w.rxMessage = m :: ms ∧ w' = { w with rxMessage := ms }.handle m := by
  unfold receive at h
  rcases hrx : w.rxMessage with _ | ⟨m, ms⟩
  · simp [hrx] at h
  · simp only [hrx, Option.some.injEq] at h
    exact ⟨m, ms, rfl, h.symm⟩

theorem ready_eq {st : Store C} {r : PayloadWaiter C × Block C} (h : w.ready st i = some r) :
    ∃ f, w.waiting[i]? = some f ∧ (∀ d ∈ f.missing, (st.lookup d).isSome) ∧
      r = ({ w with
        waiting := w.waiting.eraseIdx i
        pending := fun d => if d = f.deliver.digest then none else w.pending d }, f.deliver) := by
  unfold ready at h
  rcases hf : w.waiting[i]? with _ | f
  · simp [hf] at h
  · simp only [hf] at h
    split_ifs at h with hall
    exact ⟨f, rfl, List.all_eq_true.mp hall, (Option.some.inj h).symm⟩

theorem cancelled_eq (h : w.cancelled i = some w') :
    ∃ f, w.waiting[i]? = some f ∧ (w.pending f.deliver.digest).map Prod.snd ≠ some f.handler ∧
      w' = { w with waiting := w.waiting.eraseIdx i } := by
  unfold cancelled at h
  rcases hf : w.waiting[i]? with _ | f
  · simp [hf] at h
  · simp only [hf] at h
    split_ifs at h with hp
    exact ⟨f, rfl, hp, (Option.some.inj h).symm⟩

theorem failed_eq (h : w.failed i = some w') :
    ∃ f, w.waiting[i]? = some f ∧ w' = { w with waiting := w.waiting.eraseIdx i } := by
  unfold failed at h
  split_ifs at h with hi
  exact ⟨_, List.getElem?_eq_getElem hi, (Option.some.inj h).symm⟩

end PayloadWaiter

/-! ### The synchronizer -/

/-- A request for a block, to its author or to all. -/
inductive SyncRequest (C : Crypto) where
  | send (digest : C.Digest) (dest : C.PublicKey)
  | broadcast (digest : C.Digest)

structure Synchronizer (C : Crypto) where
  rxInner : List (Block C)
  /-- The futures of `Synchronizer::waiter`: a block waits for its parent. -/
  waiting : List (Block C)
  /-- The blocks that wait no longer, though the write of the parent failed. -/
  answered : List C.Digest
  pending : List C.Digest
  requests : List (C.Digest × Instant)
  /-- The requests sent, oldest first. -/
  network : List (SyncRequest C)

namespace Synchronizer

def new : Synchronizer C := ⟨[], [], [], [], [], []⟩

def handle (w : Synchronizer C) (now : Instant) (block : Block C) : Synchronizer C :=
  if block.digest ∈ w.pending then w
  else
    let w := { w with
      pending := block.digest :: w.pending
      waiting := w.waiting ++ [block] }
    if block.parent ∈ w.requests.map Prod.fst then w
    else
      { w with
        requests := (block.parent, now) :: w.requests
        network := w.network ++ [.send block.parent block.author] }

/-- The next block. -/
def receive (w : Synchronizer C) (now : Instant) : Option (Synchronizer C) :=
  match w.rxInner with
  | [] => none
  | block :: blocks => some ({ w with rxInner := blocks }.handle now block)

/-- The parent of a block is in the store, or was to be. -/
def ready (w : Synchronizer C) (st : Store C) (i : ℕ) : Option (Synchronizer C × Block C) :=
  match w.waiting[i]? with
  | none => none
  | some block =>
    if (st.lookup block.parent).isSome ∨ block.digest ∈ w.answered then
      some ({ w with
        waiting := w.waiting.eraseIdx i
        answered := w.answered.filter (· ≠ block.digest)
        pending := w.pending.filter (· ≠ block.digest)
        requests := w.requests.filter (·.1 ≠ block.parent) }, block)
    else none

/-- A read of the store fails: the error is logged. -/
def failed (w : Synchronizer C) (i : ℕ) : Option (Synchronizer C) :=
  if i < w.waiting.length then some { w with waiting := w.waiting.eraseIdx i } else none

/-- The store answers those who wait for the keys `written`. -/
def answer (w : Synchronizer C) (written : List C.Digest) : Synchronizer C :=
  { w with
    answered := w.answered ++ (w.waiting.filter (·.parent ∈ written)).map Block.digest }

/-- The timer: requests older than the delay are repeated. -/
def retry (w : Synchronizer C) (syncRetryDelay : ℕ) (now : Instant) : Synchronizer C :=
  { w with
    network := w.network ++
      (w.requests.filter fun r => r.2 + syncRetryDelay < now).map fun r => .broadcast r.1 }

variable {w w' : Synchronizer C} {i : ℕ}

theorem answer_nil : w.answer [] = w := by
  simp [answer]

theorem receive_eq {now : Instant} (h : w.receive now = some w') :
    ∃ block blocks, w.rxInner = block :: blocks ∧
      w' = { w with rxInner := blocks }.handle now block := by
  unfold receive at h
  rcases hrx : w.rxInner with _ | ⟨block, blocks⟩
  · simp [hrx] at h
  · simp only [hrx, Option.some.injEq] at h
    exact ⟨block, blocks, rfl, h.symm⟩

theorem ready_eq {st : Store C} {r : Synchronizer C × Block C} (h : w.ready st i = some r) :
    ∃ block, w.waiting[i]? = some block ∧
      ((st.lookup block.parent).isSome ∨ block.digest ∈ w.answered) ∧
      r = ({ w with
        waiting := w.waiting.eraseIdx i
        answered := w.answered.filter (· ≠ block.digest)
        pending := w.pending.filter (· ≠ block.digest)
        requests := w.requests.filter (·.1 ≠ block.parent) }, block) := by
  unfold ready at h
  rcases hb : w.waiting[i]? with _ | block
  · simp [hb] at h
  · simp only [hb] at h
    split_ifs at h with hst
    exact ⟨block, rfl, hst, (Option.some.inj h).symm⟩

theorem failed_eq (h : w.failed i = some w') :
    ∃ block, w.waiting[i]? = some block ∧ w' = { w with waiting := w.waiting.eraseIdx i } := by
  unfold failed at h
  split_ifs at h with hi
  exact ⟨_, List.getElem?_eq_getElem hi, (Option.some.inj h).symm⟩

end Synchronizer

/-! ### The proposer -/

inductive ProposerMessage (C : Crypto) where
  | make (round : Round) (qc : QC C) (tc : Option (TC C))
  | cleanup (digests : List C.Digest)

/-- What the proposer did. -/
inductive ProposerAction (C : Crypto) where
  | received (digest : C.Digest)
  | created (block : Block C)
  | cleaned (digests : List C.Digest)

structure Proposer (C : Crypto) where
  rxMempool : List C.Digest
  rxMessage : List (ProposerMessage C)
  buffer : List C.Digest
  /-- In `make_block`: the authorities that have not acknowledged the block, and the stake of those
  that have. -/
  waitForQuorum : Option (List C.PublicKey × Stake)
  /-- What the proposer did, oldest first. -/
  trace : List (ProposerAction C)

namespace Proposer

def new : Proposer C := ⟨[], [], [], none, []⟩

/-- The next digest of the mempool. -/
def receiveDigest (p : Proposer C) : Option (Proposer C) :=
  match p.waitForQuorum, p.rxMempool with
  | none, digest :: digests =>
    some { p with
      rxMempool := digests
      buffer := p.buffer.insert digest
      trace := p.trace ++ [.received digest] }
  | _, _ => none

/-- `make_block` up to the wait for acknowledgements; the buffer is drained in some order. -/
def makeBlock (p : Proposer C) (env : Env C) (round : Round) (qc : QC C) (tc : Option (TC C))
    (payload : List C.Digest) : Proposer C × Block C :=
  let block := Block.new qc tc env.name round payload
  let names := env.committee.keys.filter (· ≠ env.name)
  ({ p with
    buffer := []
    waitForQuorum := if names = [] then none else some (names, env.committee.stake env.name)
    trace := p.trace ++ [.created block] }, block)

/-- The next message of the core. For a new block, `payload` is the order of the buffer. -/
def receiveMessage (p : Proposer C) (env : Env C) (payload : List C.Digest) :
    Option (Proposer C × Option (Block C)) :=
  match p.waitForQuorum, p.rxMessage with
  | none, .make round qc tc :: ms =>
    if payload.Perm p.buffer then
      let (p, block) := { p with rxMessage := ms }.makeBlock env round qc tc payload
      some (p, some block)
    else none
  | none, .cleanup digests :: ms =>
    some ({ p with
      rxMessage := ms
      buffer := p.buffer.filter (· ∉ digests)
      trace := p.trace ++ [.cleaned digests] }, none)
  | _, _ => none

/-- One more authority acknowledges the block, or its handler is dropped. -/
def acknowledge (p : Proposer C) (c : Committee C) (i : ℕ) : Option (Proposer C) :=
  match p.waitForQuorum with
  | none => none
  | some (names, totalStake) =>
    match names[i]? with
    | none => none
    | some name =>
      let totalStake := totalStake + c.stake name
      let names := names.eraseIdx i
      some { p with
        waitForQuorum :=
          if c.quorumThreshold ≤ totalStake ∨ names = [] then none else some (names, totalStake) }

end Proposer

end Hotstuff.Consensus.Tasks
