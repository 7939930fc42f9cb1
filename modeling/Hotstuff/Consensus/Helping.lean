import Hotstuff.Consensus.Sharing

/-! # Replies to sync requests

The task of `consensus/src/helper.rs` beside a node, with the two ways in which messages of other
nodes come in: `MempoolReceiverHandler` passes batches to a processor, which stores them, and
`ConsensusReceiverHandler` passes sync requests to the helper, which looks the digest up and sends
back what it finds as a block.

The requester chooses the digest. If it is that of a batch, the helper finds the bytes of a batch,
which are not those of a block, and panics (`exists_crash`); this and failing reads are the only
reasons (`survives_iff`). -/

namespace Hotstuff.Consensus.Helping

open Hotstuff.Primitives Hotstuff.Consensus.Config Hotstuff.Consensus.Messages
open Hotstuff.Consensus.Pacing Hotstuff.Consensus.Handlers Hotstuff.Consensus.Wiring
open Hotstuff.Consensus.Sharing Hotstuff.Lib.Transition Hotstuff.Ideal

variable {C : Crypto} {T : Type}

/-! ### The helper -/

inductive HelperPanic where
  /-- "Failed to read from storage" -/
  | readFailed
  /-- "Failed to deserialize our own block" -/
  | notABlock
deriving DecidableEq

structure Helper (C : Crypto) where
  rxRequests : List (C.Digest × C.PublicKey)
  /-- The replies, each with the authority it goes to. -/
  network : List (C.PublicKey × ConsensusMessage C)
  panicked : Option HelperPanic

/-- One iteration of the loop of `Helper::run`. -/
def Helper.run (h : Helper C) (env : Env C) (io : Io C) (store : Store C) : Option (Helper C) :=
  match h.panicked, h.rxRequests with
  | none, (digest, origin) :: requests =>
    let h := { h with rxRequests := requests }
    if origin ∈ env.committee.keys then
      match store.read io digest with
      | .error _ => some { h with panicked := some .readFailed }
      | .ok none => some h
      | .ok (some bytes) =>
        match env.deserialize bytes with
        | none => some { h with panicked := some .notABlock }
        | some block => some { h with network := h.network ++ [(origin, .propose block)] }
    -- an unknown authority is only logged
    else some h
  | _, _ => none

/-! ### A node with its helper -/

structure Service (C : Crypto) (T : Type) where
  node : Node C T
  /-- The channel of the processor for the batches of other mempools. -/
  rxProcessor : List C.Batch
  helper : Helper C

inductive Event (C : Crypto) where
  /-- An event of the node. The mempool's own batches are stored by another processor. -/
  | node (e : Wiring.Event C)
  /-- `MempoolReceiverHandler` accepts a batch. -/
  | batch (x : C.Batch)
  /-- The processor takes a batch, and its write fails or not. -/
  | process (fails : Bool)
  /-- `ConsensusReceiverHandler` receives a sync request. -/
  | syncRequest (digest : C.Digest) (origin : C.PublicKey)
  /-- The helper takes a request. -/
  | help (io : Io C)

namespace Service

variable [RoundTimer T] (env : Env C)

def boot (io : Io C) (timer : T) : Service C T := ⟨Node.boot env io timer, [], ⟨[], [], none⟩⟩

def step (s : Service C T) : Event C → Option (Service C T)
  | .node e => (s.node.step env e).map fun n => { s with node := n }
  | .batch x => some { s with rxProcessor := s.rxProcessor ++ [x] }
  | .process fails =>
    match s.rxProcessor with
    | [] => none
    | x :: xs =>
      (s.node.step env (if fails then .batchLost x else .batch x)).map fun n =>
        { s with node := n, rxProcessor := xs }
  | .syncRequest digest origin =>
    some { s with helper :=
      { s.helper with rxRequests := s.helper.rxRequests ++ [(digest, origin)] } }
  | .help io =>
    (s.helper.run env io s.node.core.store).map fun h => { s with helper := h }

end Service

abbrev ServiceRun [RoundTimer T] (env : Env C) (s₀ : Service C T) :
    List (Event C) → Service C T → Prop :=
  Run (fun s e s' => s.step env e = some s') s₀

/-! ### When the helper panics -/

/-- The next request, if it is of an authority, can be answered: the read does not fail, and does
not find a batch. -/
def Answerable (env : Env C) (io : Io C) (store : Store C) (h : Helper C) : Prop :=
  ∀ digest origin requests, h.rxRequests = (digest, origin) :: requests →
    origin ∈ env.committee.keys → io.readFails digest = false ∧
      ∀ x, store.lookup digest = some (.batch x) → env.batchAsBlock x ≠ none

/-- **One iteration.** -/
theorem run_iff {env : Env C} {io : Io C} {store : Store C} {h h' : Helper C}
    (hrun : h.run env io store = some h') :
    h.panicked = none ∧ (h'.panicked = none ↔ Answerable env io store h) := by
  unfold Helper.run at hrun
  split at hrun
  swap
  · cases hrun
  rename_i digest origin requests hp hrx
  refine ⟨hp, ?_⟩
  have hans : Answerable env io store h ↔ (origin ∈ env.committee.keys →
      io.readFails digest = false ∧
        ∀ x, store.lookup digest = some (.batch x) → env.batchAsBlock x ≠ none) := by
    refine ⟨fun h => h digest origin requests hrx, fun h d o rs heq => ?_⟩
    rw [hrx] at heq
    cases heq
    exact h
  rw [hans]
  dsimp only at hrun
  split_ifs at hrun with ho
  swap
  · cases hrun
    exact iff_of_true hp fun h => absurd h ho
  rcases hf : io.readFails digest with _ | _
  swap
  · simp only [Store.read, hf, if_true, Option.some.injEq] at hrun
    rw [← hrun]
    exact iff_of_false (by simp) fun h => by simpa using (h ho).1
  simp only [Store.read, hf, Bool.false_eq_true, if_false] at hrun
  rcases hl : store.lookup digest with _ | v
  · simp only [hl, Option.some.injEq] at hrun
    rw [← hrun]
    exact iff_of_true hp fun _ => ⟨rfl, fun x hx => by cases hx⟩
  rcases hd : env.deserialize v with _ | b
  · -- the value is a batch
    simp only [hl, hd, Option.some.injEq] at hrun
    rw [← hrun]
    refine iff_of_false (by simp) fun h => ?_
    cases v with
    | block b => cases hd
    | batch x => exact (h ho).2 x rfl hd
  · simp only [hl, hd, Option.some.injEq] at hrun
    rw [← hrun]
    refine iff_of_true hp fun _ => ⟨rfl, fun x hx hnone => ?_⟩
    cases hx
    cases hnone.symm.trans hd

/-- An event at which the helper takes a request takes one that can be answered. -/
def Harmless (env : Env C) (s : Service C T) : Event C → Prop
  | .help io => Answerable env io s.node.core.store s.helper
  | _ => True

variable [RoundTimer T] {env : Env C} {s s' : Service C T} {e : Event C}

theorem process_cases {fails : Bool} (h : s.step env (.process fails) = some s') :
    ∃ e xs n, s.node.step env e = some n ∧ s' = { s with node := n, rxProcessor := xs } := by
  unfold Service.step at h
  rcases hx : s.rxProcessor with _ | ⟨x, xs⟩
  · simp [hx] at h
  · simp only [hx] at h
    obtain ⟨n, hn, heq⟩ := Option.map_eq_some_iff.mp h
    exact ⟨_, xs, n, hn, heq.symm⟩

/-- **A step.** -/
theorem panicked_step (h : s.step env e = some s') :
    s'.helper.panicked = none ↔ s.helper.panicked = none ∧ Harmless env s e := by
  cases e with
  | node e =>
    obtain ⟨n, -, rfl⟩ := Option.map_eq_some_iff.mp h
    exact (and_iff_left trivial).symm
  | batch x => cases h; exact (and_iff_left trivial).symm
  | process fails =>
    obtain ⟨e, xs, n, -, rfl⟩ := process_cases h
    exact (and_iff_left trivial).symm
  | syncRequest digest origin => cases h; exact (and_iff_left trivial).symm
  | help io =>
    obtain ⟨h', hrun, rfl⟩ := Option.map_eq_some_iff.mp h
    obtain ⟨hp, hiff⟩ := run_iff hrun
    rw [and_iff_right hp]
    exact hiff

/-- The node makes a run of its own. -/
theorem exists_nodeRun {io : Io C} {timer : T} {es : List (Event C)}
    (r : ServiceRun env (Service.boot env io timer) es s) :
    ∃ es', NodeRun env (Node.boot env io timer) es' s.node := by
  induction r with
  | nil => exact ⟨[], .nil⟩
  | @snoc es s e s' r h ih =>
    obtain ⟨es', r'⟩ := ih
    cases e with
    | node e =>
      obtain ⟨n, hn, rfl⟩ := Option.map_eq_some_iff.mp h
      exact ⟨_, r'.snoc hn⟩
    | batch x => cases h; exact ⟨_, r'⟩
    | process fails =>
      obtain ⟨e, xs, n, hn, rfl⟩ := process_cases h
      exact ⟨_, r'.snoc hn⟩
    | syncRequest digest origin => cases h; exact ⟨_, r'⟩
    | help io => obtain ⟨h', -, rfl⟩ := Option.map_eq_some_iff.mp h; exact ⟨_, r'⟩

/-- **When sync requests are harmless.** In every run of a node with its helper, the store holds
blocks and batches, each under its own digest. The helper has not panicked if and only if each
request of an authority that it took could be answered: the read did not fail, and did not find a
batch whose bytes are not those of a block. -/
theorem survives_iff {io : Io C} {timer : T} {es : List (Event C)}
    (r : ServiceRun env (Service.boot env io timer) es s) :
    (∀ d v, (d, v) ∈ s.node.core.store → d = digestOf v) ∧ (s.helper.panicked = none ↔
      Every (fun s e s' => s.step env e = some s') (Service.boot env io timer) (Harmless env)
        es) := by
  obtain ⟨es', r'⟩ := exists_nodeRun r
  refine ⟨run_keyed r', ?_⟩
  exact iff_every (step_det _) r
    (I := fun _ => True) (Q := fun _ => True) (G := fun s => s.helper.panicked = none) trivial
    (fun _ _ _ _ _ => trivial) (fun _ _ _ _ _ _ => trivial) rfl
    (fun _ _ _ _ h _ => panicked_step h) trivial

/-! ### A node alone -/

def soloService : Service crypto (Timer ℚ) := Service.boot solo calm (Timer.new 0 1000)

/-- The digest of the block of round 1. -/
def firstDigest : crypto.Digest :=
  ((soloRun [.proposerMessage [], .loopback calm]).toList.flatMap fun n =>
    n.core.store.map Prod.fst).headD crypto.defaultDigest

/-- The node stores its first block, and gets a request for it. -/
def blockRequested : List (Event crypto) :=
  [.node (.proposerMessage []), .node (.loopback calm), .syncRequest firstDigest (key 0),
    .help calm]

/-- The request for a block is answered. -/
theorem survives_iff_solo : ∃ s : Service crypto (Timer ℚ),
    ServiceRun solo soloService blockRequested s ∧ s.helper.network.length = 1 ∧
      s.helper.panicked = none := by
  have r := run_of_exec (fun s e => Service.step solo s e) blockRequested soloService rfl
  refine ⟨_, r, rfl, (survives_iff r).2.mpr ?_⟩
  have hdet := step_det fun (s : Service crypto (Timer ℚ)) e => s.step solo e
  refine every_cons hdet rfl trivial (every_cons hdet rfl trivial (every_cons hdet rfl trivial
    (every_cons hdet rfl ?_ every_nil)))
  rintro d _ _ ⟨⟩ _
  exact ⟨rfl, fun x hx => by cases hx⟩

/-- The node stores a batch of another mempool, and gets a request for it. -/
def batchRequested : List (Event crypto) :=
  [.batch (7 : ℕ), .process false, .syncRequest (crypto.batchDigest (7 : ℕ)) (key 0), .help calm]

/-- **A sync request for a batch crashes the helper**, though no read fails and the bytes of a batch
are never those of a block. -/
theorem exists_crash : ¬ ∀ (env : Env crypto) (io : Io crypto) (timer : Timer ℚ)
    (es : List (Event crypto)) (s : Service crypto (Timer ℚ)), (∀ x, env.batchAsBlock x = none) →
    (∀ io, .help io ∈ es → ∀ d, io.readFails d = false) →
    ServiceRun env (Service.boot env io timer) es s → s.helper.panicked = none := by
  intro h
  have r := run_of_exec (fun s e => Service.step solo s e) batchRequested soloService rfl
  refine absurd (h solo calm (Timer.new 0 1000) batchRequested _ (fun _ => rfl) ?_ r) ?_
  · intro io hio d
    simp only [batchRequested, List.mem_cons, reduceCtorEq, false_or, List.not_mem_nil, or_false,
      Event.help.injEq] at hio
    rw [hio]
    rfl
  · exact fun h => Option.some_ne_none _ h

end Hotstuff.Consensus.Helping
