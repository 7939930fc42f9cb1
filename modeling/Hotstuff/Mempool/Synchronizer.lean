import Hotstuff.Consensus.Tasks

/-! # The mempool synchronizer

The task of `mempool/src/synchronizer.rs`. The consensus asks it to synchronize batches that are
missing from the store, and tells it when to clean up; a batch that is asked for stays in `pending`
until it is in the store or is cleaned up, and as long as it does it is requested from other nodes
again and again.

An entry of `pending` carries the round that the synchronizer believed to be in when the batch was
first asked for, not that of the block that needs the batch. -/

namespace Hotstuff.Mempool

open Hotstuff.Primitives Hotstuff.Consensus.Handlers

variable {C : Crypto}

inductive ConsensusMempoolMessage (C : Crypto) where
  | synchronize (digests : List C.Digest) (target : C.PublicKey)
  | cleanup (round : Round)

/-- A request for batches: to one node, or to some nodes picked at random. -/
inductive BatchRequest (C : Crypto) where
  | send (missing : List C.Digest) (target : C.PublicKey)
  | luckyBroadcast (retry : List C.Digest) (nodes : ℕ)

structure Config (C : Crypto) where
  gcDepth : Round
  syncRetryDelay : ℕ
  syncRetryNodes : ℕ
  /-- The authorities whose mempool has an address. -/
  authorities : List C.PublicKey

/-- An entry of `pending`. The number stands for the sending end of a cancel channel. -/
structure Request (C : Crypto) where
  digest : C.Digest
  round : Round
  handler : ℕ
  timestamp : Instant

structure Synchronizer (C : Crypto) where
  rxMessage : List (ConsensusMempoolMessage C)
  /-- The futures of `Synchronizer::waiter`, each with its cancel channel. -/
  waiting : List (C.Digest × ℕ)
  round : Round
  pending : List (Request C)
  /-- The next cancel channel. -/
  nextHandler : ℕ
  /-- The requests sent, oldest first. -/
  network : List (BatchRequest C)

namespace Synchronizer

variable (cfg : Config C)

def new : Synchronizer C := ⟨[], [], 0, [], 0, []⟩

/-- The digests that are being waited for. -/
def digests (s : Synchronizer C) : List C.Digest := s.pending.map Request.digest

/-- The loop of `Synchronize`: the digests that are not pending are registered, and returned. -/
def register (now : Instant) : Synchronizer C → List C.Digest → Synchronizer C × List C.Digest
  | s, [] => (s, [])
  | s, digest :: ds =>
    -- the same sync request is not sent twice
    if digest ∈ s.digests then register now s ds
    else
      let (s, missing) := register now { s with
        waiting := s.waiting ++ [(digest, s.nextHandler)]
        pending := s.pending ++ [⟨digest, s.round, s.nextHandler, now⟩]
        nextHandler := s.nextHandler + 1 } ds
      (s, digest :: missing)

def handle (s : Synchronizer C) (now : Instant) : ConsensusMempoolMessage C → Synchronizer C
  | .synchronize digests target =>
    let (s, missing) := s.register now digests
    -- an unknown target is only logged
    if target ∈ cfg.authorities then { s with network := s.network ++ [.send missing target] }
    else s
  | .cleanup round =>
    let s := { s with round := round }
    if round < cfg.gcDepth then s
    else { s with pending := s.pending.filter fun p => round - cfg.gcDepth < p.round }

/-- The next message. -/
def receive (s : Synchronizer C) (now : Instant) : Option (Synchronizer C) :=
  match s.rxMessage with
  | [] => none
  | m :: ms => some ({ s with rxMessage := ms }.handle cfg now m)

/-- The batch that a future waits for is in the store. -/
def ready (s : Synchronizer C) (st : Store C) (i : ℕ) : Option (Synchronizer C) :=
  match s.waiting[i]? with
  | none => none
  | some (digest, _) =>
    if (st.lookup digest).isSome then
      some { s with
        waiting := s.waiting.eraseIdx i
        pending := s.pending.filter (·.digest ≠ digest) }
    else none

/-- A future completes without a batch: the sending end of its channel has been used or dropped. -/
def cancelled (s : Synchronizer C) (i : ℕ) : Option (Synchronizer C) :=
  match s.waiting[i]? with
  | none => none
  | some (_, handler) =>
    if handler ∈ s.pending.map Request.handler then none
    else some { s with waiting := s.waiting.eraseIdx i }

/-- A read of the store fails: the error is logged. -/
def failed (s : Synchronizer C) (i : ℕ) : Option (Synchronizer C) :=
  if i < s.waiting.length then some { s with waiting := s.waiting.eraseIdx i } else none

/-- The timer: what has been requested for longer than the delay is requested again. -/
def retry (s : Synchronizer C) (now : Instant) : Synchronizer C :=
  match (s.pending.filter fun p => p.timestamp + cfg.syncRetryDelay < now).map Request.digest with
  | [] => s
  | digest :: ds =>
    { s with network := s.network ++ [.luckyBroadcast (digest :: ds) cfg.syncRetryNodes] }

/-! ### What the functions change -/

variable {s s' : Synchronizer C} {now : Instant} {i : ℕ}

variable {cfg} in
theorem receive_eq (h : s.receive cfg now = some s') :
    ∃ m ms, s.rxMessage = m :: ms ∧ s' = { s with rxMessage := ms }.handle cfg now m := by
  unfold receive at h
  rcases hrx : s.rxMessage with _ | ⟨m, ms⟩
  · simp [hrx] at h
  · simp only [hrx, Option.some.injEq] at h
    exact ⟨m, ms, rfl, h.symm⟩

theorem ready_eq {st : Store C} (h : s.ready st i = some s') :
    ∃ digest handler, s.waiting[i]? = some (digest, handler) ∧ (st.lookup digest).isSome ∧
      s' = { s with
        waiting := s.waiting.eraseIdx i
        pending := s.pending.filter (·.digest ≠ digest) } := by
  unfold ready at h
  rcases hf : s.waiting[i]? with _ | ⟨digest, handler⟩
  · simp [hf] at h
  · simp only [hf] at h
    split_ifs at h with hst
    exact ⟨digest, handler, rfl, hst, (Option.some.inj h).symm⟩

theorem cancelled_eq (h : s.cancelled i = some s') :
    s' = { s with waiting := s.waiting.eraseIdx i } := by
  unfold cancelled at h
  split at h
  · cases h
  · split_ifs at h
    exact (Option.some.inj h).symm

theorem failed_eq (h : s.failed i = some s') :
    ∃ f, s.waiting[i]? = some f ∧ s' = { s with waiting := s.waiting.eraseIdx i } := by
  unfold failed at h
  split_ifs at h with hi
  exact ⟨_, List.getElem?_eq_getElem hi, (Option.some.inj h).symm⟩

variable (s now) in
/-- The timer only sends requests. -/
theorem retry_eq : ∃ l, s.retry cfg now = { s with network := l } := by
  unfold retry
  split
  · exact ⟨s.network, rfl⟩
  · exact ⟨_, rfl⟩

/-- After the loop the given digests are pending, and so are the earlier ones. -/
theorem mem_register : ∀ {ds : List C.Digest} {s : Synchronizer C} {d : C.Digest},
    d ∈ (s.register now ds).1.digests ↔ d ∈ s.digests ∨ d ∈ ds
  | [], s, d => by simp [register]
  | x :: xs, s, d => by
    unfold register
    split_ifs with hx
    · rw [mem_register, List.mem_cons]
      constructor
      · exact fun h => h.imp_right .inr
      · rintro (h | rfl | h)
        · exact .inl h
        · exact .inl hx
        · exact .inr h
    · dsimp only
      rw [mem_register]
      simp only [digests, List.map_append, List.map_cons, List.map_nil, List.mem_append,
        List.mem_cons, List.not_mem_nil, or_false, or_assoc]

theorem register_rxMessage : ∀ {ds : List C.Digest} {s : Synchronizer C},
    (s.register now ds).1.rxMessage = s.rxMessage
  | [], s => rfl
  | x :: xs, s => by
    unfold register
    split_ifs
    · exact register_rxMessage
    · exact register_rxMessage (s := { s with
        waiting := s.waiting ++ [(x, s.nextHandler)]
        pending := s.pending ++ [⟨x, s.round, s.nextHandler, now⟩]
        nextHandler := s.nextHandler + 1 })

theorem handle_rxMessage (m : ConsensusMempoolMessage C) :
    (s.handle cfg now m).rxMessage = s.rxMessage := by
  cases m with
  | synchronize ds target =>
    unfold handle
    dsimp only
    split_ifs <;> exact register_rxMessage
  | cleanup round =>
    unfold handle
    dsimp only
    split_ifs <;> rfl

/-- After a request its digests are pending, and so are the earlier ones. -/
theorem mem_handle_synchronize {ds : List C.Digest} {target : C.PublicKey} {d : C.Digest} :
    d ∈ (s.handle cfg now (.synchronize ds target)).digests ↔ d ∈ s.digests ∨ d ∈ ds := by
  unfold handle
  dsimp only
  split_ifs <;> exact mem_register

/-- A clean-up drops what was registered `gc_depth` rounds before its round, or earlier. -/
theorem mem_handle_cleanup {round : Round} {d : C.Digest} :
    d ∈ (s.handle cfg now (.cleanup round)).digests ↔
      ∃ p ∈ s.pending, p.digest = d ∧ (cfg.gcDepth ≤ round → round - cfg.gcDepth < p.round) := by
  unfold handle digests
  dsimp only
  split_ifs with h
  · rw [List.mem_map]
    exact exists_congr fun p => and_congr_right fun _ => (and_iff_left (by grind)).symm
  · rw [List.mem_map]
    refine exists_congr fun p => ?_
    rw [List.mem_filter, decide_eq_true_eq, and_assoc]
    refine and_congr_right fun _ => ?_
    rw [forall_prop_of_true (by grind : cfg.gcDepth ≤ round)]
    exact and_comm

end Synchronizer

end Hotstuff.Mempool
