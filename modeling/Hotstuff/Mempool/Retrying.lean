import Hotstuff.Lib.Transition
import Hotstuff.Mempool.Synchronizer
import Hotstuff.Ideal

/-! # Waiters that fail

The synchronizer of the consensus, the payload waiter and the mempool synchronizer each guard a set
of waiters by a table of pending keys: what is pending is not suspended again. A waiter that
completes takes its key out of the table. A waiter whose read of the store fails does not: the error
does not tell which one it was, and is only logged.

An item can be suspended again after its waiter has failed exactly if it is not pending at that
moment (`retriable_iff`). At the synchronizer of the consensus a block that is waited for is always
pending (`Guarded`), so that it is lost for good (`lost_for_good`). At the other two tasks the entry
may have been dropped before, by a clean-up.

Writes to the store are taken to succeed, so that a waiter is ready when its key is bound. -/

namespace Hotstuff.Mempool.Retrying

open Hotstuff.Primitives Hotstuff.Consensus.Messages Hotstuff.Consensus.Handlers
open Hotstuff.Consensus.Tasks Hotstuff.Lib.Lists Hotstuff.Lib.Transition Hotstuff.Ideal

variable {C : Crypto}

/-! ### The synchronizer of the consensus -/

/-- What happens to the synchronizer. The store is the one at the time of the event. -/
inductive SyncEvent (C : Crypto) where
  | block (now : Instant) (block : Block C)
  | ready (st : Store C) (i : ℕ)
  | failed (i : ℕ)
  | retry (syncRetryDelay : ℕ) (now : Instant)

def syncStep (w : Consensus.Tasks.Synchronizer C) :
    SyncEvent C → Option (Consensus.Tasks.Synchronizer C)
  | .block now block => some (w.handle now block)
  | .ready st i => (w.ready st i).map Prod.fst
  | .failed i => w.failed i
  | .retry syncRetryDelay now => some (w.retry syncRetryDelay now)

abbrev SyncRun := Run fun (w : Consensus.Tasks.Synchronizer C) e w' => syncStep w e = some w'

/-- If the waiter of a block fails, there is no entry for the block nor for the request of its
parent, and suspending the block again registers a new waiter. -/
def SyncRetriable (w : Consensus.Tasks.Synchronizer C) : SyncEvent C → Prop
  | .failed i => ∀ block w', w.waiting[i]? = some block → w.failed i = some w' →
      block.digest ∉ w'.pending ∧ block.parent ∉ w'.requests.map Prod.fst ∧
        ∀ now, (w'.handle now block).waiting = w'.waiting ++ [block]
  | _ => True

/-- The blocks that wait are pending, and different. -/
structure Guarded (w : Consensus.Tasks.Synchronizer C) : Prop where
  pending : ∀ block ∈ w.waiting, block.digest ∈ w.pending
  nodup : (w.waiting.map Block.digest).Nodup

/-- The digest is pending, but nobody waits with a block of it. -/
structure Lost (d : C.Digest) (w : Consensus.Tasks.Synchronizer C) : Prop where
  pending : d ∈ w.pending
  waiting : ∀ block ∈ w.waiting, block.digest ≠ d

section Sync

variable {w w' : Consensus.Tasks.Synchronizer C} {block b : Block C} {now : Instant} {i : ℕ}
  {st : Store C} {d : C.Digest}

variable (now) in
/-- The synchronizer takes a block that is not pending. -/
theorem handle_fresh (h : block.digest ∉ w.pending) :
    (w.handle now block).waiting = w.waiting ++ [block] ∧
      (w.handle now block).pending = block.digest :: w.pending := by
  unfold Consensus.Tasks.Synchronizer.handle
  rw [if_neg h]
  dsimp only
  split_ifs <;> exact ⟨rfl, rfl⟩

theorem handle_pending (h : block.digest ∈ w.pending) : w.handle now block = w := if_pos h

theorem guarded_handle (h : Guarded w) : Guarded (w.handle now block) := by
  by_cases hp : block.digest ∈ w.pending
  · rwa [handle_pending hp]
  obtain ⟨hw, hpend⟩ := handle_fresh now hp
  refine ⟨fun x hx => ?_, ?_⟩
  · rw [hw, List.mem_append, List.mem_singleton] at hx
    rw [hpend, List.mem_cons]
    exact hx.elim (fun hx => .inr (h.pending x hx)) fun hx => .inl (congrArg Block.digest hx)
  · rw [hw, List.map_append, List.nodup_append]
    refine ⟨h.nodup, List.nodup_singleton _, fun x hx y hy => ?_⟩
    obtain ⟨z, hz, rfl⟩ := List.mem_map.mp hx
    rw [List.mem_singleton.mp hy]
    exact fun he => hp (he ▸ h.pending z hz)

theorem guarded_ready (h : Guarded w) (hr : w.ready st i = some (w', b)) : Guarded w' := by
  obtain ⟨b, hb, -, heq⟩ := Consensus.Tasks.Synchronizer.ready_eq hr
  cases heq
  refine ⟨fun x hx => ?_, h.nodup.sublist ((List.eraseIdx_sublist _ _).map _)⟩
  exact List.mem_filter.mpr ⟨h.pending x (List.mem_of_mem_eraseIdx hx),
    decide_eq_true (key_ne_of_mem_eraseIdx h.nodup hb hx)⟩

theorem guarded_failed (h : Guarded w) (hf : w.failed i = some w') : Guarded w' := by
  obtain ⟨b, -, rfl⟩ := Consensus.Tasks.Synchronizer.failed_eq hf
  exact ⟨fun x hx => h.pending x (List.mem_of_mem_eraseIdx hx),
    h.nodup.sublist ((List.eraseIdx_sublist _ _).map _)⟩

/-- **Step lemma.** -/
theorem guarded_step {e : SyncEvent C} (h : Guarded w) (hs : syncStep w e = some w') :
    Guarded w' := by
  cases e with
  | block now block =>
    cases hs
    exact guarded_handle h
  | ready st i =>
    obtain ⟨⟨w₁, b⟩, hr, rfl⟩ := Option.map_eq_some_iff.mp hs
    exact guarded_ready h hr
  | failed i => exact guarded_failed h hs
  | retry syncRetryDelay now =>
    cases hs
    exact ⟨h.pending, h.nodup⟩

theorem guarded_run {es : List (SyncEvent C)} (r : SyncRun .new es w) : Guarded w :=
  r.invariant ⟨by simp [Consensus.Tasks.Synchronizer.new],
    by simp [Consensus.Tasks.Synchronizer.new]⟩ fun _ _ _ h hs => guarded_step h hs

/-- A block whose waiter fails stays pending, and so it is lost. -/
theorem lost_failed (h : Guarded w) (hb : w.waiting[i]? = some b) (hf : w.failed i = some w') :
    Lost b.digest w' := by
  obtain ⟨b', hb', rfl⟩ := Consensus.Tasks.Synchronizer.failed_eq hf
  exact ⟨h.pending b (List.mem_of_getElem? hb),
    fun x hx => key_ne_of_mem_eraseIdx h.nodup hb hx⟩

theorem lost_step {e : SyncEvent C} (h : Lost d w) (hs : syncStep w e = some w') : Lost d w' := by
  cases e with
  | block now block =>
    cases hs
    by_cases hp : block.digest ∈ w.pending
    · rwa [handle_pending hp]
    · obtain ⟨hw, hpend⟩ := handle_fresh now hp
      refine ⟨by rw [hpend]; exact List.mem_cons_of_mem _ h.pending, fun x hx => ?_⟩
      rw [hw, List.mem_append, List.mem_singleton] at hx
      rcases hx with hx | rfl
      · exact h.waiting x hx
      · exact fun hd => hp (hd ▸ h.pending)
  | ready st i =>
    obtain ⟨r, hr, rfl⟩ := Option.map_eq_some_iff.mp hs
    obtain ⟨b, hb, -, rfl⟩ := Consensus.Tasks.Synchronizer.ready_eq hr
    refine ⟨?_, fun x hx => h.waiting x (List.mem_of_mem_eraseIdx hx)⟩
    exact List.mem_filter.mpr
      ⟨h.pending, decide_eq_true (h.waiting b (List.mem_of_getElem? hb)).symm⟩
  | failed i =>
    obtain ⟨b, -, rfl⟩ := Consensus.Tasks.Synchronizer.failed_eq hs
    exact ⟨h.pending, fun x hx => h.waiting x (List.mem_of_mem_eraseIdx hx)⟩
  | retry syncRetryDelay now =>
    cases hs
    exact ⟨h.pending, h.waiting⟩

/-- **A block whose waiter has failed is lost for good**: whatever happens later, it stays pending
and nobody waits with it, so that it is never delivered. -/
theorem lost_for_good {es es' : List (SyncEvent C)} {w₁ w₂ : Consensus.Tasks.Synchronizer C}
    (r : SyncRun .new es w) (hb : w.waiting[i]? = some b) (hf : w.failed i = some w₁)
    (r' : SyncRun w₁ es' w₂) : Lost b.digest w₂ :=
  r'.invariant (lost_failed (guarded_run r) hb hf) fun _ _ _ h hs => lost_step h hs

/-- A failure is never retriable. -/
theorem not_syncRetriable (h : Guarded w) (hf : w.failed i = some w') :
    ¬ SyncRetriable w (.failed i) := by
  obtain ⟨b, hb, -⟩ := Consensus.Tasks.Synchronizer.failed_eq hf
  exact fun hr => (hr b w' hb hf).1 (lost_failed h hb hf).pending

/-- **Run lemma.** -/
theorem syncRetriable_iff {es : List (SyncEvent C)} (r : SyncRun .new es w) :
    Every (fun w e w' => syncStep w e = some w') .new SyncRetriable es ↔ ∀ i, .failed i ∉ es := by
  induction r with
  | nil => exact iff_of_true every_nil (by simp)
  | @snoc es w e w' r hs ih =>
    rw [every_snoc (step_det _) r, ih]
    cases e with
    | failed i =>
      exact iff_of_false (fun h => not_syncRetriable (guarded_run r) hs h.2)
        fun h => h i (by simp)
    | block | ready | retry => simp [SyncRetriable]

end Sync

/-! ### The payload waiter -/

inductive PayloadEvent (C : Crypto) where
  | message (m : PayloadWaiterMessage C)
  | ready (st : Store C) (i : ℕ)
  | cancelled (i : ℕ)
  | failed (i : ℕ)

def payloadStep (w : PayloadWaiter C) : PayloadEvent C → Option (PayloadWaiter C)
  | .message m => some (w.handle m)
  | .ready st i => (w.ready st i).map Prod.fst
  | .cancelled i => w.cancelled i
  | .failed i => w.failed i

abbrev PayloadRun := Run fun (w : PayloadWaiter C) e w' => payloadStep w e = some w'

/-- If the waiter of a block fails, there is no entry for the block, and suspending it again
registers a new waiter. -/
def PayloadRetriable (w : PayloadWaiter C) : PayloadEvent C → Prop
  | .failed i => ∀ f w', w.waiting[i]? = some f → w.failed i = some w' →
      w'.pending f.deliver.digest = none ∧
        (w'.handle (.wait f.missing f.deliver)).waiting =
          w'.waiting ++ [⟨w'.nextHandler, f.missing, f.deliver⟩]
  | _ => True

/-- If the event is the failure of a waiter, its block is not pending. -/
def PayloadDropped (w : PayloadWaiter C) : PayloadEvent C → Prop
  | .failed i => ∀ f, w.waiting[i]? = some f → w.pending f.deliver.digest = none
  | _ => True

theorem payloadRetriable_iff (w : PayloadWaiter C) (e : PayloadEvent C) :
    PayloadRetriable w e ↔ PayloadDropped w e := by
  cases e with
  | failed i =>
    have hfailed : ∀ f, w.waiting[i]? = some f →
        w.failed i = some { w with waiting := w.waiting.eraseIdx i } := fun f hf =>
      if_pos (List.getElem?_eq_some_iff.mp hf).1
    constructor
    · intro h f hf
      exact (h f _ hf (hfailed f hf)).1
    · intro h f w' hf hw
      rw [hfailed f hf] at hw
      cases hw
      have hnone := h f hf
      refine ⟨hnone, ?_⟩
      rw [PayloadWaiter.handle, if_neg (by simp [hnone])]
  | message | ready | cancelled => exact Iff.rfl

/-! ### The mempool synchronizer -/

inductive BatchEvent (C : Crypto) where
  | message (now : Instant) (m : ConsensusMempoolMessage C)
  | ready (st : Store C) (i : ℕ)
  | cancelled (i : ℕ)
  | failed (i : ℕ)
  | retry (now : Instant)

variable (cfg : Config C)

def batchStep (s : Mempool.Synchronizer C) : BatchEvent C → Option (Mempool.Synchronizer C)
  | .message now m => some (s.handle cfg now m)
  | .ready st i => s.ready st i
  | .cancelled i => s.cancelled i
  | .failed i => s.failed i
  | .retry now => some (s.retry cfg now)

abbrev BatchRun := Run fun (s : Mempool.Synchronizer C) e s' => batchStep cfg s e = some s'

/-- If the waiter of a batch fails, there is no entry for the batch, and asking for it again
registers a new waiter. -/
def BatchRetriable (s : Mempool.Synchronizer C) : BatchEvent C → Prop
  | .failed i => ∀ f s', s.waiting[i]? = some f → s.failed i = some s' →
      f.1 ∉ s'.digests ∧ ∀ now target, (s'.handle cfg now (.synchronize [f.1] target)).waiting =
        s'.waiting ++ [(f.1, s'.nextHandler)]
  | _ => True

/-- If the event is the failure of a waiter, its batch is not pending. -/
def BatchDropped (s : Mempool.Synchronizer C) : BatchEvent C → Prop
  | .failed i => ∀ f, s.waiting[i]? = some f → f.1 ∉ s.digests
  | _ => True

variable {cfg}

/-- A digest that is not pending is registered. -/
theorem synchronize_waiting {s : Mempool.Synchronizer C} {d : C.Digest} (h : d ∉ s.digests)
    (now : Instant) (target : C.PublicKey) :
    (s.handle cfg now (.synchronize [d] target)).waiting = s.waiting ++ [(d, s.nextHandler)] := by
  unfold Mempool.Synchronizer.handle
  simp only [Mempool.Synchronizer.register, if_neg h]
  split_ifs <;> rfl

variable (cfg) in
theorem batchRetriable_iff (s : Mempool.Synchronizer C) (e : BatchEvent C) :
    BatchRetriable cfg s e ↔ BatchDropped s e := by
  cases e with
  | failed i =>
    have hfailed : ∀ f, s.waiting[i]? = some f →
        s.failed i = some { s with waiting := s.waiting.eraseIdx i } := fun f hf =>
      if_pos (List.getElem?_eq_some_iff.mp hf).1
    constructor
    · intro h f hf
      exact (h f _ hf (hfailed f hf)).1
    · intro h f s' hf hs
      rw [hfailed f hf] at hs
      cases hs
      have hno : f.1 ∉ ({ s with waiting := s.waiting.eraseIdx i } :
          Mempool.Synchronizer C).digests := h f hf
      exact ⟨hno, fun now target => synchronize_waiting hno now target⟩
  | message | ready | cancelled | retry => exact Iff.rfl

/-- **Failed waits can be retried exactly if** no waiter of the synchronizer of the consensus fails,
and no waiter of the other two tasks fails while its item is pending. At these two this holds step
by step, from any state, so that it does not matter whether the events can all happen. -/
theorem retriable_iff (cfg : Config C) :
    (∀ es (w : Consensus.Tasks.Synchronizer C), SyncRun .new es w →
      (Every (fun w e w' => syncStep w e = some w') .new SyncRetriable es ↔
        ∀ i, .failed i ∉ es)) ∧
    (∀ es : List (PayloadEvent C),
      Every (fun w e w' => payloadStep w e = some w') .new PayloadRetriable es ↔
        Every (fun w e w' => payloadStep w e = some w') .new PayloadDropped es) ∧
    ∀ es : List (BatchEvent C),
      Every (fun s e s' => batchStep cfg s e = some s') .new (BatchRetriable cfg) es ↔
        Every (fun s e s' => batchStep cfg s e = some s') .new BatchDropped es := by
  refine ⟨fun es w r => syncRetriable_iff r, fun es => ?_, fun es => ?_⟩
  · simp only [Every, payloadRetriable_iff]
  · simp only [Every, batchRetriable_iff]

/-! ### A read that fails -/

/-- A batch that is not in the store. -/
def absent : crypto.Digest := crypto.batchDigest (7 : ℕ)

/-- A block whose parent and whose batch are not in the store. -/
def orphan : Block crypto := Block.new ⟨.leaf 5, 1, []⟩ none (key 1) 2 [absent]

def smallConfig : Config crypto := ⟨50, 5000, 3, []⟩

theorem retriable_orphan :
    (Every (fun w e w' => syncStep w e = some w') .new SyncRetriable [.block 0 orphan] ↔
      ∀ i, .failed i ∉ [SyncEvent.block 0 orphan]) ∧
    (Every (fun w e w' => payloadStep w e = some w') .new PayloadRetriable
        [.message (.wait [absent] orphan), .message (.cleanup 2), .failed 0] ↔
      Every (fun w e w' => payloadStep w e = some w') .new PayloadDropped
        [.message (.wait [absent] orphan), .message (.cleanup 2), .failed 0]) ∧
    (Every (fun s e s' => batchStep smallConfig s e = some s') .new (BatchRetriable smallConfig)
        [.message 0 (.synchronize [absent] (key 1)), .failed 0] ↔
      Every (fun s e s' => batchStep smallConfig s e = some s') .new BatchDropped
        [.message 0 (.synchronize [absent] (key 1)), .failed 0]) :=
  ⟨(retriable_iff smallConfig).1 _ _ (.snoc .nil rfl),
    (retriable_iff smallConfig).2.1 _, (retriable_iff smallConfig).2.2 _⟩

/-- At each task the first waiter fails: the entry stays, and the item is not suspended again. -/
theorem exists_not_retriable :
    (∃ w w', SyncRun .new [.block 0 orphan] w ∧ w.failed 0 = some w' ∧ w'.waiting = [] ∧
      (∀ now, w'.handle now orphan = w') ∧ ¬ SyncRetriable w (.failed 0)) ∧
    (∃ w w', PayloadRun .new [.message (.wait [absent] orphan)] w ∧ w.failed 0 = some w' ∧
      w'.waiting = [] ∧ w'.handle (.wait [absent] orphan) = w' ∧
      ¬ PayloadRetriable w (.failed 0)) ∧
    ∃ s s', BatchRun smallConfig .new [.message 0 (.synchronize [absent] (key 1))] s ∧
      s.failed 0 = some s' ∧ s'.waiting = [] ∧ ¬ BatchRetriable smallConfig s (.failed 0) := by
  have hsync : SyncRun .new [.block 0 orphan] (Consensus.Tasks.Synchronizer.new.handle 0 orphan) :=
    run_of_exec _ _ _ rfl
  refine ⟨⟨_, _, hsync, rfl, rfl, fun now => handle_pending ?_,
      not_syncRetriable (guarded_run hsync) rfl⟩,
    ⟨_, _, run_of_exec _ _ _ rfl, rfl, rfl, ?_, fun h => ?_⟩,
    ⟨_, _, run_of_exec _ _ _ rfl, rfl, rfl, fun h => ?_⟩⟩
  · exact (guarded_run hsync).pending orphan (List.mem_singleton_self _)
  · rw [PayloadWaiter.handle]
    exact if_pos (by decide)
  · exact absurd ((payloadRetriable_iff _ _).mp h _ rfl) (by decide)
  · exact (batchRetriable_iff smallConfig _ _).mp h (absent, 0) rfl (by decide)

end Hotstuff.Mempool.Retrying
