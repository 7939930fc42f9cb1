import Hotstuff.Mempool.QuorumWaiter

/-! # Extra dissemination

When a batch has reached its quorum, the cancel handlers that are left go to `pending`, where they
live until they resolve or a deadline passes; dropping them would stop the transmission of the
batch to the slower authorities. The queue is meant to be bounded by `DISSEMINATION_QUEUE_MAX`, but
the test of the bound is the wrong way round. As the counter starts at zero the queue stays empty
(`idle_run`), and the handlers that are left are dropped each time (`kept_iff`). -/

namespace Hotstuff.Mempool.QuorumWaiter

open Hotstuff.Primitives Hotstuff.Consensus.Config Hotstuff.Lib.Transition Hotstuff.Ideal

variable {C : Crypto} {name : C.PublicKey} {c : Committee C} {s s' : QuorumWaiter C} {e : Event C}

/-- The handler is kept by a future of `pending`. -/
def Alive (s : QuorumWaiter C) (h : C.PublicKey × CancelHandler) : Prop :=
  ∃ d ∈ s.pending, h ∈ d.waitForQuorum

/-- The handlers that are unresolved when the event makes the batch reach its quorum. -/
def leftOver (c : Committee C) (s : QuorumWaiter C) : Event C → List (C.PublicKey × CancelHandler)
  | .resolve i _ _ =>
    match s.waiting with
    | none => []
    | some w =>
      match w.waitForQuorum[i]? with
      | none => []
      | some (peer, _) =>
        if c.quorumThreshold ≤ w.totalStake + c.stake peer then w.waitForQuorum.eraseIdx i else []
  | _ => []

/-- The `i`-th handler of the `j`-th future of `pending` is released by the event: it resolves, or
the deadline has passed. -/
def Released (j : ℕ) (d : Dissemination C) (h : C.PublicKey × CancelHandler) :
    Event C → Prop
  | .pendingResolved j' i => j' = j ∧ d.waitForQuorum[i]? = some h
  | .pendingDone j' now => j' = j ∧ d.deadline ≤ now
  | _ => False

/-- **The handlers are kept**: those that are left go to `pending`, unless it is full, and those in
`pending` stay there until they are released. -/
def Kept (c : Committee C) (name : C.PublicKey) (s : QuorumWaiter C) (e : Event C) : Prop :=
  ∀ s', s.step c name e = some s' →
    (s.pendingCounter < disseminationQueueMax → ∀ h ∈ leftOver c s e, Alive s' h) ∧
    ∀ j d, s.pending[j]? = some d → ∀ h ∈ d.waitForQuorum, Alive s' h ∨ Released j d h e

/-! ### The queue stays empty -/

/-- No handlers are kept. -/
def Idle (s : QuorumWaiter C) : Prop := s.pending = [] ∧ s.pendingCounter = 0

theorem idle_disseminate (h : Idle s) (rest : List (C.PublicKey × CancelHandler)) (now : Instant) :
    Idle (s.disseminate rest now) := by
  rcases s.disseminate_cases rest now with heq | ⟨hfull, -⟩
  · rw [heq]
    exact h
  · rw [h.2] at hfull
    exact absurd hfull (by decide)

/-- **A step.** -/
theorem idle_step (h : Idle s) (hs : s.step c name e = some s') : Idle s' := by
  cases e with
  | put message => cases hs; exact h
  | receive => obtain ⟨_, _, -, -, rfl⟩ := receive_cases hs; exact h
  | resolve i acked now =>
    obtain ⟨w, peer, handler, -, -, ⟨-, rfl⟩ | ⟨-, rfl⟩⟩ := resolve_cases hs
    · refine idle_disseminate ?_ _ _
      exact h
    · exact h
  | exhausted now =>
    obtain ⟨w, -, -, rfl⟩ := exhausted_cases hs
    refine idle_disseminate ?_ _ _
    exact h
  | pendingResolved j i =>
    obtain ⟨d, hd, -⟩ := pendingResolved_cases hs
    simp [h.1] at hd
  | pendingDone j now =>
    obtain ⟨d, -, hd, -⟩ := pendingDone_cases hs
    simp [h.1] at hd

variable {es : List (Event C)}

/-- **Run lemma.** -/
theorem idle_run (r : WaiterRun c name es s) : Idle s :=
  r.invariant ⟨rfl, rfl⟩ fun _ _ _ h hs => idle_step h hs

/-! ### What is dropped -/

theorem exists_step_of_leftOver (h : leftOver c s e ≠ []) : ∃ s', s.step c name e = some s' := by
  cases e with
  | resolve i acked now =>
    unfold leftOver at h
    unfold step resolve
    rcases hw : s.waiting with _ | w
    · simp [hw] at h
    rcases hi : w.waitForQuorum[i]? with _ | ⟨peer, handler⟩
    · simp [hw, hi] at h
    simp only [hi]
    split_ifs
    · exact ⟨_, rfl⟩
    · exact ⟨_, rfl⟩
  | _ => exact absurd rfl h

/-- A state with an empty queue keeps the handlers if there are none. -/
theorem kept_iff_of_idle (h : Idle s) : Kept c name s e ↔ leftOver c s e = [] := by
  constructor
  · intro hk
    by_contra hne
    obtain ⟨s', hs⟩ := exists_step_of_leftOver hne
    obtain ⟨x, hx⟩ := List.exists_mem_of_ne_nil _ hne
    obtain ⟨d, hd, -⟩ := (hk s' hs).1 (by rw [h.2]; decide) x hx
    rw [(idle_step h hs).1] at hd
    cases hd
  · intro hnil s' _
    refine ⟨fun _ x hx => ?_, fun j d hd => ?_⟩
    · rw [hnil] at hx
      cases hx
    · rw [h.1] at hd
      cases hd

/-- **When the handlers are kept.** In every run the counter is the number of the futures in
`pending`, and below the bound; and the handlers are kept at every step if and only if no batch
reaches its quorum before all its handlers have resolved. -/
theorem kept_iff (r : WaiterRun c name es s) :
    (s.pendingCounter = s.pending.length ∧ s.pendingCounter ≤ disseminationQueueMax ∧
      Every (fun s e s' => s.step c name e = some s') new (Kept c name) es) ↔
    Every (fun s e s' => s.step c name e = some s') new (fun s e => leftOver c s e = []) es := by
  obtain ⟨hnil, hzero⟩ := idle_run r
  constructor
  · rintro ⟨-, -, hk⟩ es₁ e es₂ s₁ hes r₁
    exact (kept_iff_of_idle (idle_run r₁)).mp (hk es₁ e es₂ s₁ hes r₁)
  · intro hk
    refine ⟨by rw [hnil, hzero]; rfl, by rw [hzero]; exact Nat.zero_le _, ?_⟩
    intro es₁ e es₂ s₁ hes r₁
    exact (kept_iff_of_idle (idle_run r₁)).mpr (hk es₁ e es₂ s₁ hes r₁)

/-- Two handlers are enough for a quorum of four, and there are no others. -/
def twoMessage : QuorumWaiterMessage crypto := ⟨[], [(key 1, 0), (key 2, 1)]⟩

def twoEvents : List (Event crypto) :=
  [.put twoMessage, .receive, .resolve 1 true 0, .resolve 0 true 0]

theorem kept_iff_two : ∃ s : QuorumWaiter crypto,
    WaiterRun (four 0).committee (key 0) twoEvents s ∧ s.txBatch.length = 1 ∧
      Every (fun s e s' => s.step (four 0).committee (key 0) e = some s') new
        (Kept (four 0).committee (key 0)) twoEvents := by
  have r := run_of_exec fourStep twoEvents new rfl
  refine ⟨_, r, rfl, ((kept_iff r).mpr ?_).2.2⟩
  have hdet := step_det fourStep
  exact every_cons hdet rfl rfl (every_cons hdet rfl rfl (every_cons hdet rfl rfl
    (every_cons hdet rfl rfl every_nil)))

/-- The third authority has not acknowledged the batch when its handler is dropped. -/
theorem exists_not_kept : ¬ ∀ (c : Committee crypto) (name : crypto.PublicKey)
    (es : List (Event crypto)) (s : QuorumWaiter crypto), WaiterRun c name es s →
    s.pendingCounter = s.pending.length ∧ s.pendingCounter ≤ disseminationQueueMax ∧
      Every (fun s e s' => s.step c name e = some s') new (Kept c name) es := by
  intro h
  have r := run_of_exec fourStep fourEvents new rfl
  have r₃ := run_of_exec fourStep (fourEvents.take 3) new rfl
  have hk := (h (four 0).committee (key 0) _ _ r).2.2 _ (.resolve 0 true 0) [] _ rfl r₃
  have hnil := (kept_iff_of_idle (idle_run r₃)).mp hk
  exact absurd hnil (by decide)

end Hotstuff.Mempool.QuorumWaiter
