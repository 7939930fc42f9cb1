import Hotstuff.Consensus.Config
import Hotstuff.Ideal
import Hotstuff.Lib.Transition
import Hotstuff.Mempool.BatchMaker

/-! # Waiting for a quorum

The task of `mempool/src/quorum_waiter.rs`. It takes the batches of the batch maker one at a time,
waits for the cancel handlers of the broadcast, and hands the batch to the processor when the stakes
of the node and of the authorities whose handler has resolved reach the threshold. Handlers resolve
in any order, with an acknowledgement or because their sender was dropped.

The threshold is tested after each handler, but not before the first one, and `waiter` does not look
at how its handler resolved. So a batch is sent when it should be if and only if the stake of the
node is below the threshold and, whenever the stakes of the handlers that have resolved reach it,
those of the acknowledgements do (`gated_iff`). -/

namespace Hotstuff.Mempool

open Hotstuff.Primitives Hotstuff.Consensus.Config Hotstuff.Lib.Transition Hotstuff.Ideal

variable {C : Crypto}

namespace QuorumWaiter

/-- Extra batch dissemination time for the f last nodes, in milliseconds. -/
def disseminationDeadline : ℕ := 500

/-- Bounds the queue handling the extra dissemination. -/
def disseminationQueueMax : ℕ := 10000

/-- A future of `pending`, with the handlers that it keeps. -/
structure Dissemination (C : Crypto) where
  waitForQuorum : List (C.PublicKey × CancelHandler)
  deadline : Instant

/-- The batch whose handlers are being waited for. -/
structure Waiting (C : Crypto) where
  message : QuorumWaiterMessage C
  waitForQuorum : List (C.PublicKey × CancelHandler)
  totalStake : Stake
  /-- The owners of the handlers that have resolved, with whether there was an acknowledgement. -/
  resolved : List (C.PublicKey × Bool)

/-- What became of a batch: its handlers that resolved, in order, and after how many of them it was
sent. -/
structure Record (C : Crypto) where
  message : QuorumWaiterMessage C
  resolved : List (C.PublicKey × Bool)
  sent : List ℕ

end QuorumWaiter

open QuorumWaiter

structure QuorumWaiter (C : Crypto) where
  rxMessage : List (QuorumWaiterMessage C)
  waiting : Option (Waiting C)
  pending : List (Dissemination C)
  pendingCounter : ℕ
  txBatch : List SerializedBatchMessage
  /-- The history of the batches that are no longer waited for. -/
  records : List (Record C)

namespace QuorumWaiter

variable (c : Committee C) (name : C.PublicKey)

def new : QuorumWaiter C := ⟨[], none, [], 0, [], []⟩

/-- The arm of `run` for messages, up to the loop. -/
def receive (s : QuorumWaiter C) : Option (QuorumWaiter C) :=
  match s.waiting, s.rxMessage with
  | none, message :: messages =>
    some { s with
      rxMessage := messages
      waiting := some ⟨message, message.handlers, c.stake name, []⟩ }
  | _, _ => none

/-- What follows the loop: the handlers that are left are kept for some time, or dropped. -/
def disseminate (s : QuorumWaiter C) (waitForQuorum : List (C.PublicKey × CancelHandler))
    (now : Instant) : QuorumWaiter C :=
  if disseminationQueueMax ≤ s.pendingCounter then
    { s with
      pending := s.pending ++ [⟨waitForQuorum, now + disseminationDeadline⟩]
      pendingCounter := s.pendingCounter + 1 }
  else s

/-- The state of the loop after the `i`-th handler has resolved. -/
def Waiting.resolve (w : Waiting C) (i : ℕ) (peer : C.PublicKey) (acked : Bool) :
    Waiting C :=
  { w with
    waitForQuorum := w.waitForQuorum.eraseIdx i
    totalStake := w.totalStake + c.stake peer
    resolved := w.resolved ++ [(peer, acked)] }

/-- The loop takes the `i`-th handler, which has resolved. -/
def resolve (s : QuorumWaiter C) (i : ℕ) (acked : Bool) (now : Instant) :
    Option (QuorumWaiter C) :=
  match s.waiting with
  | none => none
  | some w =>
    match w.waitForQuorum[i]? with
    | none => none
    | some (peer, _) =>
      let w := w.resolve c i peer acked
      if c.quorumThreshold ≤ w.totalStake then
        some (disseminate { s with
          waiting := none
          txBatch := s.txBatch ++ [w.message.batch]
          records := s.records ++ [⟨w.message, w.resolved, [w.resolved.length]⟩] }
          w.waitForQuorum now)
      else some { s with waiting := some w }

/-- The loop ends because no handlers are left. -/
def exhausted (s : QuorumWaiter C) (now : Instant) : Option (QuorumWaiter C) :=
  match s.waiting with
  | none => none
  | some w =>
    if w.waitForQuorum.isEmpty then
      some (disseminate { s with
        waiting := none
        records := s.records ++ [⟨w.message, w.resolved, []⟩] } w.waitForQuorum now)
    else none

/-- The `i`-th handler of the `j`-th future of `pending` resolves. -/
def pendingResolved (s : QuorumWaiter C) (j i : ℕ) : Option (QuorumWaiter C) :=
  match s.pending[j]? with
  | none => none
  | some d =>
    if i < d.waitForQuorum.length then
      some { s with
        pending := s.pending.set j { d with waitForQuorum := d.waitForQuorum.eraseIdx i } }
    else none

/-- The arm of `run` for `pending`: the `j`-th future completes. -/
def pendingDone (s : QuorumWaiter C) (j : ℕ) (now : Instant) : Option (QuorumWaiter C) :=
  match s.waiting, s.pending[j]? with
  | none, some d =>
    if d.waitForQuorum.isEmpty ∨ d.deadline ≤ now then
      some { s with
        pending := s.pending.eraseIdx j
        pendingCounter := if 0 < s.pendingCounter then s.pendingCounter - 1 else s.pendingCounter }
    else none
  | _, _ => none

inductive Event (C : Crypto) where
  /-- The batch maker sends a message. -/
  | put (message : QuorumWaiterMessage C)
  | receive
  | resolve (i : ℕ) (acked : Bool) (now : Instant)
  | exhausted (now : Instant)
  | pendingResolved (j i : ℕ)
  | pendingDone (j : ℕ) (now : Instant)

def step (s : QuorumWaiter C) : Event C → Option (QuorumWaiter C)
  | .put message => some { s with rxMessage := s.rxMessage ++ [message] }
  | .receive => s.receive c name
  | .resolve i acked now => s.resolve c i acked now
  | .exhausted now => s.exhausted now
  | .pendingResolved j i => s.pendingResolved j i
  | .pendingDone j now => s.pendingDone j now

/-- The events `es` lead from the start to `s`. -/
abbrev WaiterRun (c : Committee C) (name : C.PublicKey) : List (Event C) → QuorumWaiter C → Prop :=
  Run (fun s e s' => s.step c name e = some s') new

/-! ### Steps -/

section Steps

variable {c} {name} {s s' : QuorumWaiter C} {w : Waiting C}

theorem disseminate_cases (rest : List (C.PublicKey × CancelHandler)) (now : Instant) :
    s.disseminate rest now = s ∨ (disseminationQueueMax ≤ s.pendingCounter ∧
      s.disseminate rest now = { s with
        pending := s.pending ++ [⟨rest, now + disseminationDeadline⟩]
        pendingCounter := s.pendingCounter + 1 }) := by
  unfold disseminate
  split_ifs with h
  · exact .inr ⟨h, rfl⟩
  · exact .inl rfl

theorem receive_cases (h : s.receive c name = some s') : ∃ message messages,
    s.waiting = none ∧ s.rxMessage = message :: messages ∧ s' = { s with
      rxMessage := messages
      waiting := some ⟨message, message.handlers, c.stake name, []⟩ } := by
  unfold receive at h
  split at h
  · exact ⟨_, _, ‹_›, ‹_›, (Option.some.inj h).symm⟩
  · cases h

theorem resolve_cases {i : ℕ} {acked : Bool} {now : Instant}
    (h : s.resolve c i acked now = some s') :
    ∃ w peer handler, s.waiting = some w ∧ w.waitForQuorum[i]? = some (peer, handler) ∧
      ((c.quorumThreshold ≤ w.totalStake + c.stake peer ∧ s' = disseminate { s with
            waiting := none
            txBatch := s.txBatch ++ [w.message.batch]
            records := s.records ++ [⟨w.message, w.resolved ++ [(peer, acked)],
              [w.resolved.length + 1]⟩] } (w.waitForQuorum.eraseIdx i) now) ∨
        (¬ c.quorumThreshold ≤ w.totalStake + c.stake peer ∧
          s' = { s with waiting := some (w.resolve c i peer acked) })) := by
  unfold resolve at h
  split at h
  · cases h
  rename_i w hw
  split at h
  · cases h
  rename_i peer handler hi
  refine ⟨w, peer, handler, hw, hi, ?_⟩
  dsimp only at h
  split_ifs at h with hq
  · refine .inl ⟨hq, ?_⟩
    have hlen : (w.resolve c i peer acked).resolved.length = w.resolved.length + 1 := by
      simp [Waiting.resolve]
    rw [← Option.some.inj h, hlen]
    rfl
  · exact .inr ⟨hq, (Option.some.inj h).symm⟩

theorem exhausted_cases {now : Instant} (h : s.exhausted now = some s') : ∃ w,
    s.waiting = some w ∧ w.waitForQuorum = [] ∧ s' = disseminate { s with
      waiting := none
      records := s.records ++ [⟨w.message, w.resolved, []⟩] } [] now := by
  unfold exhausted at h
  split at h
  · cases h
  rename_i w hw
  split_ifs at h with hempty
  have hnil := List.isEmpty_iff.mp hempty
  rw [hnil] at h
  exact ⟨w, hw, hnil, (Option.some.inj h).symm⟩

theorem pendingResolved_cases {j i : ℕ} (h : s.pendingResolved j i = some s') : ∃ d,
    s.pending[j]? = some d ∧ s' = { s with
      pending := s.pending.set j { d with waitForQuorum := d.waitForQuorum.eraseIdx i } } := by
  unfold pendingResolved at h
  split at h
  · cases h
  rename_i d hd
  split_ifs at h
  exact ⟨d, hd, (Option.some.inj h).symm⟩

theorem pendingDone_cases {j : ℕ} {now : Instant} (h : s.pendingDone j now = some s') : ∃ d,
    s.waiting = none ∧ s.pending[j]? = some d ∧ s' = { s with
      pending := s.pending.eraseIdx j
      pendingCounter :=
        if 0 < s.pendingCounter then s.pendingCounter - 1 else s.pendingCounter } := by
  unfold pendingDone at h
  split at h
  · rename_i d hw hd
    split at h
    · exact ⟨d, hw, hd, (Option.some.inj h).symm⟩
    · cases h
  · cases h

end Steps

/-! ### Stakes -/

/-- The stakes of the owners of handlers. -/
def stakes (l : List (C.PublicKey × Bool)) : ℕ := (l.map fun x => (c.stake x.1).toNat).sum

/-- The authorities of which a handler resolved with an acknowledgement. -/
def acked (l : List (C.PublicKey × Bool)) : Finset C.PublicKey :=
  ((l.filter Prod.snd).map Prod.fst).toFinset

theorem stakes_concat (l : List (C.PublicKey × Bool)) (x : C.PublicKey × Bool) :
    stakes c (l ++ [x]) = stakes c l + (c.stake x.1).toNat := by
  simp [stakes]

theorem weight_acked_le (l : List (C.PublicKey × Bool)) : c.weight (acked l) ≤ stakes c l := by
  have hle := weight_toFinset_le c ((l.filter Prod.snd).map Prod.fst)
  rw [List.map_map, List.map_map] at hle
  exact hle.trans ((List.filter_sublist.map _).sum_le_sum fun _ _ => Nat.zero_le _)

/-! ### When a batch is sent -/

namespace Record

variable {c} {name}

/-- **The batch is sent by a quorum of acknowledgements**: at most once, and, after any number of
handlers have resolved, it has been sent if and only if the stakes of the node and of the
authorities that have acknowledged it reach the threshold. -/
structure Gated (c : Committee C) (name : C.PublicKey) (r : Record C) : Prop where
  once : r.sent.length ≤ 1
  gated : ∀ k ≤ r.resolved.length, (∃ n ∈ r.sent, n ≤ k) ↔
    c.quorumThreshold.toNat ≤ (c.stake name).toNat + c.weight (acked (r.resolved.take k))

/-- The stake of the node is below the threshold, and the stakes of the handlers that have resolved
do not reach it before those of the authorities that have acknowledged do. -/
def AcksDecide (c : Committee C) (name : C.PublicKey) (r : Record C) : Prop :=
  (c.stake name).toNat < c.quorumThreshold.toNat ∧ ∀ k ≤ r.resolved.length,
    c.quorumThreshold.toNat ≤ (c.stake name).toNat + stakes c (r.resolved.take k) →
    c.quorumThreshold.toNat ≤ (c.stake name).toNat + c.weight (acked (r.resolved.take k))

instance (c : Committee C) (name : C.PublicKey) (r : Record C) :
    Decidable (r.AcksDecide c name) := by
  unfold AcksDecide; infer_instance

/-- What the loop does: it sends the batch after the first handler with which the stakes reach the
threshold. -/
structure Sends (c : Committee C) (name : C.PublicKey) (r : Record C) : Prop where
  once : r.sent.length ≤ 1
  sent : ∀ k ≤ r.resolved.length, (∃ n ∈ r.sent, n ≤ k) ↔ 0 < k ∧
    c.quorumThreshold.toNat ≤ (c.stake name).toNat + stakes c (r.resolved.take k)

theorem Sends.iff_acksDecide {r : Record C} (h : r.Sends c name) :
    r.Gated c name ↔ r.AcksDecide c name := by
  have hle := fun k => weight_acked_le c (r.resolved.take k)
  constructor
  · intro hg
    have hown : (c.stake name).toNat < c.quorumThreshold.toNat := by
      by_contra hge
      have hsent := (hg.gated 0 (Nat.zero_le _)).mpr (by omega)
      exact absurd ((h.sent 0 (Nat.zero_le _)).mp hsent).1 (lt_irrefl 0)
    refine ⟨hown, fun k hk hreach => (hg.gated k hk).mp ((h.sent k hk).mpr ⟨?_, hreach⟩)⟩
    rcases Nat.eq_zero_or_pos k with rfl | hpos
    · simp only [List.take_zero, stakes, List.map_nil, List.sum_nil] at hreach
      omega
    · exact hpos
  · rintro ⟨hown, hdecide⟩
    refine ⟨h.once, fun k hk => ⟨fun hsent => hdecide k hk ((h.sent k hk).mp hsent).2,
      fun hreach => (h.sent k hk).mpr ⟨?_, hreach.trans (Nat.add_le_add_left (hle k) _)⟩⟩⟩
    rcases Nat.eq_zero_or_pos k with rfl | hpos
    · exact absurd (hreach.trans (Nat.add_le_add_left (hle 0) _)) (not_le.mpr (by simpa [stakes]))
    · exact hpos

variable {m : QuorumWaiterMessage C} {l : List (C.PublicKey × Bool)}

theorem sends_nil : (⟨m, [], []⟩ : Record C).Sends c name := by
  refine ⟨Nat.zero_le _, fun k hk => iff_of_false (by simp) fun h => ?_⟩
  rw [List.length_nil] at hk
  omega

/-- One more handler resolves. -/
theorem Sends.concat (h : (⟨m, l, []⟩ : Record C).Sends c name) (x : C.PublicKey × Bool)
    {sent : List ℕ} (hsent : if c.quorumThreshold.toNat ≤ (c.stake name).toNat +
      stakes c (l ++ [x]) then sent = [l.length + 1] else sent = []) :
    (⟨m, l ++ [x], sent⟩ : Record C).Sends c name := by
  have hold : ∀ k ≤ l.length, 0 < k → ¬ c.quorumThreshold.toNat ≤ (c.stake name).toNat +
      stakes c (l.take k) := fun k hk hpos hreach => by
    simpa using (h.sent k hk).mpr ⟨hpos, hreach⟩
  refine ⟨by split_ifs at hsent <;> simp [hsent], fun k hk => ?_⟩
  rw [List.length_append, List.length_singleton] at hk
  rcases Nat.lt_or_ge l.length k with hlt | hle
  · -- all handlers
    have hk' : k = (l ++ [x]).length := by simp; omega
    dsimp only
    rw [hk', List.take_length]
    split_ifs at hsent with hreach
    · exact iff_of_true ⟨_, by rw [hsent]; exact List.mem_singleton_self _, by simp⟩
        ⟨by simp, hreach⟩
    · exact iff_of_false (by simp [hsent]) fun h => hreach h.2
  · dsimp only
    rw [List.take_append_of_le_length hle]
    refine iff_of_false ?_ fun h => hold k hle h.1 h.2
    rintro ⟨n, hn, hnk⟩
    split_ifs at hsent with hreach
    · rw [hsent, List.mem_singleton] at hn
      omega
    · simp [hsent] at hn

end Record

/-! ### Runs -/

/-- The record of a batch that is being waited for. -/
def Waiting.record (w : Waiting C) : Record C := ⟨w.message, w.resolved, []⟩

/-- What became of the batches so far. -/
def history (s : QuorumWaiter C) : List (Record C) :=
  s.records ++ s.waiting.toList.map Waiting.record

def Event.message : Event C → Option (QuorumWaiterMessage C)
  | .put message => some message
  | _ => none

variable {c} {name}

/-- The stake of the node and those of the handlers that have resolved are counted. -/
structure Waiting.Counts (c : Committee C) (name : C.PublicKey) (w : Waiting C) : Prop where
  total : w.totalStake.toNat = (c.stake name).toNat + stakes c w.resolved
  sends : w.record.Sends c name

section Counts

variable (hno : c.NoOverflow) {w : Waiting C} (h : w.Counts c name)
include hno h

/-- As long as the batch has not been sent, the total stake is at most that of the committee. -/
theorem Waiting.Counts.le_total : (c.stake name).toNat + stakes c w.resolved ≤ c.total := by
  rcases Nat.eq_zero_or_pos w.resolved.length with hnil | hpos
  · rw [List.length_eq_zero_iff.mp hnil]
    simpa [stakes] using stake_le_total c name
  · have hnot : ¬ c.quorumThreshold.toNat ≤ (c.stake name).toNat + stakes c w.resolved := by
      intro hreach
      have hsent := (h.sends.sent w.resolved.length (le_refl _)).mpr
        ⟨hpos, by simpa [Waiting.record] using hreach⟩
      simp [Waiting.record] at hsent
    have hthr := toNat_threshold hno
    omega

/-- **A handler resolves**: the total stake does not wrap. -/
theorem Waiting.Counts.resolve_total (peer : C.PublicKey) (acked : Bool) :
    (w.totalStake + c.stake peer).toNat =
      (c.stake name).toNat + stakes c (w.resolved ++ [(peer, acked)]) := by
  have hle := h.le_total hno
  have hpeer := stake_le_total c peer
  have hfits : 2 * c.total < 2 ^ 32 := hno
  rw [stakes_concat, UInt32.toNat_add, h.total, Nat.mod_eq_of_lt (by omega)]
  exact Nat.add_assoc _ _ _

end Counts

/-- The state agrees with the history, for the messages `messages`. -/
structure Tracks (c : Committee C) (name : C.PublicKey) (messages : List (QuorumWaiterMessage C))
    (s : QuorumWaiter C) : Prop where
  records : ∀ r ∈ s.records, r.Sends c name
  waiting : ∀ w, s.waiting = some w → w.Counts c name
  messages : s.history.map Record.message ++ s.rxMessage = messages
  txBatch : s.txBatch = s.records.flatMap fun r => r.sent.map fun _ => r.message.batch

theorem tracks_new : Tracks c name [] (new : QuorumWaiter C) :=
  ⟨fun _ hr => absurd hr List.not_mem_nil, fun _ hw => (nomatch hw), rfl, rfl⟩

section Step

variable {messages : List (QuorumWaiterMessage C)} {s s' : QuorumWaiter C}

/-- The futures of `pending` do not matter for the batches. -/
theorem Tracks.pending (h : Tracks c name messages s) (pending : List (Dissemination C)) (n : ℕ) :
    Tracks c name messages { s with pending := pending, pendingCounter := n } :=
  ⟨h.records, h.waiting, h.messages, h.txBatch⟩

theorem Tracks.disseminate (h : Tracks c name messages s)
    (rest : List (C.PublicKey × CancelHandler)) (now : Instant) :
    Tracks c name messages (s.disseminate rest now) := by
  rcases s.disseminate_cases rest now with heq | ⟨-, heq⟩ <;> rw [heq]
  · exact h
  · exact h.pending _ _

/-- A batch that is waited for becomes a record. -/
theorem Tracks.close (h : Tracks c name messages s) {w : Waiting C} (hw : s.waiting = some w)
    {r : Record C} (hr : r.Sends c name) (hm : r.message = w.message) :
    Tracks c name messages { s with
      waiting := none
      txBatch := s.txBatch ++ r.sent.map fun _ => r.message.batch
      records := s.records ++ [r] } := by
  refine ⟨?_, fun _ hw => (nomatch hw), ?_, ?_⟩
  · intro r' hr'
    rcases List.mem_append.mp hr' with hr' | hr'
    · exact h.records r' hr'
    · rw [List.mem_singleton.mp hr']
      exact hr
  · rw [← h.messages]
    simp [history, hw, hm, Waiting.record]
  · simp [h.txBatch]

/-- The event brings no message. -/
theorem Tracks.of_silent {e : Event C} (he : e.message = none) (h : Tracks c name messages s) :
    Tracks c name (messages ++ e.message.toList) s := by
  rw [he]
  simpa using h

/-- **A step.** -/
theorem tracks_step (hno : c.NoOverflow) (h : Tracks c name messages s) {e : Event C}
    (hs : s.step c name e = some s') : Tracks c name (messages ++ e.message.toList) s' := by
  cases e with
  | put message =>
    cases hs
    refine ⟨h.records, h.waiting, ?_, h.txBatch⟩
    rw [← h.messages, List.append_assoc]
    rfl
  | receive =>
    obtain ⟨message, rest, hw, hrx, rfl⟩ := receive_cases hs
    refine .of_silent rfl ⟨h.records, ?_, ?_, h.txBatch⟩
    · rintro w ⟨⟩
      exact ⟨rfl, Record.sends_nil⟩
    · rw [← h.messages, hrx]
      simp [history, hw, Waiting.record]
  | resolve i acked now =>
    refine .of_silent rfl ?_
    obtain ⟨w, peer, handler, hw, -, hcases⟩ := resolve_cases hs
    have hcounts := h.waiting w hw
    have htotal := hcounts.resolve_total hno peer acked
    rw [UInt32.le_iff_toNat_le, htotal] at hcases
    rcases hcases with ⟨hreach, rfl⟩ | ⟨hreach, rfl⟩
    · refine Tracks.disseminate ?_ _ _
      exact h.close hw (hcounts.sends.concat (peer, acked) (by rw [if_pos hreach])) rfl
    · refine ⟨h.records, ?_, ?_, h.txBatch⟩
      · rintro w' ⟨⟩
        exact ⟨htotal, hcounts.sends.concat (peer, acked) (by rw [if_neg hreach])⟩
      · rw [← h.messages]
        simp [history, hw, Waiting.record, Waiting.resolve]
  | exhausted now =>
    refine .of_silent rfl ?_
    obtain ⟨w, hw, -, rfl⟩ := exhausted_cases hs
    refine Tracks.disseminate ?_ _ _
    have hclose := h.close hw (h.waiting w hw).sends rfl
    simpa [Waiting.record] using hclose
  | pendingResolved j i =>
    refine .of_silent rfl ?_
    obtain ⟨d, -, rfl⟩ := pendingResolved_cases hs
    exact h.pending _ _
  | pendingDone j now =>
    refine .of_silent rfl ?_
    obtain ⟨d, -, -, rfl⟩ := pendingDone_cases hs
    exact h.pending _ _

end Step

variable {es : List (Event C)} {s : QuorumWaiter C}

/-- **Run lemma.** -/
theorem tracks_run (hno : c.NoOverflow) (r : WaiterRun c name es s) :
    Tracks c name (es.filterMap Event.message) s := by
  induction r with
  | nil => exact tracks_new
  | @snoc es s e s' r hs ih =>
    have hstep := tracks_step hno ih hs
    rw [List.filterMap_append]
    rcases he : e.message with _ | m <;> simpa [he] using hstep

theorem sends_history (h : Tracks c name (es.filterMap Event.message) s) {r : Record C}
    (hr : r ∈ s.history) : r.Sends c name := by
  rcases List.mem_append.mp hr with hr | hr
  · exact h.records r hr
  · obtain ⟨w, hw, rfl⟩ := List.mem_map.mp hr
    exact (h.waiting w (Option.mem_toList.mp hw)).sends

/-- **When batches are sent by a quorum.** In every run with a committee whose doubled stake fits,
each message that the waiter has taken is in the history. Its batch is sent by a quorum of
acknowledgements if and only if the stake of the node alone is below the threshold and, whenever the
stakes of the handlers that have resolved reach it, those of the authorities that have acknowledged
do. What is sent is what the history says. -/
theorem gated_iff (hno : c.NoOverflow) (r : WaiterRun c name es s) :
    (∀ rec ∈ s.history, rec.Gated c name ↔ rec.AcksDecide c name) ∧
      s.history.map Record.message ++ s.rxMessage = es.filterMap Event.message ∧
      s.txBatch = s.history.flatMap fun rec => rec.sent.map fun _ => rec.message.batch := by
  have h := tracks_run hno r
  refine ⟨fun rec hrec => (sends_history h hrec).iff_acksDecide, h.messages, ?_⟩
  rw [h.txBatch, history, List.flatMap_append]
  rcases s.waiting with _ | w <;> simp [Waiting.record]

/-- A batch of one of four authorities. -/
def fourMessage : QuorumWaiterMessage crypto := ⟨[], [(key 1, 0), (key 2, 1), (key 3, 2)]⟩

def fourStep (s : QuorumWaiter crypto) (e : Event crypto) : Option (QuorumWaiter crypto) :=
  s.step (four 0).committee (key 0) e

def fourEvents : List (Event crypto) :=
  [.put fourMessage, .receive, .resolve 2 true 0, .resolve 0 true 0]

/-- With the acknowledgements of two of the others the batch is sent. -/
theorem gated_iff_four : ∃ (s : QuorumWaiter crypto) (rec : Record crypto),
    WaiterRun (four 0).committee (key 0) fourEvents s ∧ rec ∈ s.history ∧ rec.sent = [2] ∧
      rec.Gated (four 0).committee (key 0) := by
  have r := run_of_exec fourStep fourEvents new rfl
  exact ⟨_, _, r, List.mem_cons_self, rfl,
    ((gated_iff (by decide) r).1 _ List.mem_cons_self).mpr (by decide)⟩

/-- The batch of a node alone, which has no handlers. -/
def soloMessage : QuorumWaiterMessage crypto := ⟨[], []⟩

def soloStep (s : QuorumWaiter crypto) (e : Event crypto) : Option (QuorumWaiter crypto) :=
  s.step solo.committee (key 0) e

/-- The batch of a node alone is not sent, though the stake of the node is the total stake. -/
theorem exists_dropped : ¬ ∀ (c : Committee crypto) (name : crypto.PublicKey)
    (es : List (Event crypto)) (s : QuorumWaiter crypto), c.NoOverflow →
    WaiterRun c name es s → ∀ rec ∈ s.history, rec.Gated c name := by
  intro h
  have r := run_of_exec soloStep [.put soloMessage, .receive, .exhausted 0] new rfl
  have hg := h solo.committee (key 0) _ _ (by decide) r _ List.mem_cons_self
  obtain ⟨n, hn, -⟩ := (hg.gated 0 (by decide)).mpr (by decide)
  cases hn

end QuorumWaiter

end Hotstuff.Mempool
