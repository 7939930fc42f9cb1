import Hotstuff.Lib.Lengths
import Hotstuff.Mempool.Cluster

/-! # What a mempool hands on is held by a quorum

A quorum waiter counts handlers that have resolved, whatever they resolved with, and the reliable
sender counts replies. Put together they do what they are for: the handlers that the quorum waiter
holds resolve with acknowledgements only, since the sender drops no handler whose receiving end is
held, and a handler is acknowledged only when the peer has received the batch. So what the quorum
waiter hands to the processor has been received by authorities whose stakes, with that of the node,
reach the threshold (`held_by_quorum`). -/

namespace Hotstuff.Mempool.Cluster

open Hotstuff.Primitives Hotstuff.Consensus.Config
open Hotstuff.Lib.Channels Hotstuff.Lib.Lists Hotstuff.Lib.Transition
open Hotstuff.Network.ReliableSender hiding Event Kept
open Hotstuff.Network.Receiving hiding Event
open Hotstuff.Network.Acknowledging

variable {C : Crypto} {cfg : Setup C}

/-! ### The quorum waiter -/

section Waiter

open QuorumWaiter

variable {c : Committee C} {name : C.PublicKey} {s s' : QuorumWaiter C}
  {e : QuorumWaiter.Event C} {es : List (QuorumWaiter.Event C)}

/-- The handlers that have resolved are some of those of the message, all of them if the batch has
been given up. -/
structure Fair (s : QuorumWaiter C) : Prop where
  waiting : ∀ w, s.waiting = some w → w.waitForQuorum ⊆ w.message.handlers ∧
    (w.resolved.map Prod.fst ++ w.waitForQuorum.map Prod.fst).Perm (w.message.handlers.map Prod.fst)
  records : ∀ r ∈ s.records, (∀ n ∈ r.sent, n = r.resolved.length) ∧
    ∃ rest, (r.sent = [] → rest = []) ∧
      (r.resolved.map Prod.fst ++ rest).Perm (r.message.handlers.map Prod.fst)

theorem fair_of_eq (h : Fair s) (hw : s'.waiting = s.waiting) (hr : s'.records = s.records) :
    Fair s' :=
  ⟨fun w h' => h.waiting w (hw ▸ h'), fun r h' => h.records r (hr ▸ h')⟩

theorem disseminate_fields (s : QuorumWaiter C) (l : List (C.PublicKey × CancelHandler))
    (now : Instant) : (s.disseminate l now).waiting = s.waiting ∧
      (s.disseminate l now).records = s.records ∧ (s.disseminate l now).rxMessage = s.rxMessage ∧
      (s.disseminate l now).txBatch = s.txBatch := by
  rcases s.disseminate_cases l now with heq | ⟨-, heq⟩ <;> rw [heq] <;> exact ⟨rfl, rfl, rfl, rfl⟩

/-- The handler that resolves. -/
theorem perm_resolved {w : Waiting C} {i : ℕ} {peer : C.PublicKey} {handler : CancelHandler}
    (hi : w.waitForQuorum[i]? = some (peer, handler)) (acked : Bool) :
    ((w.resolved ++ [(peer, acked)]).map Prod.fst ++
      (w.waitForQuorum.eraseIdx i).map Prod.fst).Perm
        (w.resolved.map Prod.fst ++ w.waitForQuorum.map Prod.fst) := by
  have hperm := ((perm_eraseIdx hi).map Prod.fst).append_left (w.resolved.map Prod.fst)
  rw [List.map_append, List.append_assoc]
  exact hperm

theorem fair_step (h : s.step c name e = some s') (hs : Fair s) : Fair s' := by
  cases e with
  | put message =>
    cases h
    exact fair_of_eq hs rfl rfl
  | receive =>
    obtain ⟨message, messages, -, -, rfl⟩ := receive_cases h
    refine ⟨fun w hw => ?_, hs.records⟩
    cases hw
    exact ⟨List.Subset.refl _, List.Perm.refl _⟩
  | resolve i acked now =>
    obtain ⟨w, peer, handler, hw, hi, hcases⟩ := resolve_cases h
    obtain ⟨hsub, hperm⟩ := hs.waiting w hw
    have hperm' := (perm_resolved hi acked).trans hperm
    rcases hcases with ⟨-, rfl⟩ | ⟨-, rfl⟩
    · obtain ⟨hwait, hrec, -⟩ := disseminate_fields { s with
        waiting := none
        txBatch := s.txBatch ++ [w.message.batch]
        records := s.records ++ [⟨w.message, w.resolved ++ [(peer, acked)],
          [w.resolved.length + 1]⟩] } (w.waitForQuorum.eraseIdx i) now
      refine fair_of_eq ⟨fun w' hw' => ?_, fun r hr => ?_⟩ hwait hrec
      · cases hw'
      rcases List.mem_append.mp hr with hr | hr
      · exact hs.records r hr
      · rw [List.mem_singleton.mp hr]
        exact ⟨by simp, _, by simp, hperm'⟩
    · refine ⟨fun w' hw' => ?_, hs.records⟩
      cases hw'
      exact ⟨List.Subset.trans (List.eraseIdx_subset ..) hsub, hperm'⟩
  | exhausted now =>
    obtain ⟨w, hw, hnil, rfl⟩ := exhausted_cases h
    obtain ⟨hwait, hrec, -⟩ := disseminate_fields { s with
      waiting := none
      records := s.records ++ [⟨w.message, w.resolved, []⟩] } [] now
    refine fair_of_eq ⟨fun w' hw' => ?_, fun r hr => ?_⟩ hwait hrec
    · cases hw'
    rcases List.mem_append.mp hr with hr | hr
    · exact hs.records r hr
    · rw [List.mem_singleton.mp hr]
      exact ⟨by simp, _, fun _ => by rw [hnil]; rfl, (hs.waiting w hw).2⟩
  | pendingResolved j i =>
    obtain ⟨d, -, rfl⟩ := pendingResolved_cases h
    exact fair_of_eq hs rfl rfl
  | pendingDone j now =>
    obtain ⟨d, -, -, rfl⟩ := pendingDone_cases h
    exact fair_of_eq hs rfl rfl

theorem run_fair (r : WaiterRun c name es s) : Fair s :=
  r.invariant ⟨fun _ h => (nomatch h), fun _ h => absurd h List.not_mem_nil⟩
    fun _ _ _ hs h => fair_step h hs

/-- The quorum waiter holds the handler, for the owner that it has. -/
def Holds (s : QuorumWaiter C) (x : C.PublicKey × CancelHandler) : Prop :=
  (∃ m ∈ s.rxMessage, x ∈ m.handlers) ∨ (∃ w, s.waiting = some w ∧ x ∈ w.waitForQuorum) ∨
    ∃ d ∈ s.pending, x ∈ d.waitForQuorum

theorem mem_heldHandlers {handler : CancelHandler} :
    handler ∈ heldHandlers s ↔ ∃ name, Holds s (name, handler) := by
  simp [heldHandlers, Holds, exists_or]

theorem holds_disseminate {l : List (C.PublicKey × CancelHandler)} {now : Instant}
    {x : C.PublicKey × CancelHandler} (h : Holds (s.disseminate l now) x) : Holds s x ∨ x ∈ l := by
  rcases s.disseminate_cases l now with heq | ⟨-, heq⟩ <;> rw [heq] at h
  · exact .inl h
  rcases h with h | h | ⟨d, hd, hx⟩
  · exact .inl (.inl h)
  · exact .inl (.inr (.inl h))
  rcases List.mem_append.mp hd with hd | hd
  · exact .inl (.inr (.inr ⟨d, hd, hx⟩))
  · rw [List.mem_singleton.mp hd] at hx
    exact .inr hx

/-- Without a new message, the quorum waiter holds no new handlers. -/
theorem holds_step (h : s.step c name e = some s') (he : e.message = none)
    {x : C.PublicKey × CancelHandler} (hx : Holds s' x) : Holds s x := by
  cases e with
  | put message => cases he
  | receive =>
    obtain ⟨message, messages, hw, hrx, rfl⟩ := receive_cases h
    rcases hx with ⟨m, hm, hx⟩ | ⟨w, ⟨⟩, hx⟩ | hx
    · exact .inl ⟨m, hrx ▸ List.mem_cons_of_mem _ hm, hx⟩
    · exact .inl ⟨message, hrx ▸ List.mem_cons_self, hx⟩
    · exact .inr (.inr hx)
  | resolve i acked now =>
    obtain ⟨w, peer, handler, hw, hi, hcases⟩ := resolve_cases h
    have herase : ∀ {x}, x ∈ w.waitForQuorum.eraseIdx i → Holds s x := fun hx =>
      .inr (.inl ⟨w, hw, List.eraseIdx_subset hx⟩)
    rcases hcases with ⟨-, rfl⟩ | ⟨-, rfl⟩
    · rcases holds_disseminate hx with (hx | ⟨w', ⟨⟩, -⟩ | hx) | hx
      · exact .inl hx
      · exact .inr (.inr hx)
      · exact herase hx
    · rcases hx with hx | ⟨w', ⟨⟩, hx⟩ | hx
      · exact .inl hx
      · exact herase hx
      · exact .inr (.inr hx)
  | exhausted now =>
    obtain ⟨w, hw, -, rfl⟩ := exhausted_cases h
    rcases holds_disseminate hx with (hx | ⟨w', ⟨⟩, -⟩ | hx) | hx
    · exact .inl hx
    · exact .inr (.inr hx)
    · exact absurd hx List.not_mem_nil
  | pendingResolved j i =>
    obtain ⟨d, hd, rfl⟩ := pendingResolved_cases h
    rcases hx with hx | hx | ⟨d', hd', hx⟩
    · exact .inl hx
    · exact .inr (.inl hx)
    refine .inr (.inr ?_)
    rcases List.mem_or_eq_of_mem_set hd' with hd' | rfl
    · exact ⟨d', hd', hx⟩
    · exact ⟨d, List.mem_of_getElem? hd, List.eraseIdx_subset hx⟩
  | pendingDone j now =>
    obtain ⟨d, -, -, rfl⟩ := pendingDone_cases h
    rcases hx with hx | hx | ⟨d', hd', hx⟩
    · exact .inl hx
    · exact .inr (.inl hx)
    · exact .inr (.inr ⟨d', List.eraseIdx_subset hd', hx⟩)

theorem mem_history {r : Record C} :
    r ∈ s.history ↔ r ∈ s.records ∨ ∃ w, s.waiting = some w ∧ w.record = r := by
  simp [history]

/-- What has resolved had resolved before, or is the handler of the event. -/
theorem resolved_step (h : s.step c name e = some s') (hs : Fair s) {r : Record C}
    (hr : r ∈ s'.history) {x : C.PublicKey × Bool} (hx : x ∈ r.resolved) :
    (∃ r₀ ∈ s.history, r₀.message = r.message ∧ x ∈ r₀.resolved) ∨
      ∃ handler, resolvedHandler s e = some (handler, x.2) ∧ Holds s (x.1, handler) ∧
        (x.1, handler) ∈ r.message.handlers := by
  have hold : r ∈ s.history → ∃ r₀ ∈ s.history, r₀.message = r.message ∧ x ∈ r₀.resolved :=
    fun hr => ⟨r, hr, rfl, hx⟩
  cases e with
  | put message =>
    cases h
    exact .inl (hold hr)
  | receive =>
    obtain ⟨message, messages, -, -, rfl⟩ := receive_cases h
    rcases mem_history.mp hr with hr | ⟨w, ⟨⟩, rfl⟩
    · exact .inl (hold (mem_history.mpr (.inl hr)))
    · exact absurd hx List.not_mem_nil
  | resolve i acked now =>
    obtain ⟨w, peer, handler, hw, hi, hcases⟩ := resolve_cases h
    -- what there is of the batch that is waited for, with the new handler
    have hwait : x ∈ w.resolved ++ [(peer, acked)] → w.message = r.message →
        (∃ r₀ ∈ s.history, r₀.message = r.message ∧ x ∈ r₀.resolved) ∨
          ∃ handler, resolvedHandler s (.resolve i acked now) = some (handler, x.2) ∧
            Holds s (x.1, handler) ∧ (x.1, handler) ∈ r.message.handlers := by
      intro hx hm
      rcases List.mem_append.mp hx with hx | hx
      · exact .inl ⟨w.record, mem_history.mpr (.inr ⟨w, hw, rfl⟩), hm, hx⟩
      · rw [List.mem_singleton.mp hx]
        have hmem := List.mem_of_getElem? hi
        exact .inr ⟨handler, by simp [resolvedHandler, hw, hi], .inr (.inl ⟨w, hw, hmem⟩),
          hm ▸ (hs.waiting w hw).1 hmem⟩
    rcases hcases with ⟨-, rfl⟩ | ⟨-, rfl⟩
    · have hfields := disseminate_fields { s with
        waiting := none
        txBatch := s.txBatch ++ [w.message.batch]
        records := s.records ++ [⟨w.message, w.resolved ++ [(peer, acked)],
          [w.resolved.length + 1]⟩] } (w.waitForQuorum.eraseIdx i) now
      rw [mem_history, hfields.1, hfields.2.1] at hr
      rcases hr with hr | ⟨w', ⟨⟩, -⟩
      rcases List.mem_append.mp hr with hr | hr
      · exact .inl (hold (mem_history.mpr (.inl hr)))
      · cases List.mem_singleton.mp hr
        exact hwait hx rfl
    · rcases mem_history.mp hr with hr | ⟨w', ⟨⟩, rfl⟩
      · exact .inl (hold (mem_history.mpr (.inl hr)))
      · exact hwait hx rfl
  | exhausted now =>
    obtain ⟨w, hw, -, rfl⟩ := exhausted_cases h
    have hfields := disseminate_fields { s with
      waiting := none
      records := s.records ++ [⟨w.message, w.resolved, []⟩] } [] now
    rw [mem_history, hfields.1, hfields.2.1] at hr
    rcases hr with hr | ⟨w', ⟨⟩, -⟩
    rcases List.mem_append.mp hr with hr | hr
    · exact .inl (hold (mem_history.mpr (.inl hr)))
    · cases List.mem_singleton.mp hr
      exact .inl (hold (mem_history.mpr (.inr ⟨w, hw, rfl⟩)))
  | pendingResolved j i =>
    obtain ⟨d, -, rfl⟩ := pendingResolved_cases h
    exact .inl (hold hr)
  | pendingDone j now =>
    obtain ⟨d, -, -, rfl⟩ := pendingDone_cases h
    exact .inl (hold hr)

theorem txBatch_step (h : s.step c name e = some s') : s.txBatch <+: s'.txBatch := by
  cases e with
  | put message =>
    cases h
    exact List.prefix_refl _
  | receive =>
    obtain ⟨message, messages, -, -, rfl⟩ := receive_cases h
    exact List.prefix_refl _
  | resolve i acked now =>
    obtain ⟨w, peer, handler, -, -, ⟨-, rfl⟩ | ⟨-, rfl⟩⟩ := resolve_cases h
    · rw [(disseminate_fields _ _ now).2.2.2]
      exact List.prefix_append _ _
    · exact List.prefix_refl _
  | exhausted now =>
    obtain ⟨w, -, -, rfl⟩ := exhausted_cases h
    rw [(disseminate_fields _ _ now).2.2.2]
  | pendingResolved j i =>
    obtain ⟨d, -, rfl⟩ := pendingResolved_cases h
    exact List.prefix_refl _
  | pendingDone j now =>
    obtain ⟨d, -, -, rfl⟩ := pendingDone_cases h
    exact List.prefix_refl _

end Waiter

/-! ### The links -/

/-- `sent` is what has been submitted at the link to the address. -/
structure Carries (cfg : Setup C) (address : SocketAddr) (sent : List SerializedBatchMessage)
    (l : MempoolLink C) : Prop where
  connection : ∃ es, ConnectionRun es l.connection ∧ es.filterMap sentBy = sent
  link : cfg.Honest (cfg.listener address) →
    ∃ es, LinkRun cfg.receiverHandler es l ∧ es.filterMap submits = sent

section Links

variable {address : SocketAddr} {sent : List SerializedBatchMessage} {l l' : MempoolLink C}

theorem carries_new : Carries cfg address [] (.new : MempoolLink C) :=
  ⟨⟨[], .nil, rfl⟩, fun _ => ⟨[], .nil, rfl⟩⟩

theorem Carries.submit (h : Carries cfg address sent l) (data : SerializedBatchMessage) :
    Carries cfg address (sent ++ [data]) (submit l data) := by
  obtain ⟨⟨es, r, hes⟩, hlink⟩ := h
  refine ⟨⟨es ++ [.send data], r.snoc rfl, by rw [filterMap_concat, hes]; rfl⟩, fun ha => ?_⟩
  obtain ⟨es, r, hes⟩ := hlink ha
  exact ⟨es ++ [.sender (.send data)], r.snoc rfl, by rw [filterMap_concat, hes]; rfl⟩

theorem Carries.foldl : ∀ (more : List SerializedBatchMessage) {sent : List SerializedBatchMessage}
    {l : MempoolLink C}, Carries cfg address sent l →
      Carries cfg address (sent ++ more) (more.foldl Cluster.submit l)
  | [], sent, l, h => by rwa [List.append_nil]
  | data :: more, sent, l, h => by
    have hfold := Carries.foldl more (h.submit data)
    rwa [List.append_assoc] at hfold

theorem Carries.cancel (h : Carries cfg address sent l) (n : ℕ) :
    Carries cfg address sent (cancel l n) := by
  obtain ⟨⟨es, r, hes⟩, hlink⟩ := h
  refine ⟨⟨es ++ [.cancel n], r.snoc rfl, ?_⟩, fun ha => ?_⟩
  · rw [filterMap_concat, hes]
    exact List.append_nil _
  · obtain ⟨es, r, hes⟩ := hlink ha
    refine ⟨es ++ [.sender (.cancel n)], r.snoc rfl, ?_⟩
    rw [filterMap_concat, hes]
    exact List.append_nil _

/-- The record and the cancelled handlers stay when more is submitted. -/
theorem foldl_submit : ∀ (more : List SerializedBatchMessage) (l : MempoolLink C),
    (more.foldl submit l).connection.trace = l.connection.trace ∧
      (more.foldl submit l).connection.closed = l.connection.closed ∧
      (more.foldl submit l).sockets = l.sockets ∧ (more.foldl submit l).delivered = l.delivered
  | [], _ => ⟨rfl, rfl, rfl, rfl⟩
  | data :: more, l => foldl_submit more (submit l data)

/-- What an event that is not one of the caller does to the connection of a link. -/
structure Advances (l l' : MempoolLink C) : Prop where
  closed : l'.connection.closed = l.connection.closed
  acked : l.connection.acked ⊆ l'.connection.acked

theorem advances_step {c : Connection (List UInt8) String}
    {e : Network.ReliableSender.Event (List UInt8) String} (he : Internal (.sender e))
    (h : l.connection.step e = some c) (hc : l'.connection = c) : Advances l l' := by
  have hrec := recorded_step h
  exact ⟨by rw [hc, hrec.closed_internal he], by rw [hc]; exact hrec.acked_subset⟩

theorem Carries.linked (h : Carries cfg address sent l)
    {e : Network.Receiving.Event (List UInt8) String} (he : Internal e)
    (hl : l.step cfg.receiverHandler e = some l') :
    Carries cfg address sent l' ∧ Advances l l' := by
  have hnone := submits_internal he
  have hlink : cfg.Honest (cfg.listener address) →
      ∃ es, LinkRun cfg.receiverHandler es l' ∧ es.filterMap submits = sent := fun ha => by
    obtain ⟨es, r, hes⟩ := h.link ha
    refine ⟨es ++ [e], r.snoc hl, ?_⟩
    rw [filterMap_concat, hes, hnone]
    exact List.append_nil _
  rcases step_connection hl with ⟨heq, -⟩ | ⟨e', hc, hs, hi⟩
  · exact ⟨⟨heq ▸ h.connection, hlink⟩, by rw [heq], by rw [heq]; exact List.Subset.refl _⟩
  · refine ⟨⟨?_, hlink⟩, advances_step (hi he) hc rfl⟩
    obtain ⟨es, r, hes⟩ := h.connection
    refine ⟨es ++ [e'], r.snoc hc, ?_⟩
    rw [filterMap_concat, hes, hs, hnone]
    exact List.append_nil _

theorem Carries.acted (h : Carries cfg address sent l) (ha : ¬ cfg.Honest (cfg.listener address))
    {e : Network.ReliableSender.Event (List UInt8) String} (he : Internal (.sender e))
    {c : Connection (List UInt8) String} (hc : l.connection.step e = some c) :
    Carries cfg address sent { l with connection := c } := by
  obtain ⟨es, r, hes⟩ := h.connection
  refine ⟨⟨es ++ [e], r.snoc hc, ?_⟩, fun hh => absurd hh ha⟩
  have hnone : sentBy e = none := submits_internal he
  rw [filterMap_concat, hes, hnone]
  exact List.append_nil _

end Links

/-! ### What a node sends -/

/-- The handlers of a message of the batch maker are those of its batch, one for each other
authority. -/
structure Broadcasts (cfg : Setup C) (k : C.PublicKey) (network : BatchMaker.ReliableSender)
    (m : QuorumWaiterMessage C) : Prop where
  names : m.handlers.map Prod.fst = cfg.committee.keys.filter (· ≠ k)
  peers : ∀ x ∈ m.handlers, (x.1 ∈ cfg.committee.keys ∧ x.1 ≠ k) ∧
    network[x.2]? = some (cfg.mempoolAddress x.1, m.batch)
  batch : ∃ batch, m.batch = cfg.serialize batch

/-- The handler is acknowledged. -/
def Acked (network : BatchMaker.ReliableSender) (links : SocketAddr → MempoolLink C)
    (handler : CancelHandler) : Prop :=
  ∃ address data, network[handler]? = some (address, data) ∧
    number network address handler ∈ (links address).connection.acked

/-- The receiving end of the handler has not been dropped. -/
def Uncancelled (network : BatchMaker.ReliableSender) (links : SocketAddr → MempoolLink C)
    (handler : CancelHandler) : Prop :=
  ∃ address data, network[handler]? = some (address, data) ∧
    number network address handler ∉ (links address).connection.closed

/-- **What a node sends**: what the batch maker has sent is on the links, no handler that the quorum
waiter holds has been cancelled, and those that have resolved have been acknowledged. -/
structure Spreads (cfg : Setup C) (k : C.PublicKey) (b : BatchMaker C) (q : QuorumWaiter C)
    (links : SocketAddr → MempoolLink C) : Prop where
  waiter : ∃ es, QuorumWaiter.WaiterRun cfg.committee k es q ∧
    es.filterMap QuorumWaiter.Event.message = b.txMessage
  messages : ∀ m ∈ b.txMessage, Broadcasts cfg k b.network m
  carries : ∀ address, Carries cfg address (sentTo b.network address) (links address)
  closed : ∀ address, ∀ n ∈ (links address).connection.closed,
    n < (sentTo b.network address).length
  held : ∀ x, Holds q x → Uncancelled b.network links x.2
  acked : ∀ r ∈ q.history, ∀ x ∈ r.resolved, x.2 = true ∧
    ∃ handler, (x.1, handler) ∈ r.message.handlers ∧ Acked b.network links handler

section Spreads

variable {k : C.PublicKey} {b b' : BatchMaker C} {q q' : QuorumWaiter C}
  {links links' : SocketAddr → MempoolLink C} {network : BatchMaker.ReliableSender}
  {handler : CancelHandler}

theorem spreads_new : Spreads cfg k .new .new (fun _ => .new) := by
  refine ⟨⟨[], .nil, rfl⟩, ?_, fun _ => carries_new, ?_, ?_, ?_⟩
  · exact fun m hm => absurd hm List.not_mem_nil
  · exact fun _ n hn => absurd hn List.not_mem_nil
  · rintro x (⟨m, hm, -⟩ | ⟨w, ⟨⟩, -⟩ | ⟨d, hd, -⟩)
    · exact absurd hm List.not_mem_nil
    · exact absurd hd List.not_mem_nil
  · exact fun r hr => absurd hr List.not_mem_nil

/-- A step of the batch maker seals no batch, or one. -/
theorem handle_cases (settings : BatchMaker.Settings C) (b : BatchMaker C) (e : BatchMaker.Event) :
    ((b.handle settings e).network = b.network ∧
      (b.handle settings e).txMessage = b.txMessage) ∨
    ∃ batch, (b.handle settings e).network = b.network ++
        ((settings.mempoolAddresses.map Prod.snd).map fun a => (a, settings.serialize batch)) ∧
      (b.handle settings e).txMessage = b.txMessage ++ [⟨settings.serialize batch,
        (settings.mempoolAddresses.map Prod.fst).zip
          (List.range' b.network.length settings.mempoolAddresses.length)⟩] := by
  cases e with
  | transaction transaction =>
    unfold BatchMaker.handle
    dsimp only
    split_ifs
    · exact .inr ⟨b.currentBatch ++ [transaction], by simp [BatchMaker.sealBatch,
        BatchMaker.broadcast], by simp [BatchMaker.sealBatch, BatchMaker.broadcast]⟩
    · exact .inl ⟨rfl, rfl⟩
  | timer =>
    unfold BatchMaker.handle
    split_ifs
    · exact .inl ⟨rfl, rfl⟩
    · exact .inr ⟨b.currentBatch, by simp [BatchMaker.sealBatch, BatchMaker.broadcast],
        by simp [BatchMaker.sealBatch, BatchMaker.broadcast]⟩

theorem getElem?_append {x : SocketAddr × SerializedBatchMessage}
    (more : BatchMaker.ReliableSender) (h : network[handler]? = some x) :
    (network ++ more)[handler]? = some x ∧ handler ≤ network.length := by
  have hlt := (List.getElem?_eq_some_iff.mp h).1
  exact ⟨by rw [List.getElem?_append_left hlt, h], hlt.le⟩

/-- More is sent. -/
theorem Acked.submitAll (h : Acked network links handler) (more : BatchMaker.ReliableSender) :
    Acked (network ++ more) (submitAll links more) handler := by
  obtain ⟨address, data, hget, hn⟩ := h
  obtain ⟨hget', hle⟩ := getElem?_append more hget
  refine ⟨address, data, hget', ?_⟩
  rw [number_append more address hle]
  unfold Connection.acked Cluster.submitAll
  rw [(foldl_submit (sentTo more address) (links address)).1]
  exact hn

theorem Uncancelled.submitAll (h : Uncancelled network links handler)
    (more : BatchMaker.ReliableSender) :
    Uncancelled (network ++ more) (submitAll links more) handler := by
  obtain ⟨address, data, hget, hn⟩ := h
  obtain ⟨hget', hle⟩ := getElem?_append more hget
  refine ⟨address, data, hget', ?_⟩
  rw [number_append more address hle]
  unfold Cluster.submitAll
  rw [(foldl_submit (sentTo more address) (links address)).2.1]
  exact hn

/-- The handlers of a new batch. -/
theorem broadcasts_sealed (cfg : Setup C) (k : C.PublicKey) (network : BatchMaker.ReliableSender)
    (batch : Batch) :
    let m : QuorumWaiterMessage C := ⟨cfg.serialize batch, ((cfg.broadcastAddresses k).map
      Prod.fst).zip (List.range' network.length (cfg.broadcastAddresses k).length)⟩
    Broadcasts cfg k (network ++ (((cfg.broadcastAddresses k).map Prod.snd).map fun a =>
      (a, cfg.serialize batch))) m ∧ ∀ x ∈ m.handlers, network.length ≤ x.2 := by
  intro m
  have hnames : (cfg.broadcastAddresses k).map Prod.fst =
      cfg.committee.keys.filter (· ≠ k) := by
    simp [Setup.broadcastAddresses, Function.comp_def]
  have hx : ∀ x ∈ m.handlers, ∃ i, x.2 = network.length + i ∧
      (cfg.committee.keys.filter (· ≠ k))[i]? = some x.1 := by
    intro x hx
    obtain ⟨i, hi⟩ := List.mem_iff_getElem?.mp hx
    obtain ⟨h1, h2⟩ := List.getElem?_zip_eq_some.mp hi
    rw [hnames] at h1
    obtain ⟨hlt, heq⟩ := List.getElem?_eq_some_iff.mp h2
    exact ⟨i, by rw [← heq, List.getElem_range', Nat.one_mul], h1⟩
  refine ⟨⟨?_, fun x hxm => ?_, batch, rfl⟩, fun x hxm => ?_⟩
  · rw [List.map_fst_zip (by simp), hnames]
  · obtain ⟨i, hi, hname⟩ := hx x hxm
    have hmem := List.mem_filter.mp (List.mem_of_getElem? hname)
    refine ⟨⟨hmem.1, by simpa using hmem.2⟩, ?_⟩
    rw [hi, List.getElem?_append_right (Nat.le_add_right _ _), Nat.add_sub_cancel_left]
    rw [List.map_map, Setup.broadcastAddresses, List.map_map, List.getElem?_map, hname]
    rfl
  · obtain ⟨i, hi, -⟩ := hx x hxm
    rw [hi]
    exact Nat.le_add_right _ _

theorem Broadcasts.nodup {m : QuorumWaiterMessage C} (h : Broadcasts cfg k network m) :
    (m.handlers.map Prod.fst).Nodup :=
  h.names ▸ cfg.committee.nodup.filter _

theorem Broadcasts.append {m : QuorumWaiterMessage C} (h : Broadcasts cfg k network m)
    (more : BatchMaker.ReliableSender) : Broadcasts cfg k (network ++ more) m :=
  ⟨h.names, fun x hx => ⟨(h.peers x hx).1, (getElem?_append more (h.peers x hx).2).1⟩, h.batch⟩

/-- A new batch is broadcast, and goes to the quorum waiter. -/
theorem Spreads.broadcast (h : Spreads cfg k b q links) {m : QuorumWaiterMessage C}
    {more : BatchMaker.ReliableSender} (hn : b'.network = b.network ++ more)
    (hm : b'.txMessage = b.txMessage ++ [m]) (hb : Broadcasts cfg k (b.network ++ more) m)
    (hnew : ∀ x ∈ m.handlers, b.network.length ≤ x.2) :
    Spreads cfg k b' { q with rxMessage := q.rxMessage ++ [m] } (submitAll links more) := by
  obtain ⟨es, r, hes⟩ := h.waiter
  refine ⟨⟨es ++ [.put m], r.snoc rfl, ?_⟩, ?_, fun a => ?_, fun a n hin => ?_, fun x hx => ?_,
    fun r hr x hx => ?_⟩
  · rw [filterMap_concat, hes, hm]
    rfl
  · rw [hm, hn]
    exact List.forall_mem_append.mpr ⟨fun m' hm' => (h.messages m' hm').append more,
      List.forall_mem_singleton.mpr hb⟩
  · rw [hn, sentTo_append]
    exact (h.carries a).foldl (sentTo more a)
  · unfold submitAll at hin
    rw [(foldl_submit (sentTo more a) (links a)).2.1] at hin
    rw [hn, sentTo_append, List.length_append]
    exact (h.closed a n hin).trans_le (Nat.le_add_right _ _)
  · rw [hn]
    have hcases : x ∈ m.handlers ∨ Holds q x := by
      rcases hx with ⟨m', hm', hx⟩ | hx
      · rcases List.mem_append.mp hm' with hm' | hm'
        · exact .inr (.inl ⟨m', hm', hx⟩)
        · exact .inl (List.mem_singleton.mp hm' ▸ hx)
      · exact .inr (.inr hx)
    rcases hcases with hx | hx
    · -- the number of a new message is larger than those that have been cancelled
      refine ⟨_, _, (hb.peers x hx).2, fun hin => ?_⟩
      unfold submitAll at hin
      rw [(foldl_submit (sentTo more _) (links _)).2.1] at hin
      exact absurd (h.closed _ _ hin) (not_lt.mpr (length_le_number more _ (hnew x hx)))
    · exact (h.held x hx).submitAll more
  · obtain ⟨hx2, handler, hmem, hack⟩ := h.acked r hr x hx
    rw [hn]
    exact ⟨hx2, handler, hmem, hack.submitAll more⟩

/-- **A step of the batch maker.** -/
theorem Spreads.made (h : Spreads cfg k b q links) (e : BatchMaker.Event) :
    Spreads cfg k (b.handle (cfg.settings k) e)
      { q with rxMessage := q.rxMessage ++
          (b.handle (cfg.settings k) e).txMessage.drop b.txMessage.length }
      (submitAll links ((b.handle (cfg.settings k) e).network.drop b.network.length)) := by
  rcases handle_cases (cfg.settings k) b e with ⟨hn, hm⟩ | ⟨batch, hn, hm⟩
  · rw [hn, hm, List.drop_length, List.drop_length, List.append_nil]
    exact ⟨by rw [hm]; exact h.waiter, by rw [hm, hn]; exact h.messages,
      by rw [hn]; exact h.carries, by rw [hn]; exact h.closed, by rw [hn]; exact h.held,
      by rw [hn]; exact h.acked⟩
  · obtain ⟨hb, hnew⟩ := broadcasts_sealed cfg k b.network batch
    rw [hm, hn, List.drop_left, List.drop_left]
    exact h.broadcast hn hm hb hnew

/-- A handler that is not cancelled resolves with an acknowledgement. -/
theorem acked_of_resolved (hc : ∀ address, Carries cfg address (sentTo network address)
    (links address)) {acked : Bool} (hr : Resolved network links handler acked)
    (hu : Uncancelled network links handler) : acked = true ∧ Acked network links handler := by
  obtain ⟨address, data, hget, hn⟩ := hu
  unfold Resolved at hr
  simp only [hget] at hr
  split_ifs at hr with ha
  · exact ⟨ha, address, data, hget, hr⟩
  · obtain ⟨es, r, -⟩ := (hc address).connection
    exact absurd ((run_kept r).2.closed _ hr) hn

/-- **A step of the quorum waiter.** -/
theorem Spreads.waited (h : Spreads cfg k b q links) {e : QuorumWaiter.Event C}
    (he : e.message = none)
    (hr : ∀ x ∈ resolvedHandler q e, Resolved b.network links x.1 x.2)
    (hq : q.step cfg.committee k e = some q') : Spreads cfg k b q' links := by
  obtain ⟨es, run, hes⟩ := h.waiter
  refine ⟨⟨es ++ [e], run.snoc hq, ?_⟩, h.messages, h.carries, h.closed,
    fun x hx => h.held x (holds_step hq he hx), fun r hrec x hx => ?_⟩
  · rw [filterMap_concat, hes, he]
    exact List.append_nil _
  · rcases resolved_step hq (run_fair run) hrec hx with
      ⟨r₀, hr₀, hm, hx⟩ | ⟨handler, hres, hh, hmem⟩
    · rw [← hm]
      exact h.acked r₀ hr₀ x hx
    · obtain ⟨hx2, hack⟩ := acked_of_resolved h.carries (hr _ hres) (h.held _ hh)
      exact ⟨hx2, handler, hmem, hack⟩

/-- **The links go on.** -/
theorem Spreads.advanced (h : Spreads cfg k b q links)
    (hl : ∀ address, Carries cfg address (sentTo b.network address) (links' address) ∧
      Advances (links address) (links' address)) : Spreads cfg k b q links' := by
  refine ⟨h.waiter, h.messages, fun a => (hl a).1, fun a n hn => h.closed a n ?_,
    fun x hx => ?_, fun r hr x hx => ?_⟩
  · rwa [← (hl a).2.closed]
  · obtain ⟨address, data, hget, hn⟩ := h.held x hx
    exact ⟨address, data, hget, by rwa [(hl address).2.closed]⟩
  · obtain ⟨hx2, handler, hmem, address, data, hget, hn⟩ := h.acked r hr x hx
    exact ⟨hx2, handler, hmem, address, data, hget, (hl address).2.acked hn⟩

/-- **A handler is dropped** that the quorum waiter does not hold. -/
theorem Spreads.dropped (h : Spreads cfg k b q links) (hh : handler ∉ heldHandlers q)
    {address : SocketAddr} {data : SerializedBatchMessage}
    (hn : b.network[handler]? = some (address, data)) :
    Spreads cfg k b q (Function.update links address
      (cancel (links address) (number b.network address handler))) := by
  have hview : ∀ a, (Function.update links address (cancel (links address)
      (number b.network address handler)) a).connection.trace = (links a).connection.trace := by
    intro a
    by_cases ha : a = address
    · rw [ha, Function.update_self]
      rfl
    · rw [Function.update_of_ne ha]
  have hclosed : ∀ a n, n ∈ (Function.update links address (cancel (links address)
      (number b.network address handler)) a).connection.closed →
        n ∈ (links a).connection.closed ∨ a = address ∧ n = number b.network address handler := by
    intro a n hin
    by_cases ha : a = address
    · subst ha
      rw [Function.update_self] at hin
      exact (List.mem_cons.mp hin).symm.imp_right fun hn => ⟨rfl, hn⟩
    · rw [Function.update_of_ne ha] at hin
      exact .inl hin
  refine ⟨h.waiter, h.messages, fun a => ?_, fun a n hin => ?_, fun x hx => ?_,
    fun r hr x hx => ?_⟩
  · by_cases ha : a = address
    · rw [ha, Function.update_self]
      exact (h.carries address).cancel _
    · rw [Function.update_of_ne ha]
      exact h.carries a
  · rcases hclosed a n hin with hin | ⟨rfl, rfl⟩
    · exact h.closed a n hin
    · exact number_lt_length hn
  · obtain ⟨a, d, hget, hnot⟩ := h.held x hx
    refine ⟨a, d, hget, fun hin => ?_⟩
    rcases hclosed a _ hin with hin | ⟨rfl, heq⟩
    · exact hnot hin
    · have hsame := number_injective hget hn heq
      exact hh (mem_heldHandlers.mpr ⟨x.1, hsame ▸ hx⟩)
  · obtain ⟨hx2, handler', hmem, a, d, hget, hack⟩ := h.acked r hr x hx
    refine ⟨hx2, handler', hmem, a, d, hget, ?_⟩
    unfold Connection.acked
    rw [hview a]
    exact hack

theorem Spreads.mem_txMessage (h : Spreads cfg k b q links) (hno : cfg.committee.NoOverflow)
    {r : QuorumWaiter.Record C} (hr : r ∈ q.records) : r.message ∈ b.txMessage := by
  obtain ⟨es, run, hes⟩ := h.waiter
  rw [← hes, ← (QuorumWaiter.tracks_run hno run).messages]
  exact List.mem_append_left _ (List.mem_map_of_mem (mem_history.mpr (.inl hr)))

/-- What the quorum waiter hands on is the batch of a record, which has been sent. -/
theorem Spreads.exists_record (h : Spreads cfg k b q links) (hno : cfg.committee.NoOverflow)
    {data : SerializedBatchMessage} (hd : data ∈ q.txBatch) :
    ∃ r ∈ q.records, (∃ n, n ∈ r.sent) ∧ r.message.batch = data := by
  obtain ⟨es, run, -⟩ := h.waiter
  rw [(QuorumWaiter.tracks_run hno run).txBatch] at hd
  obtain ⟨r, hr, hd⟩ := List.mem_flatMap.mp hd
  obtain ⟨n, hn, hdata⟩ := List.mem_map.mp hd
  exact ⟨r, hr, ⟨n, hn⟩, hdata⟩

/-- The stakes of those whose handlers have resolved are those of different authorities. -/
theorem stakes_eq_weight (c : Committee C) {l : List (C.PublicKey × Bool)}
    (h : (l.map Prod.fst).Nodup) :
    QuorumWaiter.stakes c l = c.weight (l.map Prod.fst).toFinset := by
  rw [weight_toFinset c h, List.map_map, List.map_map]
  rfl

/-- A batch that the quorum waiter hands on has been acknowledged by authorities that are, with the
node, a quorum. -/
theorem Spreads.quorum (h : Spreads cfg k b q links) (hno : cfg.committee.NoOverflow)
    (hk : k ∈ cfg.committee.keys) {data : SerializedBatchMessage} (hd : data ∈ q.txBatch) :
    (∃ batch, data = cfg.serialize batch) ∧ ∃ Q, cfg.committee.Quorum Q ∧ k ∈ Q ∧
      ∀ j ∈ Q, j ≠ k → ∃ handler, b.network[handler]? = some (cfg.mempoolAddress j, data) ∧
        number b.network (cfg.mempoolAddress j) handler ∈
          (links (cfg.mempoolAddress j)).connection.acked := by
  obtain ⟨r, hr, ⟨n, hn⟩, rfl⟩ := h.exists_record hno hd
  obtain ⟨es, run, -⟩ := h.waiter
  obtain ⟨hlen, rest, -, hperm⟩ := (run_fair run).records r hr
  have hb := h.messages _ (h.mem_txMessage hno hr)
  have hnd : (r.resolved.map Prod.fst).Nodup := (hperm.nodup_iff.mpr hb.nodup).of_append_left
  have hpeer : ∀ x ∈ r.resolved, (x.1 ∈ cfg.committee.keys ∧ x.1 ≠ k) ∧
      ∃ handler, b.network[handler]? = some (cfg.mempoolAddress x.1, r.message.batch) ∧
        number b.network (cfg.mempoolAddress x.1) handler ∈
          (links (cfg.mempoolAddress x.1)).connection.acked := by
    intro x hx
    obtain ⟨-, handler, hhandler, address, data, hget, hack⟩ :=
      h.acked r (mem_history.mpr (.inl hr)) x hx
    obtain ⟨hname, hget'⟩ := hb.peers _ hhandler
    cases hget.symm.trans hget'
    exact ⟨hname, handler, hget', hack⟩
  have hk' : k ∉ (r.resolved.map Prod.fst).toFinset := by
    rw [List.mem_toFinset]
    intro hin
    obtain ⟨x, hx, hxk⟩ := List.mem_map.mp hin
    exact (hpeer x hx).1.2 hxk
  refine ⟨hb.batch, insert k (r.resolved.map Prod.fst).toFinset, ⟨fun j hj => ?_, ?_⟩,
    Finset.mem_insert_self _ _, fun j hj hjk => ?_⟩
  · rw [Committee.members, List.mem_toFinset]
    rcases Finset.mem_insert.mp hj with rfl | hj
    · exact hk
    · obtain ⟨x, hx, rfl⟩ := List.mem_map.mp (List.mem_toFinset.mp hj)
      exact (hpeer x hx).1.1
  · have hsends := (QuorumWaiter.tracks_run hno run).records r hr
    have hreach := (hsends.sent r.resolved.length (le_refl _)).mp ⟨n, hn, (hlen n hn).le⟩
    rw [List.take_length, stakes_eq_weight _ hnd] at hreach
    rw [Committee.weight, Finset.sum_insert hk']
    exact hreach.2
  · obtain ⟨x, hx, rfl⟩ := List.mem_map.mp
      (List.mem_toFinset.mp ((Finset.mem_insert.mp hj).resolve_left hjk))
    exact (hpeer x hx).2

/-- The handler of the receiver answers each message. -/
theorem answers_receiverHandler (cfg : Setup C) (data : List UInt8) :
    Answers cfg.receiverHandler data := by
  refine ⟨"Ack", ?_⟩
  unfold Setup.receiverHandler
  rcases hd : cfg.deserialize data with _ | _ | _ <;> simp [repliesIn, hd]

/-- The handler of the receiver hands on a batch. -/
theorem delivers_receiverHandler (cfg : Setup C) (batch : Batch) :
    deliversIn (cfg.receiverHandler.dispatch (cfg.serialize batch)) =
      [.txProcessor (cfg.serialize batch)] := by
  simp [Setup.receiverHandler, deliversIn, cfg.deserialize_serialize]

/-- What is acknowledged has been received. -/
theorem Carries.received {address : SocketAddr} {sent : List SerializedBatchMessage}
    {l : MempoolLink C} (h : Carries cfg address sent l)
    (ha : cfg.Honest (cfg.listener address)) {batch : Batch} {n : ℕ}
    (hn : n ∈ l.connection.acked) (hs : sent[n]? = some (cfg.serialize batch)) :
    .txProcessor (cfg.serialize batch) ∈ l.delivered ∨
      ∃ i, .txProcessor (cfg.serialize batch) ∈ deliversIn (l.sockets i).runner.left := by
  obtain ⟨es, r, hes⟩ := h.link ha
  obtain ⟨hsound, hdel⟩ := run_sound r fun data _ => answers_receiverHandler cfg data
  obtain ⟨a, hmem, ha⟩ := List.mem_filterMap.mp hn
  obtain ⟨bytes, rfl⟩ : ∃ bytes, a = .reply bytes (some n) := by
    rcases a with _ | _ | _ | ⟨bytes, _ | _⟩ | _ <;> simp_all [ackedBy]
  obtain ⟨m, hm, hmn, -⟩ := hsound.acked bytes n hmem
  have hdata := data_of_mem r (hsound.taken hm)
  rw [hes, hmn, hs] at hdata
  refine hdel.done m hm _ ?_
  rw [← Option.some.inj hdata, delivers_receiverHandler]
  exact List.mem_singleton_self _

end Spreads

/-! ### Runs -/

/-- A batch is stored at the node under its digest, or waits for one of its processors. -/
def Node.Has (cfg : Setup C) (n : Node C) (batch : SerializedBatchMessage) : Prop :=
  batch ∈ n.ownBatches ∨ batch ∈ n.peerBatches ∨ (cfg.digest batch, batch) ∈ n.store

section Runs

variable {S S' : Cluster C} {j k : C.PublicKey} {n : Node C} {batch : SerializedBatchMessage}
  {e : Event C} {es : List (C.PublicKey × Event C)}

/-- What the deliveries leave alone. -/
theorem foldl_deliver : ∀ (l : List (Delivery C)) (n : Node C),
    (l.foldl Node.deliver n).batchMaker = n.batchMaker ∧
      (l.foldl Node.deliver n).quorumWaiter = n.quorumWaiter ∧
      (l.foldl Node.deliver n).ownBatches = n.ownBatches ∧
      (l.foldl Node.deliver n).store = n.store ∧
      (l.foldl Node.deliver n).txConsensus = n.txConsensus ∧
      (l.foldl Node.deliver n).helped = n.helped
  | [], _ => ⟨rfl, rfl, rfl, rfl, rfl, rfl⟩
  | x :: l, n => by
    have h := foldl_deliver l (n.deliver x)
    cases x <;> exact h

/-- The batches that are delivered wait for a processor, with those that did. -/
theorem mem_foldl_deliver : ∀ (l : List (Delivery C)) (n : Node C),
    batch ∈ (l.foldl Node.deliver n).peerBatches ↔
      batch ∈ n.peerBatches ∨ .txProcessor batch ∈ l
  | [], n => by simp
  | x :: l, n => by
    rw [List.foldl_cons, mem_foldl_deliver l]
    cases x <;> simp [Node.deliver, or_assoc]

theorem has_foldl_deliver (l : List (Delivery C)) (h : n.Has cfg batch ∨ .txProcessor batch ∈ l) :
    (l.foldl Node.deliver n).Has cfg batch := by
  obtain ⟨-, -, hown, hstore, -⟩ := foldl_deliver l n
  unfold Node.Has
  rw [hown, hstore, mem_foldl_deliver]
  unfold Node.Has at h
  tauto

theorem has_setNode (h : (S.nodes k).Has cfg batch → n.Has cfg batch)
    (hj : (S.nodes j).Has cfg batch) :
    ((S.setNode k n).nodes j).Has cfg batch := by
  by_cases hjk : j = k
  · subst hjk
    rw [setNode_self]
    exact h hj
  · rwa [setNode_of_ne S hjk]

/-- **A batch that a node has stays there.** -/
theorem has_change (h : Change cfg S k e S') (hj : (S.nodes j).Has cfg batch) :
    (S'.nodes j).Has cfg batch := by
  cases h with
  | made e => exact has_setNode id hj
  | waited he hr hq =>
    exact has_setNode (fun h => h.imp_left fun h => List.mem_append_left _ h) hj
  | dropped hh hn => exact hj
  | linked he ha hl =>
    exact has_setNode (S := S) (fun h => has_foldl_deliver _ (.inl h)) hj
  | acted he ha hc => exact hj
  | messaged serialized => exact has_setNode (fun h => has_foldl_deliver _ (.inl h)) hj
  | @own b batches h =>
    refine has_setNode (fun hh => ?_) hj
    unfold Node.Has at hh
    rw [h, List.mem_cons] at hh
    rcases hh with (rfl | hh) | hh | hh
    · exact .inr (.inr List.mem_cons_self)
    · exact .inl hh
    · exact .inr (.inl hh)
    · exact .inr (.inr (List.mem_cons_of_mem _ hh))
  | @peer b batches h =>
    refine has_setNode (fun hh => ?_) hj
    unfold Node.Has at hh
    rw [h, List.mem_cons] at hh
    rcases hh with hh | (rfl | hh) | hh
    · exact .inl hh
    · exact .inr (.inr List.mem_cons_self)
    · exact .inr (.inl hh)
    · exact .inr (.inr (List.mem_cons_of_mem _ hh))
  | helped h =>
    refine has_setNode (fun hh => ?_) hj
    unfold Node.help
    split_ifs <;> exact hh
  | stored block =>
    refine has_setNode (fun hh => ?_) hj
    exact hh.imp_right fun hh => hh.imp_right fun hh => List.mem_cons_of_mem _ hh

/-- A link goes on. -/
theorem spreads_setLink {address : SocketAddr} {l : MempoolLink C}
    (hj : Spreads cfg j (S.nodes j).batchMaker (S.nodes j).quorumWaiter (S.links j))
    (hl : ∀ {sent}, Carries cfg address sent (S.links k address) →
      Carries cfg address sent l ∧ Advances (S.links k address) l) :
    Spreads cfg j (S.nodes j).batchMaker (S.nodes j).quorumWaiter
      ((S.setLink k address l).links j) := by
  unfold setLink
  by_cases hjk : j = k
  · subst hjk
    rw [setLinks_self]
    refine hj.advanced fun a => ?_
    by_cases ha : a = address
    · subst ha
      rw [Function.update_self]
      exact hl (hj.carries a)
    · rw [Function.update_of_ne ha]
      exact ⟨hj.carries a, rfl, List.Subset.refl _⟩
  · rwa [setLinks_of_ne S hjk]

/-- **A change keeps what a node sends.** -/
theorem spreads_change (h : Change cfg S k e S') (hj : Spreads cfg j (S.nodes j).batchMaker
    (S.nodes j).quorumWaiter (S.links j)) :
    Spreads cfg j (S'.nodes j).batchMaker (S'.nodes j).quorumWaiter (S'.links j) := by
  -- the change is not one of a batch maker, of a quorum waiter or of links
  have hquiet : ∀ {n}, n.batchMaker = (S.nodes k).batchMaker →
      n.quorumWaiter = (S.nodes k).quorumWaiter →
      Spreads cfg j ((S.setNode k n).nodes j).batchMaker ((S.setNode k n).nodes j).quorumWaiter
        (S.links j) := fun hb hq => by
    rw [view_setNode Node.batchMaker hb, view_setNode Node.quorumWaiter hq]
    exact hj
  cases h with
  | made e =>
    rw [setLinks_nodes]
    by_cases hjk : j = k
    · subst hjk
      rw [setNode_self, setLinks_self]
      exact hj.made e
    · rw [setNode_of_ne S hjk, setLinks_of_ne _ hjk]
      exact hj
  | waited he hr hq =>
    by_cases hjk : j = k
    · subst hjk
      rw [setNode_self]
      exact hj.waited he hr hq
    · rw [setNode_of_ne S hjk]
      exact hj
  | dropped hh hn =>
    rw [setLink_nodes, setLink]
    by_cases hjk : j = k
    · subst hjk
      rw [setLinks_self]
      exact hj.dropped hh hn
    · rw [setLinks_of_ne S hjk]
      exact hj
  | @linked address e l he ha hl =>
    obtain ⟨hb, hq, -⟩ := foldl_deliver (l.delivered.drop (S.links k address).delivered.length)
      (S.nodes (cfg.listener address))
    rw [view_setNode Node.batchMaker (by exact hb), view_setNode Node.quorumWaiter (by exact hq),
      setNode_links]
    exact spreads_setLink hj fun h => h.linked he hl
  | @acted address e c he ha hc =>
    exact spreads_setLink hj fun h => ⟨h.acted ha he hc, advances_step he hc rfl⟩
  | messaged serialized =>
    obtain ⟨hb, hq, -⟩ := foldl_deliver (deliversIn (cfg.receiverHandler.dispatch serialized))
      (S.nodes k)
    exact hquiet hb hq
  | own h => exact hquiet rfl rfl
  | peer h => exact hquiet rfl rfl
  | helped h =>
    unfold Node.help
    split_ifs <;> exact hquiet rfl rfl
  | stored block => exact hquiet rfl rfl

/-- What the quorum waiter hands on goes to the processor. -/
theorem txBatch_change (h : Change cfg S k e S')
    (hb : batch ∈ (S'.nodes j).quorumWaiter.txBatch) :
    batch ∈ (S.nodes j).quorumWaiter.txBatch ∨ (S'.nodes j).Has cfg batch := by
  have hquiet : ∀ {n}, n.quorumWaiter.txBatch = (S.nodes k).quorumWaiter.txBatch →
      batch ∈ ((S.setNode k n).nodes j).quorumWaiter.txBatch →
      batch ∈ (S.nodes j).quorumWaiter.txBatch ∨ ((S.setNode k n).nodes j).Has cfg batch :=
    fun heq hb => .inl (view_setNode (fun n => n.quorumWaiter.txBatch) heq j ▸ hb)
  cases h with
  | made e => exact hquiet rfl hb
  | @waited e q he hr hq =>
    by_cases hjk : j = k
    · subst hjk
      rw [setNode_self] at hb ⊢
      obtain ⟨more, hmore⟩ := txBatch_step hq
      have hb' : batch ∈ q.txBatch := hb
      rw [← hmore] at hb'
      refine (List.mem_append.mp hb').imp_right fun hb => .inl (List.mem_append_right _ ?_)
      rwa [← hmore, List.drop_left]
    · rw [setNode_of_ne S hjk] at hb
      exact .inl hb
  | dropped hh hn => exact .inl hb
  | @linked address e l he ha hl =>
    refine .inl ?_
    have hq := (foldl_deliver (l.delivered.drop (S.links k address).delivered.length)
      (S.nodes (cfg.listener address))).2.1
    rwa [view_setNode Node.quorumWaiter (by exact hq)] at hb
  | acted he ha hc => exact .inl hb
  | messaged serialized =>
    have hq := (foldl_deliver (deliversIn (cfg.receiverHandler.dispatch serialized))
      (S.nodes k)).2.1
    exact hquiet (by rw [hq]) hb
  | own h => exact hquiet rfl hb
  | peer h => exact hquiet rfl hb
  | helped h =>
    revert hb
    unfold Node.help
    split_ifs <;> exact hquiet rfl
  | stored block => exact hquiet rfl hb

theorem delivered_step {l l' : MempoolLink C} {e : Network.Receiving.Event (List UInt8) String}
    (h : l.step cfg.receiverHandler e = some l') : l.delivered <+: l'.delivered := by
  cases Network.Receiving.step_change h with
  | delivered hr => exact List.prefix_append _ _
  | _ => exact List.prefix_refl _

/-- What the link delivers goes to a processor of the peer. -/
theorem delivered_change (h : Change cfg S k e S') {address : SocketAddr}
    (hb : .txProcessor batch ∈ (S'.links j address).delivered) :
    .txProcessor batch ∈ (S.links j address).delivered ∨
      (S'.nodes (cfg.listener address)).Has cfg batch := by
  -- a link that is the only one that changes
  have hlink : ∀ {a l}, .txProcessor batch ∈ ((S.setLink k a l).links j address).delivered →
      .txProcessor batch ∈ (S.links j address).delivered ∨
        j = k ∧ address = a ∧ .txProcessor batch ∈ l.delivered := by
    intro a l hb
    unfold setLink at hb
    by_cases hjk : j = k
    · subst hjk
      rw [setLinks_self] at hb
      by_cases ha : address = a
      · subst ha
        rw [Function.update_self] at hb
        exact .inr ⟨rfl, rfl, hb⟩
      · rw [Function.update_of_ne ha] at hb
        exact .inl hb
    · rw [setLinks_of_ne S hjk] at hb
      exact .inl hb
  cases h with
  | made e =>
    refine .inl ?_
    by_cases hjk : j = k
    · subst hjk
      rw [setLinks_self] at hb
      unfold submitAll at hb
      rwa [(foldl_submit _ _).2.2.2] at hb
    · rwa [setLinks_of_ne _ hjk] at hb
  | dropped hh hn =>
    rcases hlink hb with hb | ⟨rfl, rfl, hb⟩
    · exact .inl hb
    · exact .inl hb
  | linked he ha hl =>
    rcases hlink hb with hb | ⟨rfl, rfl, hnew⟩
    · exact .inl hb
    · obtain ⟨more, hmore⟩ := delivered_step hl
      rw [← hmore, List.mem_append] at hnew
      refine hnew.imp_right fun hb => ?_
      rw [setNode_self, ← hmore, List.drop_left]
      exact has_foldl_deliver _ (.inr hb)
  | acted he ha hc =>
    rcases hlink hb with hb | ⟨rfl, rfl, hb⟩
    · exact .inl hb
    · exact .inl hb
  | _ => exact .inl hb

/-- The invariant of the mempools. -/
structure Ok (cfg : Setup C) (S : Cluster C) : Prop where
  spreads : ∀ k, Spreads cfg k (S.nodes k).batchMaker (S.nodes k).quorumWaiter (S.links k)
  own : ∀ k, ∀ batch ∈ (S.nodes k).quorumWaiter.txBatch, (S.nodes k).Has cfg batch
  delivered : ∀ k address batch, .txProcessor batch ∈ (S.links k address).delivered →
    (S.nodes (cfg.listener address)).Has cfg batch

theorem ok_new : Ok cfg (Cluster.new : Cluster C) :=
  ⟨fun _ => spreads_new, fun _ _ hb => absurd hb List.not_mem_nil,
    fun _ _ _ hb => absurd hb List.not_mem_nil⟩

theorem ok_change (h : Change cfg S k e S') (hS : Ok cfg S) : Ok cfg S' :=
  ⟨fun j => spreads_change h (hS.spreads j),
    fun j b hb => (txBatch_change h hb).elim (fun hb => has_change h (hS.own j b hb)) id,
    fun j a b hb =>
      (delivered_change h hb).elim (fun hb => has_change h (hS.delivered j a b hb)) id⟩

theorem run_ok (r : ClusterRun cfg es S) : Ok cfg S :=
  r.invariant ok_new fun _ _ _ hS h => ok_change (step_change h).2 hS

/-- The node `j` has the batch, or a runner of its receiver is about to hand it on, of a message
from `k`. -/
def Received (cfg : Setup C) (S : Cluster C) (k j : C.PublicKey) (batch : SerializedBatchMessage) :
    Prop :=
  (S.nodes j).Has cfg batch ∨ ∃ i,
    .txProcessor batch ∈ deliversIn ((S.links k (cfg.mempoolAddress j)).sockets i).runner.left

theorem Ok.received (hS : Ok cfg S) (hno : cfg.committee.NoOverflow) (hk : cfg.Honest k)
    (hb : batch ∈ (S.nodes k).quorumWaiter.txBatch) : ∃ Q, cfg.committee.Quorum Q ∧ k ∈ Q ∧
      ∀ j ∈ Q, cfg.Honest j → Received cfg S k j batch := by
  obtain ⟨⟨batch', rfl⟩, Q, hQ, hkQ, hacked⟩ := (hS.spreads k).quorum hno hk.1 hb
  refine ⟨Q, hQ, hkQ, fun j hj hjh => ?_⟩
  by_cases hjk : j = k
  · exact .inl (hjk ▸ hS.own k _ hb)
  obtain ⟨handler, hget, hn⟩ := hacked j hj hjk
  have hlistens := cfg.listens j hjh.1
  rcases ((hS.spreads k).carries (cfg.mempoolAddress j)).received (by rwa [hlistens]) hn
    (getElem?_number hget) with hd | hleft
  · have hhas := hS.delivered k _ _ hd
    rw [hlistens] at hhas
    exact .inl hhas
  · exact .inr hleft

end Runs

/-! ### Four mempools -/

open Hotstuff.Ideal

/-- The messages of the mempools as `bincode` writes them, up to the lengths that do not fit, and to
a digest being its preimage. -/
def fourDeserialize : List UInt8 → Option (MempoolMessage crypto)
  | 0 :: 0 :: 0 :: 0 :: l => some (.batch (Lib.Lengths.readStrings l))
  | 1 :: 0 :: 0 :: 0 :: origin :: l =>
    some (.batchRequest [Tree.ofList (l.map fun x => .leaf x.toNat)] (key origin.toNat))
  | _ => none

/-- A digest in bytes. -/
def treeBytes : Tree → List UInt8
  | .leaf n => [0, .ofNat n]
  | .node l r => 1 :: treeBytes l ++ treeBytes r

theorem ofList_ne_hash (l : List UInt8) (x : Preimage ℕ Tree) :
    crypto.hash x ≠ Tree.ofList ((0 :: l).map fun x => .leaf x.toNat) := by
  cases x <;> simp [crypto, Tree.ofPreimage, Tree.ofList]

/-- Four authorities of stake 1, the last of which is Byzantine. -/
def fourSetup : Setup crypto where
  committee := (four 0).committee
  mempoolAddress (k : ℕ) :=
    match k with
    | 0 => "127.0.0.1:7000"
    | 1 => "127.0.0.1:7001"
    | 2 => "127.0.0.1:7002"
    | _ => "127.0.0.1:7003"
  listener address :=
    if address = "127.0.0.1:7000" then key 0
    else if address = "127.0.0.1:7001" then key 1
    else if address = "127.0.0.1:7002" then key 2
    else key 3
  listens := by decide
  byzantine := {key 3}
  batchSize := 1
  serialize batch := [0, 0, 0, 0] ++ Lib.Lengths.strings batch
  deserialize := fourDeserialize
  deserialize_serialize batch := by simp [fourDeserialize, Lib.Lengths.readStrings_strings]
  digest data := Tree.ofList (data.map fun x => .leaf x.toNat)
  serializeBlock block := treeBytes (.node block.qc.hash (.node (.leaf block.qc.round.toNat)
    (.node (.leaf block.author) (.node (.leaf block.round.toNat) (Tree.ofList block.payload)))))
  digest_ne block data batch h := by
    unfold fourDeserialize at h
    split at h
    · exact ofList_ne_hash _ _
    · cases h
    · cases h

/-- A batch is acknowledged by the Byzantine authority, and by the second one before its receiver
has handed it on. -/
def fourEvents : List (crypto.PublicKey × Event crypto) :=
  [(key 0, .batchMaker (.transaction [7])), (key 0, .quorumWaiter .receive),
    (key 0, .byzantine "127.0.0.1:7003" (.connect true)),
    (key 0, .byzantine "127.0.0.1:7003" .recv), (key 0, .byzantine "127.0.0.1:7003" (.write true)),
    (key 0, .byzantine "127.0.0.1:7003" (.reply "Nak")),
    (key 0, .quorumWaiter (.resolve 2 true 0)),
    (key 0, .link "127.0.0.1:7001" (.sender (.connect true))),
    (key 0, .link "127.0.0.1:7001" (.sender .recv)),
    (key 0, .link "127.0.0.1:7001" (.sender (.write true))),
    (key 0, .link "127.0.0.1:7001" (.frame 1)), (key 0, .link "127.0.0.1:7001" (.proceed 1)),
    (key 0, .link "127.0.0.1:7001" (.sender (.reply "Ack"))),
    (key 0, .quorumWaiter (.resolve 0 true 0))]

end Hotstuff.Mempool.Cluster
