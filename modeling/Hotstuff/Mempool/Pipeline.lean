import Hotstuff.Mempool.Spreading

/-! # From the clients to the processor

The batch maker and the quorum waiter of a node are a pipeline. A quorum waiter may give up a batch,
but in a committee of several authorities it does not: each handler that it waits for resolves with
an acknowledgement, and all authorities together have the stake of a quorum. So the batches that go
to the processor are the first ones that the batch maker has sealed, each of them once, and together
with those that wait and the current one they are what the clients have sent (`pipeline`). -/

namespace Hotstuff.Mempool.Cluster

open Hotstuff.Primitives Hotstuff.Consensus.Config
open Hotstuff.Network.Acknowledging
open Hotstuff.Lib.Lists Hotstuff.Lib.Transition Hotstuff.Ideal

variable {C : Crypto} {cfg : Setup C}

/-- The event of the batch maker of `k`. -/
def makerEvent (k : C.PublicKey) : C.PublicKey × Event C → Option BatchMaker.Event
  | (j, .batchMaker e) => if j = k then some e else none
  | _ => none

/-- What the clients have sent to `k`. -/
def transactions (k : C.PublicKey) (es : List (C.PublicKey × Event C)) : List Transaction :=
  (es.filterMap (makerEvent k)).filterMap BatchMaker.Event.received

section BatchMaker

variable {S S' : Cluster C} {j k : C.PublicKey} {e : Event C} {es : List (C.PublicKey × Event C)}

/-- Only the events of a batch maker change it. -/
theorem batchMaker_change (h : Change cfg S k e S') (j : C.PublicKey) :
    (S'.nodes j).batchMaker = ((makerEvent j (k, e)).toList).foldl
      (BatchMaker.handle (cfg.settings j)) (S.nodes j).batchMaker := by
  cases h with
  | made e =>
    rw [setLinks_nodes]
    by_cases hjk : j = k
    · subst hjk
      rw [setNode_self]
      simp [makerEvent, Node.make]
    · rw [setNode_of_ne S hjk]
      simp [makerEvent, Ne.symm hjk]
  | dropped hh hn => rfl
  | @linked address e l he ha hl =>
    have hb := (foldl_deliver (l.delivered.drop (S.links k address).delivered.length)
      (S.nodes (cfg.listener address))).1
    exact view_setNode (S := S.setLink k address l) Node.batchMaker hb j
  | acted he ha hc => rfl
  | messaged serialized =>
    have hb := (foldl_deliver (deliversIn (cfg.receiverHandler.dispatch serialized))
      (S.nodes k)).1
    exact view_setNode Node.batchMaker hb j
  | helped h =>
    refine view_setNode Node.batchMaker ?_ j
    unfold Node.help
    split_ifs <;> rfl
  | _ =>
    refine view_setNode Node.batchMaker ?_ j
    rfl

/-- The batch maker of a node runs as it does alone. -/
theorem run_batchMaker (r : ClusterRun cfg es S) (k : C.PublicKey) :
    (S.nodes k).batchMaker = BatchMaker.run (cfg.settings k) (es.filterMap (makerEvent k)) := by
  induction r with
  | nil => rfl
  | @snoc es S x S' r h ih =>
    have hchange := batchMaker_change (step_change h).2 k
    rw [hchange, ih, filterMap_concat, BatchMaker.run, BatchMaker.run, List.foldl_append]

end BatchMaker

section Pipeline

variable {k : C.PublicKey} {b : BatchMaker C} {q : QuorumWaiter C}
  {links : SocketAddr → MempoolLink C}

/-- The stake of the other authorities. -/
theorem weight_others (c : Committee C) (hk : k ∈ c.keys) :
    (c.stake k).toNat + c.weight (c.keys.filter (· ≠ k)).toFinset = c.total := by
  have hinsert : insert k (c.keys.filter (· ≠ k)).toFinset = c.members := by
    ext j
    by_cases hj : j = k <;> simp [Committee.members, hj, hk]
  rw [← weight_members, ← hinsert, Committee.weight, Committee.weight, Finset.sum_insert (by simp)]

theorem threshold_le_total (c : Committee C) (hno : c.NoOverflow) (hpos : 0 < c.total) :
    c.quorumThreshold.toNat ≤ c.total := by
  rw [toNat_threshold hno]
  omega

/-- **No batch is given up**, if there are other authorities. -/
theorem Spreads.sent_length (h : Spreads cfg k b q links) (hno : cfg.committee.NoOverflow)
    (hk : k ∈ cfg.committee.keys) (hother : ∃ j ∈ cfg.committee.keys, j ≠ k)
    (hpos : 0 < cfg.committee.total) {r : QuorumWaiter.Record C} (hr : r ∈ q.records) :
    r.sent.length = 1 := by
  obtain ⟨es, run, hes⟩ := h.waiter
  have hsends := (QuorumWaiter.tracks_run hno run).records r hr
  obtain ⟨-, rest, hrest, hperm⟩ := (run_fair run).records r hr
  have hnames := (h.messages _ (h.mem_txMessage hno hr)).names
  have honce := hsends.once
  by_contra hne
  have hnil : r.sent = [] := List.eq_nil_of_length_eq_zero (by omega)
  -- the handlers of all the others have resolved
  rw [hrest hnil, List.append_nil, hnames] at hperm
  have hnd : (r.resolved.map Prod.fst).Nodup :=
    hperm.nodup_iff.mpr (cfg.committee.nodup.filter _)
  have hweight : (cfg.committee.stake k).toNat + QuorumWaiter.stakes cfg.committee r.resolved =
      cfg.committee.total := by
    rw [stakes_eq_weight _ hnd, List.toFinset_eq_of_perm _ _ hperm]
    exact weight_others _ hk
  have hlen : 0 < r.resolved.length := by
    obtain ⟨j, hj, hjk⟩ := hother
    have hin : j ∈ r.resolved.map Prod.fst :=
      hperm.mem_iff.mpr (List.mem_filter.mpr ⟨hj, by simpa using hjk⟩)
    simpa using List.length_pos_of_mem hin
  have hsent := (hsends.sent r.resolved.length (le_refl _)).mpr ⟨hlen, by
    rw [List.take_length, hweight]
    exact threshold_le_total _ hno hpos⟩
  simp [hnil] at hsent

end Pipeline

end Hotstuff.Mempool.Cluster
