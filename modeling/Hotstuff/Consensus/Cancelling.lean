import Hotstuff.Consensus.Climbing
import Hotstuff.Consensus.Sharing

/-! # What the payload waiter cancels

`process_block` tells the payload waiter to drop the blocks up to the round of the block that it is
about to commit. A block that is dropped though it waits for its payload is either stored already,
by another way, or not in the chain of any block that the node commits, before or after
(`cancelled_harmless`): it is not above the committed block, so that if it were in a committed chain
it would be an ancestor of the committed block, all of which are stored. -/

namespace Hotstuff.Consensus.Cancelling

open Hotstuff.Primitives Hotstuff.Consensus.Config Hotstuff.Consensus.Messages
open Hotstuff.Consensus.Pacing Hotstuff.Consensus.Handlers Hotstuff.Consensus.Steps
open Hotstuff.Consensus.Entries Hotstuff.Consensus.Evidence Hotstuff.Consensus.Admission
open Hotstuff.Consensus.Tasks Hotstuff.Consensus.Queues Hotstuff.Consensus.Chain
open Hotstuff.Consensus.Wiring Hotstuff.Consensus.System Hotstuff.Consensus.Coherence
open Hotstuff.Consensus.Agreement Hotstuff.Lib.Transition Hotstuff.Lib.TwoChain Hotstuff.Ideal
open Hotstuff.Consensus.Climbing (run_climbs)
open Hotstuff.Consensus.Sharing (run_keyed)
open Hotstuff.Lib.Lists (mem_of_lookup)

variable {C : Crypto} {T : Type}

/-! ### What is cancelled and what is committed -/

/-- The future is cancelled when the payload waiter takes `Cleanup` of the round: the round that is
kept for its block is not above it, and the cancel channel is the one of the future. -/
def Cancels (w : PayloadWaiter C) (r : Round) (f : PayloadFuture C) : Prop :=
  f ∈ w.waiting ∧ ∃ round ≤ r, w.pending f.deliver.digest = some (round, f.handler)

/-- The block is passed to `commit` or sent to the application. -/
def Committed (s : Core C T) (b : Block C) : Prop :=
  (∃ last, .commit last b ∈ s.trace) ∨ .deliver b ∈ s.trace

/-- The digests of blocks are neither the all-zero one nor those of batches. -/
structure Separated (C : Crypto) : Prop where
  zero : ∀ x, C.hash x ≠ C.defaultDigest
  batch : ∀ x y, C.hash x ≠ C.batchDigest y

/-! ### The trace -/

/-- What an entry of the trace says about the entries before it. -/
def Founded (s : Core C T) : Action C → Prop
  | .wait _ b => b.payload ≠ []
  | .gc r => ∃ last b, .commit last b ∈ s.trace ∧ b.round = r
  | .deliver b => ∃ last b', .commit last b' ∈ s.trace ∧ Relation.ReflTransGen IsParent b b'
  | _ => True

theorem Founded.mono {s s' : Core C T} (h : Grows s s') {a : Action C} (ha : Founded s a) :
    Founded s' a := by
  cases a with
  | gc r => exact ha.imp fun _ h' => h'.imp fun _ hb => hb.imp_left fun hm => h.trace hm
  | deliver b => exact ha.imp fun _ h' => h'.imp fun _ hb => hb.imp_left fun hm => h.trace hm
  | _ => exact ha

/-- The blocks that the loop of `commit` gathers are ancestors. -/
theorem ancestors_of_gathered {env : Env C} {s : Core C T} (hok : Entries.Ok env s)
    (hb : NoBatchCertified s) (hc : Closed s) {last : Round} {b : Block C} {l : List (Block C)}
    (h : Ancestors env s.store last b l) (hk : Known s b) :
    ∀ a ∈ l, Relation.ReflTransGen IsParent a b := by
  induction h with
  | stop => simp
  | @step b p l hr hp h ih =>
    obtain ⟨hpb, hkp⟩ := found_parent hc hb (accepted_of_known hok hk) hp
    refine List.forall_mem_cons.mpr ⟨.single hpb, fun a ha => (ih hkp.known a ha).tail hpb⟩

section Steps

variable [RoundTimer T] {env : Env C} {G : Guard C} {s s' : Core C T}

theorem Act.founded (h : Act env G s s') (hok : Entries.Ok env s) (hb : NoBatchCertified s)
    (hc : Closed s) (hl : Linked s) (hs : ∀ a ∈ s.trace, Founded s a) :
    ∀ a ∈ s'.trace, Founded s' a := by
  obtain ⟨l, ht, ho⟩ := Act.origin h
  have hg := Act.grows h
  intro a ha
  rw [ht] at ha
  rcases List.mem_append.mp ha with ha | ha
  · exact (hs a ha).mono hg
  have hoa := ho a ha
  cases a with
  | wait missing b => exact hoa.2.1
  | gc r =>
    obtain ⟨b, hm, hr⟩ := hoa
    exact ⟨_, b, hm, hr⟩
  | deliver b =>
    obtain ⟨b', l', hm, -, hanc, hin⟩ := hoa
    refine ⟨_, b', hg.trace hm, ?_⟩
    obtain ⟨b₁, b₂, hcl, -⟩ := hok.entry _ hm
    rcases List.mem_append.mp hin with hin | hin
    · exact ancestors_of_gathered hok hb hc hanc (hl b' b₁ b₂ hcl).2.2.2.known b hin
    · rw [List.mem_singleton.mp hin]
  | _ => trivial

theorem Acts.founded (h : Acts env G s s') (hok : Entries.Ok env s) (hb : NoBatchCertified s')
    (hc : Closed s) (hl : Linked s) (hs : ∀ a ∈ s.trace, Founded s a) :
    ∀ a ∈ s'.trace, Founded s' a := by
  induction h with
  | refl => exact hs
  | tail h h' ih =>
    have hb' := noBatch_of_grows (Act.grows h') hb
    exact Act.founded h' (Acts.ok h hok) hb' (Acts.closed h hb' hc) (Acts.linked h hok hb' hc hl)
      (ih hb')

end Steps

/-! ### The payload waiter -/

/-- What the payload waiter holds: blocks with a payload, the rounds of blocks, and the rounds in
`gc`. -/
structure Holds (gc : Round → Prop) (w : PayloadWaiter C) : Prop where
  wait : ∀ missing b, .wait missing b ∈ w.rxMessage → b.payload ≠ []
  cleanup : ∀ r, .cleanup r ∈ w.rxMessage → gc r
  future : ∀ f ∈ w.waiting, f.deliver.payload ≠ []
  pending : ∀ d r handler, w.pending d = some (r, handler) →
    ∃ b : Block C, b.digest = d ∧ b.round = r

section Holds

variable {gc : Round → Prop} {w w' : PayloadWaiter C}

/-- Fewer messages, futures and pending blocks. -/
theorem Holds.of_subset (h : Holds gc w) (hrx : w'.rxMessage ⊆ w.rxMessage)
    (hw : w'.waiting ⊆ w.waiting) (hp : ∀ d x, w'.pending d = some x → w.pending d = some x) :
    Holds gc w' :=
  ⟨fun m b hm => h.wait m b (hrx hm), fun r hr => h.cleanup r (hrx hr),
    fun f hf => h.future f (hw hf), fun d r i hd => h.pending d r i (hp d _ hd)⟩

theorem Holds.receive (h : Holds gc w) (hr : w.receive = some w') : Holds gc w' := by
  obtain ⟨m, ms, hrx, rfl⟩ := PayloadWaiter.receive_eq hr
  have htl : ms ⊆ w.rxMessage := hrx ▸ List.subset_cons_self m ms
  have h₁ : Holds gc { w with rxMessage := ms } :=
    h.of_subset htl (List.Subset.refl _) fun _ _ hd => hd
  cases m with
  | wait missing b =>
    have hb : b.payload ≠ [] := h.wait missing b (by simp [hrx])
    unfold PayloadWaiter.handle
    dsimp only
    split_ifs
    · exact h₁
    · refine ⟨h₁.wait, h₁.cleanup, ?_, fun d r i hd => ?_⟩
      · exact List.forall_mem_append.mpr ⟨h₁.future, List.forall_mem_singleton.mpr hb⟩
      · dsimp only at hd
        split_ifs at hd with hdb
        · cases hd
          exact ⟨b, hdb.symm, rfl⟩
        · exact h₁.pending d r i hd
  | cleanup r =>
    refine h₁.of_subset (List.Subset.refl _) (List.Subset.refl _) fun d x hd => ?_
    simp only [PayloadWaiter.handle] at hd
    rcases hp : w.pending d with _ | ⟨r', i⟩
    · simp [hp] at hd
    · simp only [hp] at hd
      split_ifs at hd
      exact hd

theorem Holds.ready (h : Holds gc w) {st : Store C} {i : ℕ} {b : Block C}
    (hr : w.ready st i = some (w', b)) : Holds gc w' := by
  obtain ⟨f, -, -, heq⟩ := PayloadWaiter.ready_eq hr
  cases heq
  refine h.of_subset (List.Subset.refl _) (List.eraseIdx_subset ..) fun d x hd => ?_
  dsimp only at hd
  split_ifs at hd
  exact hd

theorem Holds.cancelled (h : Holds gc w) {i : ℕ} (hr : w.cancelled i = some w') : Holds gc w' := by
  obtain ⟨f, -, -, rfl⟩ := PayloadWaiter.cancelled_eq hr
  exact h.of_subset (List.Subset.refl _) (List.eraseIdx_subset ..) fun _ _ hd => hd

theorem Holds.answer (h : Holds gc w) (written : List C.Digest) : Holds gc (w.answer written) := by
  refine ⟨h.wait, h.cleanup, fun f' hf' => ?_, h.pending⟩
  obtain ⟨f, hf, hd, -⟩ := PayloadWaiter.mem_answer hf'
  rw [← hd]
  exact h.future f hf

theorem Holds.failed (h : Holds gc w) {i : ℕ} (hr : w.failed i = some w') : Holds gc w' := by
  obtain ⟨f, -, rfl⟩ := PayloadWaiter.failed_eq hr
  exact h.of_subset (List.Subset.refl _) (List.eraseIdx_subset ..) fun _ _ hd => hd

end Holds

/-! ### Runs of a node -/

/-- The invariant of the payload waiter and of the entries that speak to it. -/
structure Waiting (n : Node C T) : Prop where
  entries : ∀ a ∈ n.core.trace, Founded n.core a
  holds : Holds (fun r => .gc r ∈ n.core.trace) n.payloadWaiter

section Runs

variable [RoundTimer T] {env : Env C} {n n' : Node C T} {e : Event C}

/-- An event of another task leaves the trace as it is. -/
theorem waiting_task (hn : Queues.Ok env n) (hc : e.isCore = false) (h : n.step env e = some n')
    (hw : Waiting n) : Waiting n' := by
  have htr : n'.core.trace = n.core.trace := by
    rcases task_step_cases hn hc h with hf | ⟨x, -, rfl⟩
    · rw [hf.core]
    · rfl
  have hg := step_grows hn h
  refine ⟨fun a ha => (hw.entries a (htr ▸ ha)).mono hg, ?_⟩
  rw [htr]
  have hh := hw.holds
  unfold Node.step at h
  rw [hc] at h
  cases e with
  | message | loopback | timeout => cases hc
  | payloadMessage =>
    obtain ⟨w, hr, rfl⟩ := Option.map_eq_some_iff.mp h
    exact hh.receive hr
  | payloadReady i =>
    obtain ⟨⟨w, b⟩, hr, rfl⟩ := Option.map_eq_some_iff.mp h
    exact hh.ready hr
  | payloadCancelled i =>
    obtain ⟨w, hr, rfl⟩ := Option.map_eq_some_iff.mp h
    exact hh.cancelled hr
  | payloadFailed i =>
    obtain ⟨w, hr, rfl⟩ := Option.map_eq_some_iff.mp h
    exact hh.failed hr
  | syncBlock | syncReady | syncFailed | digest | ack =>
    obtain ⟨w, -, rfl⟩ := Option.map_eq_some_iff.mp h
    exact hh
  | proposerMessage payload =>
    obtain ⟨⟨p, b⟩, -, rfl⟩ := Option.map_eq_some_iff.mp h
    rcases b with _ | b <;> exact hh
  | syncTimer | batch =>
    cases Option.some.inj h
    exact hh
  | batchLost x =>
    cases Option.some.inj h
    exact hh.answer _

theorem waiting_core (hn : Queues.Ok env n) (hc : e.isCore = true) (h : n.step env e = some n')
    (hb : NoBatchCertified n'.core) (hcl : Closed n.core) (hl : Linked n.core) (hw : Waiting n) :
    Waiting n' := by
  have hentries := Acts.founded (step_acts hn hc h) hn.core hb hcl hl hw.entries
  obtain ⟨htr, -⟩ := fresh_of_step hn hc h
  obtain ⟨-, -, hp, -⟩ := step_core_tasks hc h
  refine ⟨hentries, ?_⟩
  have hnew : ∀ a ∈ newEntries n n'.core, a ∈ n'.core.trace := fun a ha => by
    rw [htr]
    exact List.mem_append_right _ ha
  rw [hp]
  refine ⟨fun m b hm => ?_, fun r hr => ?_, (hw.holds.answer _).future, hw.holds.pending⟩
  · rcases List.mem_append.mp hm with hm | hm
    · exact hw.holds.wait m b hm
    · obtain ⟨a, ha, hto⟩ := List.mem_filterMap.mp hm
      cases a <;> simp only [toPayloadWaiter, reduceCtorEq, Option.some.injEq,
        PayloadWaiterMessage.wait.injEq] at hto
      obtain ⟨rfl, rfl⟩ := hto
      exact hentries _ (hnew _ ha)
  · rcases List.mem_append.mp hr with hr | hr
    · exact (step_grows hn h).trace (hw.holds.cleanup r hr)
    · obtain ⟨a, ha, hto⟩ := List.mem_filterMap.mp hr
      cases a <;> simp only [toPayloadWaiter, reduceCtorEq, Option.some.injEq,
        PayloadWaiterMessage.cleanup.injEq] at hto
      rw [← hto]
      exact hnew _ ha

theorem waiting_boot (io : Io C) (timer : T) : Waiting (Node.boot env io timer) := by
  have htr : (Node.boot env io timer).core.trace = _ := boot_trace env io timer
  have hmem : ∀ a ∈ (Node.boot env io timer).core.trace, a = .make 1 QC.genesis none := by
    intro a ha
    rw [htr] at ha
    split_ifs at ha
    · exact List.mem_singleton.mp ha
    · simp at ha
  have hrx : (Node.boot env io timer).payloadWaiter.rxMessage = [] := by
    refine List.filterMap_eq_nil_iff.mpr fun a ha => ?_
    rw [hmem a ha]
    rfl
  refine ⟨fun a ha => hmem a ha ▸ trivial, ?_, ?_, ?_, ?_⟩
  · simp [hrx]
  · simp [hrx]
  · exact fun f hf => absurd hf List.not_mem_nil
  · exact fun d r i hd => by cases hd

/-- **In every reachable state** of a node. -/
theorem run_waiting {io : Io C} {timer : T} {es : List (Event C)}
    (r : NodeRun env (Node.boot env io timer) es n) (hb : NoBatchCertified n.core) : Waiting n :=
  (run_invariant_of (boot_ok io timer) r
    (P := fun n => (Closed n.core ∧ Linked n.core) ∧ Waiting n) noBatch_of_grows
    ⟨⟨closed_boot io timer, linked_boot io timer⟩, waiting_boot io timer⟩
    (fun _ e _ hn hs hb h => ⟨⟨closed_step hn h hb hs.1.1, linked_step hn h hb hs.1.1 hs.1.2⟩, by
      rcases hc : e.isCore with _ | _
      · exact waiting_task hn hc h hs.2
      · exact waiting_core hn hc h hb hs.1.1 hs.1.2 hs.2⟩) hb).2

/-- Batches are stored under their digests. -/
def BatchKeys (s : Core C T) : Prop := ∀ d x, (d, .batch x) ∈ s.store → d = C.batchDigest x

theorem run_batchKeys {io : Io C} {timer : T} {es : List (Event C)}
    (r : NodeRun env (Node.boot env io timer) es n) : BatchKeys n.core :=
  fun _ _ hm => run_keyed r _ _ hm

end Runs

/-! ### Ancestors -/

section Ancestors

variable {w : Network C} {cores : C.PublicKey → Core C T}

/-- A QC that is not the first one certifies the digest of a block. -/
theorem hash_of_qcKnown (hnc : NoCollision C) (hf : FewFaults w) {qc : QC C}
    (h : QcKnown w.committee (Sig w cores) qc) (hg : ¬ qc.IsGenesis) :
    ∃ b : Block C, b.digest = qc.hash := by
  have hsig := h.quorum.resolve_left hg
  obtain ⟨k, hk, -, hh⟩ := exists_honest hf hsig.1 hsig.1
  obtain ⟨b, -, hb, -⟩ := voted_of_qcSigned hnc hsig hk hh
  exact ⟨b, hb⟩

variable (hnc : NoCollision C) (hsep : Separated C) (hf : FewFaults w)
  (hz : ZeroUncertified w cores) (hI : Coherent w cores)
include hnc hsep hf hz hI

/-- **Ancestors of a block are ancestors in the history**, whatever copies of blocks are between. -/
theorem child_of_ancestor {a c : Block C} (h : Relation.ReflTransGen IsParent a c)
    {d : Option C.Digest} (hd : Names d c) {r : ℕ} (hc : (history w cores).Cert d r) :
    ∃ p, Names p a ∧ Relation.ReflTransGen (history w cores).Child p d := by
  induction h using Relation.ReflTransGen.head_induction_on with
  | refl => exact ⟨d, hd, .refl⟩
  | @head a b hab _ ih =>
    obtain ⟨q, hq, hqd⟩ := ih
    have hS := sound_of_coherent hnc hf hz hI
    obtain ⟨r', -, hcq⟩ := hS.cert_of_ancestor hqd hc
    rcases hq with ⟨rfl, rfl⟩ | rfl
    · -- the parent of the first block is the first block
      rcases hab with ⟨-, rfl⟩ | ⟨hg, -⟩
      · exact ⟨none, .inl ⟨rfl, rfl⟩, hqd⟩
      · exact absurd isGenesis_genesis hg
    rcases hcq with ⟨h0, -⟩ | ⟨Q, hQ⟩
    · cases h0
    obtain ⟨k, -, x, ⟨hk, hm⟩, hid, -⟩ := hS.exists_voted hQ
    obtain ⟨y, hy, rfl⟩ := mem_vote.mp hm
    have hst : .store y ∈ (cores k).trace := ((hI.entries k hk).entry _ hy).1
    have hhash : y.qc.hash = b.qc.hash := (digest_inj hnc (Option.some.inj hid)).2.2.2
    have hchild : (history w cores).Child (parentId y) (some b.digest) :=
      ⟨k, ballot y, ⟨hk, hm⟩, hid, rfl⟩
    refine ⟨parentId y, ?_, .head hchild hqd⟩
    unfold parentId
    by_cases hg : y.qc.IsGenesis
    · rw [if_pos hg]
      rcases hab with ⟨-, rfl⟩ | ⟨-, hda⟩
      · exact .inl ⟨rfl, rfl⟩
      · exact absurd (hda.trans (hhash.symm.trans hg.1)) (hsep.zero _)
    · rw [if_neg hg]
      rcases hab with ⟨hg', -⟩ | ⟨-, hda⟩
      · obtain ⟨⟨r, hr⟩, -⟩ := hI.qc_of_vote hk hst hg
        exact absurd (hhash.trans hg'.1) (hz k hk _ r hr hg)
      · refine .inr (congrArg some ?_)
        exact hhash.trans hda.symm

omit hsep hf in
/-- The ancestors of a block in the store are in the store. -/
theorem found_ancestor {k : C.PublicKey} (hk : w.Honest k) {s : Core C T} (hg : Grows s (cores k))
    (hcl : Closed s) {p d : Option C.Digest}
    (h : Relation.ReflTransGen (history w cores).Child p d) {b : Block C} (hb : Found s b)
    (hd : Names d b) : ∃ a, Found s a ∧ Names p a := by
  induction h generalizing b with
  | refl => exact ⟨b, hb, hd⟩
  | @tail q d _ hqd ih =>
    obtain ⟨rfl, -⟩ := parent_of_child hnc hz hI hqd hk (hb.known.mono hg) hd
    unfold parentId at ih
    by_cases hgen : b.qc.IsGenesis
    · exact ih (.inl rfl) (.inl ⟨if_pos hgen, rfl⟩)
    · have hst : .store b ∈ s.trace := hb.known.resolve_left fun h0 => hgen (h0 ▸ isGenesis_genesis)
      obtain ⟨a, hl, hda⟩ := (hcl.parent b hst).resolve_left hgen
      have hma := mem_of_lookup hl
      obtain ⟨hka, hsa⟩ := hcl.stored _ a hma
      refine ih (.inr ⟨hsa, hka ▸ hma⟩) (.inr ?_)
      rw [if_neg hgen, hda]

/-- **A block of the chain of a committed block is an ancestor of every committed block** that is
not below it. -/
theorem child_of_committed {k : C.PublicKey} (hk : w.Honest k) (hl : Linked (cores k))
    {last last' : Round} {a b c : Block C} (hb : .commit last b ∈ (cores k).trace)
    (hc : .commit last' c ∈ (cores k).trace) (ha : Relation.ReflTransGen IsParent a c)
    (hne : a ≠ Block.genesis) (hle : a.round ≤ b.round) :
    ∃ p, Names p b ∧ Relation.ReflTransGen (history w cores).Child (some a.digest) p := by
  have hS := sound_of_coherent hnc hf hz hI
  obtain ⟨p, hpb, hcp, hafter⟩ := anchor_of_commit hnc hf hz hI hk hl hb
  obtain ⟨p', hpc, hcp', hafter'⟩ := anchor_of_commit hnc hf hz hI hk hl hc
  obtain ⟨q, hqa, hqc⟩ := child_of_ancestor hnc hsep hf hz hI ha hpc hcp'
  have hq : q = some a.digest := hqa.resolve_left fun h => hne h.2
  subst hq
  rcases Nat.le_total b.round.toNat c.round.toNat with hbc | hcb
  · obtain ⟨r, -, hcq⟩ := hS.cert_of_ancestor hqc hcp'
    -- the block is certified in its own round
    have hr : r = a.round.toNat := by
      rcases hcq with ⟨h0, -⟩ | ⟨Q, hQ⟩
      · cases h0
      · obtain ⟨j, -, x, ⟨hj, hm⟩, hid, rfl⟩ := hS.exists_voted hQ
        obtain ⟨y, hy, rfl⟩ := mem_vote.mp hm
        exact congrArg UInt64.toNat (digest_inj hnc (Option.some.inj hid)).2.1
    have hrb : r ≤ b.round.toNat := hr ▸ UInt64.le_iff_toNat_le.mp hle
    exact ⟨p, hpb, hS.ancestor_of_le hqc (hafter p' _ hcp' hbc) hcq hcp hrb⟩
  · exact ⟨p, hpb, hqc.trans (hafter' p _ hcp hcb)⟩

end Ancestors

/-! ### Runs of the system -/

section System

variable [RoundTimer T] {w : Network C} {S S₁ : Nodes C T} {es es₁ : List (C.PublicKey × Event C)}
  {io : C.PublicKey → Io C} {timer : C.PublicKey → T}

/-- No certificate is for a batch or for the all-zero digest. -/
theorem certified_of_separated (hnc : NoCollision C) (hbs : BatchSound C) (hsep : Separated C)
    (hf : FewFaults w) (r : SystemRun w (start w io timer) es S) {k : C.PublicKey}
    (hk : w.Honest k) : NoBatchCertified (S k).core ∧ NoZeroCertified (S k).core := by
  have hI := run_climbs hnc hbs hf r
  have hhash : ∀ qc r, Action.processQc qc r ∈ (S k).core.trace → ¬ qc.IsGenesis →
      ∃ b : Block C, b.digest = qc.hash := fun qc r hr hg =>
    hash_of_qcKnown hnc hf ((hI.attested k hk).qc qc r hr) hg
  refine ⟨fun qc i hi hg x hx => ?_, fun qc i hi hg h0 => ?_⟩
  · obtain ⟨b, hb⟩ := hhash qc i hi hg
    exact hsep.batch _ x (hb.trans (run_batchKeys (node_run r k) _ x hx))
  · obtain ⟨b, hb⟩ := hhash qc i hi hg
    exact hsep.zero _ (hb.trans h0)

/-- An honest authority that is a quorum, and a Byzantine one. -/
def lopsided : Network crypto where
  committee := ⟨[((0 : ℕ), 4), ((1 : ℕ), 1)], by decide⟩
  byzantine := {(1 : ℕ)}
  batchAsBlock _ := none

def lopsidedStart : Nodes crypto (Timer ℚ) :=
  start lopsided (fun _ => calm) fun _ => Timer.new 0 1000

/-- The block of the Byzantine authority in round 1, with a batch that nobody has. -/
def withheld : Block crypto := Block.new QC.genesis none (key 1) 1 [crypto.batchDigest (7 : ℕ)]

/-- The block of round 2, after the timeout of round 1. -/
def second : Block crypto :=
  Block.new QC.genesis (some ⟨1, [(key 0, crypto.sign (key 0) (timeoutDigest 1 0), 0)]⟩) (key 0)
    2 []

/-- The block of the Byzantine authority in round 3. -/
def third : Block crypto :=
  Block.new ⟨second.digest, 2, [(key 0, crypto.sign (key 0) (voteDigest second.digest 2))]⟩ none
    (key 1) 3 []

/-- The node waits for the batch until round 1 times out, and commits the block of round 2 when it
processes the one of round 4. -/
def lopsidedEvents : List (ℕ × Event crypto) :=
  [(0, .message (.propose withheld) calm), (0, .payloadMessage), (0, .timeout calm),
    (0, .proposerMessage []), (0, .ack 0), (0, .loopback calm),
    (0, .message (.propose third) calm), (0, .proposerMessage []), (0, .proposerMessage []),
    (0, .proposerMessage []), (0, .loopback calm)]

theorem separated : Separated crypto := ⟨hash_ne_default, hash_ne_batch⟩

theorem fewFaults_lopsided : FewFaults lopsided := ⟨by decide, 1, by decide, by decide⟩

end System

end Hotstuff.Consensus.Cancelling
