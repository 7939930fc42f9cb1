import Hotstuff.Consensus.Catchup
import Hotstuff.Consensus.Replication
import Hotstuff.Consensus.Sharing
import Hotstuff.Consensus.Survival
import Hotstuff.Consensus.Validity

/-! # Replaying a store

A store whose writes succeed is a log: when a block is written its parent and its payload are there
(`Log`). So another node that is given the values one by one, oldest first, can process each: it
lacks nothing, and accepts every block (`handleProposal_processed`). In this way a node that was
left behind gets all that another one has, and commits what the other one has committed
(`catch_up`). -/

namespace Hotstuff.Consensus.Replaying

open Hotstuff.Primitives Hotstuff.Consensus.Config Hotstuff.Consensus.Messages
open Hotstuff.Consensus.Pacing Hotstuff.Consensus.Handlers Hotstuff.Consensus.Steps
open Hotstuff.Consensus.Entries Hotstuff.Consensus.Admission Hotstuff.Consensus.Queues
open Hotstuff.Consensus.Chain Hotstuff.Consensus.Wiring Hotstuff.Consensus.System
open Hotstuff.Consensus.Coherence Hotstuff.Consensus.Agreement Hotstuff.Consensus.Delivery
open Hotstuff.Consensus.Cancelling Hotstuff.Consensus.Lineage Hotstuff.Consensus.Sharing
open Hotstuff.Consensus.Survival Hotstuff.Consensus.Validity Hotstuff.Consensus.Walking
open Hotstuff.Consensus.Replication Hotstuff.Lib.Transition Hotstuff.Ideal
open Hotstuff.Lib.Lists (mem_of_lookup)

variable {C : Crypto} {T : Type}

/-! ### The store as a log -/

/-- The values of the store, the last one first. -/
inductive Log : Store C → Prop
  | nil : Log []
  | batch {st : Store C} (h : Log st) (x : C.Batch) : Log ((C.batchDigest x, .batch x) :: st)
  | block {st : Store C} (h : Log st) (b : Block C) (hparent : b.qc.IsGenesis ∨ st.Has b.parent)
      (hpayload : ∀ d ∈ b.payload, st.Has d) : Log ((b.digest, .block b) :: st)

/-- What the store and the trace record of the blocks that a node has processed. -/
structure Recorded (s : Core C T) : Prop where
  log : Log s.store
  stored : ∀ b, .store b ∈ s.trace → (b.digest, .block b) ∈ s.store
  committed : s.lastCommittedRound = 0 ∨
    ∃ last b, .commit last b ∈ s.trace ∧ b.round = s.lastCommittedRound

section Recorded

variable [RoundTimer T] {env : Env C} {G : Guard C} {s s' : Core C T} {n n' : Node C T}
  {e : Event C} {es : List (Event C)}

theorem Acts.committed_le (h : Acts env G s s') :
    s.lastCommittedRound ≤ s'.lastCommittedRound := by
  induction h with
  | refl => exact UInt64.le_refl _
  | tail _ h ih =>
    refine UInt64.le_trans ih ?_
    rcases Act.deliver_cases h with ⟨b, l, -, hlt, -, -, heq⟩ | ⟨-, heq⟩ <;> rw [heq]
    · exact UInt64.le_of_lt hlt
    · exact UInt64.le_refl _

theorem Act.recorded (h : Act env G s s') (hG : ∀ b, G.block b → ∀ d ∈ b.payload, s.store.Has d)
    (hlost : ∀ d, ¬ G.lost d) (hs : Recorded s) : Recorded s' := by
  have hg := Act.grows h
  have hcommitted : s'.lastCommittedRound = 0 ∨
      ∃ last b, .commit last b ∈ s'.trace ∧ b.round = s'.lastCommittedRound := by
    rcases Act.deliver_cases h with ⟨b, l, hb, -, -, -, heq⟩ | ⟨-, heq⟩
    · exact .inr ⟨_, b, hg.trace hb, heq.symm⟩
    · rw [heq]
      exact hs.committed.imp_right fun ⟨last, b, hb, hr⟩ => ⟨last, b, hg.trace hb, hr⟩
  rcases Act.store_cases h with ⟨io, b, b0, b1, rfl, hadm, h1, -, hio⟩ | ⟨hst, l, hl, hu⟩
  · have hst : ((storeBlock io s b).emit (.cleanup b0 b1 b)).store =
        (b.digest, .block b) :: s.store := if_neg fun hw => hlost _ (hio hw)
    refine ⟨?_, fun b' hb' => ?_, hcommitted⟩ <;> rw [hst]
    · refine hs.log.block b ?_ (hG b hadm.1)
      exact h1.imp (fun h => h.1) fun ⟨_, v, hv, _⟩ => ⟨v, mem_of_lookup hv⟩
    · have hcases : Action.store b' ∈ s.trace ∨ b' = b := by simpa using hb'
      rcases hcases with hb' | rfl
      · exact List.mem_cons_of_mem _ (hs.stored b' hb')
      · exact List.mem_cons_self
  · exact ⟨hst ▸ hs.log, fun b hb => hst ▸ hs.stored b (mem_of_unstored hu (hl ▸ hb) id),
      hcommitted⟩

theorem Acts.recorded (h : Acts env G s s')
    (hG : ∀ b, G.block b → ∀ d ∈ b.payload, s.store.Has d) (hlost : ∀ d, ¬ G.lost d)
    (hs : Recorded s) : Recorded s' := by
  induction h with
  | refl => exact hs
  | tail h₁ h ih =>
    exact Act.recorded h (fun b hb d hd =>
      Store.Has.mono (Acts.grows h₁).store (hG b hb d hd)) hlost ih

theorem recorded_step (hn : Queues.Ok env n) (hb : Backed n) (he : e.Writes)
    (h : n.step env e = some n') (hs : Recorded n.core) : Recorded n'.core := by
  rcases step_core_cases hn h with hc | ⟨x, hc⟩ | hacts
  · rw [hc]; exact hs
  · rw [hc]
    exact ⟨hs.log.batch x, fun b hb => List.mem_cons_of_mem _ (hs.stored b hb), hs.committed⟩
  · refine Acts.recorded hacts (fun b hv => hv.payload hb) (fun d hd => ?_) hs
    exact absurd ((writeFails_of_writes he d).symm.trans hd) (by simp)

theorem run_recorded {io : Io C} {timer : T} (r : NodeRun env (Node.boot env io timer) es n)
    (hes : ∀ e ∈ es, e.Writes) : Recorded n.core := by
  suffices h : (Queues.Ok env n ∧ Backed n) ∧ Recorded n.core from h.2
  refine r.invariant_mem (P := fun n => (Queues.Ok env n ∧ Backed n) ∧ Recorded n.core) hes
    ⟨⟨boot_ok io timer, boot_backed io timer⟩, ?_⟩ fun n e n' hn he h =>
      ⟨⟨step_ok hn.1.1 h, step_backed hn.1.1 hn.1.2 (harmless_of_writes n he) h⟩,
        recorded_step hn.1.1 hn.1.2 he h hn.2⟩
  have htr : (Node.boot env io timer).core.trace = _ := boot_trace env io timer
  obtain ⟨-, -, -, hlast, hst, -⟩ := boot_fields env io timer
  refine ⟨?_, fun b hb => ?_, .inl hlast⟩
  · rw [show (Node.boot env io timer).core.store = [] from hst]
    exact .nil
  · rw [htr] at hb
    split_ifs at hb <;> simp at hb

end Recorded

/-! ### A proposal that can be processed -/

section Process

variable {env : Env C} {s : Core C T} {io : Io C} (hio : Succeeds io)
include hio

theorem getParentBlock_of_parent {b p : Block C} (h : Parent env s.store b p) :
    getParentBlock env io s b = (s, .ok (some p)) := by
  unfold getParentBlock
  rcases h with ⟨hg, rfl⟩ | ⟨hg, v, hl, hd⟩
  · exact if_pos hg
  · simp only [if_neg hg, read_of_succeed hio, hl, hd]

theorem getAncestors_of_parents {b b1 b0 : Block C} (h1 : Parent env s.store b b1)
    (h0 : Parent env s.store b1 b0) : getAncestors env io s b = (s, .ok (some (b0, b1))) := by
  simp only [getAncestors, getParentBlock_of_parent hio h1, getParentBlock_of_parent hio h0]

/-- The loop of `commit` does not fail on blocks `P` whose parents are blocks `P` of the store. -/
theorem gatherAncestors_ne_err {P : Block C → Prop} (hP : ∀ x, P x → x.qc.IsGenesis ∨
      ∃ p, s.store.lookup x.parent = some (.block p) ∧ P p) (hgen : P Block.genesis)
    (last : Round) {e : ConsensusError C} : ∀ (n : ℕ) (b : Block C) (acc : List (Block C)), P b →
      (gatherAncestors env io last n s b acc).2 ≠ .error (.err e)
  | 0, b, acc, _ => by simp [gatherAncestors]
  | n + 1, b, acc, hb => by
    unfold gatherAncestors
    split_ifs
    swap
    · simp
    have hparent : ∃ p, Parent env s.store b p ∧ P p := by
      by_cases hg : b.qc.IsGenesis
      · exact ⟨_, .inl ⟨hg, rfl⟩, hgen⟩
      · obtain ⟨p, hl, hp⟩ := (hP b hb).resolve_left hg
        exact ⟨p, .inr ⟨hg, _, hl, rfl⟩, hp⟩
    obtain ⟨p, hp, hPp⟩ := hparent
    simp only [getParentBlock_of_parent hio hp]
    exact gatherAncestors_ne_err hP hgen last n p (p :: acc) hPp

/-- **`commit` of a block whose ancestors are there** either panics or raises the last committed
round to that of the block. -/
theorem commit_raises {P : Block C → Prop} (hP : ∀ x, P x → x.qc.IsGenesis ∨
      ∃ p, s.store.lookup x.parent = some (.block p) ∧ P p) (hgen : P Block.genesis) {b : Block C}
    (hb : P b) : (∃ p, (commit env io s b).2 = .error (.panic p)) ∨
      ((commit env io s b).2 = .ok () ∧
        b.round ≤ (commit env io s b).1.lastCommittedRound) := by
  by_cases hle : b.round ≤ s.lastCommittedRound
  · rw [commit_of_le env s io hle]
    exact .inr ⟨rfl, hle⟩
  have hne : ∀ e, (gatherAncestors env io s.lastCommittedRound (s.store.length + 2)
      (s.emit (.commit s.lastCommittedRound b)) b []).2 ≠ .error (.err e) := fun e =>
    gatherAncestors_ne_err (s := s.emit (.commit s.lastCommittedRound b)) hio hP hgen _ _ _ _ hb
  rcases gatherAncestors_cases env (s.emit (.commit s.lastCommittedRound b)) io
    s.lastCommittedRound (s.store.length + 2) b [] with
    ⟨l, h, -⟩ | ⟨a, h, -⟩ | ⟨e, h⟩ | h
  · rw [commit_of_gathered env s io (UInt64.not_le.mp hle) h]
    exact .inr ⟨rfl, UInt64.le_refl _⟩
  · exact .inl ⟨.missingCommitAncestor, by simp [commit, hle, h]⟩
  · exact absurd (by rw [h]) (hne e)
  · exact .inl ⟨.endless, by simp [commit, hle, h]⟩

theorem commitRule_raises {P : Block C → Prop} (hP : ∀ x, P x → x.qc.IsGenesis ∨
      ∃ p, s.store.lookup x.parent = some (.block p) ∧ P p) (hgen : P Block.genesis)
    {b0 : Block C} (h0 : P b0) (b1 : Block C) :
    (∃ p, (commitRule env io s b0 b1).2 = .error (.panic p)) ∨
      ((commitRule env io s b0 b1).2 = .ok () ∧ (b0.round + 1 = b1.round →
        b0.round ≤ (commitRule env io s b0 b1).1.lastCommittedRound)) := by
  unfold commitRule
  split_ifs with hr
  · exact (commit_raises (s := s.emit (.gc b0.round)) hio hP hgen h0).imp_right fun h =>
      ⟨h.1, fun _ => h.2⟩
  · exact .inr ⟨rfl, fun h => absurd h hr⟩

omit hio in
/-- The parent and the grandparent of a block whose parent is in the store. -/
theorem exists_parents {b : Block C} (hs : Closed s)
    (hb : NoBatchCertified s) (hq : Accepted s b.qc)
    (hpar : b.qc.IsGenesis ∨ s.store.Has b.parent) :
    ∃ b1 b0, Parent env s.store b b1 ∧ Parent env s.store b1 b0 := by
  have hstored : ∀ p : Block C, Known s p → ∃ q, Parent env s.store p q := by
    rintro p (rfl | hp)
    · exact ⟨_, .inl ⟨isGenesis_genesis, rfl⟩⟩
    · by_cases hg : p.qc.IsGenesis
      · exact ⟨_, .inl ⟨hg, rfl⟩⟩
      · obtain ⟨q, hl, -⟩ := (hs.parent p hp).resolve_left hg
        exact ⟨q, .inr ⟨hg, _, hl, rfl⟩⟩
  have hone : ∃ b1, Parent env s.store b b1 := by
    by_cases hg : b.qc.IsGenesis
    · exact ⟨_, .inl ⟨hg, rfl⟩⟩
    obtain ⟨v, hv⟩ := hpar.resolve_left hg
    obtain ⟨v', hl⟩ := Option.ne_none_iff_exists'.mp (lookup_ne_none_of_mem hv)
    obtain ⟨r, hr⟩ := processed_of_accepted hq hg
    cases v' with
    | batch x => exact absurd (mem_of_lookup hl) (hb b.qc r hr hg x)
    | block p => exact ⟨p, .inr ⟨hg, _, hl, rfl⟩⟩
  obtain ⟨b1, h1⟩ := hone
  obtain ⟨b0, h0⟩ := hstored b1 (found_parent hs hb hq h1).2.known
  exact ⟨b1, b0, h1, h0⟩

variable [RoundTimer T]

theorem processBlock_of_parents {b b1 b0 : Block C} (h1 : Parent env s.store b b1)
    (h0 : Parent env s.store b1 b0) :
    let r := commitRule env io ((storeBlock io s b).emit (.cleanup b0 b1 b)) b0 b1
    (∃ e, r.2 = .error e ∧ processBlock env io s b = (r.1, .error e)) ∨
      r.2 = .ok () ∧ processBlock env io s b = voteFor env io r.1 b := by
  unfold processBlock
  simp only [getAncestors_of_parents hio h1 h0]
  rcases commitRule env io ((storeBlock io s b).emit (.cleanup b0 b1 b)) b0 b1 with ⟨s₁, e | _⟩
  · exact .inl ⟨e, rfl, rfl⟩
  · exact .inr ⟨rfl, rfl⟩

/-- The block is stored, and what it lets the node commit has been. -/
structure Processed (s : Core C T) (b : Block C) : Prop where
  stored : .store b ∈ s.trace
  has : s.store.Has b.digest
  committed : ∃ b1 b0, IsParent b1 b ∧ IsParent b0 b1 ∧
    (b0.round + 1 = b1.round → b0.round ≤ s.lastCommittedRound)

/-- **A block whose parent is in the store is processed**, unless the core panics. -/
theorem processBlock_processed {b : Block C} (hok : Entries.Ok env s) (hs : Closed s)
    (hb : NoBatchCertified s) (hq : Accepted s b.qc)
    (hpar : b.qc.IsGenesis ∨ s.store.Has b.parent)
    (hnp : ∀ p, (processBlock env io s b).2 ≠ .error (.panic p)) :
    Processed (processBlock env io s b).1 b := by
  obtain ⟨b1, b0, h1, h0⟩ := exists_parents hs hb hq hpar
  obtain ⟨hp1, hk1⟩ := found_parent hs hb hq h1
  obtain ⟨hp0, hk0⟩ := found_parent hs hb (accepted_of_known hok hk1.known) h0
  set s₁ := (storeBlock io s b).emit (.cleanup b0 b1 b) with hs₁
  have hst : Act env anyEvent s s₁ :=
    .store io b b0 b1 ⟨trivial, .inr trivial, hq⟩ h1 h0 fun _ => trivial
  have hclosed : Closed s₁ := closed_store io hb hs hq h1
  have hhas : s₁.store.Has b.digest := by
    refine ⟨.block b, ?_⟩
    rw [hs₁, emit_store, storeBlock_store, if_neg (by simp [hio.write])]
    exact List.mem_cons_self
  have hP : ∀ x, Known s₁ x → x.qc.IsGenesis ∨
      ∃ p, s₁.store.lookup x.parent = some (.block p) ∧ Known s₁ p := by
    rintro x (rfl | hx)
    · exact .inl isGenesis_genesis
    · exact (hclosed.parent x hx).imp_right fun ⟨p, hl, _⟩ =>
        ⟨p, hl, .inr (hclosed.stored _ p (mem_of_lookup hl)).2⟩
  have hraise : (∃ p, (commitRule env io s₁ b0 b1).2 = .error (.panic p)) ∨ _ :=
    commitRule_raises hio hP (.inl rfl) (hk0.known.mono (Act.grows hst)) b1
  have hacts : Acts env anyEvent s₁ (commitRule env io s₁ b0 b1).1 :=
    commitRule_acts io (mem_emit_self _ _) fun _ _ => trivial
  have hin : .store b ∈ (commitRule env io s₁ b0 b1).1.trace :=
    (Acts.grows hacts).trace (mem_emit (mem_emit_self _ _))
  rcases hraise with ⟨p, hp⟩ | ⟨hret, hle⟩
  · rcases processBlock_of_parents hio h1 h0 with ⟨e, he, h⟩ | ⟨hret, -⟩
    · cases he.symm.trans hp
      exact absurd (by rw [h]) (hnp p)
    · cases hret.symm.trans hp
  rcases processBlock_of_parents hio h1 h0 with ⟨e, he, -⟩ | ⟨-, h⟩
  · cases he.symm.trans hret
  rw [h]
  have hvote : Acts env anyEvent (commitRule env io s₁ b0 b1).1
      (voteFor env io (commitRule env io s₁ b0 b1).1 b).1 := voteFor_acts io hin trivial
  have hg := Grows.trans (Acts.grows hacts) (Acts.grows hvote)
  exact ⟨(Acts.grows hvote).trace hin, Store.Has.mono hg.store hhas, b1, b0, hp1, hp0, fun hr =>
    UInt64.le_trans (hle hr) (Acts.committed_le hvote)⟩

/-- **A proposal that lacks nothing is processed.** -/
theorem handleProposal_processed {b : Block C} (hok : Entries.Ok env s) (hs : Closed s)
    (hc : Checked env b) (hpay : ∀ d ∈ b.payload, s.store.Has d)
    (hpar : b.qc.IsGenesis ∨ s.store.Has b.parent)
    (hb : NoBatchCertified (handleProposal env io s b).1)
    (hnp : ∀ p, (handleProposal env io s b).2 ≠ .error (.panic p)) :
    Processed (handleProposal env io s b).1 b := by
  obtain ⟨h1, hq⟩ := processCertificates_acts (s := s) (G := anyEvent) (b := b) io trivial hc
  have hg := Acts.grows h1
  have hmissing : missingPayload io (processCertificates io (s.emit (.accept b)) b).store
      b.payload = .ok [] := by
    refine Catchup.missingPayload_nil hio fun d hd => ?_
    obtain ⟨v, hv⟩ := Store.Has.mono hg.store (hpay d hd)
    exact Option.isSome_iff_ne_none.mpr (lookup_ne_none_of_mem hv)
  have h : handleProposal env io s b =
      processBlock env io (processCertificates io (s.emit (.accept b)) b) b := by
    simp only [handleProposal, mempoolVerify, if_pos hc.1, hc.2, hmissing]
  rw [h] at hb hnp ⊢
  set s₁ := processCertificates io (s.emit (.accept b)) b with hs₁
  have h2 : Acts env anyEvent s₁ (processBlock env io s₁ b).1 :=
    processBlock_acts io ⟨trivial, .inr trivial, hq⟩ (fun _ _ => trivial) fun _ _ => trivial
  have hb₁ := noBatch_of_grows (Acts.grows h2) hb
  exact processBlock_processed hio (Acts.ok h1 hok) (Acts.closed h1 hb₁ hs) hb₁ hq
    (hpar.imp_right (Store.Has.mono hg.store)) hnp

end Process

/-! ### Replaying -/

/-- What a node has that was given the values of the store `st`. -/
structure Gained (st : Store C) (s : Core C T) : Prop where
  has : ∀ d, st.Has d → s.store.Has d
  processed : ∀ d b, (d, .block b) ∈ st → Processed s b

/-- The event brings a value of the store: a batch, or a block as a proposal. -/
def Brings (st : Store C) : Event C → Prop
  | .message (.propose b) _ => (b.digest, .block b) ∈ st
  | .batch x => (C.batchDigest x, .batch x) ∈ st
  | _ => False

/-- A moment at which no read and no write fails. -/
def quiet : Io C := ⟨0, 0, fun _ => false, fun _ => false⟩

theorem Brings.mono {st st' : Store C} (h : st ⊆ st') {e : Event C} (he : Brings st e) :
    Brings st' e := by
  cases e with
  | message m io => cases m with
    | propose b => exact h he
    | _ => exact he
  | batch x => exact h he
  | _ => exact he

section Replay

variable [RoundTimer T] {w : Network C} {S S' : Nodes C T} {es : List (C.PublicKey × Event C)}
  {io : C.PublicKey → Io C} {timer : C.PublicKey → T} {j k : C.PublicKey}

theorem committed_step {env : Env C} {n n' : Node C T} {e : Event C} (hn : Queues.Ok env n)
    (h : n.step env e = some n') : n.core.lastCommittedRound ≤ n'.core.lastCommittedRound := by
  rcases step_core_cases hn h with hc | ⟨x, hc⟩ | hacts
  · rw [hc]
    exact UInt64.le_refl _
  · rw [hc]
    exact UInt64.le_refl _
  · exact Acts.committed_le hacts

omit [RoundTimer T] in
theorem Processed.mono {s s' : Core C T} (hg : Grows s s')
    (hle : s.lastCommittedRound ≤ s'.lastCommittedRound) {b : Block C} (h : Processed s b) :
    Processed s' b := by
  obtain ⟨b1, b0, h1, h0, hr⟩ := h.committed
  exact ⟨hg.trace h.stored, Store.Has.mono hg.store h.has, b1, b0, h1, h0, fun heq =>
    UInt64.le_trans (hr heq) hle⟩

theorem gained_step {st : Store C} {env : Env C} {n n' : Node C T} {e : Event C}
    (hn : Queues.Ok env n) (h : n.step env e = some n') (hs : Gained st n.core) :
    Gained st n'.core :=
  ⟨fun d hd => Store.Has.mono (step_grows hn h).store (hs.has d hd),
    fun d b hb => (hs.processed d b hb).mono (step_grows hn h) (committed_step hn h)⟩

/-- The events `es'` bring the values of the store `st` to the node `j`. -/
structure Replayed (w : Network C) (S : Nodes C T) (j : C.PublicKey) (st : Store C)
    (es' : List (C.PublicKey × Event C)) (S' : Nodes C T) : Prop where
  run : SystemRun w S es' S'
  brings : ∀ x ∈ es', x.1 = j ∧ Brings st x.2
  others : ∀ i, i ≠ j → S' i = S i
  gained : Gained st (S' j).core

variable (hnc : NoCollision C) (hbs : BatchSound C) (hf : FewFaults w) (hsep : Separated C)
include hnc hbs hf hsep

/-- **A node takes a block that it lacks nothing for.** -/
theorem exists_propose (r : SystemRun w (start w io timer) es S) (hj : w.Honest j) {b : Block C}
    (hc : Checked (w.env j) b) (hun : Unforged w S (.propose b))
    (hpay : ∀ d ∈ b.payload, (S j).core.store.Has d)
    (hpar : b.qc.IsGenesis ∨ (S j).core.store.Has b.parent) :
    ∃ n, step w S (j, .message (.propose b) quiet) = some (Function.update S j n) ∧
      (S j).step (w.env j) (.message (.propose b) quiet) = some n ∧ Processed n.core b := by
  have hrun := running hnc hbs hf hsep r hj
  set n := (S j).call (handleMessage (w.env j) quiet (S j).core (.propose b)) with hn
  have hstep : (S j).step (w.env j) (.message (.propose b) quiet) = some n := by
    rw [Node.step, if_pos (show (Event.message (.propose b) quiet).isCore = true from rfl),
      if_pos hrun]
    rfl
  have hsys : step w S (j, .message (.propose b) quiet) = some (Function.update S j n) := by
    rw [System.step, if_pos ⟨hj, hun⟩, hstep]
    rfl
  have hrun' := running hnc hbs hf hsep (r.snoc hsys) hj
  have hcert' := certified_of_separated hnc hbs hsep hf (r.snoc hsys) (k := j) hj
  rw [Function.update_self] at hrun' hcert'
  have hclosed := (run_linked (node_run r j)
    (certified_of_separated hnc hbs hsep hf r (k := j) hj).1).1
  have hcore : n.core = (handleProposal (w.env j) quiet (S j).core b).1 := call_core ..
  refine ⟨n, hsys, hstep, ?_⟩
  rw [hcore] at hcert' ⊢
  refine handleProposal_processed ⟨fun _ => rfl, fun _ => rfl⟩ (nodes_ok r j).core hclosed hc hpay
    hpar hcert'.1 fun p hp => ?_
  have hpanic : n.halted = some p := halted_of_panic (S j) _ hp
  rw [hpanic] at hrun'
  cases hrun'

omit hnc hbs hf hsep in
/-- The mempool of a node takes a batch. -/
theorem exists_batch (hj : w.Honest j) (x : C.Batch) :
    ∃ n, step w S (j, .batch x) = some (Function.update S j n) ∧
      (S j).step (w.env j) (.batch x) = some n ∧ (C.batchDigest x, .batch x) ∈ n.core.store := by
  refine ⟨_, ?_, rfl, List.mem_cons_self⟩
  rw [System.step, if_pos ⟨hj, trivial⟩]
  rfl

omit hnc hbs hf hsep in
theorem Replayed.snoc {st : Store C} {v : C.Digest × Value C} {es' : List (C.PublicKey × Event C)}
    {e : Event C} {n : Node C T} (hok : Queues.Ok (w.env j) (S' j))
    (h : Replayed w S j st es' S') (hsys : step w S' (j, e) = some (Function.update S' j n))
    (hstep : (S' j).step (w.env j) e = some n) (he : Brings (v :: st) e)
    (hhas : n.core.store.Has v.1) (hnew : ∀ b, v.2 = .block b → Processed n.core b) :
    Replayed w S j (v :: st) (es' ++ [(j, e)]) (Function.update S' j n) := by
  have hold := gained_step hok hstep h.gained
  refine ⟨h.run.snoc hsys, fun x hx => ?_, fun i hi => ?_, ?_⟩
  · rcases List.mem_append.mp hx with hx | hx
    · exact ⟨(h.brings x hx).1, (h.brings x hx).2.mono (List.subset_cons_self _ _)⟩
    · rw [List.mem_singleton.mp hx]
      exact ⟨rfl, he⟩
  · rw [Function.update_of_ne hi, h.others i hi]
  · rw [Function.update_self]
    refine ⟨fun d ⟨v', hv'⟩ => ?_, fun d b hb => ?_⟩
    · rcases List.mem_cons.mp hv' with rfl | hv'
      · exact hhas
      · exact hold.has d ⟨v', hv'⟩
    · rcases List.mem_cons.mp hb with rfl | hb
      · exact hnew b rfl
      · exact hold.processed d b hb

/-- **The values of a log can be brought to a node** one by one, oldest first. -/
theorem exists_replayed (r : SystemRun w (start w io timer) es S) (hj : w.Honest j) {st : Store C}
    (hst : Log st) (hval : ∀ b, (b.digest, .block b) ∈ st →
      Checked (w.env j) b ∧ Unforged w S (.propose b)) :
    ∃ es' S', Replayed w S j st es' S' := by
  induction hst with
  | nil =>
    exact ⟨[], S, .nil, by simp, fun _ _ => rfl, fun d ⟨v, hv⟩ => by simp at hv, by simp⟩
  | @batch st h x ih =>
    obtain ⟨es', S', h'⟩ := ih fun b hb => hval b (List.mem_cons_of_mem _ hb)
    obtain ⟨n, hsys, hstep, hx⟩ := exists_batch (S := S') hj x
    exact ⟨_, _, h'.snoc (nodes_ok (r.trans h'.run) j) hsys hstep List.mem_cons_self ⟨_, hx⟩
      fun b hb => by cases hb⟩
  | @block st h b hparent hpayload ih =>
    obtain ⟨es', S', h'⟩ := ih fun b hb => hval b (List.mem_cons_of_mem _ hb)
    obtain ⟨hc, hun⟩ := hval b List.mem_cons_self
    obtain ⟨n, hsys, hstep, hpr⟩ := exists_propose hnc hbs hf hsep (r.trans h'.run) hj hc
      (run_unforged_mono (nodes_ok r) h'.run hun) (fun d hd => h'.gained.has d (hpayload d hd))
      (hparent.imp_right (h'.gained.has _))
    refine ⟨_, _, h'.snoc (nodes_ok (r.trans h'.run) j) hsys hstep List.mem_cons_self hpr.has
      fun x hx => ?_⟩
    cases hx
    exact hpr

omit [RoundTimer T] hbs hf in
/-- The parents of two blocks with one digest have one digest. -/
theorem parent_digest {b b' p p' : Block C} (hd : b.digest = b'.digest) (hp : IsParent p b)
    (hp' : IsParent p' b') : p.digest = p'.digest := by
  have hhash : b.qc.hash = b'.qc.hash := (digest_inj hnc hd).2.2.2
  rcases hp with ⟨hg, rfl⟩ | ⟨-, hp⟩ <;> rcases hp' with ⟨hg', rfl⟩ | ⟨-, hp'⟩
  · rfl
  · exact absurd (hp'.trans (hhash.symm.trans hg.1)) (hsep.zero _)
  · exact absurd (hp.trans (hhash.trans hg'.1)) (hsep.zero _)
  · exact hp.trans (hhash.trans hp'.symm)

omit [RoundTimer T] hbs hf in
/-- What a node with the values of a store has committed. -/
theorem committed_of_gained (hl : Linked (S k).core) (hok : Entries.Ok (w.env k) (S k).core)
    (hrec : Recorded (S k).core) (h : Gained (S k).core.store (S' j).core) :
    (S k).core.lastCommittedRound ≤ (S' j).core.lastCommittedRound := by
  rcases hrec.committed with h0 | ⟨last, b0, hcom, hr⟩
  · rw [h0]
    exact UInt64.zero_le
  obtain ⟨b1, b, hcl, hround⟩ := hok.entry _ hcom
  obtain ⟨hp1, hp0, -, -⟩ := hl b0 b1 b hcl
  obtain ⟨c1, c0, hc1, hc0, hle⟩ :=
    (h.processed _ b (hrec.stored b (hok.entry (.cleanup b0 b1 b) hcl))).committed
  -- the two nodes have the same parents, up to what the digests do not cover
  have hd1 := parent_digest hnc hsep rfl hp1 hc1
  have hd0 := parent_digest hnc hsep hd1 hp0 hc0
  rw [(digest_inj hnc hd1).2.1, (digest_inj hnc hd0).2.1] at hround
  rw [← hr, (digest_inj hnc hd0).2.1]
  exact hle hround

omit hnc hbs hf hsep in
/-- What a node records none of whose writes fails. -/
theorem recorded_of_writes (r : SystemRun w (start w io timer) es S)
    (hes : ∀ x ∈ es, x.1 = k → x.2.Writes) : Recorded (S k).core := by
  refine run_recorded (node_run r k) fun e he => ?_
  obtain ⟨x, hx, rfl⟩ := List.mem_map.mp he
  obtain ⟨hmem, hk⟩ := List.mem_filter.mp hx
  exact hes x hmem (of_decide_eq_true hk)

/-- All that a node has can be brought to another one. -/
theorem exists_replayed_of_node (hbc : BatchComplete C) (hsv : SignVerifies C)
    (r : SystemRun w (start w io timer) es S) (hes : ∀ x ∈ es, x.1 = k → x.2.Writes)
    (hk : w.Honest k) (hpos : 0 < w.committee.stake k) (hj : w.Honest j) :
    ∃ es' S', Replayed w S j (S k).core.store es' S' := by
  have hclosed := (run_linked (node_run r k)
    (certified_of_separated hnc hbs hsep hf r (k := k) hk).1).1
  refine exists_replayed hnc hbs hf hsep r hj (recorded_of_writes r hes).log fun b hb => ?_
  have hsends : Sends (S k) (.propose b) := .inl (hclosed.stored _ b hb).2
  exact ⟨passes_of_sends (nodes_ok r k) (run_verified hf.1 hbc (node_run r k)) hsv hpos
    (Repeats.run_stored (node_run r k)) hsends, unforged_of_sends hnc hbs hf hsep r hk hsends⟩

omit hnc hbs hf hsep in
theorem Log.payload {st : Store C} (h : Log st) {d : C.Digest} {b : Block C}
    (hb : (d, .block b) ∈ st) : ∀ x ∈ b.payload, st.Has x := by
  have hmono : ∀ {st : Store C} v x, st.Has x → Store.Has (v :: st) x := fun v x hx =>
    Store.Has.mono (List.subset_cons_self _ _) hx
  induction h with
  | nil => simp at hb
  | batch h y ih =>
    rcases List.mem_cons.mp hb with hb | hb
    · cases hb
    · exact fun x hx => hmono _ x (ih hb x hx)
  | block h c hparent hpayload ih =>
    rcases List.mem_cons.mp hb with hb | hb
    · cases hb
      exact fun x hx => hmono _ x (hpayload x hx)
    · exact fun x hx => hmono _ x (ih hb x hx)

omit hbs hsep [RoundTimer T] hnc in
/-- The honest signers of a certificate outweigh the Byzantine authorities. -/
theorem weight_signers {Q : Finset C.PublicKey} (hQ : w.committee.Quorum Q) :
    w.committee.weight w.byzantine < w.committee.weight (Q \ w.byzantine) := by
  obtain ⟨hno, f, hle, h3⟩ := hf
  have hthreshold := hQ.2
  rw [toNat_threshold hno] at hthreshold
  have hsum : w.committee.weight (Q ∩ w.byzantine) + w.committee.weight (Q \ w.byzantine) =
      w.committee.weight Q := Finset.sum_inter_add_sum_sdiff _ _ _
  have hbad : w.committee.weight (Q ∩ w.byzantine) ≤ w.committee.weight w.byzantine :=
    Finset.sum_le_sum_of_subset Finset.inter_subset_right
  omega

/-- A node has stored a block, with its payload and its ancestors. -/
structure Holds (w : Network C) (S : Nodes C T) (a : C.PublicKey) (b : Block C) : Prop where
  stored : .store b ∈ (S a).core.trace
  payload : ∀ d ∈ b.payload, (S a).core.store.Has d
  ancestors : ∃ l, Walk (w.env a) (S a).core.store b l

theorem holds_of_certified (r : SystemRun w (start w io timer) es S) {qc : QC C}
    (h : Certifies w S qc) {a : C.PublicKey} (ha : w.Honest a) {b : Block C}
    (hb : .store b ∈ (S a).core.trace) (hpay : ∀ d ∈ b.payload, (S a).core.store.Has d)
    (hd : b.digest = qc.hash) : Holds w S a b := by
  have hcert := fun i hi => certified_of_separated hnc hbs hsep hf r (k := i) hi
  have hz : ZeroUncertified w (coresOf S) := fun i hi => (hcert i hi).2
  have hI := run_coherent hnc hbs hf r hz
  exact ⟨hb, hpay, walk_of_cert hnc hf hz hI ha
    (run_linked (node_run r a) (hcert a ha).1).1 _ b _ rfl (.inr hb) (.inr rfl)
    (h.cert hnc hbs hf hd)⟩

omit hnc hbs hf hsep in
theorem certifies_mono (hn : ∀ k, Queues.Ok (w.env k) (S k)) (r : SystemRun w S es S')
    {qc : QC C} (h : Certifies w S qc) : Certifies w S' qc :=
  ⟨h.verify, fun y hy hh hver => run_signed_subset hn r y.1 (h.unforged y hy hh hver)⟩

end Replay

/-! ### A run of four -/

theorem writes_fourRounds : ∀ x ∈ fourRounds, x.2.Writes := by
  simp [fourRounds, honestRounds, byzantineRound, Event.Writes, Four.proposal, Four.vote, calm]

end Hotstuff.Consensus.Replaying
