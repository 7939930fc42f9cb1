import Hotstuff.Consensus.Agreement
import Hotstuff.Consensus.Mailbox

/-! # Payloads that repeat

A digest is kept out of a second block of a chain by the `Cleanup` messages alone. They do so if a
digest is not received after it was cleaned up (`NotReceivedAgain`), and if a block is only asked
for after the block it extends has been processed (`MakesProcessed`): then the ancestors of the new
block have all been processed before, in order (`ParentsFirst`), and the proposer has been told of
each (`no_repeat`). -/

namespace Hotstuff.Consensus.Repeats

open Hotstuff.Primitives Hotstuff.Consensus.Config Hotstuff.Consensus.Messages
open Hotstuff.Consensus.Pacing Hotstuff.Consensus.Handlers Hotstuff.Consensus.Steps
open Hotstuff.Consensus.Entries Hotstuff.Consensus.Admission Hotstuff.Consensus.Queues
open Hotstuff.Consensus.Tasks Hotstuff.Consensus.Wiring Hotstuff.Consensus.Mailbox
open Hotstuff.Consensus.Chain Hotstuff.Consensus.System Hotstuff.Consensus.Coherence
open Hotstuff.Consensus.Agreement Hotstuff.Lib.Lists Hotstuff.Lib.Transition Hotstuff.Ideal

variable {C : Crypto} {T : Type}

/-! ### The buffer of the proposer -/

/-- A digest that is received after a `Cleanup` is not one of it. -/
def FreshAfter : ProposerAction C → ProposerAction C → Prop
  | .cleaned ds, .received d => d ∉ ds
  | _, _ => True

instance : DecidableRel (FreshAfter (C := C)) := fun a a' => by
  cases a <;> cases a' <;> simp only [FreshAfter] <;> infer_instance

/-- No digest is received after it was cleaned up. -/
def NotReceivedAgain (p : Proposer C) : Prop := p.trace.Pairwise FreshAfter

instance (p : Proposer C) : Decidable (NotReceivedAgain p) := by
  unfold NotReceivedAgain; infer_instance

/-- A block that is made after a `Cleanup` has no digest of it. -/
def CleanAfter : ProposerAction C → ProposerAction C → Prop
  | .cleaned ds, .created b => ∀ d ∈ b.payload, d ∉ ds
  | _, _ => True

/-- What has been cleaned up is not in the buffer, and in no block made since. -/
structure Clean (p : Proposer C) : Prop where
  buffer : ∀ d ∈ p.buffer, ∀ ds, .cleaned ds ∈ p.trace → d ∉ ds
  created : p.trace.Pairwise CleanAfter

theorem clean_step {n n' : Node C T} (h : ProposerStep n n') (hfresh : NotReceivedAgain n'.proposer)
    (hs : Clean n.proposer) : Clean n'.proposer := by
  unfold NotReceivedAgain at hfresh
  cases h with
  | idle new hcore htr hbuf hrx =>
    exact ⟨by rw [hbuf, htr]; exact hs.buffer, by rw [htr]; exact hs.created⟩
  | received d hcore htr hbuf hrx =>
    rw [htr, List.pairwise_append] at hfresh
    refine ⟨fun x hx ds hds => ?_, ?_⟩
    · rw [htr] at hds
      have hds' : .cleaned ds ∈ n.proposer.trace := by simpa using hds
      rw [hbuf] at hx
      rcases List.mem_insert_iff.mp hx with rfl | hx
      · exact hfresh.2.2 _ hds' (.received x) (List.mem_singleton_self _)
      · exact hs.buffer x hx ds hds'
    · rw [htr, List.pairwise_append]
      refine ⟨hs.created, List.pairwise_singleton _ _, fun a _ x hx => ?_⟩
      rw [List.mem_singleton.mp hx]
      cases a <;> trivial
  | created b hcore htr hpay hbuf hrx =>
    refine ⟨by rw [hbuf]; simp, ?_⟩
    rw [htr, List.pairwise_append]
    refine ⟨hs.created, List.pairwise_singleton _ _, fun a ha x hx => ?_⟩
    rw [List.mem_singleton.mp hx]
    cases a with
    | cleaned ds => exact fun d hd => hs.buffer d (hpay.mem_iff.mp hd) ds ha
    | _ => trivial
  | cleaned ds hcore htr hbuf hrx =>
    refine ⟨fun x hx ds' hds => ?_, ?_⟩
    · rw [hbuf] at hx
      obtain ⟨hx, hnot⟩ := List.mem_filter.mp hx
      rw [htr] at hds
      rcases List.mem_append.mp hds with hds | hds
      · exact hs.buffer x hx ds' hds
      · cases List.mem_singleton.mp hds
        simpa using hnot
    · rw [htr, List.pairwise_append]
      refine ⟨hs.created, List.pairwise_singleton _ _, fun a _ x hx => ?_⟩
      rw [List.mem_singleton.mp hx]
      cases a <;> trivial

theorem trace_extends {n n' : Node C T} (h : ProposerStep n n') :
    n.proposer.trace <+: n'.proposer.trace := by
  cases h with
  | idle _ _ htr => rw [htr]
  | received _ _ htr | created _ _ htr | cleaned _ _ htr => rw [htr]; exact List.prefix_append _ _

section Runs

variable [RoundTimer T] {env : Env C} {n n' : Node C T} {es : List (Event C)}

/-- **A block has no digest that was cleaned up before it was made**, if none is received again. -/
theorem run_clean {io : Io C} {timer : T} (r : NodeRun env (Node.boot env io timer) es n)
    (hfresh : NotReceivedAgain n.proposer) : Clean n.proposer :=
  r.invariant_of (I := Queues.Ok env) (Q := fun n => NotReceivedAgain n.proposer)
    (P := fun n => Clean n.proposer) (boot_ok io timer) (fun _ _ _ hn h => step_ok hn h)
    (fun _ _ _ hn h hq => hq.sublist (trace_extends (proposerStep_of_step hn h)).sublist)
    ⟨by simp, by simp⟩
    (fun _ _ _ hn hs hq h => clean_step (proposerStep_of_step hn h) hq hs) hfresh

end Runs

/-! ### The order of processing -/

/-- The block that `process_block` has stored, and told the proposer of. -/
def processedBlock : Action C → Option (Block C)
  | .cleanup _ _ b => some b
  | _ => none

/-- The parent of each block comes before it. -/
def ParentsFirst (bs : List (Block C)) : Prop :=
  ∀ l₁ b l₂, bs = l₁ ++ b :: l₂ → b.qc.IsGenesis ∨ ∃ p ∈ l₁, p.digest = b.parent

theorem parentsFirst_append {bs : List (Block C)} {b : Block C} (h : ParentsFirst bs)
    (hb : b.qc.IsGenesis ∨ ∃ p ∈ bs, p.digest = b.parent) : ParentsFirst (bs ++ [b]) := by
  intro l₁ b' l₂ heq
  rcases append_singleton_split heq with ⟨rfl, rfl, -⟩ | ⟨l, -, heq'⟩
  · exact hb
  · exact h l₁ b' l heq'

theorem parentsFirst_of_append {l l' : List (Block C)} (h : ParentsFirst (l ++ l')) :
    ParentsFirst l := fun l₁ b l₂ heq => h l₁ b (l₂ ++ l') (by simp [heq])

/-- The blocks that were stored were processed, each after its parent. -/
structure Processing (s : Core C T) : Prop where
  order : ParentsFirst (s.trace.filterMap processedBlock)
  stored : ∀ b, .store b ∈ s.trace → b ∈ s.trace.filterMap processedBlock

section Processing

variable [RoundTimer T] {env : Env C} {G : Guard C} {s s' : Core C T}

theorem Act.processing (h : Act env G s s') (hb : NoBatchCertified s) (hc : Closed s)
    (hs : Processing s) : Processing s' := by
  rcases Act.store_cases h with ⟨io, b, b0, b1, rfl, hadm, h1, -⟩ | ⟨-, l, hl, hu⟩
  · have htr : ((storeBlock io s b).emit (.cleanup b0 b1 b)).trace.filterMap processedBlock =
        s.trace.filterMap processedBlock ++ [b] := by
      rw [emit_trace, storeBlock_trace, List.filterMap_append, List.filterMap_append,
        List.append_assoc]
      rfl
    refine ⟨?_, fun b' hb' => ?_⟩
    · rw [htr]
      refine parentsFirst_append hs.order ?_
      rcases parent_stored hc hb hadm.2.2 h1 with ⟨hg, -⟩ | ⟨-, hst, hd, -⟩
      · exact .inl hg
      · exact .inr ⟨b1, hs.stored b1 hst, hd⟩
    · rw [htr]
      have hcases : Action.store b' ∈ s.trace ∨ b' = b := by simpa using hb'
      rcases hcases with hb' | rfl
      · exact List.mem_append_left _ (hs.stored b' hb')
      · exact List.mem_append_right _ (List.mem_singleton_self _)
  · have hnil : l.filterMap processedBlock = [] := by
      refine List.filterMap_eq_nil_iff.mpr fun a ha => ?_
      have := hu a ha
      cases a <;> simp_all [Unstored, processedBlock]
    have htr : s'.trace.filterMap processedBlock = s.trace.filterMap processedBlock := by
      rw [hl, List.filterMap_append, hnil, List.append_nil]
    exact ⟨htr ▸ hs.order, fun b hb => htr ▸ hs.stored b (mem_of_unstored hu (hl ▸ hb) id)⟩

theorem Acts.processing (h : Acts env G s s') (hb : NoBatchCertified s') (hc : Closed s)
    (hs : Processing s) : Processing s' := by
  induction h with
  | refl => exact hs
  | tail h h' ih =>
    have hb' := noBatch_of_grows (Act.grows h') hb
    exact Act.processing h' hb' (Acts.closed h hb' hc) (ih hb')

variable {n n' : Node C T} {e : Event C} {es : List (Event C)}

theorem processing_step (hn : Queues.Ok env n) (h : n.step env e = some n')
    (hb : NoBatchCertified n'.core) (hc : Closed n.core) (hs : Processing n.core) :
    Processing n'.core := by
  rcases step_core_cases hn h with heq | ⟨x, heq⟩ | hacts
  · rw [heq]; exact hs
  · rw [heq]; exact ⟨hs.order, hs.stored⟩
  · exact Acts.processing hacts hb hc hs

/-- **A node processes blocks after their parents.** -/
theorem run_processing {io : Io C} {timer : T} (r : NodeRun env (Node.boot env io timer) es n)
    (hb : NoBatchCertified n.core) : Processing n.core := by
  refine (run_invariant_of (boot_ok io timer) r (P := fun n => Closed n.core ∧ Processing n.core)
    noBatch_of_grows ⟨closed_boot io timer, ?_⟩
    (fun _ _ _ hn hs hb h => ⟨closed_step hn h hb hs.1, processing_step hn h hb hs.1 hs.2⟩) hb).2
  have htr : (Node.boot env io timer).core.trace = _ := boot_trace env io timer
  have hnil : (Node.boot env io timer).core.trace.filterMap processedBlock = [] := by
    rw [htr]
    split_ifs <;> rfl
  refine ⟨by rw [hnil]; intro l₁ b l₂ h; simp at h, fun b hb => ?_⟩
  rw [htr] at hb
  split_ifs at hb <;> simp at hb

end Processing

/-! ### Blocks and who made them -/

/-- The core asks for a block with this entry after it has processed the block of the QC. -/
def AskedAfter (done : List (Action C)) : Action C → Prop
  | .make _ qc _ => qc.IsGenesis ∨ ∃ b ∈ done.filterMap processedBlock, b.digest = qc.hash
  | _ => True

instance (done : List (Action C)) : DecidablePred (AskedAfter done) := fun a => by
  cases a <;> simp only [AskedAfter] <;> infer_instance

/-- A block is only asked for after the block that it extends has been processed. -/
def MakesProcessed (l : List (Action C)) : Prop :=
  ∀ (i : ℕ) (h : i < l.length), AskedAfter (l.take i) l[i]

instance (l : List (Action C)) : Decidable (MakesProcessed l) := by
  unfold MakesProcessed; infer_instance

theorem askedAfter_of_append {l l₁ l₂ : List (Action C)} {a : Action C} (h : MakesProcessed l)
    (hl : l = l₁ ++ a :: l₂) : AskedAfter l₁ a := by
  subst hl
  have := h l₁.length (by simp)
  simpa using this

/-- The blocks that were stored passed the checks, or are own ones. -/
def Stored (n : Node C T) : Prop :=
  ∀ b, .store b ∈ n.core.trace → .accept b ∈ n.core.trace ∨ Created n b

section Stored

variable [RoundTimer T] {env : Env C} {G : Guard C} {s s' : Core C T} {n n' : Node C T}
  {e : Event C} {es : List (Event C)}

theorem Acts.store_origin (h : Acts env G s s') {b : Block C} (hb : .store b ∈ s'.trace) :
    .store b ∈ s.trace ∨ .accept b ∈ s'.trace ∨ G.own b := by
  induction h with
  | refl => exact .inl hb
  | @tail s₁ s₂ _ h ih =>
    have hg := (Act.grows h).trace
    have hold : .store b ∈ s₁.trace → .store b ∈ s.trace ∨ .accept b ∈ s₂.trace ∨ G.own b :=
      fun hb => (ih hb).imp_right fun hb => hb.imp_left fun hb => hg hb
    rcases Act.store_cases h with ⟨io, b', b0, b1, rfl, hadm, -⟩ | ⟨-, l, hl, hu⟩
    · have hcases : Action.store b ∈ s₁.trace ∨ b = b' := by simpa using hb
      rcases hcases with hb | rfl
      · exact hold hb
      · exact .inr (hadm.2.1.imp_left fun hb => hg hb)
    · exact hold (mem_of_unstored hu (hl ▸ hb) id)

theorem stored_step (hn : Queues.Ok env n) (h : n.step env e = some n') (hs : Stored n) :
    Stored n' := by
  intro b hb
  have hg := step_grows hn h
  have ht := (trace_extends (proposerStep_of_step hn h)).subset
  have hold : .store b ∈ n.core.trace → .accept b ∈ n'.core.trace ∨ Created n' b := fun hb =>
    (hs b hb).imp (fun h => hg.trace h) fun h => ht h
  rcases step_core_cases hn h with heq | ⟨x, heq⟩ | hacts
  · exact hold (heq ▸ hb)
  · rw [heq] at hb
    exact hold hb
  · rcases Acts.store_origin hacts hb with hb | hb | hb
    · exact hold hb
    · exact .inl hb
    · exact .inr (ht hb)

theorem run_stored {io : Io C} {timer : T} (r : NodeRun env (Node.boot env io timer) es n) :
    Stored n :=
  run_invariant (boot_ok io timer) r
    (fun b hb => by
      have htr : (Node.boot env io timer).core.trace = _ := boot_trace env io timer
      rw [htr] at hb
      split_ifs at hb <;> simp at hb)
    fun _ _ _ hn hs h => stored_step hn h hs

end Stored

/-! ### A system of honest nodes -/

section System

variable {w : Network C} {S S' : Nodes C T} {es : List (C.PublicKey × Event C)}

/-- The block is one of the system: an honest node made or stored it. -/
def Real (w : Network C) (S : Nodes C T) (b : Block C) : Prop :=
  ∃ k, w.Honest k ∧ (Created (S k) b ∨ .store b ∈ (S k).core.trace)

/-- A block of the system extends another one. -/
def Extends (w : Network C) (S : Nodes C T) (p b : Block C) : Prop :=
  Real w S p ∧ Real w S b ∧ IsParent p b

/-- No digest is in a block and in one of its ancestors. -/
def NoRepeat (w : Network C) (S : Nodes C T) : Prop :=
  ∀ a b, Relation.TransGen (Extends w S) a b → ∀ d ∈ a.payload, d ∉ b.payload

/-- The author of an accepted block has made a block with its digest. -/
def Authored (S : Nodes C T) (k : C.PublicKey) : Prop :=
  ∀ b, .accept b ∈ (S k).core.trace → ∃ b', Created (S b.author) b' ∧ b'.digest = b.digest

/-- A block that the proposer signed was made by it. -/
theorem created_of_signed (hnc : NoCollision C) {n : Node C T} {b : Block C}
    (h : b.digest ∈ signed n) : ∃ b', Created n b' ∧ b'.digest = b.digest := by
  rcases List.mem_append.mp h with h | h
  · obtain ⟨a, -, ha⟩ := List.mem_filterMap.mp h
    cases a <;> simp only [coreSigns, reduceCtorEq, Option.some.injEq] at ha
    · exact absurd (hnc ha) (by simp)
    · exact absurd (hnc ha) (by simp)
  · obtain ⟨a, hm, ha⟩ := List.mem_filterMap.mp h
    cases a <;> simp only [proposerSigns, reduceCtorEq, Option.some.injEq] at ha
    exact ⟨_, hm, ha⟩

variable [RoundTimer T]

theorem author_honest (hall : w.byzantine = ∅) {b : Block C}
    (hl : getLeader w.committee b.round = some b.author) : w.Honest b.author :=
  ⟨getLeader_mem hl, by simp [hall]⟩

theorem authored_step (hnc : NoCollision C) (hall : w.byzantine = ∅)
    (hok : ∀ k, Queues.Ok (w.env k) (S k)) {x : C.PublicKey × Event C} (h : step w S x = some S')
    (hs : ∀ k, Authored S k) (k : C.PublicKey) : Authored S' k := by
  obtain ⟨-, hd, n, hn, rfl⟩ := step_cases h
  have hmono : ∀ j b, Created (S j) b → Created (Function.update S x.1 n j) b := by
    intro j b hb
    by_cases hj : j = x.1
    · subst hj
      rw [Function.update_self]
      exact (trace_extends (proposerStep_of_step (hok _) hn)).subset hb
    · rwa [Function.update_of_ne hj]
  have hold : ∀ b, .accept b ∈ (S k).core.trace →
      ∃ b', Created (Function.update S x.1 n b.author) b' ∧ b'.digest = b.digest := fun b hb =>
    (hs k b hb).imp fun b' hb' => ⟨hmono _ _ hb'.1, hb'.2⟩
  intro b hb
  by_cases hk : k = x.1
  swap
  · rw [Function.update_of_ne hk] at hb
    exact hold b hb
  subst hk
  rw [Function.update_self] at hb
  rcases hcore : x.2.isCore with _ | _
  · refine hold b ?_
    rcases task_step_cases (hok _) hcore hn with hf | ⟨y, -, rfl⟩
    · rwa [hf.core] at hb
    · exact hb
  obtain ⟨htr, hfresh⟩ := fresh_of_step (hok _) hcore hn
  rw [htr] at hb
  rcases List.mem_append.mp hb with hb | hb
  · exact hold b hb
  -- the block is new: its signature is that of its author
  obtain ⟨io, hx⟩ := hfresh _ hb
  have hin : .accept b ∈ n.core.trace := htr ▸ List.mem_append_right _ hb
  have hc : Checked (w.env x.1) b := ((step_ok (hok _) hn).core.entry _ hin).1
  rw [hx] at hd
  obtain ⟨b', hb', hdig⟩ := created_of_signed hnc
    (hd _ List.mem_cons_self (author_honest hall hc.1) (Block.verify_ok hc.2).1)
  exact ⟨b', hmono _ _ hb', hdig⟩

variable {io : C.PublicKey → Io C} {timer : C.PublicKey → T}

theorem run_authored (hnc : NoCollision C) (hall : w.byzantine = ∅)
    (r : SystemRun w (start w io timer) es S) (k : C.PublicKey) : Authored S k := by
  suffices h : (∀ k, Queues.Ok (w.env k) (S k)) ∧ ∀ k, Authored S k from h.2 k
  refine r.invariant (P := fun S => (∀ k, Queues.Ok (w.env k) (S k)) ∧ ∀ k, Authored S k)
    ⟨fun k => boot_ok (io k) (timer k), fun k b hb => ?_⟩ ?_
  swap
  · exact fun S x S' h h' => ⟨system_ok h.1 h', authored_step hnc hall h.1 h' h.2⟩
  have htr : (start w io timer k).core.trace = _ := boot_trace (w.env k) (io k) (timer k)
  rw [htr] at hb
  split_ifs at hb <;> simp at hb

/-- **Every block of the system was made by a node**, up to what its digest does not cover. -/
theorem made_of_real (hnc : NoCollision C) (hall : w.byzantine = ∅)
    (r : SystemRun w (start w io timer) es S) {b : Block C} (hb : Real w S b) :
    ∃ k b', w.Honest k ∧ Created (S k) b' ∧ b'.digest = b.digest := by
  obtain ⟨k, hk, hb | hb⟩ := hb
  · exact ⟨k, b, hk, hb, rfl⟩
  rcases run_stored (node_run r k) b hb with hacc | hcr
  · obtain ⟨b', hb', hd⟩ := run_authored hnc hall r k b hacc
    have hc : Checked (w.env k) b := ((nodes_ok r k).core.entry _ hacc).1
    exact ⟨_, b', author_honest hall hc.1, hb', hd⟩
  · exact ⟨k, b, hk, hcr, rfl⟩

/-- The QC of a block of the system has been processed. -/
theorem accepted_of_real (r : SystemRun w (start w io timer) es S) {b : Block C}
    (hb : Real w S b) : ∃ k, w.Honest k ∧ Accepted (S k).core b.qc := by
  obtain ⟨k, hk, hb | hb⟩ := hb
  · obtain ⟨round, qc, tc, payload, hm, rfl, -⟩ := (nodes_ok r k).created b hb
    exact ⟨k, hk, ((nodes_ok r k).core.entry _ hm).1⟩
  · exact ⟨k, hk, (nodes_ok r k).core.entry _ hb⟩

/-- The parent of a block that is not first is found by the hash, whatever the rest of its QC. -/
theorem parent_of_extends (r : SystemRun w (start w io timer) es S)
    (hz : ∀ k, w.Honest k → NoZeroCertified (S k).core) {p b b' : Block C}
    (h : Extends w S p b) (hd : b'.qc.hash = b.qc.hash) :
    p = Block.genesis ∨ (¬ b'.qc.IsGenesis ∧ p.digest = b'.parent) := by
  rcases h.2.2 with ⟨-, hp⟩ | ⟨hg, hp⟩
  · exact .inl hp
  · obtain ⟨k, hk, hq⟩ := accepted_of_real r h.2.1
    obtain ⟨round, hr⟩ := processed_of_accepted hq hg
    exact .inr ⟨fun hg' => hz k hk _ _ hr hg (hd.symm.trans hg'.1), hp.trans hd.symm⟩

/-- Every ancestor of a block was processed by its maker before. -/
theorem ancestors_processed (hnc : NoCollision C)
    (r : SystemRun w (start w io timer) es S)
    (hz : ∀ k, w.Honest k → NoZeroCertified (S k).core) {done : List (Block C)}
    (hdone : ParentsFirst done) {b b' : Block C} (hd : b'.qc.hash = b.qc.hash)
    (hq : b'.qc.IsGenesis ∨ ∃ p ∈ done, p.digest = b'.parent) {a : Block C}
    (h : Relation.TransGen (Extends w S) a b) :
    a = Block.genesis ∨ ∃ p ∈ done, p.digest = a.digest := by
  induction h using Relation.TransGen.head_induction_on with
  | @single a h =>
    rcases parent_of_extends r hz h hd with rfl | ⟨hg, hp⟩
    · exact .inl rfl
    · obtain ⟨p, hm, hpd⟩ := hq.resolve_left hg
      exact .inr ⟨p, hm, hpd.trans hp.symm⟩
  | @head a c h _ ih =>
    rcases ih with rfl | ⟨c', hm, hcd⟩
    · rcases h.2.2 with ⟨-, ha⟩ | ⟨hg, -⟩
      · exact .inl ha
      · exact absurd isGenesis_genesis hg
    · rcases parent_of_extends r hz h (digest_inj hnc hcd).2.2.2 with rfl | ⟨hg, hp⟩
      · exact .inl rfl
      · obtain ⟨l₁, l₂, hl⟩ := List.append_of_mem hm
        obtain ⟨p, hp', hpd⟩ := (hdone l₁ c' l₂ hl).resolve_left hg
        exact .inr ⟨p, hl ▸ List.mem_append_left _ hp', hpd.trans hp.symm⟩

/-- **No digest repeats in a chain**, if all nodes are honest, no proposer receives a digest after
it was cleaned up, and a block is only asked for after the block it extends has been processed. -/
theorem no_repeat (hnc : NoCollision C) (hall : w.byzantine = ∅)
    (r : SystemRun w (start w io timer) es S)
    (hcert : ∀ k, w.Honest k → NoBatchCertified (S k).core ∧ NoZeroCertified (S k).core)
    (hfresh : ∀ k, w.Honest k → NotReceivedAgain (S k).proposer)
    (hmake : ∀ k, w.Honest k → MakesProcessed (S k).core.trace) : NoRepeat w S := by
  intro a b h d hda hdb
  have hb : Real w S b := by
    cases h with
    | single h => exact h.2.1
    | tail _ h => exact h.2.1
  obtain ⟨k, b', hk, hcr, hd⟩ := made_of_real hnc hall r hb
  obtain ⟨-, -, hpay, hhash⟩ := digest_inj hnc hd
  obtain ⟨p₁, p₂, hp⟩ := List.append_of_mem hcr
  obtain ⟨l₁, l₂, hl, hsent⟩ := sent_before (run_inOrder (node_run r k)) hp
  have hproc := run_processing (node_run r k) (hcert k hk).1
  have hdone : ParentsFirst (l₁.filterMap processedBlock) := by
    have := hproc.order
    rw [hl, List.filterMap_append] at this
    exact parentsFirst_of_append this
  have hq : b'.qc.IsGenesis ∨ ∃ p ∈ l₁.filterMap processedBlock, p.digest = b'.parent :=
    askedAfter_of_append (hmake k hk) hl
  rcases ancestors_processed hnc r (fun k hk => (hcert k hk).2) hdone hhash hq h with
    rfl | ⟨a', ha', had⟩
  · simp [Block.genesis] at hda
  -- the proposer was told to drop what is in the ancestor before it made the block
  obtain ⟨x, hx, hxa⟩ := List.mem_filterMap.mp ha'
  cases x <;> simp only [processedBlock, reduceCtorEq, Option.some.injEq] at hxa
  rename_i b0 b1 c
  subst hxa
  have hclean : .cleanup (b0.payload ++ b1.payload ++ c.payload) ∈ p₁.filterMap handled := by
    rw [← hsent]
    exact List.mem_filterMap.mpr ⟨_, hx, rfl⟩
  obtain ⟨y, hy, hyc⟩ := List.mem_filterMap.mp hclean
  cases y <;> simp only [handled, reduceCtorEq, Option.some.injEq] at hyc
  cases hyc
  have hpair := (run_clean (node_run r k) (hfresh k hk)).created
  rw [hp, List.pairwise_append] at hpair
  have hnot := hpair.2.2 _ hy _ List.mem_cons_self d (hpay ▸ hdb)
  exact hnot (List.mem_append_right _ ((digest_inj hnc had).2.2.1 ▸ hda))

end System

/-! ### Two runs -/

/-- The node makes a block of one batch, processes it, and makes another one. -/
def twoBlocks : List (ℕ × Event crypto) :=
  [(0, .batch (7 : ℕ)), (0, .digest), (0, .proposerMessage [crypto.batchDigest (7 : ℕ)]),
    (0, .loopback calm), (0, .proposerMessage []), (0, .batch (8 : ℕ)), (0, .digest),
    (0, .proposerMessage [crypto.batchDigest (8 : ℕ)])]

/-- The blocks of a node alone. -/
theorem no_repeat_solo : ∃ (S : Nodes crypto (Timer ℚ)) (b b' : Block crypto),
    b.payload.length = 1 ∧ b'.payload.length = 1 ∧ Created (S (key 0)) b ∧ Created (S (key 0)) b' ∧
      IsParent b b' ∧ NoRepeat (honestNetwork 1) S := by
  refine ⟨_, _, _, ?_, ?_, List.mem_of_getElem? (i := 1) rfl, List.mem_of_getElem? (i := 4) rfl,
    .inr ⟨?_, ?_⟩, no_repeat noCollision rfl (run_of_systemRun (n := 1) twoBlocks rfl)
      ?_ ?_ ?_⟩
  · rfl
  · rfl
  · decide
  · rfl
  all_goals
    intro k hk
    rw [eq_of_honest_solo hk]
    decide

/-- The first block of the authority that leads round 1. -/
def firstBlock : Block crypto :=
  Block.new QC.genesis none (key 1) 1 [crypto.batchDigest (7 : ℕ)]

/-- The QC of the first block. -/
def firstQc : QC crypto :=
  ⟨firstBlock.digest, 1, [(key 0, (Vote.new firstBlock (key 0)).signature),
    (key 1, (Vote.new firstBlock (key 1)).signature)]⟩

/-- The other authority has the batch and processes the block, but takes the digest of the batch
from its mempool only after the `Cleanup`. -/
def lateDigest : List (ℕ × Event crypto) :=
  [(1, .batch (7 : ℕ)), (1, .digest), (1, .proposerMessage firstBlock.payload),
    (0, .batch (7 : ℕ)), (0, .message (.propose firstBlock) calm), (0, .proposerMessage []),
    (0, .digest), (1, .loopback calm), (0, .message (.vote (Vote.new firstBlock (key 1))) calm),
    (0, .proposerMessage firstBlock.payload)]

/-- **A digest repeats** in the block of round 2 of a committee of two. -/
theorem exists_repeat : ∃ (es : List (ℕ × Event crypto)) (S : Nodes crypto (Timer ℚ)),
    SystemRun (honestNetwork 2) (calmStart 2) es S ∧ ¬ NoRepeat (honestNetwork 2) S := by
  refine ⟨lateDigest, _, run_of_systemRun (n := 2) lateDigest rfl, fun h => ?_⟩
  refine h firstBlock (Block.new firstQc none (key 0) 2 firstBlock.payload)
    (.single ⟨?_, ?_, .inr ?_⟩)
    _ List.mem_cons_self List.mem_cons_self
  · exact ⟨key 1, by decide, .inl (List.mem_of_getElem? (i := 1) rfl)⟩
  · exact ⟨key 0, by decide, .inl (List.mem_of_getElem? (i := 2) rfl)⟩
  · exact ⟨by decide, rfl⟩

end Hotstuff.Consensus.Repeats
