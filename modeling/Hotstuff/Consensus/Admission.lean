import Hotstuff.Consensus.Queues
import Hotstuff.Ideal

/-! # Which blocks the core processes

Every block that is stored or voted for is proper: its author leads its round, the node made it or
verified it, and its payload is in the store (`proper_of_new`). The last part fails if the write of
a batch does, of which nobody learns (`exists_improper`). The block store is closed under
parents (`Closed`), since a block is only stored after its parent has been found; so the lookups
that the code expects to succeed do (`processBlock_panic`). -/

namespace Hotstuff.Consensus.Admission

open Hotstuff.Primitives Hotstuff.Consensus.Config Hotstuff.Consensus.Messages
open Hotstuff.Consensus.Pacing Hotstuff.Consensus.Handlers Hotstuff.Consensus.Steps
open Hotstuff.Consensus.Entries Hotstuff.Consensus.Queues Hotstuff.Consensus.Tasks
open Hotstuff.Consensus.Wiring Hotstuff.Lib.Transition Hotstuff.Ideal
open Hotstuff.Lib.Lists (mem_of_lookup)

variable {C : Crypto} {T : Type}

/-! ### Checks before processing -/

section Proper

variable [RoundTimer T] {env : Env C} {n n' : Node C T} {e : Event C}

theorem newEntries_task (hn : Ok env n) (hc : e.isCore = false) (h : n.step env e = some n') :
    newEntries n n'.core = [] := by
  unfold newEntries
  rcases task_step_cases hn hc h with hf | ⟨x, -, rfl⟩
  · rw [hf.core, List.drop_length]
  · exact List.drop_length

/-- A block that an event stores or votes for has been vetted in the state before the event. -/
theorem vetted_of_new (hn : Ok env n) (h : n.step env e = some n') {b : Block C}
    (hb : .store b ∈ newEntries n n'.core ∨ .vote b ∈ newEntries n n'.core) : Vetted env n b := by
  rcases hc : e.isCore with _ | _
  · rw [newEntries_task hn hc h] at hb
    simp at hb
  · have hf := (fresh_of_step hn hc h).2
    rcases hb with hb | hb
    · exact (hf _ hb).1
    · exact hf _ hb

/-- **No check is bypassed**, as long as no write fails that matters: a block that an event stores
or votes for is proper in the state before the event. -/
theorem proper_of_new {io : Io C} {timer : T} {es : List (Event C)}
    (r : NodeRun env (Node.boot env io timer) es n)
    (hs : Every (fun n e n' => n.step env e = some n') (Node.boot env io timer) Harmless es)
    (h : n.step env e = some n') {b : Block C}
    (hb : .store b ∈ newEntries n n'.core ∨ .vote b ∈ newEntries n n'.core) : Proper env n b :=
  (vetted_of_new (run_ok r) h hb).proper (run_backed r hs)

end Proper

/-- The batch is lost while the first block waits for it. -/
def lostBatch : List (Event crypto) :=
  [Four.proposal Four.first, .payloadMessage, .batchLost (7 : ℕ), .payloadReady 0]

/-- **A lost batch**: the node stores and votes for a block whose payload it does not have. -/
theorem exists_improper : ¬ ∀ (es : List (Event crypto)) (n n' : Node crypto (Timer ℚ))
    (e : Event crypto) (b : Block crypto), NodeRun (four 0) follower es n →
    n.step (four 0) e = some n' →
    .store b ∈ newEntries n n'.core ∨ .vote b ∈ newEntries n n'.core → Proper (four 0) n b := by
  intro h
  have hproper := h lostBatch _ _ (.loopback calm) Four.first (run_of_followerRun lostBatch rfl)
    rfl (.inl List.mem_cons_self)
  obtain ⟨v, hv⟩ := hproper.payload (crypto.batchDigest (7 : ℕ)) List.mem_cons_self
  exact List.not_mem_nil hv

/-- The batch arrives twice, and the second write fails. -/
def savedBatch : List (Event crypto) :=
  [Four.proposal Four.first, .payloadMessage, .batch (7 : ℕ), .batchLost (7 : ℕ), .payloadReady 0,
    .loopback calm, Four.proposal Four.second]

theorem harmless_savedBatch :
    Every (fun n e n' => n.step (four 0) e = some n') follower Harmless savedBatch := by
  have hdet := step_det fun (n : Node crypto (Timer ℚ)) e => n.step (four 0) e
  have hcalm := fun (n : Node crypto (Timer ℚ)) b =>
    harmless_of_writes n (e := Four.proposal b) fun _ => rfl
  refine every_cons hdet rfl (hcalm _ _) (every_cons hdet rfl (harmless_of_writes _ trivial)
    (every_cons hdet rfl (harmless_of_writes _ trivial) (every_cons hdet rfl ⟨fun x hx => ?_, ?_⟩
      (every_cons hdet rfl (harmless_of_writes _ trivial) (every_cons hdet rfl
        (harmless_of_writes _ fun _ => rfl) (every_cons hdet rfl (hcalm _ _) every_nil))))))
  · cases hx
    exact ⟨.batch (7 : ℕ), List.mem_cons_self⟩
  · exact fun d hd => nomatch hd

/-- The block of round 3, which has the batch as its payload, is voted for. -/
theorem proper_of_new_savedBatch : ∃ n n' : Node crypto (Timer ℚ),
    NodeRun (four 0) follower savedBatch n ∧ .vote Four.third ∈ newEntries n n'.core ∧
      Four.third.payload.length = 1 ∧ ¬ Four.third.qc.IsGenesis ∧ Proper (four 0) n Four.third := by
  have r := run_of_followerRun savedBatch rfl
  have hvote : Action.vote Four.third ∈ newEntries ((followerRun savedBatch).getD follower)
      ((followerRun (savedBatch ++ [Four.proposal Four.third])).getD follower).core :=
    List.mem_of_getElem? (i := 8) rfl
  exact ⟨_, _, r, hvote, rfl, by decide, proper_of_new r harmless_savedBatch
    (e := Four.proposal Four.third) rfl (.inr hvote)⟩

/-! ### The store is closed under parents -/

/-- No batch in the store has the hash that a processed QC certifies. -/
def NoBatchCertified (s : Core C T) : Prop :=
  ∀ qc r, Action.processQc qc r ∈ s.trace → ¬ qc.IsGenesis → ∀ x, (qc.hash, .batch x) ∉ s.store

/-- The all-zero digest is not certified, but for the first QC. -/
def NoZeroCertified (s : Core C T) : Prop :=
  ∀ qc r, Action.processQc qc r ∈ s.trace → ¬ qc.IsGenesis → qc.hash ≠ C.defaultDigest

def processed : Action C → Option (QC C)
  | .processQc qc _ => some qc
  | _ => none

theorem mem_processed {s : Core C T} {qc : QC C} :
    qc ∈ s.trace.filterMap processed ↔ ∃ r, Action.processQc qc r ∈ s.trace := by
  rw [List.mem_filterMap]
  constructor
  · rintro ⟨a, ha, h⟩
    cases a <;> simp only [processed, reduceCtorEq, Option.some.injEq] at h
    exact ⟨_, h ▸ ha⟩
  · rintro ⟨r, hr⟩
    exact ⟨_, hr, rfl⟩

instance (s : Core C T) : Decidable (NoZeroCertified s) :=
  decidable_of_iff (∀ qc ∈ s.trace.filterMap processed, ¬ qc.IsGenesis → qc.hash ≠ C.defaultDigest)
    ⟨fun h qc r hr => h qc (mem_processed.mpr ⟨r, hr⟩),
      fun h qc hq => by obtain ⟨r, hr⟩ := mem_processed.mp hq; exact h qc r hr⟩

def isBatch : Value C → Bool
  | .batch _ => true
  | .block _ => false

instance (s : Core C T) : Decidable (NoBatchCertified s) :=
  decidable_of_iff (∀ qc ∈ s.trace.filterMap processed, ¬ qc.IsGenesis →
      ∀ v ∈ s.store, isBatch v.2 = true → v.1 ≠ qc.hash)
    ⟨fun h qc r hr hg x hx => h qc (mem_processed.mpr ⟨r, hr⟩) hg _ hx rfl rfl,
      fun h qc hq hg v hv hb hd => by
        obtain ⟨r, hr⟩ := mem_processed.mp hq
        obtain ⟨d, _ | x⟩ := v
        · cases hb
        · exact h qc r hr hg x (hd ▸ hv)⟩

/-- The parent of every block that was stored is found in the store. -/
structure Closed (s : Core C T) : Prop where
  stored : ∀ k b, (k, .block b) ∈ s.store → k = b.digest ∧ .store b ∈ s.trace
  parent : ∀ b, .store b ∈ s.trace → b.qc.IsGenesis ∨
    ∃ p, s.store.lookup b.parent = some (.block p) ∧ p.digest = b.parent

theorem noBatch_of_grows {s s' : Core C T} (h : Grows s s') (hs : NoBatchCertified s') :
    NoBatchCertified s :=
  fun qc r hq hg x hx => hs qc r (h.trace hq) hg x (h.store hx)

/-- What `get_parent_block` finds is the first block, or a block that was stored. -/
theorem parent_stored {env : Env C} {s : Core C T} (hs : Closed s) (hb : NoBatchCertified s)
    {b p : Block C} (hq : Accepted s b.qc) (h : Parent env s.store b p) :
    (b.qc.IsGenesis ∧ p = Block.genesis) ∨
      (¬ b.qc.IsGenesis ∧ .store p ∈ s.trace ∧ p.digest = b.parent ∧
        s.store.lookup b.parent = some (.block p)) := by
  rcases h with ⟨hg, rfl⟩ | ⟨hg, v, hl, hd⟩
  · exact .inl ⟨hg, rfl⟩
  obtain ⟨r, hr⟩ := processed_of_accepted hq hg
  have hm := mem_of_lookup hl
  cases v with
  | batch x => exact absurd hm (hb b.qc r hr hg x)
  | block p' =>
    cases hd
    obtain ⟨hk, hst⟩ := hs.stored _ _ hm
    exact .inr ⟨hg, hst, hk.symm, hl⟩

section Closed

variable [RoundTimer T] {env : Env C} {G : Guard C} {s s' : Core C T}

omit [RoundTimer T] in
/-- A write under a key that is either a block's own digest or no parent of a stored block. -/
theorem closed_of_write {k : C.Digest} {v : Value C} {s s' : Core C T} (hs : Closed s)
    (hst : s'.store = (k, v) :: s.store) (htr : ∀ b, .store b ∈ s'.trace → .store b ∈ s.trace ∨
      b.qc.IsGenesis ∨ ∃ p, s'.store.lookup b.parent = some (.block p) ∧ p.digest = b.parent)
    (hsub : s.trace ⊆ s'.trace)
    (hv : (∃ b, v = .block b ∧ k = b.digest ∧ .store b ∈ s'.trace) ∨
      ((∃ x, v = .batch x) ∧ ∀ b, .store b ∈ s.trace → b.qc.IsGenesis ∨ b.parent ≠ k)) :
    Closed s' := by
  refine ⟨fun k' b' hm => ?_, fun b' hb' => ?_⟩
  · rw [hst] at hm
    rcases List.mem_cons.mp hm with hm | hm
    · obtain ⟨rfl, rfl⟩ := Prod.mk.inj hm
      rcases hv with ⟨b, hb, hk, hin⟩ | ⟨⟨x, hx⟩, -⟩
      · cases hb
        exact ⟨hk, hin⟩
      · cases hx
    · exact (hs.stored k' b' hm).imp_right fun h => hsub h
  · rcases htr b' hb' with hold | hnew
    swap
    · exact hnew
    rcases hs.parent b' hold with hg | ⟨p, hl, hp⟩
    · exact .inl hg
    rw [hst, List.lookup_cons]
    by_cases hk : b'.parent = k
    · rcases hv with ⟨b, rfl, rfl, -⟩ | ⟨-, hne⟩
      · exact .inr ⟨b, by simp [hk], hk.symm⟩
      · exact .inl ((hne b' hold).resolve_right fun h => h hk)
    · exact .inr ⟨p, by rw [beq_false_of_ne hk]; exact hl, hp⟩

omit [RoundTimer T] in
theorem closed_of_eq {s s' : Core C T} (hs : Closed s) (hst : s'.store = s.store)
    (htr : ∀ b, .store b ∈ s'.trace → .store b ∈ s.trace ∨
      b.qc.IsGenesis ∨ ∃ p, s.store.lookup b.parent = some (.block p) ∧ p.digest = b.parent)
    (hsub : s.trace ⊆ s'.trace) : Closed s' := by
  refine ⟨fun k b hm => (hs.stored k b (hst ▸ hm)).imp_right fun h => hsub h, fun b hb => ?_⟩
  rw [hst]
  exact (htr b hb).elim (hs.parent b) id

/-- The entry does not say that a block was stored. -/
def Unstored : Action C → Prop
  | .store _ | .cleanup _ _ _ => False
  | _ => True

omit [RoundTimer T] in
theorem unstored_qcTrace (r : Round) (qc : QC C) : ∀ a ∈ qcTrace r qc, Unstored a :=
  forall_mem_qcTrace trivial trivial

omit [RoundTimer T] in
theorem unstored_moved {p : Prop} [Decidable p] {r : Round} :
    ∀ a ∈ (if p then [] else [Action.moved r] : List (Action C)), Unstored a :=
  forall_mem_moved trivial

omit [RoundTimer T] in
theorem mem_of_unstored {l l' : List (Action C)} (h : ∀ a ∈ l', Unstored a) {a : Action C}
    (ha : a ∈ l ++ l') (hu : ¬ Unstored a) : a ∈ l :=
  (List.mem_append.mp ha).resolve_right fun ha => hu (h a ha)

/-- Blocks are stored by one elementary step only. -/
theorem Act.store_cases (h : Act env G s s') :
    (∃ io b b0 b1, s' = (storeBlock io s b).emit (.cleanup b0 b1 b) ∧ Admitted G s b ∧
        Parent env s.store b b1 ∧ Parent env s.store b1 b0 ∧
        (io.writeFails b.digest = true → G.lost b.digest)) ∨
      (s'.store = s.store ∧ ∃ l, s'.trace = s.trace ++ l ∧ ∀ a ∈ l, Unstored a) := by
  cases h with
  | store io b b0 b1 hb h1 h0 hio => exact .inl ⟨io, b, b0, b1, rfl, hb, h1, h0, hio⟩
  | accept io b =>
    refine .inr ⟨by simp, .accept b :: qcTrace s.round b.qc, by simp [processQc_trace], ?_⟩
    intro a ha
    rcases List.mem_cons.mp ha with rfl | ha
    · trivial
    · exact unstored_qcTrace _ _ a ha
  | assembleQc | hearTimeout =>
    exact .inr ⟨by simp, _, processQc_trace _ _ _, unstored_qcTrace _ _⟩
  | acceptTc | hearTc => exact .inr ⟨by simp, _, advanceRound_trace _ _ _, unstored_moved⟩
  | assembleTc =>
    refine .inr ⟨by simp, _, by rw [emit_trace, advanceRound_trace, List.append_assoc], ?_⟩
    intro a ha
    rcases List.mem_append.mp ha with ha | ha
    · exact unstored_moved a ha
    · rw [List.mem_singleton.mp ha]; trivial
  | countVote | countTimeout => exact .inr ⟨rfl, [], by simp, by simp⟩
  | make | timeout | suspend | stuck | vote | sendVote =>
    exact .inr ⟨rfl, _, rfl, fun a ha => by rw [List.mem_singleton.mp ha]; trivial⟩
  | wait | commit =>
    refine .inr ⟨rfl, _, List.append_assoc _ _ _, fun a ha => ?_⟩
    simp only [List.cons_append, List.nil_append, List.mem_cons, List.not_mem_nil, or_false] at ha
    rcases ha with rfl | rfl <;> trivial
  | deliver b l =>
    refine .inr ⟨rfl, _, rfl, fun a ha => ?_⟩
    obtain ⟨x, -, rfl⟩ := List.mem_map.mp ha
    trivial

omit [RoundTimer T] in
/-- A block is stored, or is to be, after its parent has been found. -/
theorem closed_store (io : Io C) {b b0 b1 : Block C} (hb : NoBatchCertified s) (hs : Closed s)
    (hq : Accepted s b.qc) (h1 : Parent env s.store b b1) :
    Closed ((storeBlock io s b).emit (.cleanup b0 b1 b)) := by
  have hin : Action.store b ∈ ((storeBlock io s b).emit (.cleanup b0 b1 b)).trace :=
    mem_emit (mem_emit_self _ _)
  have hsub : s.trace ⊆ ((storeBlock io s b).emit (.cleanup b0 b1 b)).trace :=
    fun _ h => mem_emit (List.mem_append_left _ h)
  have hcases : ∀ b', .store b' ∈ ((storeBlock io s b).emit (.cleanup b0 b1 b)).trace →
      Action.store b' ∈ s.trace ∨ b' = b := fun b' hb' => by simpa using hb'
  have hparent : b.qc.IsGenesis ∨
      ∃ p, s.store.lookup b.parent = some (.block p) ∧ p.digest = b.parent := by
    rcases parent_stored hs hb hq h1 with ⟨hg, -⟩ | ⟨-, -, hd, hl⟩
    · exact .inl hg
    · exact .inr ⟨b1, hl, hd⟩
  have hst := storeBlock_store s io b
  split_ifs at hst with hw
  · refine closed_of_eq hs hst (fun b' hb' => ?_) hsub
    rcases hcases b' hb' with hb' | rfl
    · exact .inl hb'
    · exact .inr hparent
  · refine closed_of_write hs hst (fun b' hb' => ?_) hsub (.inl ⟨b, rfl, rfl, hin⟩)
    rcases hcases b' hb' with hb' | rfl
    · exact .inl hb'
    rw [emit_store, hst, List.lookup_cons]
    by_cases hk : b'.parent = b'.digest
    · exact .inr (.inr ⟨b', by simp [hk], hk.symm⟩)
    · rw [beq_false_of_ne hk]
      exact .inr hparent

theorem Act.closed (h : Act env G s s') (hb : NoBatchCertified s) (hs : Closed s) : Closed s' := by
  rcases Act.store_cases h with ⟨io, b, b0, b1, rfl, hadm, h1, -⟩ | ⟨hst, l, hl, hu⟩
  · exact closed_store io hb hs hadm.2.2 h1
  · exact closed_of_eq hs hst (fun b hb => .inl (mem_of_unstored hu (hl ▸ hb) id))
      (Act.grows h).trace

theorem Acts.closed (h : Acts env G s s') (hb : NoBatchCertified s') (hs : Closed s) :
    Closed s' := by
  induction h with
  | refl => exact hs
  | tail _ h ih =>
    have hb' := noBatch_of_grows (Act.grows h) hb
    exact Act.closed h hb' (ih hb')

end Closed

/-! ### The lookups that are expected to succeed -/

section Panics

variable {env : Env C} {s : Core C T} (io : Io C)

/-- Nothing is asked of what the event brings. -/
def anyEvent : Guard C :=
  ⟨fun _ => True, fun _ => True, fun _ => True, fun _ => True, fun _ => True, fun _ => True,
    fun _ => True, True, True⟩

/-- The parent of the block is not in the store. -/
def Missing (st : Store C) (a : Block C) : Prop := ¬ a.qc.IsGenesis ∧ st.lookup a.parent = none

theorem not_missing_of_stored (hs : Closed s) {a : Block C}
    (ha : a = Block.genesis ∨ .store a ∈ s.trace) : ¬ Missing s.store a := by
  rintro ⟨hg, hl⟩
  rcases ha with rfl | ha
  · exact hg ⟨rfl, rfl⟩
  · rcases hs.parent a ha with hg' | ⟨p, hp, -⟩
    · exact hg hg'
    · rw [hl] at hp; cases hp

/-- Along parents, from a stored block to stored blocks. -/
theorem stored_of_parents (hok : Entries.Ok env s) (hs : Closed s) (hb : NoBatchCertified s)
    {b a : Block C} (hst : b = Block.genesis ∨ .store b ∈ s.trace)
    (h : Relation.ReflTransGen (Parent env s.store) b a) :
    a = Block.genesis ∨ .store a ∈ s.trace := by
  induction h with
  | refl => exact hst
  | @tail b' a' _ h ih =>
    have hq : Accepted s b'.qc := by
      rcases ih with rfl | ih
      · exact .inl rfl
      · exact hok.entry _ ih
    rcases parent_stored hs hb hq h with ⟨-, hp⟩ | ⟨-, hp, -⟩
    · exact .inl hp
    · exact .inr hp

variable [RoundTimer T]

theorem handleVote_panic {v : Vote C} {p : Panic} :
    (handleVote env io s v).2 ≠ .error (.panic p) := by
  unfold handleVote
  split_ifs
  · simp
  split
  · simp
  rcases s.aggregator.addVote env.committee v with ⟨a, e | _ | qc⟩ <;> simp

theorem handleTimeout_panic {t : Timeout C} {p : Panic} :
    (handleTimeout env io s t).2 ≠ .error (.panic p) := by
  unfold handleTimeout
  split_ifs
  · simp
  split
  · simp
  rcases h : (processQc io s t.highQc).aggregator.addTimeout env.committee t with
    ⟨a, e | _ | tc⟩ <;> simp [h]

theorem handleTc_panic {tc : TC C} {p : Panic} : (handleTc env io s tc).2 ≠ .error (.panic p) := by
  unfold handleTc
  split
  · simp
  split_ifs <;> simp

theorem voteFor_panic {b : Block C} {p : Panic} (h : (voteFor env io s b).2 = .error (.panic p)) :
    p = .emptyTc ∨ p = .emptyCommittee := by
  rcases voteFor_cases env s io b with
    h' | ⟨-, h'⟩ | ⟨-, -, -, ⟨-, h'⟩ | h' | ⟨k, h'⟩⟩ <;> rw [h'] at h
  · cases h
  · cases h; exact .inl rfl
  · cases h; exact .inr rfl
  · exact absurd h (handleVote_panic io)
  · cases h

omit [RoundTimer T] in
/-- `commit` panics only when the ancestors of the block are not all there, if its loop ends. -/
theorem commitRule_panic {b0 b1 : Block C} {p : Panic}
    (h : (commitRule env io s b0 b1).2 = .error (.panic p)) : p = .endless ∨
      (∃ a, Relation.ReflTransGen (Parent env s.store) b0 a ∧ Missing s.store a) := by
  unfold commitRule at h
  split_ifs at h
  rcases commit_cases env (s.emit (.gc b0.round)) io b0 with
    ⟨-, h'⟩ | ⟨-, ⟨l, -, h'⟩ | ⟨a, hw, hg, hl, -⟩ | ⟨e, h'⟩ | ⟨-, h'⟩⟩
  · rw [h'] at h
    cases h
  · rw [h'] at h
    cases h
  · exact .inr ⟨a, hw, hg, hl⟩
  · rw [h'] at h
    cases h
  · rw [h'] at h
    cases h
    exact .inl rfl

/-- **The parents that `process_block` expects are there**, in a store closed under parents. -/
theorem processBlock_panic {b : Block C} {p : Panic} (hok : Entries.Ok env s) (hs : Closed s)
    (hb : NoBatchCertified s) (hq : Accepted s b.qc)
    (h : (processBlock env io s b).2 = .error (.panic p)) :
    p = .endless ∨ p = .emptyTc ∨ p = .emptyCommittee := by
  rcases processBlock_cases env s io b with
    ⟨b0, b1, h1, h0, -, hc⟩ | h' | ⟨b1, h1, hg, hl, -⟩ | ⟨e, h'⟩
  · set s₁ := (storeBlock io s b).emit (.cleanup b0 b1 b) with hs₁
    rcases hc with ⟨e, he, h'⟩ | ⟨-, h'⟩ <;> rw [h'] at h
    swap
    · exact .inr (voteFor_panic io h)
    rcases commitRule_panic io (he.trans h) with hp | ⟨a, hw, ha⟩
    · exact .inl hp
    -- the loop of `commit` runs in the store with the new block
    exfalso
    have hact : Act env anyEvent s s₁ :=
      .store io b b0 b1 ⟨trivial, .inr trivial, hq⟩ h1 h0 fun _ => trivial
    have hs' : Closed s₁ := closed_store io hb hs hq h1
    have hb' : NoBatchCertified s₁ := by
      intro qc r hqc hg x hx
      refine hb qc r (by simpa [s₁] using hqc) hg x ?_
      have hx' : (qc.hash, Value.batch x) ∈ (storeBlock io s b).store := hx
      rw [storeBlock_store] at hx'
      split_ifs at hx'
      · exact hx'
      · exact (List.mem_cons.mp hx').resolve_left (by simp)
    have hstart : b0 = Block.genesis ∨ .store b0 ∈ s₁.trace := by
      have h1' : b1 = Block.genesis ∨ .store b1 ∈ s.trace := by
        rcases parent_stored hs hb hq h1 with ⟨-, h⟩ | ⟨-, h, -⟩
        · exact .inl h
        · exact .inr h
      exact (stored_of_parents hok hs hb h1' (.single h0)).imp_right fun h =>
        (Act.grows hact).trace h
    exact not_missing_of_stored hs' (stored_of_parents (Act.ok hact hok) hs' hb' hstart hw) ha
  · rw [h'] at h
    cases h
  · exfalso
    rcases parent_stored hs hb hq h1 with ⟨-, h⟩ | ⟨-, h, -⟩
    · exact not_missing_of_stored hs (.inl h) ⟨hg, hl⟩
    · exact not_missing_of_stored hs (.inr h) ⟨hg, hl⟩
  · rw [h'] at h
    cases h

theorem handleProposal_panic {b : Block C} {p : Panic} (hok : Entries.Ok env s) (hs : Closed s)
    (hb : NoBatchCertified (handleProposal env io s b).1)
    (h : (handleProposal env io s b).2 = .error (.panic p)) :
    p = .endless ∨ p = .emptyTc ∨ p = .emptyCommittee := by
  by_cases hc : Checked env b
  swap
  · obtain ⟨e, he⟩ := handleProposal_unchecked env s io hc
    rw [he] at h
    cases h
  obtain ⟨h1, hq⟩ := processCertificates_acts (s := s) (G := anyEvent) (b := b) io trivial hc
  rcases handleProposal_checked env s io hc with
    ⟨e, h'⟩ | ⟨-, h'⟩ | ⟨missing, -, -, h'⟩ <;> rw [h'] at h
  · cases h
  · rw [h'] at hb
    set s₁ := processCertificates io (s.emit (.accept b)) b with hs₁
    have h2 : Acts env anyEvent s₁ (processBlock env io s₁ b).1 :=
      processBlock_acts io ⟨trivial, .inr trivial, hq⟩ (fun _ _ => trivial) fun _ _ => trivial
    have hb₁ := noBatch_of_grows (Acts.grows h2) hb
    exact processBlock_panic io (Acts.ok h1 hok) (Acts.closed h1 hb₁ hs) hb₁ hq h
  · cases h

end Panics

/-! ### Reachable states -/

section Runs

variable [RoundTimer T] {env : Env C} {n n' : Node C T} {e : Event C}

theorem closed_step (hn : Ok env n) (h : n.step env e = some n') (hb : NoBatchCertified n'.core)
    (hs : Closed n.core) : Closed n'.core := by
  rcases step_core_cases hn h with hc | ⟨x, hc⟩ | hacts
  · rw [hc]; exact hs
  · rw [hc] at hb ⊢
    refine closed_of_write hs rfl (fun _ h => .inl h) (List.Subset.refl _) (.inr ⟨⟨x, rfl⟩, ?_⟩)
    intro b hst
    by_cases hg : b.qc.IsGenesis
    · exact .inl hg
    · obtain ⟨r, hr⟩ := processed_of_accepted (hn.core.entry _ hst) hg
      refine .inr fun hk => hb b.qc r hr hg x ?_
      rw [show b.qc.hash = C.batchDigest x from hk]
      exact List.mem_cons_self
  · exact Acts.closed hacts hb hs

theorem closed_boot (io : Io C) (timer : T) : Closed (Node.boot env io timer).core := by
  have hst : (Node.boot env io timer).core.store = [] := (boot_fields env io timer).2.2.2.2.1
  refine ⟨fun k b hk => by rw [hst] at hk; simp at hk, fun b hb => ?_⟩
  have htr : (Node.boot env io timer).core.trace = _ := boot_trace env io timer
  rw [htr] at hb
  split_ifs at hb <;> simp at hb

/-- **What halts the core**: the handling of a proposal, or of a block from the loopback. -/
theorem halted_cases (hn : Ok env n) (h : n.step env e = some n') {p : Panic}
    (hp : n'.halted = some p) : n.halted = some p ∨
      (∃ b io, n'.core = (handleProposal env io n.core b).1 ∧
        (handleProposal env io n.core b).2 = .error (.panic p)) ∨
      ∃ b io, Ready n b ∧ n'.core = (processBlock env io n.core b).1 ∧
        (processBlock env io n.core b).2 = .error (.panic p) := by
  rcases hc : e.isCore with _ | _
  · rcases task_step_cases hn hc h with hf | ⟨x, -, rfl⟩
    · exact .inl (by rw [← hf.halted]; exact hp)
    · exact .inl hp
  right
  cases e with
  | message m io =>
    obtain ⟨hh, rfl⟩ := step_message h
    have hpan := panic_of_halted n _ hh hp
    cases m with
    | propose b => exact .inl ⟨b, io, call_core .., hpan⟩
    | vote v => exact absurd hpan (handleVote_panic io)
    | timeout t => exact absurd hpan (handleTimeout_panic io)
    | tc tc => exact absurd hpan (handleTc_panic io)
  | loopback io =>
    obtain ⟨hh, b, bs, hl, rfl⟩ := step_loopback h
    exact .inr ⟨b, io, hn.loopback hh b (by simp [hl]), call_core ..,
      panic_of_halted { n with rxLoopback := bs } _ hh hp⟩
  | timeout io =>
    obtain ⟨hh, rfl⟩ := step_timeout h
    exact absurd (panic_of_halted n _ hh hp) (handleTimeout_panic _)
  | _ => simp [Event.isCore] at hc

/-- The reasons for which an event can halt the core. -/
theorem halted_step (hn : Ok env n) (h : n.step env e = some n') (hs : Closed n.core)
    (hb : NoBatchCertified n'.core) {p : Panic} (hp : n'.halted = some p) :
    n.halted = some p ∨ p = .endless ∨ p = .emptyTc ∨ p = .emptyCommittee := by
  have hg := step_grows hn h
  rcases halted_cases hn h hp with hp | ⟨b, io, hcore, hpan⟩ | ⟨b, io, hready, -, hpan⟩
  · exact .inl hp
  · rw [hcore] at hb
    exact .inr (handleProposal_panic io hn.core hs hb hpan)
  · exact .inr (processBlock_panic io hn.core hs (noBatch_of_grows hg hb)
      (accepted_of_ready hn hready) hpan)

/-- **The block store is closed under parents**, and the parents that the code expects to find are
found, in every reachable state. -/
theorem ancestor_closed {io : Io C} {timer : T} {es : List (Event C)}
    (r : NodeRun env (Node.boot env io timer) es n) (hb : NoBatchCertified n.core) :
    (∀ k b, (k, .block b) ∈ n.core.store → k = b.digest ∧ (b.qc.IsGenesis ∨
        ∃ p, n.core.store.lookup b.parent = some (.block p) ∧ p.digest = b.parent)) ∧
      n.halted ≠ some .missingAncestor ∧ n.halted ≠ some .missingCommitAncestor := by
  have hn := run_ok r
  have hinv : Closed n.core ∧ n.halted ≠ some .missingAncestor ∧
      n.halted ≠ some .missingCommitAncestor := by
    refine run_invariant_of (boot_ok io timer) r
      (P := fun n => Closed n.core ∧ n.halted ≠ some .missingAncestor ∧
        n.halted ≠ some .missingCommitAncestor) noBatch_of_grows ?_ ?_ hb
    · exact ⟨closed_boot io timer, by simp, by simp⟩
    · rintro n₁ e n₂ hn₁ ⟨hs, hh, hh'⟩ hb₂ h
      refine ⟨closed_step hn₁ h hb₂ hs, fun hp => ?_, fun hp => ?_⟩
      · rcases halted_step hn₁ h hs hb₂ hp with h | h | h | h
        · exact hh h
        all_goals cases h
      · rcases halted_step hn₁ h hs hb₂ hp with h | h | h | h
        · exact hh' h
        all_goals cases h
  refine ⟨fun k b hk => ?_, hinv.2⟩
  obtain ⟨hkey, hst⟩ := hinv.1.stored k b hk
  exact ⟨hkey, hinv.1.parent b hst⟩

/-- A node that has stored a batch and three blocks. -/
theorem ancestor_closed_arrivals : ∃ n : Node crypto (Timer ℚ), n.core.store.length = 4 ∧
    (∃ p, n.core.store.lookup Four.third.parent = some (.block p) ∧ p.digest = Four.third.parent) ∧
      n.halted ≠ some .missingAncestor ∧ n.halted ≠ some .missingCommitAncestor := by
  obtain ⟨hstore, hhalted⟩ := ancestor_closed (run_of_followerRun Four.arrivals rfl) (by decide)
  exact ⟨_, rfl, (hstore _ Four.third List.mem_cons_self).2.resolve_left (by decide), hhalted⟩

end Runs

end Hotstuff.Consensus.Admission
