import Hotstuff.Consensus.Cancelling
import Hotstuff.Consensus.Delivery

/-! # The walk along the ancestors

No check of a block compares the rounds of the block, of its QC and of its parent. But a certified
block was voted for by honest authorities, and what they vote for is above its QC, which is of the
round of the parent (`below_of_cert`). So the ancestors of a certified block are a finite list with
decreasing rounds that ends in the first block (`Walk`), and the loop of `commit` ends
(`walk_terminates`). -/

namespace Hotstuff.Consensus.Walking

open Hotstuff.Primitives Hotstuff.Consensus.Config Hotstuff.Consensus.Messages
open Hotstuff.Consensus.Pacing Hotstuff.Consensus.Handlers Hotstuff.Consensus.Steps
open Hotstuff.Consensus.Entries Hotstuff.Consensus.Evidence Hotstuff.Consensus.Admission
open Hotstuff.Consensus.Queues Hotstuff.Consensus.Chain Hotstuff.Consensus.Wiring
open Hotstuff.Consensus.System Hotstuff.Consensus.Coherence Hotstuff.Consensus.Agreement
open Hotstuff.Consensus.Delivery Hotstuff.Consensus.Cancelling Hotstuff.Lib.Transition
open Hotstuff.Lib.TwoChain Hotstuff.Ideal
open Hotstuff.Lib.Lists (mem_of_lookup)

variable {C : Crypto} {T : Type}

/-! ### Walks in a store -/

/-- The ancestors of the block, which are found in the store, down to the first one. -/
inductive Walk (env : Env C) (st : Store C) : Block C → List (Block C) → Prop
  | genesis : Walk env st Block.genesis []
  | step {b p : Block C} {l : List (Block C)} (hp : Parent env st b p) (hd : IsParent p b)
      (hq : b.qc.round = p.round) (hlt : p.round < b.round) (w : Walk env st p l) :
      Walk env st b (p :: l)

section Walks

variable {env : Env C} {st : Store C} {b : Block C} {l : List (Block C)}

theorem parent_unique {p p' : Block C} (h : Parent env st b p) (h' : Parent env st b p') :
    p = p' := by
  rcases h with ⟨hg, rfl⟩ | ⟨hg, v, hv, hd⟩ <;> rcases h' with ⟨hg', rfl⟩ | ⟨hg', v', hv', hd'⟩
  · rfl
  · exact absurd hg hg'
  · exact absurd hg' hg
  · cases hv.symm.trans hv'
    exact Option.some.inj (hd.symm.trans hd')

/-- The rounds decrease. -/
theorem Walk.rounds (w : Walk env st b l) : (b :: l).Pairwise fun x y => y.round < x.round := by
  induction w with
  | genesis => exact List.pairwise_singleton _ _
  | step hp hd hq hlt w ih =>
    refine List.pairwise_cons.mpr ⟨fun x hx => ?_, ih⟩
    rcases List.mem_cons.mp hx with rfl | hx
    · exact hlt
    · exact UInt64.lt_trans ((List.pairwise_cons.mp ih).1 x hx) hlt

/-- The blocks between the first one and the last one are in the store. -/
theorem Walk.keys (w : Walk env st b l) : (b = Block.genesis ∧ l = []) ∨
    ∃ l', l = l' ++ [Block.genesis] ∧ ∀ x ∈ l', x.digest ∈ st.map Prod.fst := by
  induction w with
  | genesis => exact .inl ⟨rfl, rfl⟩
  | @step b p l hp hd hq hlt w ih =>
    right
    rcases ih with ⟨rfl, rfl⟩ | ⟨l', rfl, hl'⟩
    · exact ⟨[], rfl, by simp⟩
    refine ⟨p :: l', rfl, fun x hx => ?_⟩
    rcases List.mem_cons.mp hx with rfl | hx
    swap
    · exact hl' x hx
    -- `x` is above the first block
    have hne : x ≠ Block.genesis := by
      rintro rfl
      have hgen := (List.pairwise_cons.mp w.rounds).1 Block.genesis (by simp)
      exact UInt64.lt_irrefl _ hgen
    rcases hd with ⟨-, hg⟩ | ⟨hg, hd⟩
    · exact absurd hg hne
    · obtain ⟨v, hv, -⟩ := (hp.resolve_left fun h => hg h.1).2
      rw [hd]
      exact List.mem_map_of_mem (f := Prod.fst) (mem_of_lookup hv)

/-- A walk is not longer than the store, but for the first block. -/
theorem Walk.length_le (hnc : NoCollision C) (w : Walk env st b l) : l.length ≤ st.length + 1 := by
  rcases w.keys with ⟨-, rfl⟩ | ⟨l', rfl, hkeys⟩
  · simp
  have hrounds := (List.pairwise_append.mp (List.pairwise_cons.mp w.rounds).2).1
  have hnd : (l'.map Block.digest).Nodup := by
    refine List.pairwise_map.mpr (hrounds.imp fun {x y} hlt hd => ?_)
    rw [(digest_inj hnc hd).2.1] at hlt
    exact UInt64.lt_irrefl _ hlt
  have hsub : l'.map Block.digest ⊆ st.map Prod.fst := by
    intro d hd
    obtain ⟨x, hx, rfl⟩ := List.mem_map.mp hd
    exact hkeys x hx
  have hle := (hnd.subperm hsub).length_le
  rw [List.length_map, List.length_map] at hle
  rw [List.length_append, List.length_singleton]
  omega

variable (io : Io C)

/-- **The loop ends** after as many iterations as there are ancestors. -/
theorem gatherAncestors_of_walk (w : Walk env st b l) (last : Round) {n : ℕ} (hn : l.length < n)
    {s : Core C T} (hs : s.store = st) (acc : List (Block C)) :
    (gatherAncestors env io last n s b acc).2 ≠ .error (.panic .endless) := by
  induction w generalizing n acc with
  | genesis =>
    obtain ⟨n, rfl⟩ := Nat.exists_eq_succ_of_ne_zero (Nat.ne_zero_of_lt hn)
    have hzero : ¬ last + 1 < (Block.genesis : Block C).round := UInt64.not_lt_zero
    rw [gatherAncestors, if_neg hzero]
    simp
  | @step b p l hp hd hq hlt w ih =>
    obtain ⟨n, rfl⟩ := Nat.exists_eq_succ_of_ne_zero (Nat.ne_zero_of_lt hn)
    rw [gatherAncestors]
    split_ifs with hr
    swap
    · simp
    rcases getParentBlock_cases env s io b with ⟨a, h, ha⟩ | ⟨h, -⟩ | ⟨e, h⟩
    · rw [hs] at ha
      cases parent_unique hp ha
      rw [h]
      exact ih (Nat.succ_lt_succ_iff.mp hn) _
    · rw [h]
      simp
    · rw [h]
      simp

end Walks

/-! ### Certified blocks -/

section Certified

variable {w : Network C} {cores : C.PublicKey → Core C T}

/-- Only the first block is certified in round 0. -/
theorem eq_genesis_of_cert (hS : (history w cores).Sound) {b : Block C} {p : Option C.Digest}
    (hp : Names p b) (hc : (history w cores).Cert p 0) : b = Block.genesis := by
  rcases hc with ⟨rfl, -⟩ | ⟨Q, hQ⟩
  · rcases hp with ⟨-, hb⟩ | hd
    · exact hb
    · cases hd
  · obtain ⟨k, -, x, hx, -, hr⟩ := hS.exists_voted hQ
    exact absurd (hS.pos k x hx).1 (by omega)

variable (hnc : NoCollision C) (hf : FewFaults w) (hz : ZeroUncertified w cores)
  (hI : Coherent w cores) {k : C.PublicKey} (hk : w.Honest k) (hclosed : Closed (cores k))
include hnc hf hz hI hk hclosed

/-- **The ancestors of a certified block**, in the store of a node that has it. The induction is on
the round of the block. -/
theorem walk_of_cert (n : ℕ) : ∀ (b : Block C) (p : Option C.Digest), b.round.toNat = n →
    Known (cores k) b → Names p b → (history w cores).Cert p n →
    ∃ l, Walk (w.env k) (cores k).store b l := by
  induction n using Nat.strong_induction_on with
  | _ n ih =>
    rintro b p rfl hb hp hc
    have hS := sound_of_coherent hnc hf hz hI
    rcases Nat.eq_zero_or_pos b.round.toNat with hzero | hpos
    · rw [hzero] at hc
      rw [eq_genesis_of_cert hS hp hc]
      exact ⟨[], .genesis⟩
    obtain ⟨hst, -, hlt⟩ :=
      parent_of_cert hnc hf hz hI hk hb hp hc (UInt64.lt_iff_toNat_lt.mpr hpos)
    -- the parent is found in the store
    have hparent : ∃ a, Parent (w.env k) (cores k).store b a ∧ IsParent a b ∧
        Known (cores k) a := by
      by_cases hg : b.qc.IsGenesis
      · exact ⟨_, .inl ⟨hg, rfl⟩, .inl ⟨hg, rfl⟩, .inl rfl⟩
      · obtain ⟨a, hl, hd⟩ := (hclosed.parent b hst).resolve_left hg
        exact ⟨a, .inr ⟨hg, _, hl, rfl⟩, .inr ⟨hg, hd⟩,
          .inr (hclosed.stored _ _ (mem_of_lookup hl)).2⟩
    obtain ⟨a, ha, hab, hka⟩ := hparent
    have hround := qc_round_of_parent hnc hf hI hk hst hab
    have hca := cert_parent hnc hI hk hst
    rw [hround] at hca hlt
    obtain ⟨l, hwalk⟩ := ih _ (UInt64.lt_iff_toNat_lt.mp hlt) a _ rfl hka (names_parentId hab) hca
    exact ⟨a :: l, .step ha hab hround hlt hwalk⟩

end Certified

/-! ### Loops that do not end -/

/-- The loop of `commit` does not end for a block that was committed. -/
def Endless (env : Env C) (s : Core C T) : Prop :=
  ∃ io last last' b, .commit last' b ∈ s.trace ∧
    (gatherAncestors env io last (s.store.length + 2) s b []).2 = .error (.panic .endless)

section Endless

variable [RoundTimer T] {env : Env C} {s : Core C T} {io : Io C}

omit [RoundTimer T] in
theorem commit_endless {b : Block C} (h : (commit env io s b).2 = .error (.panic .endless)) :
    Endless env (commit env io s b).1 := by
  rcases commit_cases env s io b with
    ⟨-, h'⟩ | ⟨-, ⟨l, -, h'⟩ | ⟨a, -, -, -, h'⟩ | ⟨e, h'⟩ | ⟨hl, h'⟩⟩ <;> rw [h'] at h ⊢
  · cases h
  · cases h
  · cases h
  · cases h
  · exact ⟨io, s.lastCommittedRound, s.lastCommittedRound, b, mem_emit_self _ _, by
      rw [emit_store, hl]⟩

omit [RoundTimer T] in
theorem commitRule_endless {b0 b1 : Block C}
    (h : (commitRule env io s b0 b1).2 = .error (.panic .endless)) :
    Endless env (commitRule env io s b0 b1).1 := by
  unfold commitRule at h ⊢
  split_ifs at h ⊢
  exact commit_endless h

theorem processBlock_endless {b : Block C}
    (h : (processBlock env io s b).2 = .error (.panic .endless)) :
    Endless env (processBlock env io s b).1 := by
  rcases processBlock_cases env s io b with
    ⟨b0, b1, -, -, -, ⟨e, he, h'⟩ | ⟨-, h'⟩⟩ | h' | ⟨b1, -, -, -, h'⟩ | ⟨e, h'⟩ <;> rw [h'] at h ⊢
  · exact commitRule_endless (he.trans h)
  · rcases voteFor_panic io h with h | h <;> cases h
  · cases h
  · cases h
  · cases h

theorem handleProposal_endless {b : Block C}
    (h : (handleProposal env io s b).2 = .error (.panic .endless)) :
    Endless env (handleProposal env io s b).1 := by
  by_cases hc : Checked env b
  swap
  · obtain ⟨e, he⟩ := handleProposal_unchecked env s io hc
    rw [he] at h
    cases h
  rcases handleProposal_checked env s io hc with
    ⟨e, h'⟩ | ⟨-, h'⟩ | ⟨missing, -, -, h'⟩ <;> rw [h'] at h ⊢
  · cases h
  · exact processBlock_endless h
  · cases h

variable {n n' : Node C T} {e : Event C}

/-- A step that ends in the loop. -/
theorem endless_step (hn : Queues.Ok env n) (h : n.step env e = some n')
    (hp : n'.halted = some .endless) : n.halted = some .endless ∨ Endless env n'.core := by
  rcases halted_cases hn h hp with hp | ⟨b, io, hcore, hpan⟩ | ⟨b, io, -, hcore, hpan⟩
  · exact .inl hp
  · rw [hcore]
    exact .inr (handleProposal_endless hpan)
  · rw [hcore]
    exact .inr (processBlock_endless hpan)

end Endless

/-! ### Runs -/

/-- The QC passes its check, and its signatures are not forged. -/
structure Certifies (w : Network C) (S : Nodes C T) (qc : QC C) : Prop where
  verify : qc.verify w.committee = .ok ()
  unforged : ∀ x ∈ qcSignatures qc, w.Honest x.1 → C.verify x.2.2 x.2.1 x.1 = true →
    x.2.1 ∈ signed (S x.1)

section Runs

variable {w : Network C} {S : Nodes C T} (hnc : NoCollision C) (hbs : BatchSound C)
  (hf : FewFaults w)
include hnc hbs hf

theorem Certifies.qcSigned {qc : QC C} (h : Certifies w S qc) :
    QcSigned w.committee (Sig w (coresOf S)) qc :=
  qcSigned_of_verify hnc hbs hf.1 h.verify (List.Subset.refl _) h.unforged

/-- An honest authority voted for what is certified. -/
theorem Certifies.exists_vote {qc : QC C} (h : Certifies w S qc) : ∃ j b, w.Honest j ∧
    .vote b ∈ (S j).core.trace ∧ b.digest = qc.hash ∧ b.round = qc.round := by
  have hsig := h.qcSigned hnc hbs hf
  obtain ⟨j, hj, -, hhj⟩ := exists_honest hf hsig.1 hsig.1
  obtain ⟨b, hb, hd, hr⟩ := voted_of_qcSigned hnc hsig hj hhj
  exact ⟨j, b, hhj, hb, hd, hr⟩

theorem Certifies.cert {qc : QC C} (h : Certifies w S qc) {b : Block C} (hd : b.digest = qc.hash) :
    (history w (coresOf S)).Cert (some b.digest) b.round.toNat := by
  obtain ⟨j, x, -, -, hx, hr⟩ := h.exists_vote hnc hbs hf
  rw [(digest_inj hnc (hd.trans hx.symm)).2.1, hr, hd]
  exact .inr ⟨_, votedBy_of_qcSigned hnc (h.qcSigned hnc hbs hf)⟩

/-- **A certified block is above its parent**, and its QC is of the round of the parent. The block
need not have been stored, but its QC is valid. -/
theorem below_of_cert (hsep : Separated C) (hz : ZeroUncertified w (coresOf S))
    (hI : Coherent w (coresOf S)) {qc : QC C} (h : Certifies w S qc) {b p : Block C}
    (hd : b.digest = qc.hash) (hq : b.qc.IsGenesis ∨ Certifies w S b.qc) (hp : IsParent p b) :
    b.qc.round = p.round ∧ p.round < b.round := by
  obtain ⟨j, x, hj, hx, hdx, -⟩ := h.exists_vote hnc hbs hf
  obtain ⟨-, hround, -, hhash⟩ := digest_inj hnc (hd.trans hdx.symm)
  have hst : .store x ∈ (S j).core.trace := ((hI.entries j hj).entry _ hx).1
  have hpos := hI.pos j hj x hx
  rcases hp with ⟨hg, rfl⟩ | ⟨hg, hp⟩
  · exact ⟨hg.2, by rw [hround]; exact hpos⟩
  have hq := hq.resolve_left hg
  obtain ⟨-, y, -, -, hdy, hry⟩ := hq.exists_vote hnc hbs hf
  have hpr : b.qc.round = p.round := by
    rw [← hry, (digest_inj hnc (hp.trans hdy.symm)).2.1]
  -- the QC with which the block was voted for is of the same round
  have hgx : ¬ x.qc.IsGenesis := fun hgx => hsep.zero _ (hdy.trans (hhash.trans hgx.1))
  have heq := qc_round_unique hnc hf (hq.qcSigned hnc hbs hf) (hI.qc_of_vote hj hst hgx).2 hhash
  have hlt := (parent_of_cert hnc hf hz hI hj (.inr hst) (.inr rfl) (hdx ▸ h.cert hnc hbs hf hdx)
    hpos).2.2
  refine ⟨hpr, ?_⟩
  rw [hround, ← hpr, heq]
  exact hlt

variable [RoundTimer T] {es : List (C.PublicKey × Event C)} {io : C.PublicKey → Io C}
  {timer : C.PublicKey → T}

/-- The ancestors of a committed block. -/
theorem walk_of_commit (hsep : Separated C) (r : SystemRun w (start w io timer) es S)
    {k : C.PublicKey} (hk : w.Honest k) {last : Round} {b : Block C}
    (h : .commit last b ∈ (S k).core.trace) : ∃ l, Walk (w.env k) (S k).core.store b l := by
  have hcert := fun j hj => certified_of_separated hnc hbs hsep hf r (k := j) hj
  have hz : ZeroUncertified w (coresOf S) := fun j hj => (hcert j hj).2
  have hI := run_coherent hnc hbs hf r hz
  obtain ⟨hclosed, hl⟩ := run_linked (node_run r k) (hcert k hk).1
  obtain ⟨hknown, p, -, -, hp, hcp, -⟩ := exists_cert hnc hf hz hI hk hl h
  exact walk_of_cert hnc hf hz hI hk hclosed _ b p rfl hknown hp hcp

/-- **No node hangs in `commit`.** -/
theorem not_endless (hsep : Separated C) (r : SystemRun w (start w io timer) es S) {k : C.PublicKey}
    (hk : w.Honest k) : (S k).halted ≠ some .endless := by
  induction r with
  | nil => simp [start]
  | @snoc es S x S' r h ih =>
    obtain ⟨-, -, n, hstep, heq⟩ := step_cases h
    by_cases hx : k = x.1
    swap
    · rw [heq, Function.update_of_ne hx]
      exact ih
    subst hx
    have hn : S' x.1 = n := by rw [heq, Function.update_self]
    intro hp
    rw [hn] at hp
    rcases endless_step (nodes_ok r x.1) hstep hp with hp | ⟨io, last, last', b, hb, hend⟩
    · exact ih hp
    · rw [← hn] at hb hend
      obtain ⟨l, hwalk⟩ := walk_of_commit hnc hbs hf hsep (r.snoc h) hk hb
      exact gatherAncestors_of_walk io hwalk last (Nat.lt_succ_of_le (hwalk.length_le hnc)) rfl []
        hend

end Runs

end Hotstuff.Consensus.Walking
