import Hotstuff.Consensus.Agreement

/-! # What is sent to the application

`commit` gathers the ancestors of the block down to the round after the last committed one and sends
them from the nearest to the farthest, and the block last. This is the order of the chain as long as
at most one ancestor is gathered; and the ancestor has not been sent before if it is of the round
after the last committed one. `InStep` is this condition, under which what is sent is a path of the
tree of blocks (`delivered_path`). -/

namespace Hotstuff.Consensus.Delivery

open Hotstuff.Primitives Hotstuff.Consensus.Config Hotstuff.Consensus.Messages
open Hotstuff.Consensus.Pacing Hotstuff.Consensus.Handlers Hotstuff.Consensus.Steps
open Hotstuff.Consensus.Entries Hotstuff.Consensus.Evidence Hotstuff.Consensus.Admission
open Hotstuff.Consensus.Queues Hotstuff.Consensus.Chain Hotstuff.Consensus.Wiring
open Hotstuff.Consensus.System Hotstuff.Consensus.Coherence Hotstuff.Consensus.Agreement
open Hotstuff.Lib.Transition Hotstuff.Lib.TwoChain Hotstuff.Ideal

variable {C : Crypto} {T : Type}

def sent : Action C → Option (Block C)
  | .deliver b => some b
  | _ => none

/-- The blocks sent to the application, in order. -/
def delivered (s : Core C T) : List (Block C) := s.trace.filterMap sent

/-- The blocks are a path of the tree of blocks from a child of the first one, each sent once. -/
structure OnPath (l : List (Block C)) : Prop where
  chain : (Block.genesis :: l).IsChain IsParent
  genesis : Block.genesis ∉ l
  nodup : (l.map Block.digest).Nodup

/-- The block is committed already, or is of the next round, or its parent is. -/
def InStep (last : Round) (b : Block C) : Prop :=
  b.round ≤ last ∨ b.round = last + 1 ∨ b.qc.round = last + 1

instance (last : Round) (b : Block C) : Decidable (InStep last b) := by
  unfold InStep; infer_instance

/-- All calls of `commit` so far were in step. -/
def AllInStep (s : Core C T) : Prop := ∀ last b, .commit last b ∈ s.trace → InStep last b

def commits : Action C → Option (Round × Block C)
  | .commit last b => some (last, b)
  | _ => none

instance (s : Core C T) : Decidable (AllInStep s) :=
  decidable_of_iff (∀ x ∈ s.trace.filterMap commits, InStep x.1 x.2) (by
    refine ⟨fun h last b hm => h (last, b) (List.mem_filterMap.mpr ⟨_, hm, rfl⟩), fun h x hx => ?_⟩
    obtain ⟨a, ha, heq⟩ := List.mem_filterMap.mp hx
    cases a <;> simp only [commits, reduceCtorEq, Option.some.injEq] at heq
    rw [← heq]
    exact h _ _ ha)

/-! ### Parents of committed blocks -/

section Parents

variable {w : Network C} {cores : C.PublicKey → Core C T} (hnc : NoCollision C) (hf : FewFaults w)
  (hz : ZeroUncertified w cores) (hI : Coherent w cores) {k : C.PublicKey} (hk : w.Honest k)
include hnc hf hz hI hk

/-- A certified block that is known is not the first one if its round is positive; its parent is
certified in an earlier round. -/
theorem parent_of_cert {b : Block C} (hb : Known (cores k) b) {p : Option C.Digest}
    (hp : Names p b) (hc : (history w cores).Cert p b.round.toNat) (hpos : 0 < b.round) :
    .store b ∈ (cores k).trace ∧ (history w cores).Child (parentId b) p ∧ b.qc.round < b.round := by
  have hS := sound_of_coherent hnc hf hz hI
  obtain ⟨j, x, ⟨hj, hm⟩, hid, -, hlow, hpar⟩ :=
    hS.exists_ballot hc (by rw [UInt64.lt_iff_toNat_lt] at hpos; exact hpos)
  have hchild : (history w cores).Child x.parent p := ⟨j, x, ⟨hj, hm⟩, hid, rfl⟩
  obtain ⟨heq, hst⟩ := parent_of_child hnc hz hI hchild hk hb hp
  rw [← heq] at hchild hpar
  have hround := hS.cert_round_unique (cert_parent hnc hI hk hst) hpar
  refine ⟨hst, hchild, ?_⟩
  rw [UInt64.lt_iff_toNat_lt, hround]
  exact hlow

/-- The parent of a block that follows an anchor closely is the anchor. -/
theorem isParent_of_anchor {z b : Block C} (hz' : Anchor w cores z) (hb : Known (cores k) b)
    {p : Option C.Digest} (hp : Names p b) (hc : (history w cores).Cert p b.round.toNat)
    (hlt : z.round < b.round) (hle : b.qc.round ≤ z.round) : IsParent z b := by
  obtain ⟨q, hq, hcq, hanc⟩ := hz'
  have hpos : 0 < b.round := UInt64.lt_of_le_of_lt UInt64.zero_le hlt
  obtain ⟨hst, hchild, -⟩ := parent_of_cert hnc hf hz hI hk hb hp hc hpos
  have hS := sound_of_coherent hnc hf hz hI
  rw [UInt64.lt_iff_toNat_lt] at hlt
  rw [UInt64.le_iff_toNat_le] at hle
  have hpath := hanc p _ hc hlt.le
  rcases hpath.cases_tail with rfl | ⟨q', hqq', hq'⟩
  · exact absurd (hS.cert_round_unique hcq hc) (by omega)
  · obtain ⟨rfl, -⟩ := parent_of_child hnc hz hI hq' hk hb hp
    rw [hS.eq_of_ancestor hqq' hcq (cert_parent hnc hI hk hst) hle] at hq
    exact isParent_of_names hq

end Parents

/-! ### Steps -/

/-- A block and one sent after it. -/
def Next (p b : Block C) : Prop := IsParent p b ∧ p.round < b.round

/-- What has been sent is a path, and it ends in an anchor of the last committed round. -/
structure Delivering (w : Network C) (cores : C.PublicKey → Core C T) (s : Core C T) : Prop where
  chain : (Block.genesis :: delivered s).IsChain Next
  last : ∃ z ∈ (Block.genesis :: delivered s).getLast?, z.round = s.lastCommittedRound ∧
    Anchor w cores z

section Steps

variable [RoundTimer T] {env : Env C} {G : Guard C} {s s' : Core C T}

/-- Blocks are sent by one elementary step only. -/
theorem Act.deliver_cases (h : Act env G s s') :
    (∃ b l, .commit s.lastCommittedRound b ∈ s.trace ∧ s.lastCommittedRound < b.round ∧
        Ancestors env s.store s.lastCommittedRound b l ∧ delivered s' = delivered s ++ (l ++ [b]) ∧
        s'.lastCommittedRound = b.round) ∨
      (delivered s' = delivered s ∧ s'.lastCommittedRound = s.lastCommittedRound) := by
  have hmoved : ∀ (p : Prop) [Decidable p] (r : Round),
      (if p then [] else [Action.moved r] : List (Action C)).filterMap sent = [] := by
    intro p _ r
    split_ifs <;> rfl
  have hqc : ∀ (r : Round) (qc : QC C), (qcTrace r qc).filterMap sent = [] := by
    intro r qc
    rw [qcTrace, List.filterMap_cons_none rfl, hmoved]
  unfold delivered
  cases h with
  | deliver b l hc hr hl =>
    refine .inl ⟨b, l, hc, hr, hl, ?_, rfl⟩
    rw [List.filterMap_append, List.filterMap_map]
    congr 1
    exact List.filterMap_some
  | accept =>
    refine .inr ⟨?_, by simp⟩
    rw [processQc_trace, List.filterMap_append, hqc, List.append_nil]
    simp [sent]
  | assembleQc | hearTimeout =>
    refine .inr ⟨?_, by simp⟩
    rw [processQc_trace, List.filterMap_append, hqc, List.append_nil]
  | acceptTc | assembleTc | hearTc =>
    exact .inr ⟨by simp [advanceRound_trace, hmoved, sent], by simp⟩
  | countVote | countTimeout => exact .inr ⟨rfl, rfl⟩
  | make | timeout | wait | suspend | stuck | store | commit | vote | sendVote =>
    exact .inr ⟨by simp [generateProposal, increaseLastVotedRound, sent], rfl⟩

variable {w : Network C} {cores : C.PublicKey → Core C T} (hnc : NoCollision C) (hf : FewFaults w)
  (hz : ZeroUncertified w cores) (hI : Coherent w cores) {k : C.PublicKey} (hk : w.Honest k)
  (hlinked : Linked (cores k))
  (hstep : AllInStep (cores k))
include hnc hf hz hI hk hlinked hstep

/-- **An elementary step keeps what is sent a path**, if its commits are in step. -/
theorem Act.delivering (h : Act (w.env k) G s s') (hfin : Grows s' (cores k))
    (hok : Entries.Ok (w.env k) s) (hb : NoBatchCertified s) (hc : Closed s) (hl : Linked s)
    (hs : Delivering w cores s) : Delivering w cores s' := by
  rcases Act.deliver_cases h with ⟨b, l, hcom, hlt, hanc, hdel, hround⟩ | ⟨hdel, hround⟩
  swap
  · exact ⟨by rw [hdel]; exact hs.chain, by rw [hdel, hround]; exact hs.last⟩
  have hg := (Act.grows h).trans hfin
  obtain ⟨z, hzl, hzr, hzanchor⟩ := hs.last
  obtain ⟨hknown, p, -, -, hp, hcp, -⟩ :=
    exists_cert hnc hf hz hI hk hlinked (hg.trace hcom)
  have hpos : 0 < b.round := UInt64.lt_of_le_of_lt UInt64.zero_le hlt
  obtain ⟨hst, -, hqlt⟩ := parent_of_cert hnc hf hz hI hk hknown hp hcp hpos
  -- the new blocks are `[b]`, or `[a, b]` with the parent `a` of `b`
  have hnew : (l ++ [b]).IsChain Next ∧ ∀ y ∈ (l ++ [b]).head?, Next z y := by
    rcases hstep _ b (hg.trace hcom) with hle | hone | hparent
    · exact absurd hle (by grind)
    · cases hanc with
      | step h => exact absurd h (by grind)
      | stop =>
        refine ⟨List.isChain_singleton _, fun y hy => ?_⟩
        have hy' : b = y := by simpa using hy
        rw [← hy']
        have hzb : z.round < b.round := by rw [hzr]; exact hlt
        exact ⟨isParent_of_anchor hnc hf hz hI hk hzanchor hknown hp hcp hzb (by grind), hzb⟩
    · cases hanc with
      | stop h => exact absurd hqlt (by grind)
      | @step _ a l h hpa hrest =>
        obtain ⟨b₁, b', hcl, -⟩ := hok.entry _ hcom
        have hqb := accepted_of_known hok (hl b b₁ b' hcl).2.2.2.known
        obtain ⟨hab, hka⟩ := found_parent hc hb hqb hpa
        have har : a.round = s.lastCommittedRound + 1 :=
          (qc_round_of_parent hnc hf hI hk hst hab).symm.trans hparent
        cases hrest with
        | step h => exact absurd h (by grind)
        | stop =>
          have hca : (history w cores).Cert (parentId b) a.round.toNat := by
            rw [← qc_round_of_parent hnc hf hI hk hst hab]
            exact cert_parent hnc hI hk hst
          have hna := names_parentId hab
          have hka' := hka.known.mono hg
          have hzlt : z.round < a.round := by grind
          have haq := (parent_of_cert hnc hf hz hI hk hka' hna hca (by grind)).2.2
          have hza : IsParent z a :=
            isParent_of_anchor hnc hf hz hI hk hzanchor hka' hna hca hzlt (by grind)
          have hbr : a.round < b.round := by grind
          refine ⟨List.isChain_pair.mpr ⟨hab, hbr⟩, fun y hy => ?_⟩
          have hy' : a = y := by simpa using hy
          rw [← hy']
          exact ⟨hza, hzlt⟩
  refine ⟨?_, b, ?_, hround.symm, anchor_of_commit hnc hf hz hI hk hlinked (hg.trace hcom)⟩
  · rw [hdel, ← List.cons_append]
    refine hs.chain.append hnew.1 fun x hx y hy => ?_
    cases hx.symm.trans hzl
    exact hnew.2 y hy
  · rw [hdel, ← List.append_assoc, ← List.cons_append, List.getLast?_concat]
    rfl

theorem Acts.delivering (h : Acts (w.env k) G s s') (hfin : Grows s' (cores k))
    (hok : Entries.Ok (w.env k) s) (hb : NoBatchCertified s') (hc : Closed s) (hl : Linked s)
    (hs : Delivering w cores s) : Delivering w cores s' := by
  induction h with
  | refl => exact hs
  | tail h h' ih =>
    have hg := Act.grows h'
    have hb₁ := noBatch_of_grows hg hb
    exact Act.delivering hnc hf hz hI hk hlinked hstep h' hfin (Acts.ok h hok) hb₁
      (Acts.closed h hb₁ hc) (Acts.linked h hok hb₁ hc hl) (ih (hg.trans hfin) hb₁)

end Steps

/-! ### Runs -/

section Runs

variable [RoundTimer T] {w : Network C} {S : Nodes C T} {es : List (C.PublicKey × Event C)}

omit [RoundTimer T] in
theorem onPath_of_delivering (hnc : NoCollision C) {cores : C.PublicKey → Core C T} {s : Core C T}
    (h : Delivering w cores s) : OnPath (delivered s) := by
  have hround : ((Block.genesis :: delivered s).map Block.round).Pairwise (· < ·) := by
    have : Trans (α := Round) (· < ·) (· < ·) (· < ·) := ⟨UInt64.lt_trans⟩
    rw [← List.isChain_iff_pairwise, List.isChain_map]
    exact h.chain.imp fun _ _ h => h.2
  rw [List.pairwise_map] at hround
  obtain ⟨hfirst, hrest⟩ := List.pairwise_cons.mp hround
  refine ⟨h.chain.imp fun _ _ h => h.1, fun hm => UInt64.lt_irrefl _ (hfirst _ hm), ?_⟩
  refine List.pairwise_map.mpr (hrest.imp fun {b b'} hlt hd => ?_)
  rw [(digest_inj hnc hd).2.1] at hlt
  exact UInt64.lt_irrefl _ hlt

theorem delivering_boot {cores : C.PublicKey → Core C T} (hnc : NoCollision C) (hf : FewFaults w)
    (hz : ZeroUncertified w cores) (hI : Coherent w cores) {env : Env C} (io : Io C) (timer : T) :
    Delivering w cores (Node.boot env io timer).core := by
  have htr : (Node.boot env io timer).core.trace = _ := boot_trace env io timer
  have hdel : delivered (Node.boot env io timer).core = [] := by
    unfold delivered
    rw [htr]
    split_ifs <;> rfl
  refine ⟨by rw [hdel]; exact List.isChain_singleton _, Block.genesis, by rw [hdel]; rfl, ?_,
    anchor_genesis hnc hf hz hI⟩
  exact (boot_fields env io timer).2.2.2.1.symm

/-- **What an honest node sends to the application** is a path of the tree of blocks, if every block
is in step with the last committed round when it is committed. -/
theorem delivered_path (hnc : NoCollision C) (hbs : BatchSound C) (hf : FewFaults w)
    {io : C.PublicKey → Io C} {timer : C.PublicKey → T} (r : SystemRun w (start w io timer) es S)
    (hcert : ∀ k, w.Honest k → NoBatchCertified (S k).core ∧ NoZeroCertified (S k).core)
    {k : C.PublicKey} (hk : w.Honest k) (hstep : AllInStep (S k).core) :
    OnPath (delivered (S k).core) := by
  have hz : ZeroUncertified w (coresOf S) := fun k hk => (hcert k hk).2
  have hI := run_coherent hnc hbs hf r hz
  have hlinked := (run_linked (node_run r k) (hcert k hk).1).2
  -- along the run of the node, against what the traces of all nodes say in the end
  have hinv : Closed (S k).core ∧ Linked (S k).core ∧ Delivering w (coresOf S) (S k).core := by
    refine run_invariant_of (boot_ok (io k) (timer k)) (node_run r k)
      (Q := fun s => Grows s (S k).core)
      (P := fun n => Closed n.core ∧ Linked n.core ∧ Delivering w (coresOf S) n.core)
      (fun hg h => hg.trans h) ?_ ?_ (.refl _)
    · exact ⟨closed_boot _ _, linked_boot _ _, delivering_boot hnc hf hz hI _ _⟩
    · rintro n e n' hn ⟨hc, hl, hd⟩ hg h
      have hb' : NoBatchCertified n'.core := noBatch_of_grows hg (hcert k hk).1
      have hb := noBatch_of_grows (step_grows hn h) hb'
      refine ⟨closed_step hn h hb' hc, linked_step hn h hb' hc hl, ?_⟩
      rcases step_core_cases hn h with heq | ⟨x, heq⟩ | hacts
      · rw [heq]; exact hd
      · rw [heq]; exact ⟨hd.chain, hd.last⟩
      · exact Acts.delivering hnc hf hz hI hk hlinked hstep hacts hg hn.core hb' hc hl hd
  exact onPath_of_delivering hnc hinv.2.2

end Runs

/-- A node of four sends the blocks of rounds 1 and 2. -/
theorem delivered_path_four : ∃ S : Nodes crypto (Timer ℚ),
    delivered (S (key 0)).core = [Four.first, Four.second] ∧ OnPath (delivered (S (key 0)).core) :=
  ⟨_, rfl, delivered_path noCollision batchSound fewFaults_four (run_of_fourRun fourRounds rfl)
    (certified_four (by decide)) (by decide) (by decide)⟩

/-- A node alone lets round 1 time out, and commits the block of round 2. -/
def skippedRound : List (ℕ × Event crypto) :=
  [(0, .timeout calm), (0, .proposerMessage []), (0, .proposerMessage []), (0, .loopback calm),
    (0, .loopback calm), (0, .proposerMessage []), (0, .proposerMessage []),
    (0, .proposerMessage []), (0, .loopback calm), (0, .proposerMessage []),
    (0, .proposerMessage []), (0, .loopback calm)]

/-- The block of round 2, whose parent is the first block, is sent after its parent. -/
theorem exists_not_onPath : ¬ ∀ (es : List (ℕ × Event crypto)) (S : Nodes crypto (Timer ℚ)),
    SystemRun (honestNetwork 1) (calmStart 1) es S →
      (∀ k, (honestNetwork 1).Honest k → NoBatchCertified (S k).core ∧ NoZeroCertified (S k).core) →
      OnPath (delivered (S (key 0)).core) := by
  intro h
  refine (h skippedRound _ (run_of_systemRun skippedRound rfl) fun k hk => ?_).genesis
    (List.mem_of_getElem? (i := 0) rfl)
  rw [eq_of_honest_solo hk]
  decide

end Hotstuff.Consensus.Delivery
