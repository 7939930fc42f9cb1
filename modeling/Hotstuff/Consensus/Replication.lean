import Hotstuff.Consensus.Walking
import Hotstuff.Lib.TotalOrder

/-! # The replicated log

What the nodes are for is total order broadcast: a `Ledger` whose log is that of the committed
blocks and whose readers are the honest authorities. The log of a state is the path of blocks, from
a child of the first one, that ends in the last committed block (`IsLog`): there is one, only one,
and it only grows (`IsLog.extended`). What a node has sent to the application, taken as a set, is
a prefix of it, without gaps, although the node may have sent a block twice or before its parent
(`refines_ledger`); a node whose commits were in step has sent exactly that prefix, in order
(`in_order`). -/

namespace Hotstuff.Consensus.Replication

open Hotstuff.Primitives Hotstuff.Consensus.Config Hotstuff.Consensus.Messages
open Hotstuff.Consensus.Pacing Hotstuff.Consensus.Handlers Hotstuff.Consensus.Steps
open Hotstuff.Consensus.Entries Hotstuff.Consensus.Evidence Hotstuff.Consensus.Admission
open Hotstuff.Consensus.Queues Hotstuff.Consensus.Chain Hotstuff.Consensus.Wiring
open Hotstuff.Consensus.System Hotstuff.Consensus.Coherence Hotstuff.Consensus.Agreement
open Hotstuff.Consensus.Delivery Hotstuff.Consensus.Cancelling Hotstuff.Consensus.Walking
open Hotstuff.Lib.Transition Hotstuff.Lib.TwoChain Hotstuff.Lib.TotalOrder Hotstuff.Ideal
open Hotstuff.Lib.Lists (mem_of_lookup)

variable {C : Crypto} {T : Type}

/-! ### The log of a state -/

/-- Some honest node has committed the block. -/
def Decided (w : Network C) (cores : C.PublicKey → Core C T) (b : Block C) : Prop :=
  ∃ k last, w.Honest k ∧ .commit last b ∈ (cores k).trace

/-- The digests of the blocks of a path, each voted for by an honest node, to the last committed
block. -/
structure IsLog (w : Network C) (cores : C.PublicKey → Core C T) (l : List C.Digest) : Prop where
  chain : ∃ bs : List (Block C), bs.map Block.digest = l ∧
    (Block.genesis :: bs).IsChain IsParent ∧ ∀ b ∈ bs, ∃ k, w.Honest k ∧ .vote b ∈ (cores k).trace
  complete : ∀ b, Decided w cores b → b = Block.genesis ∨ b.digest ∈ l
  last : ∀ d ∈ l.getLast?, ∃ b, Decided w cores b ∧ b.digest = d

/-- The name of a block of the log in the history. -/
def nodes (l : List C.Digest) : List (Option C.Digest) := none :: l.map some

theorem mem_nodes {l : List C.Digest} {d : C.Digest} : some d ∈ nodes l ↔ d ∈ l := by
  simp [nodes]

theorem nodes_append (l l' : List C.Digest) : nodes (l ++ l') = nodes l ++ l'.map some := by
  simp [nodes]

theorem getLast?_nodes (l : List C.Digest) : (nodes l).getLast? = some l.getLast? := by
  rcases List.eq_nil_or_concat l with rfl | ⟨l', d, rfl⟩
  · rfl
  · rw [List.concat_eq_append, nodes_append, List.map_singleton, List.getLast?_concat,
      List.getLast?_concat]

theorem prefix_of_nodes {l l' : List C.Digest} (h : nodes l <+: nodes l') : l <+: l' :=
  (List.prefix_map_iff_of_injective (Option.some_injective _)).mp (List.prefix_cons_inj _ |>.mp h)

/-- The digests of the blocks of a path to an anchor. -/
structure LeadsTo (w : Network C) (cores : C.PublicKey → Core C T) (l : List C.Digest)
    (z : Block C) : Prop where
  path : Path (history w cores).Child none l.getLast? (nodes l)
  names : Names l.getLast? z
  cert : (history w cores).Cert l.getLast? z.round.toNat
  after : ∀ d r, (history w cores).Cert d r → z.round.toNat ≤ r →
    Relation.ReflTransGen (history w cores).Child l.getLast? d

section Log

variable {w : Network C} {cores : C.PublicKey → Core C T}

theorem tree_of_sound (hS : (history w cores).Sound) : Tree (history w cores).Child none :=
  ⟨fun hp hq => hS.child_unique hp hq, fun ⟨k, b, hb, hid, _⟩ => (hS.pos k b hb).2 hid⟩

/-- **A path of the history is a path of blocks** that honest nodes voted for. -/
theorem blocks_of_path {d : Option C.Digest} {l : List (Option C.Digest)}
    (h : Path (history w cores).Child none d l) : ∃ bs : List (Block C),
      l = nodes (bs.map Block.digest) ∧ (Block.genesis :: bs).IsChain IsParent ∧
      (∀ b ∈ bs, ∃ k, w.Honest k ∧ .vote b ∈ (cores k).trace) ∧
      ∀ b ∈ (Block.genesis :: bs).getLast?, Names d b := by
  induction h with
  | root =>
    refine ⟨[], rfl, List.isChain_singleton _, by simp, fun b hb => .inl ⟨rfl, ?_⟩⟩
    simpa using hb.symm
  | @snoc p d l h hd ih =>
    obtain ⟨bs, rfl, hchain, hvote, hlast⟩ := ih
    obtain ⟨k, x, ⟨hk, hm⟩, rfl, rfl⟩ := hd
    obtain ⟨y, hy, rfl⟩ := mem_vote.mp hm
    refine ⟨bs ++ [y], ?_, ?_, ?_, fun b hb => ?_⟩
    · rw [List.map_append, nodes_append]
      rfl
    · rw [← List.cons_append]
      refine hchain.append (List.isChain_singleton _) fun a ha b hb => ?_
      obtain rfl : y = b := by simpa using hb
      exact isParent_of_names (hlast a ha)
    · intro b hb
      rcases List.mem_append.mp hb with hb | hb
      · exact hvote b hb
      · rw [List.mem_singleton.mp hb]
        exact ⟨k, hk, hy⟩
    · rw [← List.cons_append, List.getLast?_concat] at hb
      obtain rfl : y = b := by simpa using hb
      exact .inr rfl

variable (hnc : NoCollision C)
include hnc

/-- No honest node votes for the first block. -/
theorem not_voted_genesis (hS : (history w cores).Sound) {k : C.PublicKey}
    {b : Ballot (Option C.Digest)} (hb : (history w cores).Voted k b) :
    b.id ≠ some (Block.genesis : Block C).digest := by
  intro hid
  have hpos := (hS.pos k b hb).1
  obtain ⟨y, -, rfl⟩ := mem_vote.mp hb.2
  have hround : y.round = 0 := (digest_inj hnc (Option.some.inj hid)).2.1
  simp [ballot, hround] at hpos

theorem not_cert_genesis (hS : (history w cores).Sound) {r : ℕ} :
    ¬ (history w cores).Cert (some (Block.genesis : Block C).digest) r := by
  rintro (⟨h, -⟩ | ⟨Q, hQ⟩)
  · cases h
  · obtain ⟨k, -, b, hb, hid, -⟩ := hS.exists_voted hQ
    exact not_voted_genesis hnc hS hb hid

/-- **A path of blocks is a path of the history**, if each is in the history a child of its
parent. -/
theorem path_of_blocks (hS : (history w cores).Sound) {bs : List (Block C)}
    (hchain : (Block.genesis :: bs).IsChain IsParent) (hchild : ∀ b ∈ bs,
      (history w cores).Child (parentId b) (some b.digest) ∧
        (history w cores).Cert (parentId b) b.qc.round.toNat) :
    Path (history w cores).Child none
      ((bs.map Block.digest).getLast?) (nodes (bs.map Block.digest)) := by
  induction bs using List.reverseRecOn with
  | nil => exact .root
  | append_singleton bs b ih =>
    rw [← List.cons_append] at hchain
    obtain ⟨hbs, -, hlast⟩ := List.isChain_append.mp hchain
    have hpath := ih hbs fun x hx => hchild x (List.mem_append_left _ hx)
    obtain ⟨hcb, hcert⟩ := hchild b (List.mem_append_right _ (List.mem_singleton_self b))
    -- the name of the parent of `b` is that of the block before it
    have hparent : parentId b = (bs.map Block.digest).getLast? := by
      rcases List.eq_nil_or_concat bs with rfl | ⟨bs', z, rfl⟩
      · rcases hlast Block.genesis rfl b rfl with ⟨hg, -⟩ | ⟨hg, hd⟩
        · exact if_pos hg
        · rw [parentId, if_neg hg, ← hd] at hcert
          exact absurd hcert (not_cert_genesis hnc hS)
      · rw [List.concat_eq_append] at hlast hchild ⊢
        rw [List.map_append, List.map_singleton, List.getLast?_concat]
        rcases hlast z (by rw [← List.cons_append, List.getLast?_concat]; rfl) b rfl with
          ⟨-, rfl⟩ | ⟨hg, hd⟩
        · obtain ⟨⟨k, x, hx, hid, -⟩, -⟩ := hchild Block.genesis (by simp)
          exact absurd hid (not_voted_genesis hnc hS hx)
        · rw [parentId, if_neg hg, hd]
    rw [hparent] at hcb
    rw [List.map_append, List.map_singleton, List.getLast?_concat, nodes_append]
    exact hpath.snoc hcb

end Log

/-! ### Logs of coherent traces -/

section Coherent

variable {w : Network C} {cores : C.PublicKey → Core C T} (hnc : NoCollision C) (hf : FewFaults w)
  (hz : ZeroUncertified w cores) (hI : Coherent w cores)
  (hl : ∀ k, w.Honest k → Linked (cores k))

theorem finite_decided : {b | Decided w cores b}.Finite := by
  have hsub : {b | Decided w cores b} ⊆ ⋃ k ∈ w.committee.members,
      {b | b ∈ ((cores k).trace.filterMap commits).map Prod.snd} := by
    rintro b ⟨k, last, hk, hb⟩
    exact Set.mem_biUnion hk.1
      (List.mem_map.mpr ⟨(last, b), List.mem_filterMap.mpr ⟨_, hb, rfl⟩, rfl⟩)
  exact (Set.Finite.biUnion (Finset.finite_toSet _) fun k _ => List.finite_toSet _).subset hsub

/-- The last of the committed blocks. -/
theorem exists_last : ∃ z : Block C, (z = Block.genesis ∨ Decided w cores z) ∧
    ∀ b, Decided w cores b → b.round.toNat ≤ z.round.toNat := by
  obtain ⟨z, hz, hmax⟩ := Set.exists_max_image (insert Block.genesis {b | Decided w cores b})
    (fun b => b.round.toNat) (finite_decided.insert _) (Set.insert_nonempty _ _)
  exact ⟨z, hz, fun b hb => hmax b (Set.mem_insert_of_mem _ hb)⟩

include hnc hI

/-- A vote of an honest node is for a child, in the history, of the parent of the block. -/
theorem child_of_vote {k : C.PublicKey} (hk : w.Honest k) {b : Block C}
    (hb : .vote b ∈ (cores k).trace) : (history w cores).Child (parentId b) (some b.digest) ∧
      (history w cores).Cert (parentId b) b.qc.round.toNat :=
  ⟨⟨k, ballot b, ⟨hk, mem_vote.mpr ⟨b, hb, rfl⟩⟩, rfl, rfl⟩,
    cert_parent hnc hI hk ((hI.entries k hk).entry _ hb).1⟩

include hf hz

/-! A log may be that of an earlier state. -/

section Earlier

variable {cores₁ : C.PublicKey → Core C T} (hg : ∀ k, Grows (cores₁ k) (cores k))
  {l : List C.Digest} (h : IsLog w cores₁ l)
include hg h

/-- **A log is a path of the history.** -/
theorem IsLog.path : Path (history w cores).Child none l.getLast? (nodes l) := by
  obtain ⟨bs, rfl, hchain, hvote⟩ := h.chain
  refine path_of_blocks hnc (sound_of_coherent hnc hf hz hI) hchain fun b hb => ?_
  obtain ⟨k, hk, hv⟩ := hvote b hb
  exact child_of_vote hnc hI hk ((hg k).trace hv)

theorem IsLog.nodup : l.Nodup := by
  have hpath := h.path hnc hf hz hI hg
  have hnd := hpath.nodup (tree_of_sound (sound_of_coherent hnc hf hz hI))
  exact (List.nodup_cons.mp hnd).2.of_map

theorem IsLog.ne_genesis {d : C.Digest} (hd : d ∈ l) : d ≠ (Block.genesis : Block C).digest := by
  rintro rfl
  obtain ⟨bs, rfl, -, hvote⟩ := h.chain
  obtain ⟨b, hb, hid⟩ := List.mem_map.mp hd
  obtain ⟨k, hk, hv⟩ := hvote b hb
  exact not_voted_genesis hnc (sound_of_coherent hnc hf hz hI)
    (b := ballot b) ⟨hk, mem_vote.mpr ⟨b, (hg k).trace hv, rfl⟩⟩ (congrArg some hid)

/-- **The log only grows.** -/
theorem IsLog.extended {l' : List C.Digest} (h' : IsLog w cores l') : l <+: l' := by
  have hpath := h.path hnc hf hz hI hg
  have hpath' := h'.path hnc hf hz hI fun _ => .refl _
  rcases hd : l.getLast? with _ | d
  · rw [List.getLast?_eq_none_iff.mp hd]
    exact List.nil_prefix
  -- the last block of the first log has been committed, so it is in the second one
  obtain ⟨b, ⟨k, last, hk, hb⟩, rfl⟩ := h.last d hd
  have hne := h.ne_genesis hnc hf hz hI hg (List.mem_of_getLast? hd)
  have hmem : b.digest ∈ l' :=
    (h'.complete b ⟨k, last, hk, (hg k).trace hb⟩).resolve_left fun heq => hne (by rw [heq])
  obtain ⟨l'', hl'', hpre⟩ := hpath'.prefix_of_mem (mem_nodes.mpr hmem)
  rw [hd] at hpath
  rw [hl''.unique (tree_of_sound (sound_of_coherent hnc hf hz hI)) hpath] at hpre
  exact prefix_of_nodes hpre

end Earlier

/-- The path to an anchor. -/
theorem Anchor.path {z : Block C} (h : Anchor w cores z) : ∃ bs : List (Block C),
    (Block.genesis :: bs).IsChain IsParent ∧
    (∀ b ∈ bs, ∃ k, w.Honest k ∧ .vote b ∈ (cores k).trace) ∧
    LeadsTo w cores (bs.map Block.digest) z := by
  obtain ⟨p, hp, hcp, hanc⟩ := h
  obtain ⟨l, hl⟩ := exists_path ((sound_of_coherent hnc hf hz hI).genesis_ancestor hcp)
  obtain ⟨bs, rfl, hchain, hvote, -⟩ := blocks_of_path hl
  obtain rfl : (bs.map Block.digest).getLast? = p := by
    simpa [getLast?_nodes] using hl.getLast?
  exact ⟨bs, hchain, hvote, hl, hp, hcp, hanc⟩

include hl

theorem anchor_of_decided {b : Block C} (h : b = Block.genesis ∨ Decided w cores b) :
    Anchor w cores b := by
  rcases h with rfl | ⟨k, last, hk, hb⟩
  · exact anchor_genesis hnc hf hz hI
  · exact anchor_of_commit hnc hf hz hI hk (hl k hk) hb

/-- **There is a log.** -/
theorem exists_isLog : ∃ l, IsLog w cores l := by
  obtain ⟨z, hzd, hmax⟩ := @exists_last _ _ w cores
  obtain ⟨bs, hchain, hvote, hto⟩ :=
    Anchor.path hnc hf hz hI (anchor_of_decided hnc hf hz hI hl hzd)
  have hS := sound_of_coherent hnc hf hz hI
  refine ⟨_, ⟨bs, rfl, hchain, hvote⟩, fun b hb => ?_, fun d hd => ?_⟩
  · -- a committed block is an ancestor of the last one
    obtain ⟨q, hq, -, hanc⟩ := anchor_of_decided hnc hf hz hI hl (.inr hb)
    have hmem := (hto.path.mem_iff (tree_of_sound hS)).mpr (hanc _ _ hto.cert (hmax b hb))
    rcases hq with ⟨-, rfl⟩ | rfl
    · exact .inl rfl
    · exact .inr (mem_nodes.mp hmem)
  · have hname := hto.names
    have hcert := hto.cert
    rw [Option.mem_def.mp hd] at hname hcert
    rcases hname with ⟨h, -⟩ | h
    · cases h
    · cases h
      rcases hzd with rfl | hzd
      · exact absurd hcert (not_cert_genesis hnc hS)
      · exact ⟨z, hzd, rfl⟩

end Coherent

/-! ### What a node has sent -/

/-- What the node `k` has sent when its core was `s` is what the path to its last committed block
names. -/
structure Covers (w : Network C) (cores : C.PublicKey → Core C T) (k : C.PublicKey)
    (s : Core C T) : Prop where
  known : ∀ b ∈ delivered s, Known (cores k) b
  path : ∃ z l, (z = Block.genesis ∨ Decided w cores z) ∧ z.round = s.lastCommittedRound ∧
    LeadsTo w cores l z ∧ (∀ b ∈ delivered s, ∃ d ∈ nodes l, Names d b) ∧
      ∀ d ∈ l, ∃ b ∈ delivered s, b.digest = d

section Steps

variable {w : Network C} {cores : C.PublicKey → Core C T} (hnc : NoCollision C) (hf : FewFaults w)
  (hz : ZeroUncertified w cores) (hI : Coherent w cores) {k : C.PublicKey} (hk : w.Honest k)
include hnc hf hz hI hk

/-- **The loop of `commit` leaves no gap**: it gathers ancestors in the history, and all of those
that are above the last committed round. -/
theorem gathered {s : Core C T} (hfin : Grows s (cores k)) (hok : Entries.Ok (w.env k) s)
    (hb : NoBatchCertified s) (hc : Closed s) {last : Round} {x : Block C} {l : List (Block C)}
    (h : Ancestors (w.env k) s.store last x l) {q : Option C.Digest} (hx : Known s x)
    (hq : Names q x) (hcert : (history w cores).Cert q x.round.toNat) :
    (∀ y ∈ l, Known s y ∧ ∃ d, Names d y ∧
      Relation.ReflTransGen (history w cores).Child d q) ∧
    ∀ d r, Relation.ReflTransGen (history w cores).Child d q → (history w cores).Cert d r →
      last.toNat < r → d = q ∨ ∃ y ∈ l, Names d y := by
  have hS := sound_of_coherent hnc hf hz hI
  induction h generalizing q with
  | @stop x h =>
    refine ⟨by simp, fun d r hd hcd hr => .inl ?_⟩
    -- a block of a round above the last committed one is not below `x`
    refine hS.eq_of_ancestor hd hcd hcert ?_
    have hle : x.round.toNat ≤ (last + 1).toNat := UInt64.le_iff_toNat_le.mp (UInt64.not_lt.mp h)
    have hone : (last + 1).toNat ≤ last.toNat + 1 := by
      rw [UInt64.toNat_add]
      exact Nat.mod_le _ _
    omega
  | @step x a l h hp _ ih =>
    obtain ⟨hax, hfa⟩ := found_parent hc hb (accepted_of_known hok hx) hp
    have hka := hfa.known
    have hpos : 0 < x.round := UInt64.lt_of_le_of_lt UInt64.zero_le h
    obtain ⟨hst, hchild, -⟩ := parent_of_cert hnc hf hz hI hk (hx.mono hfin) hq hcert hpos
    have hca := cert_parent hnc hI hk hst
    rw [qc_round_of_parent hnc hf hI hk hst hax] at hca
    have hna := names_parentId hax
    obtain ⟨hin, hall⟩ := ih hka hna hca
    refine ⟨fun y hy => ?_, fun d r hd hcd hr => ?_⟩
    · rcases List.mem_cons.mp hy with rfl | hy
      · exact ⟨hka, _, hna, .single hchild⟩
      · obtain ⟨hky, d, hd, hanc⟩ := hin y hy
        exact ⟨hky, d, hd, hanc.tail hchild⟩
    · rcases hd.cases_tail with heq | ⟨p, hdp, hpq⟩
      · exact .inl heq.symm
      right
      cases hS.child_unique hchild hpq
      rcases hall d r hdp hcd hr with rfl | ⟨y, hy, hdy⟩
      · exact ⟨a, List.mem_cons_self, hna⟩
      · exact ⟨y, List.mem_cons_of_mem _ hy, hdy⟩

variable [RoundTimer T] {G : Guard C} {s s' : Core C T} (hl : ∀ k, w.Honest k → Linked (cores k))
include hl

/-- **An elementary step keeps what is sent a path to the last committed block**, as a set. -/
theorem Act.covers (h : Act (w.env k) G s s') (hfin : Grows s' (cores k))
    (hok : Entries.Ok (w.env k) s) (hb : NoBatchCertified s) (hc : Closed s) (hls : Linked s)
    (hs : Covers w cores k s) : Covers w cores k s' := by
  rcases Act.deliver_cases h with ⟨b, anc, hcom, hlt, hanc, hdel, hround⟩ | ⟨hdel, hround⟩
  swap
  · exact ⟨by rw [hdel]; exact hs.known, by rw [hdel, hround]; exact hs.path⟩
  have hg := (Act.grows h).trans hfin
  have hS := sound_of_coherent hnc hf hz hI
  have htree := tree_of_sound hS
  obtain ⟨z, l, hzd, hzr, hto, hsent, hcov⟩ := hs.path
  have hbd : Decided w cores b := ⟨k, _, hk, hg.trace hcom⟩
  obtain ⟨bs, -, -, hto'⟩ := Anchor.path hnc hf hz hI (anchor_of_decided hnc hf hz hI hl (.inr hbd))
  have hle : z.round.toNat ≤ b.round.toNat := by
    rw [hzr]
    exact (UInt64.lt_iff_toNat_lt.mp hlt).le
  have hzb := hto.after _ _ hto'.cert hle
  have hpre := hto.path.prefix_of_ancestor htree hto'.path hzb
  have hkb : Known s b := by
    obtain ⟨b₁, b', hcl, -⟩ := hok.entry _ hcom
    exact (hls b b₁ b' hcl).2.2.2.known
  obtain ⟨hin, hall⟩ := gathered hnc hf hz hI hk hg hok hb hc hanc hkb hto'.names hto'.cert
  refine ⟨fun y hy => ?_, b, _, .inr hbd, hround.symm, hto', fun y hy => ?_, fun d hd => ?_⟩
  · rw [hdel] at hy
    rcases List.mem_append.mp hy with hy | hy
    · exact hs.known y hy
    · rcases List.mem_append.mp hy with hy | hy
      · exact (hin y hy).1.mono hg
      · rw [List.mem_singleton.mp hy]
        exact hkb.mono hg
  · rw [hdel] at hy
    rcases List.mem_append.mp hy with hy | hy
    · obtain ⟨d, hd, hdy⟩ := hsent y hy
      exact ⟨d, hpre.subset hd, hdy⟩
    · rcases List.mem_append.mp hy with hy | hy
      · obtain ⟨-, d, hd, hdq⟩ := hin y hy
        exact ⟨d, (hto'.path.mem_iff htree).mpr hdq, hd⟩
      · rw [List.mem_singleton.mp hy]
        exact ⟨_, hto'.path.mem_last, hto'.names⟩
  · have hmem := mem_nodes.mpr hd
    have hdq := hto'.path.ancestor hmem
    obtain ⟨r, -, hcd⟩ := hS.cert_of_ancestor hdq hto'.cert
    rw [hdel]
    rcases Nat.lt_or_ge z.round.toNat r with hgt | hle'
    · -- above the last committed block before: it has just been gathered
      rw [hzr] at hgt
      rcases hall _ r hdq hcd hgt with heq | ⟨y, hy, hname⟩
      · refine ⟨b, by simp, ?_⟩
        have hname := hto'.names
        rw [← heq] at hname
        rcases hname with ⟨h, -⟩ | h
        · cases h
        · exact (Option.some.inj h).symm
      · refine ⟨y, by simp [hy], ?_⟩
        rcases hname with ⟨h, -⟩ | h
        · cases h
        · exact (Option.some.inj h).symm
    · have hdz := hS.ancestor_of_le hdq hzb hcd hto.cert hle'
      obtain ⟨y, hy, hyd⟩ := hcov d (mem_nodes.mp ((hto.path.mem_iff htree).mpr hdz))
      exact ⟨y, List.mem_append_left _ hy, hyd⟩

theorem Acts.covers (h : Acts (w.env k) G s s') (hfin : Grows s' (cores k))
    (hok : Entries.Ok (w.env k) s) (hb : NoBatchCertified s') (hc : Closed s) (hls : Linked s)
    (hs : Covers w cores k s) : Covers w cores k s' := by
  induction h with
  | refl => exact hs
  | tail h h' ih =>
    have hg := Act.grows h'
    have hb₁ := noBatch_of_grows hg hb
    exact Act.covers hnc hf hz hI hk hl h' hfin (Acts.ok h hok) hb₁
      (Acts.closed h hb₁ hc) (Acts.linked h hok hb₁ hc hls) (ih (hg.trans hfin) hb₁)

end Steps

theorem delivered_boot (env : Env C) [RoundTimer T] (io : Io C) (timer : T) :
    delivered (Node.boot env io timer).core = [] := by
  have htr : (Node.boot env io timer).core.trace = _ := boot_trace env io timer
  unfold delivered
  rw [htr]
  split_ifs <;> rfl

/-! ### Refinement -/

/-- **The ledger of a state.** The readers are the honest authorities. Each has read the prefix of
the log that ends in its last committed block; it has sent the blocks of this prefix to the
application and, the first block apart, no others. -/
structure Refines (w : Network C) (cores : C.PublicKey → Core C T)
    (L : Ledger {k // w.Honest k} C.Digest) : Prop where
  log : IsLog w cores L.log
  sent : ∀ k, ∀ b ∈ delivered (cores k.1), b = Block.genesis ∨ b.digest ∈ L.read k
  read : ∀ k, ∀ d ∈ L.read k, ∃ b ∈ delivered (cores k.1), b.digest = d
  last : ∀ k, ∀ d ∈ (L.read k).getLast?, ∃ b ∈ delivered (cores k.1), b.digest = d ∧
    b.round = (cores k.1).lastCommittedRound

section Refines

variable {w : Network C} {cores : C.PublicKey → Core C T} (hnc : NoCollision C) (hf : FewFaults w)
  (hz : ZeroUncertified w cores) (hI : Coherent w cores)
include hnc hf hz hI

theorem read_prefix_nodes {l l' : List C.Digest} {z : Block C} (hto : LeadsTo w cores l z)
    (hzd : z = Block.genesis ∨ Decided w cores z) (h' : IsLog w cores l') : l <+: l' := by
  have hS := sound_of_coherent hnc hf hz hI
  have hpath' := h'.path hnc hf hz hI fun _ => .refl _
  have hmem : l.getLast? ∈ nodes l' := by
    rcases hto.names with ⟨heq, -⟩ | heq
    · rw [heq]
      exact List.mem_cons_self
    rw [heq]
    have hcert := hto.cert
    rw [heq] at hcert
    rcases hzd with rfl | hzd
    · exact absurd hcert (not_cert_genesis hnc hS)
    · refine mem_nodes.mpr ((h'.complete z hzd).resolve_left ?_)
      rintro rfl
      exact not_cert_genesis hnc hS hcert
  obtain ⟨l'', hl'', hpre⟩ := hpath'.prefix_of_mem hmem
  rw [hl''.unique (tree_of_sound hS) hto.path] at hpre
  exact prefix_of_nodes hpre

/-- A node that has committed as far as another one has sent all that the other one has. -/
theorem sent_of_committed_le {k j : C.PublicKey} (hk : Covers w cores k (cores k))
    (hj : Covers w cores j (cores j))
    (hle : (cores k).lastCommittedRound ≤ (cores j).lastCommittedRound) :
    ∀ b ∈ delivered (cores k), b = Block.genesis ∨
      ∃ b' ∈ delivered (cores j), b'.digest = b.digest := by
  have htree := tree_of_sound (sound_of_coherent hnc hf hz hI)
  obtain ⟨z, l, -, hzr, hto, hsent, -⟩ := hk.path
  obtain ⟨z', l', -, hzr', hto', -, hcov'⟩ := hj.path
  have hanc := hto.after _ _ hto'.cert (by rw [hzr, hzr']; exact UInt64.le_iff_toNat_le.mp hle)
  have hpre := hto.path.prefix_of_ancestor htree hto'.path hanc
  intro b hb
  obtain ⟨d, hd, hname⟩ := hsent b hb
  rcases hname with ⟨-, rfl⟩ | rfl
  · exact .inl rfl
  · exact .inr (hcov' _ (mem_nodes.mp (hpre.subset hd)))

theorem exists_refines_of_covers (hl : ∀ k, w.Honest k → Linked (cores k))
    (hc : ∀ k, w.Honest k → Covers w cores k (cores k)) : ∃ L, Refines w cores L := by
  obtain ⟨log, hlog⟩ := exists_isLog hnc hf hz hI hl
  choose z l hzd hzr hto hsent hcov using fun k : {k // w.Honest k} => (hc k.1 k.2).path
  have hpre := fun k => read_prefix_nodes hnc hf hz hI (hto k) (hzd k) hlog
  let L : Ledger {k // w.Honest k} C.Digest :=
    ⟨log, hlog.nodup hnc hf hz hI fun _ => .refl _, fun k => (l k).length,
      fun k => (hpre k).length_le⟩
  have hread : ∀ k, L.read k = l k := fun k => (List.prefix_iff_eq_take.mp (hpre k)).symm
  refine ⟨L, hlog, fun k b hb => ?_, fun k d hd => ?_, fun k d hd => ?_⟩
  · rw [hread]
    obtain ⟨d, hd, hname⟩ := hsent k b hb
    rcases hname with ⟨-, rfl⟩ | rfl
    · exact .inl rfl
    · exact .inr (mem_nodes.mp hd)
  · rw [hread] at hd
    exact hcov k d hd
  · rw [hread] at hd
    obtain ⟨b, hb, rfl⟩ := hcov k d (List.mem_of_getLast? hd)
    refine ⟨b, hb, rfl, ?_⟩
    have hname := (hto k).names
    rw [Option.mem_def.mp hd] at hname
    rcases hname with ⟨h, -⟩ | h
    · cases h
    · rw [← hzr k, (digest_inj hnc (Option.some.inj h)).2.1]

end Refines

/-! ### Runs -/

section Runs

variable [RoundTimer T] {w : Network C} {S S₁ S₂ : Nodes C T}
  {es es₁ es₂ : List (C.PublicKey × Event C)} {io : C.PublicKey → Io C} {timer : C.PublicKey → T}
  (hnc : NoCollision C) (hbs : BatchSound C) (hf : FewFaults w)
include hnc hbs hf

omit hnc hbs hf in
/-- The cores only grow along a run. -/
theorem run_grows_all (r₁ : SystemRun w (start w io timer) es₁ S₁) (r₂ : SystemRun w S₁ es₂ S₂)
    (k : C.PublicKey) : Grows (coresOf S₁ k) (coresOf S₂ k) :=
  (run_grows (run_ok (node_run r₁ k)) (node_run r₂ k)).2

/-- What an honest node has sent in a run, against what the traces of all nodes say in the end. -/
theorem run_covers (r : SystemRun w (start w io timer) es S)
    (hcert : ∀ k, w.Honest k → NoBatchCertified (S k).core ∧ NoZeroCertified (S k).core)
    {k : C.PublicKey} (hk : w.Honest k) : Covers w (coresOf S) k (S k).core ∧
      (AllInStep (S k).core → Delivering w (coresOf S) (S k).core) := by
  have hz : ZeroUncertified w (coresOf S) := fun k hk => (hcert k hk).2
  have hI := run_coherent hnc hbs hf r hz
  have hlinked := fun k hk => (run_linked (node_run r k) (hcert k hk).1).2
  have hinv : Closed (S k).core ∧ Linked (S k).core ∧ Covers w (coresOf S) k (S k).core ∧
      (AllInStep (S k).core → Delivering w (coresOf S) (S k).core) := by
    refine run_invariant_of (boot_ok (io k) (timer k)) (node_run r k)
      (Q := fun s => Grows s (S k).core)
      (P := fun n => Closed n.core ∧ Linked n.core ∧ Covers w (coresOf S) k n.core ∧
        (AllInStep (S k).core → Delivering w (coresOf S) n.core))
      (fun hg h => hg.trans h) ?_ ?_ (.refl _)
    · refine ⟨closed_boot _ _, linked_boot _ _, ⟨by rw [delivered_boot]; simp, Block.genesis, [],
        .inl rfl, (boot_fields _ _ _).2.2.2.1.symm, ?_, by rw [delivered_boot]; simp, by simp⟩,
        fun _ => delivering_boot hnc hf hz hI _ _⟩
      exact ⟨.root, .inl ⟨rfl, rfl⟩, .inl ⟨rfl, rfl⟩,
        fun _ _ hd _ => (sound_of_coherent hnc hf hz hI).genesis_ancestor hd⟩
    · rintro n e n' hn ⟨hc, hl, hs, hd⟩ hg h
      have hb' : NoBatchCertified n'.core := noBatch_of_grows hg (hcert k hk).1
      refine ⟨closed_step hn h hb' hc, linked_step hn h hb' hc hl, ?_⟩
      rcases step_core_cases hn h with heq | ⟨x, heq⟩ | hacts
      · rw [heq]; exact ⟨hs, hd⟩
      · rw [heq]; exact ⟨⟨hs.known, hs.path⟩, fun h => ⟨(hd h).chain, (hd h).last⟩⟩
      · exact ⟨Acts.covers hnc hf hz hI hk hlinked hacts hg hn.core hb' hc hl hs, fun h =>
          Acts.delivering hnc hf hz hI hk (hlinked k hk) h hacts hg hn.core hb' hc hl (hd h)⟩
  exact hinv.2.2

/-- In every reachable state there is a ledger. -/
theorem run_refines (r : SystemRun w (start w io timer) es S)
    (hcert : ∀ k, w.Honest k → NoBatchCertified (S k).core ∧ NoZeroCertified (S k).core) :
    ∃ L, Refines w (coresOf S) L := by
  have hz : ZeroUncertified w (coresOf S) := fun k hk => (hcert k hk).2
  have hI := run_coherent hnc hbs hf r hz
  have hlinked := fun k hk => (run_linked (node_run r k) (hcert k hk).1).2
  exact exists_refines_of_covers hnc hf hz hI hlinked
    fun k hk => (run_covers hnc hbs hf r hcert hk).1

/-- The ledger only grows. -/
theorem refines_mono (r₁ : SystemRun w (start w io timer) es₁ S₁) (r₂ : SystemRun w S₁ es₂ S₂)
    (hcert : ∀ k, w.Honest k → NoBatchCertified (S₂ k).core ∧ NoZeroCertified (S₂ k).core)
    {L₁ L₂ : Ledger {k // w.Honest k} C.Digest} (h₁ : Refines w (coresOf S₁) L₁)
    (h₂ : Refines w (coresOf S₂) L₂) : L₁ ≤ L₂ := by
  have hz : ZeroUncertified w (coresOf S₂) := fun k hk => (hcert k hk).2
  have hI := run_coherent hnc hbs hf (r₁.trans r₂) hz
  have hg := run_grows_all r₁ r₂
  refine ⟨h₁.log.extended hnc hf hz hI hg h₂.log, fun k => ?_⟩
  refine Ledger.position_le_of_subset fun d hd => ?_
  -- what was sent stays sent
  obtain ⟨b, hb, rfl⟩ := h₁.read k d hd
  have hne := h₁.log.ne_genesis hnc hf hz hI hg ((L₁.read_prefix_log k).subset hd)
  exact (h₂.sent k b (List.filterMap_subset _ (hg k.1).trace hb)).resolve_left
    fun heq => hne (by rw [heq])

/-- **The system refines a ledger.** In every reachable state there is one log of the committed
blocks, and what each honest node has sent to the application is, as a set and the first block
apart, the prefix of the log up to its last committed block. From one state of a run to a later one
the log is only appended to, and the nodes only read on. -/
theorem refines_ledger (r₁ : SystemRun w (start w io timer) es₁ S₁) (r₂ : SystemRun w S₁ es₂ S₂)
    (hcert : ∀ k, w.Honest k → NoBatchCertified (S₂ k).core ∧ NoZeroCertified (S₂ k).core) :
    (∃ L, Refines w (coresOf S₁) L) ∧ (∃ L, Refines w (coresOf S₂) L) ∧
      ∀ L₁ L₂, Refines w (coresOf S₁) L₁ → Refines w (coresOf S₂) L₂ → L₁ ≤ L₂ := by
  have hcert₁ : ∀ k, w.Honest k → NoBatchCertified (S₁ k).core ∧ NoZeroCertified (S₁ k).core :=
    fun k hk => ⟨noBatch_of_grows (run_grows_all r₁ r₂ k) (hcert k hk).1,
      fun qc r hr => (hcert k hk).2 qc r ((run_grows_all r₁ r₂ k).trace hr)⟩
  exact ⟨run_refines hnc hbs hf r₁ hcert₁, run_refines hnc hbs hf (r₁.trans r₂) hcert,
    fun L₁ L₂ h₁ h₂ => refines_mono hnc hbs hf r₁ r₂ hcert h₁ h₂⟩

/-- A node in step has sent its prefix of the log, in order. -/
theorem Refines.read_eq (r : SystemRun w (start w io timer) es S)
    (hcert : ∀ k, w.Honest k → NoBatchCertified (S k).core ∧ NoZeroCertified (S k).core)
    {L : Ledger {k // w.Honest k} C.Digest} (h : Refines w (coresOf S) L) (k : {k // w.Honest k})
    (hstep : AllInStep (S k.1).core) : (delivered (S k.1).core).map Block.digest = L.read k := by
  have hz : ZeroUncertified w (coresOf S) := fun k hk => (hcert k hk).2
  have hI := run_coherent hnc hbs hf r hz
  have hS := sound_of_coherent hnc hf hz hI
  obtain ⟨hcov, hdel⟩ := run_covers hnc hbs hf r hcert k.2
  have hon := onPath_of_delivering hnc (hdel hstep)
  have hread : ∀ b ∈ delivered (S k.1).core, b.digest ∈ L.read k := fun b hb =>
    (h.sent k b hb).resolve_left fun heq => hon.genesis (heq ▸ hb)
  -- each block that was sent is a child of its parent, as an honest node voted for its digest
  have hchild : ∀ b ∈ delivered (S k.1).core,
      (history w (coresOf S)).Child (parentId b) (some b.digest) ∧
        (history w (coresOf S)).Cert (parentId b) b.qc.round.toNat := by
    intro b hb
    have hst := (hcov.known b hb).resolve_left fun heq => hon.genesis (heq ▸ hb)
    obtain ⟨bs, hbs', -, hvote⟩ := h.log.chain
    have hmem := (L.read_prefix_log k).subset (hread b hb)
    rw [← hbs'] at hmem
    obtain ⟨x, hx, hxd⟩ := List.mem_map.mp hmem
    obtain ⟨j, hj, hv⟩ := hvote x hx
    obtain ⟨hcx, -⟩ := child_of_vote hnc hI hj hv
    rw [hxd] at hcx
    have hparent := (parent_of_child hnc hz hI hcx k.2 (.inr hst) (.inr rfl)).1
    exact ⟨hparent ▸ hcx, cert_parent hnc hI k.2 hst⟩
  have hpath := path_of_blocks hnc hS hon.chain hchild
  have hlog := h.log.path hnc hf hz hI fun _ => .refl _
  have hlast : ((delivered (S k.1).core).map Block.digest).getLast? ∈ nodes L.log := by
    rcases hd : ((delivered (S k.1).core).map Block.digest).getLast? with _ | d
    · exact List.mem_cons_self
    · obtain ⟨b, hb, rfl⟩ := List.mem_map.mp (List.mem_of_getLast? hd)
      exact mem_nodes.mpr ((L.read_prefix_log k).subset (hread b hb))
  obtain ⟨l, hl, hpre⟩ := hlog.prefix_of_mem hlast
  rw [hl.unique (tree_of_sound hS) hpath] at hpre
  have hle : (L.read k).length ≤ ((delivered (S k.1).core).map Block.digest).length := by
    have hnd : (L.read k).Nodup := L.nodup.sublist (L.read_prefix_log k).sublist
    refine (hnd.subperm fun d hd => ?_).length_le
    obtain ⟨b, hb, rfl⟩ := h.read k d hd
    exact List.mem_map_of_mem hb
  have hge : ((delivered (S k.1).core).map Block.digest).length ≤ (L.read k).length := by
    refine (hon.nodup.subperm fun d hd => ?_).length_le
    obtain ⟨b, hb, rfl⟩ := List.mem_map.mp hd
    exact hread b hb
  exact (List.prefix_of_prefix_length_le (prefix_of_nodes hpre) (L.read_prefix_log k)
    hge).eq_of_length_le hle

/-- **Nodes in step send the log in order.** A node whose commits have been in step has sent exactly
its prefix of the log, in order and without repetition; so of any two such nodes one has sent what
the other one has sent, in the same order, and perhaps more. -/
theorem in_order (r : SystemRun w (start w io timer) es S)
    (hcert : ∀ k, w.Honest k → NoBatchCertified (S k).core ∧ NoZeroCertified (S k).core)
    {k j : C.PublicKey} (hk : w.Honest k) (hj : w.Honest j) (hsk : AllInStep (S k).core)
    (hsj : AllInStep (S j).core) : ∃ L, Refines w (coresOf S) L ∧
      (delivered (S k).core).map Block.digest = L.read ⟨k, hk⟩ ∧
      ((delivered (S k).core).map Block.digest <+: (delivered (S j).core).map Block.digest ∨
        (delivered (S j).core).map Block.digest <+: (delivered (S k).core).map Block.digest) := by
  obtain ⟨L, hL⟩ := run_refines hnc hbs hf r hcert
  refine ⟨L, hL, hL.read_eq hnc hbs hf r hcert ⟨k, hk⟩ hsk, ?_⟩
  rw [hL.read_eq hnc hbs hf r hcert ⟨k, hk⟩ hsk, hL.read_eq hnc hbs hf r hcert ⟨j, hj⟩ hsj]
  exact L.read_total _ _

/-! ### Finality -/

omit [RoundTimer T] hnc hbs hf in
/-- The parent of a block that an honest node has stored. -/
theorem exists_parent {s : Core C T} (hc : Closed s) {b : Block C} (hb : .store b ∈ s.trace) :
    ∃ a, IsParent a b ∧ Known s a := by
  by_cases hg : b.qc.IsGenesis
  · exact ⟨_, .inl ⟨hg, rfl⟩, .inl rfl⟩
  · obtain ⟨a, hl, hd⟩ := (hc.parent b hb).resolve_left hg
    exact ⟨a, .inr ⟨hg, hd⟩, .inr (hc.stored _ _ (mem_of_lookup hl)).2⟩

/-- **A committed block is final.** Once an honest node has committed a block, every block that an
honest node has, then or later, with a QC of the same round or above descends from it; and so does,
if it is not the block itself, every block that is certified in the same round or above. -/
theorem final (r : SystemRun w (start w io timer) es S)
    (hcert : ∀ k, w.Honest k → NoBatchCertified (S k).core ∧ NoZeroCertified (S k).core)
    {k k' : C.PublicKey} (hk : w.Honest k) (hk' : w.Honest k') {last : Round} {b b' : Block C}
    (h : .commit last b ∈ (S k).core.trace) (hb' : .store b' ∈ (S k').core.trace) :
    (b.round ≤ b'.qc.round → Relation.TransGen IsParent b b') ∧
      ∀ qc, Certifies w S qc → qc.hash = b'.digest → b.round ≤ qc.round →
        b.digest = b'.digest ∨ Relation.TransGen IsParent b b' := by
  have hz : ZeroUncertified w (coresOf S) := fun k hk => (hcert k hk).2
  have hI := run_coherent hnc hbs hf r hz
  have hS := sound_of_coherent hnc hf hz hI
  obtain ⟨hc, -⟩ := run_linked (node_run r k') (hcert k' hk').1
  obtain ⟨p, hp, -, hanc⟩ :=
    anchor_of_commit hnc hf hz hI hk (run_linked (node_run r k) (hcert k hk).1).2 h
  refine ⟨fun hr => ?_, fun qc hqc hd hr => ?_⟩
  · have hpath := hanc _ _ (cert_parent hnc hI hk' hb') (UInt64.le_iff_toNat_le.mp hr)
    obtain ⟨a, hab, hka⟩ := exists_parent hc hb'
    rcases ancestor_of_child hnc hz hI hpath hp hk' hka (names_parentId hab) with heq | hba
    swap
    · exact hba.tail hab
    -- the block has the digest of the parent
    refine .single ?_
    rcases hab with ⟨hg, rfl⟩ | ⟨hg, hda⟩
    · rw [parentId, if_pos hg] at hpath
      obtain rfl : p = none := by
        rcases hpath.cases_tail with h | ⟨q, -, hq⟩
        · exact h.symm
        · exact absurd hq (tree_of_sound hS).root
      rcases hp with ⟨-, rfl⟩ | h
      · exact .inl ⟨hg, rfl⟩
      · cases h
    · exact .inr ⟨hg, heq.trans hda⟩
  · have hcq := hqc.cert hnc hbs hf hd.symm
    obtain ⟨j, x, -, -, hdx, hrx⟩ := hqc.exists_vote hnc hbs hf
    have hround : b'.round = qc.round := by
      rw [← hrx, (digest_inj hnc (hdx.trans hd)).2.1]
    rw [← hround] at hr
    exact ancestor_of_child hnc hz hI (hanc _ _ hcq (UInt64.le_iff_toNat_le.mp hr)) hp hk'
      (.inr hb') (.inr rfl)

end Runs

/-! ### A run of four -/

/-- The ledgers of four authorities before and after the round of the Byzantine leader, in which
one of the honest nodes falls behind. -/
theorem refines_ledger_four : ∃ S₁ S₂ : Nodes crypto (Timer ℚ),
    (S₂ (key 0)).core.lastCommittedRound = 2 ∧ (S₂ (key 2)).core.lastCommittedRound = 1 ∧
      ∃ L₁ L₂, Refines fourNetwork (coresOf S₁) L₁ ∧ Refines fourNetwork (coresOf S₂) L₂ ∧
        L₁ ≤ L₂ := by
  obtain ⟨⟨L₁, h₁⟩, ⟨L₂, h₂⟩, h⟩ := refines_ledger noCollision batchSound fewFaults_four
    (run_of_fourRun honestRounds rfl) (run_of_exec _ byzantineRound _ rfl)
    (certified_four (by decide))
  exact ⟨_, _, rfl, rfl, L₁, L₂, h₁, h₂, h L₁ L₂ h₁ h₂⟩

/-- Two nodes of four send the blocks of the log in order, one of them only the first block. -/
theorem in_order_four : ∃ (S : Nodes crypto (Timer ℚ))
    (L : Ledger {k // fourNetwork.Honest k} crypto.Digest),
    (delivered (S (key 0)).core).map Block.round = [1, 2] ∧
      (delivered (S (key 2)).core).map Block.round = [1] ∧
      (delivered (S (key 0)).core).map Block.digest = L.read ⟨key 0, by decide⟩ := by
  have hrun := run_of_fourRun fourRounds rfl
  obtain ⟨L, -, h, -⟩ := in_order noCollision batchSound fewFaults_four hrun
    (certified_four (by decide)) (k := key 0) (j := key 2) (by decide) (by decide) (by decide)
    (by decide)
  exact ⟨_, L, rfl, rfl, h⟩

/-- The block of round 4 that a node stores descends from that of round 2, which another node has
committed. -/
theorem final_four : ∃ S : Nodes crypto (Timer ℚ), .commit 1 Four.second ∈ (S (key 0)).core.trace ∧
    .store Four.fourth ∈ (S (key 1)).core.trace ∧
      Relation.TransGen IsParent Four.second Four.fourth := by
  have hrun := run_of_fourRun fourRounds rfl
  have hc := List.mem_of_getElem?
    (show ((fourRun fourRounds).getD fourStart (key 0)).core.trace[30]? =
      some (.commit 1 Four.second) from rfl)
  have hs := List.mem_of_getElem?
    (show ((fourRun fourRounds).getD fourStart (key 1)).core.trace[27]? =
      some (.store Four.fourth) from rfl)
  exact ⟨_, hc, hs, (final noCollision batchSound fewFaults_four hrun (certified_four (by decide))
    (by decide) (by decide) hc hs).1 (by decide)⟩

end Hotstuff.Consensus.Replication
