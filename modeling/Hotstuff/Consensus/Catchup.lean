import Hotstuff.Consensus.Electing
import Hotstuff.Consensus.Lineage

/-! # What the core makes of a closed set of blocks

Whatever came before, a block of a list as in `Input` is stored if its parent is, and handed to the
synchronizer otherwise (`processBlock_settled`, `handleProposal_settled`). The store, the round, the
high QC and the last committed round are functions of which blocks have been accepted and which of
them have been stored (`Synced`); once all have, nothing is left of the order (`Synced.agree`). -/

namespace Hotstuff.Consensus.Catchup

open Hotstuff.Primitives Hotstuff.Consensus.Config Hotstuff.Consensus.Messages
open Hotstuff.Consensus.Aggregation Hotstuff.Consensus.Pacing Hotstuff.Consensus.Handlers
open Hotstuff.Consensus.Steps Hotstuff.Consensus.Wiring Hotstuff.Consensus.Admission
open Hotstuff.Consensus.Electing Hotstuff.Consensus.Lineage

variable {C : Crypto} {T : Type}

/-! ### Own votes -/

/-- Every collection of votes has one of the node, so that no other one of it is added. -/
def OwnVotes (name : C.PublicKey) (a : Aggregator C) : Prop :=
  ∀ r d m, a.votesAggregators r d = some m → name ∈ m.used

section OwnVotes

variable {name : C.PublicKey} {a : Aggregator C}

theorem own_new : OwnVotes name (Aggregator.new : Aggregator C) :=
  fun _ _ _ h => (nomatch h)

theorem OwnVotes.cleanup (h : OwnVotes name a) (round : Round) :
    OwnVotes name (a.cleanup round) := by
  intro r d m hm
  unfold Aggregator.cleanup at hm
  dsimp only at hm
  split_ifs at hm
  exact h r d m hm

/-- A first vote below the threshold, or a second one. -/
theorem appendVote_own {c : Committee C} (hq : c.stake name < c.quorumThreshold) {v : Vote C}
    (hv : v.author = name) {m : QCMaker C} (hm : m = Maker.new ∨ name ∈ m.used) :
    name ∈ (QCMaker.appendVote m v c).1.used ∧
      ∀ qc, (QCMaker.appendVote m v c).2 ≠ .ok (some qc) := by
  unfold QCMaker.appendVote Maker.append
  rcases hm with rfl | hm
  · have hw : ¬ c.quorumThreshold ≤ c.stake name := UInt32.not_le.mpr hq
    simp [Maker.new, hv, hw]
  · simp [hv, hm]

/-- The own vote alone makes no QC. -/
theorem addVote_own (h : OwnVotes name a) {c : Committee C} (hq : c.stake name < c.quorumThreshold)
    {v : Vote C} (hv : v.author = name) : OwnVotes name (a.addVote c v).1 ∧
      ∀ qc, (a.addVote c v).2 ≠ .ok (some qc) := by
  have hm : (a.votesAggregators v.round v.digest).getD Maker.new = Maker.new ∨
      name ∈ ((a.votesAggregators v.round v.digest).getD Maker.new).used := by
    rcases hm : a.votesAggregators v.round v.digest with _ | m
    · exact .inl rfl
    · exact .inr (h _ _ m hm)
  obtain ⟨hu, hno⟩ := appendVote_own hq hv hm
  refine ⟨fun r d m' hm' => ?_, hno⟩
  unfold Aggregator.addVote at hm'
  dsimp only at hm'
  split_ifs at hm'
  · cases hm'
    exact hu
  · exact h r d m' hm'

end OwnVotes

/-! ### What follows the store of a block -/

/-- The entries by which the core takes a block or puts it off. -/
def isIntake : Action C → Bool
  | .accept _ | .suspend _ => true
  | _ => false

/-- From `s` to `s'` no block is taken, put off or stored, and no certificate is processed. -/
structure Still (name : C.PublicKey) (s s' : Core C T) : Prop where
  round : s'.round = s.round
  highQc : s'.highQc = s.highQc
  store : s'.store = s.store
  own : OwnVotes name s.aggregator → OwnVotes name s'.aggregator
  trace : ∃ l, s'.trace = s.trace ++ l ∧ ∀ a ∈ l, isIntake a = false

section Still

variable {name : C.PublicKey} {s s' s'' : Core C T}

theorem Still.refl (s : Core C T) : Still name s s :=
  ⟨rfl, rfl, rfl, id, [], (List.append_nil _).symm, by simp⟩

theorem Still.trans (h : Still name s s') (h' : Still name s' s'') : Still name s s'' := by
  obtain ⟨l, hl, hc⟩ := h.trace
  obtain ⟨l', hl', hc'⟩ := h'.trace
  refine ⟨h'.round.trans h.round, h'.highQc.trans h.highQc, h'.store.trans h.store, h'.own ∘ h.own,
    l ++ l', ?_, ?_⟩
  · rw [hl', hl, List.append_assoc]
  · exact List.forall_mem_append.mpr ⟨hc, hc'⟩

theorem still_emit {a : Action C} (ha : isIntake a = false) : Still name s (s.emit a) :=
  ⟨rfl, rfl, rfl, id, [a], rfl, List.forall_mem_singleton.mpr ha⟩

end Still

section Settling

variable {env : Env C} {st₀ : Store C} {bs : List (Block C)} {s : Core C T} {io : Io C}

/-- `commit` of a block that is found raises the last committed round to that of the block. -/
theorem commit_found (hin : Input env st₀ bs) (hc : Content st₀ bs s.store)
    (hio : Succeeds io) {b : Block C} (hb : Found bs s.store b) :
    ∃ s', commit env io s b = (s', .ok ()) ∧ Still env.name s s' ∧
      s'.lastCommittedRound.toNat = max s.lastCommittedRound.toNat b.round.toNat := by
  have hemit : Still env.name s (s.emit (.commit s.lastCommittedRound b)) := still_emit rfl
  by_cases hle : b.round ≤ s.lastCommittedRound
  · exact ⟨_, commit_of_le env s io hle, hemit, (max_eq_left (UInt64.le_iff_toNat_le.mp hle)).symm⟩
  have hlt := UInt64.not_le.mp hle
  set s₁ := s.emit (.commit s.lastCommittedRound b) with hs₁
  have hgather : ∃ l, gatherAncestors env io s.lastCommittedRound (s.store.length + 2) s₁ b [] =
      (s₁, .ok l) := by
    rcases hb with rfl | ⟨hb, hs⟩
    · exact ⟨_, gatherAncestors_genesis io _ (Nat.succ_pos _) _⟩
    · refine gatherAncestors_found (s := s₁) hin hc hio _ b hb hs _ _ ?_
      exact Nat.lt_add_right 1 (Nat.lt_succ_of_le (length_storedBlocks hin.nodup s.store))
  obtain ⟨l, hl⟩ := hgather
  refine ⟨_, commit_of_gathered env s io hlt hl, hemit.trans ⟨rfl, rfl, rfl, id, _, rfl, ?_⟩, ?_⟩
  · exact List.forall_mem_map.mpr fun _ _ => rfl
  · exact (max_eq_right (le_of_lt (UInt64.lt_iff_toNat_lt.mp hlt))).symm

theorem commitRule_found (hin : Input env st₀ bs) (hc : Content st₀ bs s.store)
    (hio : Succeeds io) {b0 : Block C} (hb : Found bs s.store b0) (b1 : Block C) :
    ∃ s', commitRule env io s b0 b1 = (s', .ok ()) ∧ Still env.name s s' ∧
      s'.lastCommittedRound.toNat = if b0.round + 1 = b1.round then
        max s.lastCommittedRound.toNat b0.round.toNat else s.lastCommittedRound.toNat := by
  unfold commitRule
  split_ifs
  · obtain ⟨s', h, hst, hr⟩ := commit_found (s := s.emit (.gc b0.round)) hin hc hio hb
    exact ⟨s', h, (still_emit rfl).trans hst, hr⟩
  · exact ⟨s, rfl, .refl s, rfl⟩

variable [RoundTimer T]

variable (io) in
theorem handleVote_own (hown : OwnVotes env.name s.aggregator)
    (hq : env.committee.stake env.name < env.committee.quorumThreshold) {v : Vote C}
    (hv : v.author = env.name) :
    Still env.name s (handleVote env io s v).1 ∧
      (handleVote env io s v).1.lastCommittedRound = s.lastCommittedRound := by
  obtain ⟨ha, hno⟩ := addVote_own hown hq hv
  rcases handleVote_cases env s io v with h | ⟨-, -, a, ⟨r, h', h⟩ | ⟨qc, h', h⟩⟩
  · rw [h]
    exact ⟨.refl s, rfl⟩
  · rw [h'] at ha
    rw [h]
    exact ⟨⟨rfl, rfl, rfl, fun _ => ha, [], (List.append_nil _).symm, by simp⟩, rfl⟩
  · exact absurd (by rw [h']) (hno qc)

variable (io) in
theorem voteFor_own (hown : OwnVotes env.name s.aggregator)
    (hq : env.committee.stake env.name < env.committee.quorumThreshold) (b : Block C) :
    Still env.name s (voteFor env io s b).1 ∧
      (voteFor env io s b).1.lastCommittedRound = s.lastCommittedRound := by
  have hemit : Still env.name s ((increaseLastVotedRound s b.round).emit (.vote b)) :=
    ⟨rfl, rfl, rfl, id, [.vote b], rfl, by simp [isIntake]⟩
  rcases voteFor_cases env s io b with
    h | ⟨-, h⟩ | ⟨-, -, -, ⟨-, h⟩ | h | ⟨k, h⟩⟩ <;> rw [h]
  · exact ⟨.refl s, rfl⟩
  · exact ⟨.refl s, rfl⟩
  · exact ⟨hemit, rfl⟩
  · obtain ⟨hst, hr⟩ := handleVote_own io
      (s := (increaseLastVotedRound s b.round).emit (.vote b)) hown hq
      (v := Vote.new b env.name) rfl
    exact ⟨hemit.trans hst, hr⟩
  · exact ⟨hemit.trans (still_emit rfl), rfl⟩

omit [RoundTimer T] in
/-- The TC of a valid block has signers. -/
theorem safetyRule2_checked {b : Block C} (hb : Checked env b) :
    ∃ rule2, safetyRule2 b = .ok rule2 := by
  unfold safetyRule2
  rcases htc : b.tc with _ | tc
  · exact ⟨_, rfl⟩
  have hne := ne_nil_of_check (TC.verify_ok ((Block.verify_ok hb.2).2.2 tc htc)).1
  rcases hmax : tc.highQcRounds.max? with _ | m
  · rw [List.max?_eq_none_iff] at hmax
    exact absurd (List.map_eq_nil_iff.mp hmax) fun h => hne (by rw [h]; rfl)
  · exact ⟨_, by simp only [hmax]; rfl⟩

/-- The vote for a valid block does not panic. -/
theorem voteFor_checked {b : Block C} (hb : Checked env b) {p : Panic} :
    (voteFor env io s b).2 ≠ .error (.panic p) := by
  obtain ⟨rule2, hrule⟩ := safetyRule2_checked hb
  obtain ⟨next, -, hnext⟩ := exists_leader (size_pos (getLeader_mem hb.1)) (s.round + 1)
  rcases voteFor_cases env s io b with
    h | ⟨hs, -⟩ | ⟨-, -, -, ⟨hl, -⟩ | h | ⟨k, h⟩⟩
  · rw [h]
    simp
  · rw [hrule] at hs
    cases hs
  · rw [hnext] at hl
    cases hl
  · rw [h]
    exact handleVote_panic io
  · rw [h]
    simp

end Settling

/-! ### Rounds -/

section Rounds

variable [RoundTimer T] {s : Core C T} (io : Io C)

theorem advanceRound_toNat {r : Round} (h : r + 1 ≠ 0) :
    (advanceRound io s r).round.toNat = max s.round.toNat (r.toNat + 1) := by
  rw [advanceRound_round, apply_ite UInt64.toNat, toNat_add_one h]
  split_ifs with hlt
  · exact (max_eq_left (UInt64.lt_iff_toNat_lt.mp hlt)).symm
  · have hle := UInt64.le_iff_toNat_le.mp (UInt64.not_lt.mp hlt)
    exact (max_eq_right (by omega)).symm

theorem processQc_toNat {qc : QC C} (h : qc.round + 1 ≠ 0) :
    (processQc io s qc).round.toNat = max s.round.toNat (qc.round.toNat + 1) := by
  rw [processQc_round, ← advanceRound_round s io qc.round]
  exact advanceRound_toNat io h

theorem processQc_highQc_toNat (qc : QC C) :
    (processQc io s qc).highQc.round.toNat = max s.highQc.round.toNat qc.round.toNat := by
  rw [processQc_highQc]
  split_ifs with hlt
  · exact (max_eq_right (le_of_lt (UInt64.lt_iff_toNat_lt.mp hlt))).symm
  · exact (max_eq_left (UInt64.le_iff_toNat_le.mp (UInt64.not_lt.mp hlt))).symm

/-- One more element. -/
theorem isGreatest_of_iff {S S' : Set ℕ} {a r : ℕ} (h : IsGreatest S r)
    (hS : ∀ m, m ∈ S' ↔ m = a ∨ m ∈ S) : IsGreatest S' (max r a) := by
  rw [max_comm, show S' = insert a S from Set.ext hS]
  exact h.insert a

end Rounds

/-! ### The state of the core -/

/-- **The core as a function of the blocks accepted and stored**: its round, its high QC and its
last committed round are the highest that these blocks lead to. -/
structure Synced (env : Env C) (st₀ : Store C) (bs : List (Block C)) (s : Core C T) : Prop where
  content : Content st₀ bs s.store
  own : OwnVotes env.name s.aggregator
  accepted : ∀ b, .accept b ∈ s.trace → b ∈ bs
  round : IsGreatest (insert 1 {m | ∃ b, .accept b ∈ s.trace ∧ LeadsTo b m}) s.round.toNat
  highQc : IsGreatest (insert 0 {m | ∃ b, .accept b ∈ s.trace ∧ m = b.qc.round.toNat})
    s.highQc.round.toNat
  committed : IsGreatest (insert 0 {m | ∃ b ∈ bs, (s.store.lookup b.digest).isSome ∧
    Commits bs b m}) s.lastCommittedRound.toNat

/-- What a call of a handler makes of the block: it is stored, or suspended as its parent is not in
the store. -/
structure Settled (env : Env C) (st₀ : Store C) (bs : List (Block C)) (b : Block C) (s : Core C T)
    (r : Call C T Unit) : Prop where
  synced : Synced env st₀ bs r.1
  accepted : .accept b ∈ r.1.trace
  panic : ∀ p, r.2 ≠ .error (.panic p)
  trace : ∃ l, r.1.trace = s.trace ++ l ∧ (∀ b', .accept b' ∈ l → b' = b) ∧
    ((r.1.store = (b.digest, .block b) :: s.store ∧ l.filterMap toSynchronizer = []) ∨
      (¬ b.qc.IsGenesis ∧ s.store.lookup b.parent = none ∧ r.1.store = s.store ∧
        l.filterMap toSynchronizer = [b]))

section Synced

variable {env : Env C} {st₀ : Store C} {bs : List (Block C)} {s s' : Core C T} {io : Io C}

/-- What was in the store still is. -/
theorem Settled.isSome {b : Block C} {r : Call C T Unit}
    (h : Settled env st₀ bs b s r) {d : C.Digest} (hd : (s.store.lookup d).isSome) :
    (r.1.store.lookup d).isSome := by
  obtain ⟨l, -, -, ⟨hst, -⟩ | ⟨-, -, hst, -⟩⟩ := h.trace
  · rw [hst]
    exact isSome_store b hd
  · rwa [hst]

/-- Only the blocks accepted count. -/
theorem Synced.congr (hs : Synced env st₀ bs s) (hr : s'.round = s.round)
    (hq : s'.highQc = s.highQc) (hst : s'.store = s.store) (ha : OwnVotes env.name s'.aggregator)
    (hc : s'.lastCommittedRound = s.lastCommittedRound)
    (hacc : ∀ b, .accept b ∈ s'.trace ↔ .accept b ∈ s.trace) : Synced env st₀ bs s' := by
  refine ⟨hst ▸ hs.content, ha, fun b hb => hs.accepted b ((hacc b).mp hb), ?_, ?_, ?_⟩
  · simpa only [hacc, hr] using hs.round
  · simpa only [hacc, hq] using hs.highQc
  · simpa only [hst, hc] using hs.committed

/-- A block is stored, and its grandparent is committed as the rule says. -/
theorem Synced.store (hin : Input env st₀ bs) (hs : Synced env st₀ bs s) {b b0 b1 : Block C}
    (hb : b ∈ bs) (hp : b.qc.IsGenesis ∨ (s.store.lookup b.parent).isSome)
    (h1 : ParentIn bs b1 b) (h0 : ParentIn bs b0 b1) (hr : s'.round = s.round)
    (hq : s'.highQc = s.highQc) (hst : s'.store = (b.digest, .block b) :: s.store)
    (ha : OwnVotes env.name s'.aggregator)
    (hc : s'.lastCommittedRound.toNat = if b0.round + 1 = b1.round then
      max s.lastCommittedRound.toNat b0.round.toNat else s.lastCommittedRound.toNat)
    (hacc : ∀ b, .accept b ∈ s'.trace ↔ .accept b ∈ s.trace) : Synced env st₀ bs s' := by
  have hsome : ∀ c ∈ bs, (s'.store.lookup c.digest).isSome ↔
      c = b ∨ (s.store.lookup c.digest).isSome := by
    intro c hc
    rw [hst, lookup_store]
    split_ifs with hd
    · exact iff_of_true rfl (.inl (hin.eq_of_digest hc hb hd))
    · exact ⟨.inr, fun h => h.resolve_left fun h => hd (by rw [h])⟩
  have hset : ∀ m, (∃ c ∈ bs, (s'.store.lookup c.digest).isSome ∧ Commits bs c m) ↔
      (b0.round + 1 = b1.round ∧ m = b0.round.toNat) ∨
        ∃ c ∈ bs, (s.store.lookup c.digest).isSome ∧ Commits bs c m := by
    intro m
    rw [← hin.commits_iff h1 h0]
    constructor
    · rintro ⟨c, hc, hl, hm⟩
      rcases (hsome c hc).mp hl with rfl | hl
      · exact .inl hm
      · exact .inr ⟨c, hc, hl, hm⟩
    · rintro (hm | ⟨c, hc, hl, hm⟩)
      · exact ⟨b, hb, (hsome b hb).mpr (.inl rfl), hm⟩
      · exact ⟨c, hc, (hsome c hc).mpr (.inr hl), hm⟩
  refine ⟨by rw [hst]; exact hs.content.store hin hb hp, ha,
    fun b hb => hs.accepted b ((hacc b).mp hb), ?_, ?_, ?_⟩
  · simpa only [hacc, hr] using hs.round
  · simpa only [hacc, hq] using hs.highQc
  · rw [hc]
    split_ifs with hcr
    · refine isGreatest_of_iff hs.committed fun m => ?_
      simp only [Set.mem_insert_iff, Set.mem_ofPred_eq, hset, hcr, true_and]
      exact or_left_comm
    · simpa only [hset, hcr, false_and, false_or] using hs.committed

variable [RoundTimer T]

/-- **A block is stored if its parent is, and suspended otherwise.** -/
theorem processBlock_settled (hin : Input env st₀ bs) (hio : Succeeds io)
    (hs : Synced env st₀ bs s) {b : Block C} (hb : .accept b ∈ s.trace) :
    Settled env st₀ bs b s (processBlock env io s b) := by
  have hmem := hs.accepted b hb
  by_cases hp : b.qc.IsGenesis ∨ (s.store.lookup b.parent).isSome
  swap
  · obtain ⟨hg, hl⟩ := not_or.mp hp
    rw [Bool.not_eq_true, Option.isSome_eq_false_iff, Option.isNone_iff_eq_none] at hl
    have h : processBlock env io s b = (s.emit (.suspend b), .ok ()) := by
      simp only [processBlock, getAncestors, getParentBlock_missing hio hg hl]
    rw [h]
    refine ⟨hs.congr rfl rfl rfl hs.own rfl fun b' => by simp, mem_emit hb, by simp, [.suspend b],
      rfl, by simp, .inr ⟨hg, hl, rfl, rfl⟩⟩
  obtain ⟨b0, b1, hanc, h1, h0, hf⟩ := getAncestors_found hin hs.content hio hmem hp
  set s₁ := (storeBlock io s b).emit (.cleanup b0 b1 b) with hs₁
  have hst₁ : s₁.store = (b.digest, .block b) :: s.store := by
    rw [hs₁, emit_store, storeBlock_store, hio.write]
    rfl
  obtain ⟨s₂, hcr, hst, hlast⟩ := commitRule_found (s := s₁) hin
    (hst₁ ▸ hs.content.store hin hmem hp) hio (hst₁ ▸ hf.store b) b1
  have hown : OwnVotes env.name s₂.aggregator := hst.own hs.own
  obtain ⟨hst', hlast'⟩ := voteFor_own io hown (hin.noQuorum env.name) b
  have h : processBlock env io s b = voteFor env io s₂ b := by
    simp only [processBlock, hanc, ← hs₁, hcr]
  rw [h]
  obtain ⟨l, hl, hi⟩ := (hst.trans hst').trace
  have htr : (voteFor env io s₂ b).1.trace = s.trace ++ ([.store b, .cleanup b0 b1 b] ++ l) := by
    rw [hl, hs₁]
    simp
  have hnew : ∀ a ∈ [.store b, .cleanup b0 b1 b] ++ l, isIntake a = false := by
    refine List.forall_mem_append.mpr ⟨by simp [isIntake], hi⟩
  have hacc : ∀ b', .accept b' ∉ [.store b, .cleanup b0 b1 b] ++ l := fun b' h => by
    cases hnew _ h
  have hstore : (voteFor env io s₂ b).1.store = (b.digest, .block b) :: s.store :=
    (hst.trans hst').store.trans hst₁
  refine ⟨?_, ?_, fun p => voteFor_checked (hin.checked b hmem), _, htr,
    fun b' h => absurd h (hacc b'), .inl ⟨hstore, ?_⟩⟩
  · refine hs.store hin hmem hp h1 h0 (hst.trans hst').round (hst.trans hst').highQc hstore
      ((hst.trans hst').own hs.own) ?_ fun b' => ?_
    · rw [hlast', hlast]
      rfl
    · rw [htr, List.mem_append]
      exact or_iff_left (hacc b')
  · rw [htr]
    exact List.mem_append_left _ hb
  · refine List.filterMap_eq_nil_iff.mpr fun a ha => ?_
    have := hnew a ha
    cases a <;> first | rfl | cases this

/-! ### A proposal -/

theorem own_advanceRound (r : Round) (h : OwnVotes env.name s.aggregator) :
    OwnVotes env.name (advanceRound io s r).aggregator :=
  cleanup_advanceRound (F := fun _ => OwnVotes env.name) (fun _ _ _ h => h.cleanup _) r h

theorem own_processQc (qc : QC C) (h : OwnVotes env.name s.aggregator) :
    OwnVotes env.name (processQc io s qc).aggregator :=
  cleanup_processQc (F := fun _ => OwnVotes env.name) (fun _ _ _ h => h.cleanup _) qc h

variable (io) in
/-- The new entries of `process_certificates` are none by which the core takes a block. -/
theorem processCertificates_trace (b : Block C) : ∃ l,
    (processCertificates io s b).trace = s.trace ++ l ∧ ∀ a ∈ l, isIntake a = false := by
  have hqc : ∀ a ∈ qcTrace s.round b.qc, isIntake a = false := forall_mem_qcTrace rfl rfl
  unfold processCertificates
  rcases b.tc with _ | tc
  · exact ⟨_, processQc_trace s io b.qc, hqc⟩
  · exact ⟨_, by rw [advanceRound_trace, processQc_trace, List.append_assoc],
      List.forall_mem_append.mpr ⟨hqc, forall_mem_moved rfl⟩⟩

theorem own_processCertificates (b : Block C) (h : OwnVotes env.name s.aggregator) :
    OwnVotes env.name (processCertificates io s b).aggregator := by
  unfold processCertificates
  rcases b.tc with _ | tc
  · exact own_processQc _ h
  · exact own_advanceRound _ (own_processQc _ h)

theorem processCertificates_highQc (b : Block C) :
    (processCertificates io s b).highQc.round.toNat =
      max s.highQc.round.toNat b.qc.round.toNat := by
  have h := processQc_highQc_toNat (s := s) io b.qc
  unfold processCertificates
  rcases b.tc with _ | tc
  · exact h
  · rw [advanceRound_highQc]
    exact h

theorem processCertificates_round {b : Block C} (hq : b.qc.round + 1 ≠ 0)
    (ht : ∀ tc, b.tc = some tc → tc.round + 1 ≠ 0) {S : Set ℕ}
    (hS : IsGreatest S s.round.toNat) :
    IsGreatest {m | LeadsTo b m ∨ m ∈ S} (processCertificates io s b).round.toNat := by
  have h := hS.insert (b.qc.round.toNat + 1)
  rw [max_comm, ← processQc_toNat io hq] at h
  unfold processCertificates
  rcases htc : b.tc with _ | tc
  · have hset : {m | LeadsTo b m ∨ m ∈ S} = insert (b.qc.round.toNat + 1) S :=
      Set.ext fun m => by simp [LeadsTo, htc]
    rw [hset]
    exact h
  · have h' := h.insert (tc.round.toNat + 1)
    rw [max_comm, ← advanceRound_toNat io (ht tc htc)] at h'
    have hset : {m | LeadsTo b m ∨ m ∈ S} =
        insert (tc.round.toNat + 1) (insert (b.qc.round.toNat + 1) S) :=
      Set.ext fun m => by simp [LeadsTo, htc, or_assoc, or_left_comm]
    rw [hset]
    exact h'

omit [RoundTimer T] in
/-- What the accepted blocks lead to, after one more. -/
theorem insert_accepted {b : Block C} (P : Block C → ℕ → Prop) (i : ℕ)
    (hacc : ∀ b', .accept b' ∈ s'.trace ↔ b' = b ∨ .accept b' ∈ s.trace) :
    insert i {m | ∃ c, .accept c ∈ s'.trace ∧ P c m} =
      {m | P b m ∨ m ∈ insert i {m | ∃ c, .accept c ∈ s.trace ∧ P c m}} := by
  refine Set.ext fun m => ?_
  simp only [hacc, or_and_right, exists_or, exists_eq_left, Set.mem_insert_iff, Set.mem_ofPred_eq]
  exact or_left_comm

variable (io) in
/-- **The certificates of a proposal** raise the round and the high QC to those they lead to. -/
theorem Synced.certificates (hs : Synced env st₀ bs s) {b : Block C} (hb : b ∈ bs)
    (hq : b.qc.round + 1 ≠ 0) (ht : ∀ tc, b.tc = some tc → tc.round + 1 ≠ 0) :
    Synced env st₀ bs (processCertificates io (s.emit (.accept b)) b) := by
  obtain ⟨l, hl, hi⟩ := processCertificates_trace io (s := s.emit (.accept b)) b
  have hacc : ∀ b', .accept b' ∈ (processCertificates io (s.emit (.accept b)) b).trace ↔
      b' = b ∨ .accept b' ∈ s.trace := by
    intro b'
    have hno : .accept b' ∉ l := fun h => by cases hi _ h
    rw [hl, List.mem_append, or_iff_left hno]
    simp [or_comm]
  refine ⟨by rw [processCertificates_store]; exact hs.content, own_processCertificates _ hs.own,
    fun b' h => ?_, ?_, ?_, ?_⟩
  · rcases (hacc b').mp h with rfl | h
    · exact hb
    · exact hs.accepted b' h
  · rw [insert_accepted LeadsTo 1 hacc]
    exact processCertificates_round hq ht hs.round
  · rw [insert_accepted (fun c m => m = c.qc.round.toNat) 0 hacc, processCertificates_highQc]
    exact isGreatest_of_iff hs.highQc fun m => Iff.rfl
  · rw [processCertificates_store, processCertificates_lastCommittedRound]
    exact hs.committed

omit [RoundTimer T] in
/-- A payload in the store. -/
theorem missingPayload_nil (hio : Succeeds io) {st : Store C} : ∀ {payload : List C.Digest},
    (∀ d ∈ payload, (st.lookup d).isSome) → missingPayload io st payload = .ok []
  | [], _ => rfl
  | x :: xs, h => by
    obtain ⟨v, hv⟩ := Option.isSome_iff_exists.mp (h x List.mem_cons_self)
    have hxs := missingPayload_nil hio fun d hd => h d (List.mem_cons_of_mem _ hd)
    simp only [missingPayload, read_of_succeed hio, hv, hxs]
    rfl

/-- **A proposal**: its certificates are processed, and the block is stored or suspended. -/
theorem handleProposal_settled (hin : Input env st₀ bs) (hnl : NotLast bs) (hio : Succeeds io)
    (hs : Synced env st₀ bs s) {b : Block C} (hb : b ∈ bs) :
    Settled env st₀ bs b s (handleProposal env io s b) := by
  have hchk := hin.checked b hb
  have hs₁ := hs.certificates io hb (hnl b hb).1 (hnl b hb).2
  obtain ⟨l, hl, hi⟩ := processCertificates_trace io (s := s.emit (.accept b)) b
  have hst : (processCertificates io (s.emit (.accept b)) b).store = s.store :=
    processCertificates_store _ io b
  set s₁ := processCertificates io (s.emit (.accept b)) b with hdef
  have hacc : .accept b ∈ s₁.trace := by
    rw [hl]
    exact List.mem_append_left _ (mem_emit_self s _)
  have hmem : mempoolVerify io s₁ b = (s₁, .ok true) := by
    simp only [mempoolVerify, missingPayload_nil hio (hs₁.content.payload hin hb)]
  have h : handleProposal env io s b = processBlock env io s₁ b := by
    simp only [handleProposal, if_pos hchk.1, hchk.2, ← hdef, hmem]
  obtain ⟨hsync, hacc', hpanic, l', hl', hin', hout⟩ := processBlock_settled hin hio hs₁ hacc
  rw [h]
  refine ⟨hsync, hacc', hpanic, .accept b :: l ++ l', ?_, fun b' hb' => ?_, ?_⟩
  · rw [hl', hl]
    simp
  · rcases List.mem_append.mp hb' with hb' | hb'
    · rcases List.mem_cons.mp hb' with hb' | hb'
      · cases hb'
        rfl
      · cases hi _ hb'
    · exact hin' b' hb'
  · have hnil : (Action.accept b :: l).filterMap toSynchronizer = [] := by
      refine List.filterMap_eq_nil_iff.mpr (List.forall_mem_cons.mpr ⟨rfl, fun a ha => ?_⟩)
      have := hi a ha
      cases a <;> first | rfl | cases this
    rw [List.filterMap_append, hnil, List.nil_append]
    rwa [hst] at hout

end Synced

/-! ### All blocks -/

/-- The same content of the store, and the same rounds. -/
structure Agree (s s' : Core C T) : Prop where
  store : ∀ d, s.store.lookup d = s'.store.lookup d
  round : s.round = s'.round
  highQc : s.highQc.round = s'.highQc.round
  committed : s.lastCommittedRound = s'.lastCommittedRound

/-- All blocks of the list are accepted and stored. -/
structure Complete (bs : List (Block C)) (s : Core C T) : Prop where
  accepted : ∀ b ∈ bs, .accept b ∈ s.trace
  stored : ∀ b ∈ bs, (s.store.lookup b.digest).isSome

section Complete

variable {env : Env C} {st₀ : Store C} {bs : List (Block C)} {s s' : Core C T}

/-- **Once all blocks are stored the state does not depend on the way.** -/
theorem Synced.agree (hin : Input env st₀ bs) (hs : Synced env st₀ bs s)
    (hs' : Synced env st₀ bs s') (h : Complete bs s) (h' : Complete bs s') : Agree s s' := by
  have hacc : ∀ b, .accept b ∈ s.trace ↔ .accept b ∈ s'.trace := fun b =>
    ⟨fun hb => h'.accepted b (hs.accepted b hb), fun hb => h.accepted b (hs'.accepted b hb)⟩
  have hst : ∀ b ∈ bs, (s.store.lookup b.digest).isSome ↔ (s'.store.lookup b.digest).isSome :=
    fun b hb => iff_of_true (h.stored b hb) (h'.stored b hb)
  refine ⟨fun d => ?_, ?_, ?_, ?_⟩
  · by_cases hd : ∃ b ∈ bs, b.digest = d
    · obtain ⟨b, hb, rfl⟩ := hd
      rw [hs.content.stored hin hb (h.stored b hb), hs'.content.stored hin hb (h'.stored b hb)]
    · have hold : ∀ {st : Store C}, Content st₀ bs st → st.lookup d = st₀.lookup d := fun hc =>
        (hc.value d).resolve_right fun ⟨b, hb, hbd, _⟩ => hd ⟨b, hb, hbd⟩
      rw [hold hs.content, hold hs'.content]
  · refine UInt64.toNat_inj.mp (hs.round.unique ?_)
    simpa only [hacc] using hs'.round
  · refine UInt64.toNat_inj.mp (hs.highQc.unique ?_)
    simpa only [hacc] using hs'.highQc
  · refine UInt64.toNat_inj.mp (hs.committed.unique ?_)
    have hset : ∀ m, (∃ b ∈ bs, (s.store.lookup b.digest).isSome ∧ Commits bs b m) ↔
        ∃ b ∈ bs, (s'.store.lookup b.digest).isSome ∧ Commits bs b m := fun m =>
      exists_congr fun b => and_congr_right fun hb => and_congr_left fun _ => hst b hb
    simpa only [hset] using hs'.committed

end Complete

end Hotstuff.Consensus.Catchup
