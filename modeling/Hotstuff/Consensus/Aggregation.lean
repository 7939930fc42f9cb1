import Hotstuff.Consensus.Messages

/-! # The aggregator: assembling certificates

`QCMaker` and `TCMaker` do the same with entries of different types: refuse a second entry of an
author, collect the entry, add the author's stake, and hand out the entries once the weight reaches
the threshold, after which the weight starts again from zero. `Maker` is both. The aggregator keeps
one maker for each round and vote digest, and one for each round of timeouts.

`Maker.Ok` is what a maker always satisfies; `addVote_ok` and `addTimeout_ok` say that adding an
entry keeps it, and that the signers of an assembled certificate are a quorum of distinct
authorities whose entries have whatever property the added ones have. -/

namespace Hotstuff.Consensus.Aggregation

open Hotstuff.Primitives Hotstuff.Consensus.Config Hotstuff.Consensus.Messages

variable {C : Crypto} {α : Type}

/-- `QCMaker` and `TCMaker`, for entries of type `α`. -/
structure Maker (C : Crypto) (α : Type) where
  weight : Stake
  votes : List α
  used : List C.PublicKey

namespace Maker

def new : Maker C α := ⟨0, [], []⟩

/-- Try to append an entry to a partial quorum. -/
def append (m : Maker C α) (c : Committee C) (author : C.PublicKey) (entry : α) :
    Maker C α × Except (ConsensusError C) (Option (List α)) :=
  if author ∈ m.used then (m, .error (.authorityReuse author))
  else
    let m : Maker C α := ⟨m.weight + c.stake author, m.votes ++ [entry], author :: m.used⟩
    -- the weight is reset, which ensures that the certificate is only made once
    if c.quorumThreshold ≤ m.weight then ({ m with weight := 0 }, .ok (some m.votes))
    else (m, .ok none)

end Maker

abbrev QCMaker (C : Crypto) := Maker C (C.PublicKey × C.Signature)

abbrev TCMaker (C : Crypto) := Maker C (C.PublicKey × C.Signature × Round)

def QCMaker.appendVote (m : QCMaker C) (vote : Vote C) (c : Committee C) :
    QCMaker C × Except (ConsensusError C) (Option (QC C)) :=
  match m.append c vote.author (vote.author, vote.signature) with
  | (m, .error e) => (m, .error e)
  | (m, .ok votes) => (m, .ok (votes.map fun votes => ⟨vote.hash, vote.round, votes⟩))

def TCMaker.appendTimeout (m : TCMaker C) (timeout : Timeout C) (c : Committee C) :
    TCMaker C × Except (ConsensusError C) (Option (TC C)) :=
  match m.append c timeout.author (timeout.author, timeout.signature, timeout.highQc.round) with
  | (m, .error e) => (m, .error e)
  | (m, .ok votes) => (m, .ok (votes.map fun votes => ⟨timeout.round, votes⟩))

structure Aggregator (C : Crypto) where
  votesAggregators : Round → C.Digest → Option (QCMaker C)
  timeoutsAggregators : Round → Option (TCMaker C)

namespace Aggregator

def new : Aggregator C := ⟨fun _ _ => none, fun _ => none⟩

def addVote (a : Aggregator C) (c : Committee C) (vote : Vote C) :
    Aggregator C × Except (ConsensusError C) (Option (QC C)) :=
  let maker := (a.votesAggregators vote.round vote.digest).getD Maker.new
  let (maker, result) := QCMaker.appendVote maker vote c
  ({ a with
      votesAggregators := fun r d =>
        if r = vote.round ∧ d = vote.digest then some maker else a.votesAggregators r d }, result)

def addTimeout (a : Aggregator C) (c : Committee C) (timeout : Timeout C) :
    Aggregator C × Except (ConsensusError C) (Option (TC C)) :=
  let maker := (a.timeoutsAggregators timeout.round).getD Maker.new
  let (maker, result) := TCMaker.appendTimeout maker timeout c
  ({ a with
      timeoutsAggregators := fun r =>
        if r = timeout.round then some maker else a.timeoutsAggregators r }, result)

/-- Only the makers of `round` and above are retained. -/
def cleanup (a : Aggregator C) (round : Round) : Aggregator C :=
  ⟨fun r d => if round ≤ r then a.votesAggregators r d else none,
    fun r => if round ≤ r then a.timeoutsAggregators r else none⟩

end Aggregator

/-! ### Makers -/

/-- The signers of a list of entries are distinct authorities, and each entry satisfies `P`. -/
structure Signers (c : Committee C) (name : α → C.PublicKey) (P : α → Prop) (votes : List α) :
    Prop where
  nodup : (votes.map name).Nodup
  mem : ∀ v ∈ votes, name v ∈ c.members
  entry : ∀ v ∈ votes, P v

/-- The stake of the signers, as a natural number. -/
def signersWeight (c : Committee C) (name : α → C.PublicKey) (votes : List α) : ℕ :=
  (votes.map fun v => (c.stake (name v)).toNat).sum

theorem Signers.weight {c : Committee C} {name : α → C.PublicKey} {P : α → Prop} {votes : List α}
    (h : Signers c name P votes) :
    c.weight (votes.map name).toFinset = signersWeight c name votes := by
  rw [weight_toFinset c h.nodup, List.map_map, List.map_map]
  rfl

/-- **The signers of entries of enough weight are a quorum.** -/
theorem Signers.quorum {c : Committee C} {name : α → C.PublicKey} {P : α → Prop} {votes : List α}
    (h : Signers c name P votes) (hw : c.quorumThreshold.toNat ≤ signersWeight c name votes) :
    c.Quorum (votes.map name).toFinset := by
  refine ⟨fun k hk => ?_, by rw [h.weight]; exact hw⟩
  obtain ⟨v, hv, rfl⟩ := List.mem_map.mp (List.mem_toFinset.mp hk)
  exact h.mem v hv

/-- The invariant of a maker: `used` are the signers, and the weight does not exceed their stake. -/
structure Maker.Ok (c : Committee C) (name : α → C.PublicKey) (P : α → Prop) (m : Maker C α) :
    Prop where
  signers : Signers c name P m.votes
  used : ∀ k, k ∈ m.used ↔ k ∈ m.votes.map name
  weight : m.weight.toNat ≤ signersWeight c name m.votes

theorem Maker.ok_new {c : Committee C} {name : α → C.PublicKey} {P : α → Prop} :
    (Maker.new : Maker C α).Ok c name P :=
  ⟨⟨by simp [Maker.new], by simp [Maker.new], by simp [Maker.new]⟩, by simp [Maker.new],
    by simp [Maker.new]⟩

theorem Maker.Ok.mono {c : Committee C} {name : α → C.PublicKey} {P P' : α → Prop} {m : Maker C α}
    (h : m.Ok c name P) (hP : ∀ v, P v → P' v) : m.Ok c name P' :=
  ⟨⟨h.signers.nodup, h.signers.mem, fun v hv => hP v (h.signers.entry v hv)⟩, h.used, h.weight⟩

/-- **Appending an entry**: the maker keeps its invariant, and entries are handed out only when
their signers reach the threshold. -/
theorem Maker.append_ok {c : Committee C} {name : α → C.PublicKey} {P : α → Prop} {m m' : Maker C α}
    {entry : α} {r : Except (ConsensusError C) (Option (List α))} (h : m.Ok c name P)
    (hP : P entry) (hmem : name entry ∈ c.members)
    (ha : m.append c (name entry) entry = (m', r)) :
    m'.Ok c name P ∧ ∀ votes, r = .ok (some votes) → Signers c name P votes ∧ entry ∈ votes ∧
      c.quorumThreshold.toNat ≤ signersWeight c name votes := by
  unfold Maker.append at ha
  by_cases hu : name entry ∈ m.used
  · rw [if_pos hu] at ha
    cases ha
    exact ⟨h, fun votes hv => by cases hv⟩
  rw [if_neg hu] at ha
  have hnew : Signers c name P (m.votes ++ [entry]) := by
    refine ⟨?_, ?_, ?_⟩
    · rw [List.map_append, List.nodup_append]
      refine ⟨h.signers.nodup, by simp, fun a ha b hb => ?_⟩
      rintro rfl
      have hb' : a = name entry := by simpa using hb
      exact hu ((h.used _).mpr (hb' ▸ ha))
    · intro v hv
      rcases List.mem_append.mp hv with hv | hv
      · exact h.signers.mem v hv
      · rw [List.mem_singleton.mp hv]; exact hmem
    · intro v hv
      rcases List.mem_append.mp hv with hv | hv
      · exact h.signers.entry v hv
      · rw [List.mem_singleton.mp hv]; exact hP
  have hused : ∀ k, k ∈ name entry :: m.used ↔ k ∈ (m.votes ++ [entry]).map name := by
    intro k
    simp only [List.mem_cons, List.map_append, List.mem_append, List.map_cons, List.map_nil,
      List.not_mem_nil, or_false, h.used]
    exact or_comm
  -- the weight may wrap, but then it only gets smaller
  have hw : (m.weight + c.stake (name entry)).toNat ≤
      signersWeight c name (m.votes ++ [entry]) := by
    have hold := h.weight
    have hadd : signersWeight c name (m.votes ++ [entry]) =
        signersWeight c name m.votes + (c.stake (name entry)).toNat := by simp [signersWeight]
    rw [UInt32.toNat_add, hadd]
    exact le_trans (Nat.mod_le _ _) (by omega)
  dsimp only at ha
  split_ifs at ha with hq
  · cases ha
    refine ⟨⟨hnew, hused, Nat.zero_le _⟩, fun votes hv => ?_⟩
    cases hv
    exact ⟨hnew, by simp, le_trans (UInt32.le_iff_toNat_le.mp hq) hw⟩
  · cases ha
    exact ⟨⟨hnew, hused, hw⟩, fun votes hv => by cases hv⟩

/-! ### The aggregator -/

/-- Every maker satisfies its invariant: `V r d` for the votes of round `r` with digest `d`, `T r`
for the timeouts of round `r`. -/
structure Aggregator.Ok (c : Committee C) (V : Round → C.Digest → C.PublicKey × C.Signature → Prop)
    (T : Round → C.PublicKey × C.Signature × Round → Prop) (a : Aggregator C) : Prop where
  votes : ∀ r d m, a.votesAggregators r d = some m → m.Ok c Prod.fst (V r d)
  timeouts : ∀ r m, a.timeoutsAggregators r = some m → m.Ok c Prod.fst (T r)

section Aggregator

variable {c : Committee C} {V V' : Round → C.Digest → C.PublicKey × C.Signature → Prop}
  {T T' : Round → C.PublicKey × C.Signature × Round → Prop} {a : Aggregator C}

theorem ok_new : (Aggregator.new : Aggregator C).Ok c V T :=
  ⟨fun _ _ _ h => (nomatch h), fun _ _ h => (nomatch h)⟩

theorem Aggregator.Ok.mono (h : a.Ok c V T) (hV : ∀ r d v, V r d v → V' r d v)
    (hT : ∀ r v, T r v → T' r v) : a.Ok c V' T' :=
  ⟨fun r d m hm => (h.votes r d m hm).mono (hV r d),
    fun r m hm => (h.timeouts r m hm).mono (hT r)⟩

theorem Aggregator.Ok.cleanup (h : a.Ok c V T) (round : Round) : (a.cleanup round).Ok c V T := by
  refine ⟨fun r d m hm => ?_, fun r m hm => ?_⟩
  · unfold Aggregator.cleanup at hm
    dsimp only at hm
    split_ifs at hm
    exact h.votes r d m hm
  · unfold Aggregator.cleanup at hm
    dsimp only at hm
    split_ifs at hm
    exact h.timeouts r m hm

/-- An assembled `QC` certifies what the added vote is for. -/
theorem addVote_qc {vote : Vote C} {a' : Aggregator C} {qc : QC C}
    (h : a.addVote c vote = (a', .ok (some qc))) : qc.hash = vote.hash ∧ qc.round = vote.round := by
  unfold Aggregator.addVote QCMaker.appendVote at h
  rcases happ : Maker.append ((a.votesAggregators vote.round vote.digest).getD Maker.new) c
    vote.author (vote.author, vote.signature) with ⟨m', e | votes⟩
  · simp [happ] at h
  · simp only [happ, Prod.mk.injEq, Except.ok.injEq, Option.map_eq_some_iff] at h
    obtain ⟨-, votes, -, rfl⟩ := h
    exact ⟨rfl, rfl⟩

/-- An assembled `TC` is of the round of the added timeout. -/
theorem addTimeout_tc {timeout : Timeout C} {a' : Aggregator C} {tc : TC C}
    (h : a.addTimeout c timeout = (a', .ok (some tc))) : tc.round = timeout.round := by
  unfold Aggregator.addTimeout TCMaker.appendTimeout at h
  rcases happ : Maker.append ((a.timeoutsAggregators timeout.round).getD Maker.new) c
    timeout.author (timeout.author, timeout.signature, timeout.highQc.round) with ⟨m', e | votes⟩
  · simp [happ] at h
  · simp only [happ, Prod.mk.injEq, Except.ok.injEq, Option.map_eq_some_iff] at h
    obtain ⟨-, votes, -, rfl⟩ := h
    rfl

/-- **Adding a vote.** -/
theorem addVote_ok {vote : Vote C} {a' : Aggregator C}
    {r : Except (ConsensusError C) (Option (QC C))}
    (h : a.Ok c V T) (hV : V vote.round vote.digest (vote.author, vote.signature))
    (hmem : vote.author ∈ c.members) (ha : a.addVote c vote = (a', r)) :
    a'.Ok c V T ∧ ∀ qc, r = .ok (some qc) →
      Signers c Prod.fst (V vote.round vote.digest) qc.votes ∧
      c.quorumThreshold.toNat ≤ signersWeight c Prod.fst qc.votes := by
  have hold : ((a.votesAggregators vote.round vote.digest).getD Maker.new).Ok c Prod.fst
      (V vote.round vote.digest) := by
    rcases hm : a.votesAggregators vote.round vote.digest with _ | m
    · exact Maker.ok_new
    · exact h.votes _ _ m hm
  rcases happ : Maker.append ((a.votesAggregators vote.round vote.digest).getD Maker.new) c
    vote.author (vote.author, vote.signature) with ⟨m', r'⟩
  obtain ⟨hm', hr'⟩ := Maker.append_ok hold hV hmem happ
  have hagg : ∀ m₁ : QCMaker C, m₁.Ok c Prod.fst (V vote.round vote.digest) →
      Aggregator.Ok c V T { a with
        votesAggregators := fun r d =>
          if r = vote.round ∧ d = vote.digest then some m₁ else a.votesAggregators r d } := by
    refine fun m₁ hm₁ => ⟨fun r d m hm => ?_, h.timeouts⟩
    dsimp only at hm
    split_ifs at hm with hrd
    · cases hm; rw [hrd.1, hrd.2]; exact hm₁
    · exact h.votes r d m hm
  unfold Aggregator.addVote QCMaker.appendVote at ha
  simp only [happ] at ha
  rcases r' with e | votes
  · cases ha
    exact ⟨hagg m' hm', fun qc hqc => by cases hqc⟩
  · cases ha
    refine ⟨hagg m' hm', fun qc hqc => ?_⟩
    obtain ⟨votes, rfl, rfl⟩ := Option.map_eq_some_iff.mp (Except.ok.inj hqc)
    obtain ⟨h1, -, h2⟩ := hr' votes rfl
    exact ⟨h1, h2⟩

/-- **Adding a timeout.** -/
theorem addTimeout_ok {timeout : Timeout C} {a' : Aggregator C}
    {r : Except (ConsensusError C) (Option (TC C))} (h : a.Ok c V T)
    (hT : T timeout.round (timeout.author, timeout.signature, timeout.highQc.round))
    (hmem : timeout.author ∈ c.members) (ha : a.addTimeout c timeout = (a', r)) :
    a'.Ok c V T ∧ ∀ tc, r = .ok (some tc) →
      Signers c Prod.fst (T timeout.round) tc.votes ∧
      c.quorumThreshold.toNat ≤ signersWeight c Prod.fst tc.votes ∧ tc.votes ≠ [] := by
  have hold : ((a.timeoutsAggregators timeout.round).getD Maker.new).Ok c Prod.fst
      (T timeout.round) := by
    rcases hm : a.timeoutsAggregators timeout.round with _ | m
    · exact Maker.ok_new
    · exact h.timeouts _ m hm
  rcases happ : Maker.append ((a.timeoutsAggregators timeout.round).getD Maker.new) c
    timeout.author (timeout.author, timeout.signature, timeout.highQc.round) with ⟨m', r'⟩
  obtain ⟨hm', hr'⟩ := Maker.append_ok hold hT hmem happ
  have hagg : ∀ m₁ : TCMaker C, m₁.Ok c Prod.fst (T timeout.round) →
      Aggregator.Ok c V T { a with
        timeoutsAggregators := fun r =>
          if r = timeout.round then some m₁ else a.timeoutsAggregators r } := by
    refine fun m₁ hm₁ => ⟨h.votes, fun r m hm => ?_⟩
    dsimp only at hm
    split_ifs at hm with hr
    · cases hm; rw [hr]; exact hm₁
    · exact h.timeouts r m hm
  unfold Aggregator.addTimeout TCMaker.appendTimeout at ha
  simp only [happ] at ha
  rcases r' with e | votes
  · cases ha
    exact ⟨hagg m' hm', fun tc htc => by cases htc⟩
  · cases ha
    refine ⟨hagg m' hm', fun tc htc => ?_⟩
    obtain ⟨votes, rfl, rfl⟩ := Option.map_eq_some_iff.mp (Except.ok.inj htc)
    obtain ⟨h1, hin, h2⟩ := hr' votes rfl
    exact ⟨h1, h2, List.ne_nil_of_mem hin⟩

end Aggregator

end Hotstuff.Consensus.Aggregation
