import Hotstuff.Consensus.Aggregation
import Hotstuff.Ideal

/-! # One certificate for each quorum

As long as twice the total stake fits, the weight of a maker is the stake of its signers before the
threshold is reached, and stays below the threshold afterwards, since less than a third of the stake
is left (`Maker.Exact`). So in any sequence of calls of the aggregator each call returns what it
should (`Answers`), a certificate once for each quorum, and the certificates pass the verifiers
(`one_certificate`). -/

namespace Hotstuff.Consensus.Aggregation

open Hotstuff.Primitives Hotstuff.Consensus.Config Hotstuff.Consensus.Messages

variable {C : Crypto} {α : Type}

/-! ### Makers -/

/-- The signers of the maker are `Q`; the weight is their stake, or what was added since they
reached the threshold. -/
structure Maker.Exact (c : Committee C) (name : α → C.PublicKey) (P : α → Prop)
    (Q : Finset C.PublicKey) (m : Maker C α) : Prop extends m.Ok c name P where
  names : (m.votes.map name).toFinset = Q
  below : c.weight Q < c.quorumThreshold.toNat → m.weight.toNat = c.weight Q
  above : c.quorumThreshold.toNat ≤ c.weight Q →
    m.weight.toNat + c.quorumThreshold.toNat ≤ c.weight Q

/-- What a call should return that adds an entry of `author` to those of `Q`: an error if there is
one already, and then nothing changes; a certificate if the threshold is reached only now. -/
def Answers {γ : Type} (c : Committee C) (Q : Finset C.PublicKey) (author : C.PublicKey)
    (unchanged : Prop) (valid : γ → Prop) (result : Except (ConsensusError C) (Option γ)) : Prop :=
  if author ∈ Q then result = .error (.authorityReuse author) ∧ unchanged
  else if c.weight Q < c.quorumThreshold.toNat ∧
      c.quorumThreshold.toNat ≤ c.weight (insert author Q) then
    ∃ x, result = .ok (some x) ∧ valid x
  else result = .ok none

/-- The answer of a maker, as the aggregator returns it. -/
theorem Answers.map {γ δ : Type} {c : Committee C} {Q : Finset C.PublicKey} {author : C.PublicKey}
    {u u' : Prop} {valid : γ → Prop} {valid' : δ → Prop} {f : γ → δ}
    {result : Except (ConsensusError C) (Option γ)} (h : Answers c Q author u valid result)
    (hu : author ∈ Q → u → u') (hv : ∀ x, valid x → valid' (f x)) :
    Answers c Q author u' valid' (result.map (Option.map f)) := by
  unfold Answers at h ⊢
  split_ifs at h ⊢ with hQ hw
  · rw [h.1]
    exact ⟨rfl, hu hQ h.2⟩
  · obtain ⟨x, rfl, hx⟩ := h
    exact ⟨f x, rfl, hv x hx⟩
  · rw [h]
    rfl

theorem weight_insert (c : Committee C) {Q : Finset C.PublicKey} {k : C.PublicKey} (h : k ∉ Q) :
    c.weight (insert k Q) = c.weight Q + (c.stake k).toNat := by
  unfold Committee.weight
  rw [Finset.sum_insert h, add_comm]

namespace Maker

variable {c : Committee C} {name : α → C.PublicKey} {P : α → Prop} {Q : Finset C.PublicKey}
  {m : Maker C α}

theorem exact_new : (Maker.new : Maker C α).Exact c name P ∅ :=
  ⟨ok_new, rfl, fun _ => rfl, fun h => by
    have := threshold_pos c
    rw [UInt32.lt_iff_toNat_lt] at this
    exact absurd (this.trans_le h) (by simp [Committee.weight])⟩

theorem Exact.mem_used (h : m.Exact c name P Q) {k : C.PublicKey} : k ∈ m.used ↔ k ∈ Q := by
  rw [h.used, ← h.names, List.mem_toFinset]

/-- **Appending an entry.** -/
theorem append_exact (hno : c.NoOverflow) (h : m.Exact c name P Q) (entry : α) (hP : P entry)
    (hmem : name entry ∈ c.members) :
    (m.append c (name entry) entry).1.Exact c name P (insert (name entry) Q) ∧
      Answers c Q (name entry) ((m.append c (name entry) entry).1 = m)
        (fun votes => Signers c name P votes ∧
          c.quorumThreshold.toNat ≤ signersWeight c name votes)
        (m.append c (name entry) entry).2 := by
  have hok := append_ok h.toOk hP hmem (Prod.mk.eta (p := m.append c (name entry) entry)).symm
  unfold Answers
  by_cases hu : name entry ∈ m.used
  · have hQ := h.mem_used.mp hu
    have heq : m.append c (name entry) entry = (m, .error (.authorityReuse (name entry))) :=
      if_pos hu
    rw [heq, Finset.insert_eq_of_mem hQ, if_pos hQ]
    exact ⟨h, rfl, rfl⟩
  have hQ : name entry ∉ Q := fun hQ => hu (h.mem_used.mpr hQ)
  have hw := weight_insert c hQ
  have hle : c.weight (insert (name entry) Q) ≤ c.total :=
    weight_le_total c _
  have hthr := toNat_threshold hno
  have hfits : 2 * c.total < 2 ^ 32 := hno
  have hbelow := h.below
  have habove := h.above
  -- the weight does not wrap, and after the threshold it stays below it
  have hsum : (m.weight + c.stake (name entry)).toNat =
      m.weight.toNat + (c.stake (name entry)).toNat := by
    rw [UInt32.toNat_add, Nat.mod_eq_of_lt (by omega)]
  have hnames : ((m.votes ++ [entry]).map name).toFinset = insert (name entry) Q := by
    rw [List.map_append, List.toFinset_append, h.names, Finset.union_comm]
    rfl
  rw [if_neg hQ]
  by_cases hq : c.quorumThreshold ≤ m.weight + c.stake (name entry)
  · have hq' := UInt32.le_iff_toNat_le.mp hq
    rw [hsum] at hq'
    have heq : m.append c (name entry) entry =
        (⟨0, m.votes ++ [entry], name entry :: m.used⟩, .ok (some (m.votes ++ [entry]))) := by
      simp [append, hu, hq]
    rw [heq] at hok ⊢
    have hvotes := (hok.2 _ rfl)
    refine ⟨⟨hok.1, hnames, fun hlt => ?_, fun _ => ?_⟩, ?_⟩
    · omega
    · show 0 + _ ≤ _
      omega
    · rw [if_pos (by omega)]
      exact ⟨_, rfl, hvotes.1, hvotes.2.2⟩
  · have hq' := mt UInt32.le_iff_toNat_le.mpr hq
    rw [hsum] at hq'
    have heq : m.append c (name entry) entry =
        (⟨m.weight + c.stake (name entry), m.votes ++ [entry], name entry :: m.used⟩,
          .ok none) := by
      simp [append, hu, hq]
    rw [heq] at hok ⊢
    refine ⟨⟨hok.1, hnames, fun hlt => ?_, fun hge => ?_⟩, ?_⟩
    · show (m.weight + c.stake (name entry)).toNat = _
      omega
    · show (m.weight + c.stake (name entry)).toNat + _ ≤ _
      omega
    · rw [if_neg (by omega)]

end Maker

/-! ### Sequences of calls -/

/-- A call of the aggregator. -/
inductive Input (C : Crypto) where
  | vote (vote : Vote C)
  | timeout (timeout : Timeout C)
  | cleanup (round : Round)

namespace Aggregator

variable (c : Committee C)

/-- The state after a call. -/
def after (a : Aggregator C) : Input C → Aggregator C
  | .vote v => (a.addVote c v).1
  | .timeout t => (a.addTimeout c t).1
  | .cleanup round => a.cleanup round

/-- The certificates that a call returns. -/
def qcOf (a : Aggregator C) : Input C → Option (QC C)
  | .vote v => ((a.addVote c v).2.toOption).join
  | _ => none

def tcOf (a : Aggregator C) : Input C → Option (TC C)
  | .timeout t => ((a.addTimeout c t).2.toOption).join
  | _ => none

/-- The state after a sequence of calls. -/
def run (a : Aggregator C) (xs : List (Input C)) : Aggregator C := xs.foldl (after c) a

/-- The certificates that a sequence of calls returns. -/
def qcs (a : Aggregator C) : List (Input C) → List (QC C)
  | [] => []
  | x :: xs => (a.qcOf c x).toList ++ qcs (a.after c x) xs

def tcs (a : Aggregator C) : List (Input C) → List (TC C)
  | [] => []
  | x :: xs => (a.tcOf c x).toList ++ tcs (a.after c x) xs

theorem run_append (a : Aggregator C) (xs ys : List (Input C)) :
    a.run c (xs ++ ys) = (a.run c xs).run c ys := List.foldl_append

theorem qcs_singleton (a : Aggregator C) (x : Input C) : a.qcs c [x] = (a.qcOf c x).toList :=
  List.append_nil _

theorem tcs_singleton (a : Aggregator C) (x : Input C) : a.tcs c [x] = (a.tcOf c x).toList :=
  List.append_nil _

theorem qcs_append (a : Aggregator C) (xs ys : List (Input C)) :
    a.qcs c (xs ++ ys) = a.qcs c xs ++ (a.run c xs).qcs c ys := by
  induction xs generalizing a with
  | nil => rfl
  | cons x xs ih =>
    show _ ++ qcs c _ (xs ++ ys) = (_ ++ _) ++ _
    rw [ih, List.append_assoc]
    rfl

theorem tcs_append (a : Aggregator C) (xs ys : List (Input C)) :
    a.tcs c (xs ++ ys) = a.tcs c xs ++ (a.run c xs).tcs c ys := by
  induction xs generalizing a with
  | nil => rfl
  | cons x xs ih =>
    show _ ++ tcs c _ (xs ++ ys) = (_ ++ _) ++ _
    rw [ih, List.append_assoc]
    rfl

end Aggregator

/-- The author of a vote for the block. -/
def votesFor (r : Round) (hash : C.Digest) : Input C → Option C.PublicKey
  | .vote v => if v.round = r ∧ v.hash = hash then some v.author else none
  | _ => none

/-- The author of a timeout of the round. -/
def timesOut (r : Round) : Input C → Option C.PublicKey
  | .timeout t => if t.round = r then some t.author else none
  | _ => none

/-- The call adds a vote or a timeout of the round. -/
def OfRound (r : Round) : Input C → Prop
  | .vote v => v.round = r
  | .timeout t => t.round = r
  | .cleanup _ => False

/-- No clean-up above the round comes after a call of the round. -/
def Uninterrupted (r : Round) (xs : List (Input C)) : Prop :=
  ∀ ys r' zs, xs = ys ++ .cleanup r' :: zs → r < r' → ∀ y ∈ ys, ¬ OfRound r y

/-- The authors of the votes for the block. -/
def voters (r : Round) (hash : C.Digest) (xs : List (Input C)) : Finset C.PublicKey :=
  (xs.filterMap (votesFor r hash)).toFinset

/-- The authors of the timeouts of the round. -/
def timedOut (r : Round) (xs : List (Input C)) : Finset C.PublicKey :=
  (xs.filterMap (timesOut r)).toFinset

section Calls

variable {c : Committee C} {r : Round} {hash : C.Digest} {xs : List (Input C)} {x : Input C}

theorem authors_append_some {f : Input C → Option C.PublicKey} {k : C.PublicKey}
    (h : f x = some k) :
    ((xs ++ [x]).filterMap f).toFinset = insert k (xs.filterMap f).toFinset := by
  rw [List.filterMap_append, List.filterMap_cons_some h, List.filterMap_nil, List.toFinset_append,
    Finset.union_comm]
  rfl

theorem authors_append_none {f : Input C → Option C.PublicKey} (h : f x = none) :
    ((xs ++ [x]).filterMap f).toFinset = (xs.filterMap f).toFinset := by
  rw [List.filterMap_append, List.filterMap_cons_none h, List.filterMap_nil, List.append_nil]

theorem voters_eq_empty (h : ∀ x ∈ xs, ¬ OfRound r x) : voters r hash xs = ∅ := by
  rw [voters, List.filterMap_eq_nil_iff.mpr, List.toFinset_nil]
  intro x hx
  cases x with
  | vote v => exact if_neg fun hv => h _ hx hv.1
  | timeout t => rfl
  | cleanup r' => rfl

theorem timedOut_eq_empty (h : ∀ x ∈ xs, ¬ OfRound r x) : timedOut r xs = ∅ := by
  rw [timedOut, List.filterMap_eq_nil_iff.mpr, List.toFinset_nil]
  intro x hx
  cases x with
  | vote v => rfl
  | timeout t => exact if_neg (h _ hx)
  | cleanup r' => rfl

/-- The signature is of an authority, and for the digest. -/
def Signs (c : Committee C) (d : C.Digest) (k : C.PublicKey) (s : C.Signature) : Prop :=
  0 < c.stake k ∧ C.verify s d k = true

/-- The makers of the round are those of the calls so far. -/
structure Tracks (c : Committee C) (r : Round) (xs : List (Input C)) (a : Aggregator C) :
    Prop where
  votes : ∀ hash, ((a.votesAggregators r (voteDigest hash r)).getD Maker.new).Exact c Prod.fst
    (fun e => Signs c (voteDigest hash r) e.1 e.2) (voters r hash xs)
  timeouts : ((a.timeoutsAggregators r).getD Maker.new).Exact c Prod.fst
    (fun e => Signs c (timeoutDigest r e.2.2) e.1 e.2.1) (timedOut r xs)

theorem tracks_new : Tracks c r [] Aggregator.new :=
  ⟨fun _ => Maker.exact_new, Maker.exact_new⟩

theorem appendVote_eq (m : QCMaker C) (v : Vote C) : m.appendVote v c =
    ((m.append c v.author (v.author, v.signature)).1,
      (m.append c v.author (v.author, v.signature)).2.map fun votes =>
        votes.map fun votes => ⟨v.hash, v.round, votes⟩) := by
  unfold QCMaker.appendVote
  rcases m.append c v.author (v.author, v.signature) with ⟨m', e | votes⟩ <;> rfl

theorem appendTimeout_eq (m : TCMaker C) (t : Timeout C) : m.appendTimeout t c =
    ((m.append c t.author (t.author, t.signature, t.highQc.round)).1,
      (m.append c t.author (t.author, t.signature, t.highQc.round)).2.map fun votes =>
        votes.map fun votes => ⟨t.round, votes⟩) := by
  unfold TCMaker.appendTimeout
  rcases m.append c t.author (t.author, t.signature, t.highQc.round) with ⟨m', e | votes⟩ <;> rfl

/-- What a call of `add_vote` does to the maker of the vote. -/
theorem addVote_eq (a : Aggregator C) (v : Vote C) :
    (a.addVote c v).1 = { a with
      votesAggregators := fun r d =>
        if r = v.round ∧ d = v.digest then
          some (((a.votesAggregators v.round v.digest).getD Maker.new).append c v.author
            (v.author, v.signature)).1
        else a.votesAggregators r d } ∧
      (a.addVote c v).2 = (((a.votesAggregators v.round v.digest).getD Maker.new).append c v.author
        (v.author, v.signature)).2.map fun votes =>
          votes.map fun votes => ⟨v.hash, v.round, votes⟩ := by
  unfold Aggregator.addVote
  simp only [appendVote_eq, and_self]

theorem addTimeout_eq (a : Aggregator C) (t : Timeout C) :
    (a.addTimeout c t).1 = { a with
      timeoutsAggregators := fun r =>
        if r = t.round then
          some (((a.timeoutsAggregators t.round).getD Maker.new).append c t.author
            (t.author, t.signature, t.highQc.round)).1
        else a.timeoutsAggregators r } ∧
      (a.addTimeout c t).2 = (((a.timeoutsAggregators t.round).getD Maker.new).append c t.author
        (t.author, t.signature, t.highQc.round)).2.map fun votes =>
          votes.map fun votes => ⟨t.round, votes⟩ := by
  unfold Aggregator.addTimeout
  simp only [appendTimeout_eq, and_self]

/-- The vote or the timeout passes its check. -/
def Verified (c : Committee C) : Input C → Prop
  | .vote v => v.verify c = .ok ()
  | .timeout t => t.verify c = .ok ()
  | .cleanup _ => True

section Verifiers

variable {votes : List α} {name : α → C.PublicKey} {P : α → Prop}

/-- Signers of enough weight pass the checks of the stakes. -/
theorem check_of_signers (hno : c.NoOverflow) (h : Signers c name P votes)
    (hpos : ∀ v ∈ votes, 0 < c.stake (name v))
    (hw : c.quorumThreshold.toNat ≤ signersWeight c name votes) (e : ConsensusError C) :
    checkQuorum c e (votes.map name) [] 0 = .ok () := by
  have hsum : (((votes.map name).map c.stake).map UInt32.toNat).sum =
      signersWeight c name votes := by
    rw [List.map_map, List.map_map]
    rfl
  have hle : signersWeight c name votes ≤ c.total := by
    rw [← h.weight]
    exact weight_le_total c _
  have hfits : 2 * c.total < 2 ^ 32 := hno
  refine check_of_sum h.nodup (fun k hk => ⟨by simp, ?_⟩) ?_
  · obtain ⟨v, hv, rfl⟩ := List.mem_map.mp hk
    exact hpos v hv
  · rw [UInt32.zero_add, UInt32.le_iff_toNat_le, toNat_sum _ (by omega), hsum]
    exact hw

theorem verify_of_signers_qc (hno : c.NoOverflow) (hbc : BatchComplete C) (qc : QC C)
    (h : Signers c Prod.fst (fun e => Signs c qc.digest e.1 e.2) qc.votes)
    (hw : c.quorumThreshold.toNat ≤ signersWeight c Prod.fst qc.votes) : qc.verify c = .ok () := by
  unfold QC.verify
  rw [check_of_signers hno h (fun v hv => (h.entry v hv).1) hw]
  exact if_pos (hbc _ _ fun v hv => (h.entry v hv).2)

theorem verify_of_signers_tc (hno : c.NoOverflow) (tc : TC C)
    (h : Signers c Prod.fst (fun e => Signs c (timeoutDigest tc.round e.2.2) e.1 e.2.1) tc.votes)
    (hw : c.quorumThreshold.toNat ≤ signersWeight c Prod.fst tc.votes) : tc.verify c = .ok () := by
  unfold TC.verify
  rw [check_of_signers hno h (fun v hv => (h.entry v hv).1) hw]
  exact if_pos (List.all_eq_true.mpr fun v hv => (h.entry v hv).2)

end Verifiers

/-- A maker that has an entry of the author is in its table. -/
theorem eq_some_of_mem {P : α → Prop} {name : α → C.PublicKey} {Q : Finset C.PublicKey}
    {o : Option (Maker C α)} (h : (o.getD Maker.new).Exact c name P Q) {k : C.PublicKey}
    (hk : k ∈ Q) : o = some (o.getD Maker.new) := by
  rcases o with _ | m
  · have := h.mem_used.mpr hk
    simp [Maker.new] at this
  · rfl

section Step

variable {a : Aggregator C} (hno : c.NoOverflow) (h : Tracks c r xs a)
include hno h

/-- **A call of `add_vote`** for the round. -/
theorem vote_answers (hbc : BatchComplete C) {v : Vote C} (hv : v.verify c = .ok ())
    (hr : v.round = r) :
    Answers c (voters r v.hash xs) v.author ((a.addVote c v).1 = a)
      (fun qc => qc.hash = v.hash ∧ qc.round = r ∧ qc.verify c = .ok ()) (a.addVote c v).2 := by
  subst hr
  obtain ⟨hpos, hsig⟩ := Vote.verify_ok hv
  have hm := h.votes v.hash
  have hans := (Maker.append_exact hno hm (v.author, v.signature) ⟨hpos, hsig⟩
    (stake_pos_mem c hpos)).2
  rw [(addVote_eq a v).2]
  refine hans.map (fun hk hu => ?_) fun votes hvotes => ⟨rfl, rfl, ?_⟩
  · rw [(addVote_eq a v).1]
    have hsome := eq_some_of_mem hm hk
    have : (fun r d => if r = v.round ∧ d = v.digest then
        some (((a.votesAggregators v.round v.digest).getD Maker.new).append c v.author
          (v.author, v.signature)).1
        else a.votesAggregators r d) = a.votesAggregators := by
      funext r d
      split_ifs with hrd
      · rw [hrd.1, hrd.2]
        exact (congrArg some hu).trans hsome.symm
      · rfl
    rw [this]
  · exact verify_of_signers_qc hno hbc ⟨v.hash, v.round, votes⟩ hvotes.1 hvotes.2

/-- **A call of `add_timeout`** for the round. -/
theorem timeout_answers {t : Timeout C} (ht : t.verify c = .ok ()) (hr : t.round = r) :
    Answers c (timedOut r xs) t.author ((a.addTimeout c t).1 = a)
      (fun tc => tc.round = r ∧ tc.verify c = .ok ()) (a.addTimeout c t).2 := by
  subst hr
  obtain ⟨hpos, hsig, -⟩ := Timeout.verify_ok ht
  have hans := (Maker.append_exact hno h.timeouts (t.author, t.signature, t.highQc.round)
    ⟨hpos, hsig⟩ (stake_pos_mem c hpos)).2
  rw [(addTimeout_eq a t).2]
  refine hans.map (fun hk hu => ?_) fun votes hvotes => ⟨rfl, ?_⟩
  · rw [(addTimeout_eq a t).1]
    have hsome := eq_some_of_mem h.timeouts hk
    have : (fun r => if r = t.round then
        some (((a.timeoutsAggregators t.round).getD Maker.new).append c t.author
          (t.author, t.signature, t.highQc.round)).1
        else a.timeoutsAggregators r) = a.timeoutsAggregators := by
      funext r
      split_ifs with hr
      · rw [hr]
        exact (congrArg some hu).trans hsome.symm
      · rfl
    rw [this]
  · exact verify_of_signers_tc hno ⟨t.round, votes⟩ hvotes.1 hvotes.2

/-- **A call keeps the makers exact**, unless it is a clean-up above the round. -/
theorem tracks_after (hnc : NoCollision C) (hx : Verified c x) (hun : Uninterrupted r (xs ++ [x])) :
    Tracks c r (xs ++ [x]) (a.after c x) := by
  cases x with
  | vote v =>
    obtain ⟨hpos, hsig⟩ := Vote.verify_ok hx
    have ha : a.after c (.vote v) = _ := (addVote_eq a v).1
    refine ⟨fun hash => ?_, ?_⟩
    · rw [ha]
      dsimp only
      by_cases hv : v.round = r ∧ v.hash = hash
      · obtain ⟨rfl, rfl⟩ := hv
        rw [if_pos ⟨rfl, rfl⟩, voters, authors_append_some (if_pos ⟨rfl, rfl⟩)]
        exact (Maker.append_exact hno (h.votes v.hash) (v.author, v.signature)
          ⟨hpos, hsig⟩ (stake_pos_mem c hpos)).1
      · have hne : ¬ (r = v.round ∧ voteDigest hash r = v.digest) := by
          rintro ⟨-, hd⟩
          obtain ⟨hh, hr⟩ := Preimage.vote.inj (hnc hd)
          exact hv ⟨hr.symm, hh.symm⟩
        rw [if_neg hne, voters, authors_append_none (if_neg hv)]
        exact h.votes hash
    · rw [ha, timedOut, authors_append_none rfl]
      exact h.timeouts
  | timeout t =>
    obtain ⟨hpos, hsig, -⟩ := Timeout.verify_ok hx
    have ha : a.after c (.timeout t) = _ := (addTimeout_eq a t).1
    refine ⟨fun hash => ?_, ?_⟩
    · rw [ha, voters, authors_append_none rfl]
      exact h.votes hash
    · rw [ha]
      dsimp only
      by_cases ht : t.round = r
      · subst ht
        rw [if_pos rfl, timedOut, authors_append_some (if_pos rfl)]
        exact (Maker.append_exact hno h.timeouts (t.author, t.signature, t.highQc.round)
          ⟨hpos, hsig⟩ (stake_pos_mem c hpos)).1
      · rw [if_neg (Ne.symm ht), timedOut, authors_append_none (if_neg ht)]
        exact h.timeouts
  | cleanup r' =>
    refine ⟨fun hash => ?_, ?_⟩
    · rw [voters, authors_append_none rfl]
      show ((if r' ≤ r then _ else none : Option (QCMaker C)).getD _).Exact _ _ _ _
      split_ifs with hle
      · exact h.votes hash
      · rw [show (xs.filterMap (votesFor r hash)).toFinset = ∅ from
          voters_eq_empty (hun xs r' [] rfl (UInt64.not_le.mp hle))]
        exact Maker.exact_new
    · rw [timedOut, authors_append_none rfl]
      show ((if r' ≤ r then _ else none : Option (TCMaker C)).getD _).Exact _ _ _ _
      split_ifs with hle
      · exact h.timeouts
      · rw [show (xs.filterMap (timesOut r)).toFinset = ∅ from
          timedOut_eq_empty (hun xs r' [] rfl (UInt64.not_le.mp hle))]
        exact Maker.exact_new

end Step

/-! ### Runs -/

theorem Uninterrupted.of_append {ys : List (Input C)} (h : Uninterrupted r (xs ++ ys)) :
    Uninterrupted r xs := by
  rintro zs r' ws rfl hr'
  exact h zs r' (ws ++ ys) (List.append_assoc ..) hr'

/-- **Run lemma**: the makers of the round are exact after each sequence of calls. -/
theorem tracks_run (hno : c.NoOverflow) (hnc : NoCollision C) (hv : ∀ x ∈ xs, Verified c x)
    (hun : Uninterrupted r xs) : Tracks c r xs (Aggregator.new.run c xs) := by
  induction xs using List.reverseRecOn with
  | nil => exact tracks_new
  | append_singleton xs x ih =>
    rw [Aggregator.run_append]
    exact tracks_after hno (ih (fun y hy => hv y (List.mem_append_left _ hy)) hun.of_append) hnc
      (hv x (by simp)) hun

/-- The threshold is reached once. -/
theorem reached_insert (Q : Finset C.PublicKey) (k : C.PublicKey) :
    (if c.quorumThreshold.toNat ≤ c.weight (insert k Q) then 1 else 0) =
      (if c.quorumThreshold.toNat ≤ c.weight Q then 1 else 0) +
      (if k ∉ Q ∧ c.weight Q < c.quorumThreshold.toNat ∧
        c.quorumThreshold.toNat ≤ c.weight (insert k Q) then 1 else 0) := by
  by_cases hk : k ∈ Q
  · simp [hk]
  · have hw := weight_insert c hk
    simp only [hk, not_false_eq_true, true_and]
    split_ifs <;> omega

theorem Answers.count {γ : Type} {Q : Finset C.PublicKey} {k : C.PublicKey} {u : Prop}
    {valid : γ → Prop} {result : Except (ConsensusError C) (Option γ)}
    (h : Answers c Q k u valid result) (p : γ → Bool) (hp : ∀ x, valid x → p x = true) :
    result.toOption.join.toList.countP p =
      if k ∉ Q ∧ c.weight Q < c.quorumThreshold.toNat ∧
        c.quorumThreshold.toNat ≤ c.weight (insert k Q) then 1 else 0 := by
  unfold Answers at h
  split_ifs at h with hQ hw
  · rw [h.1, if_neg fun h => h.1 hQ]
    rfl
  · obtain ⟨x, rfl, hx⟩ := h
    rw [if_pos ⟨hQ, hw⟩]
    exact List.countP_singleton.trans (if_pos (hp x hx))
  · rw [h, if_neg fun h => hw h.2]
    rfl

theorem threshold_not_le_empty : ¬ c.quorumThreshold.toNat ≤ c.weight ∅ := by
  have h := UInt32.lt_iff_toNat_lt.mp (threshold_pos c)
  exact not_le.mpr (h.trans_eq' rfl)

theorem eq_of_map {γ δ ε : Type} {f : γ → δ} {result : Except ε (Option γ)} {y : δ}
    (h : result.map (Option.map f) = .ok (some y)) : ∃ x, y = f x := by
  rcases result with e | _ | x
  · cases h
  · cases h
  · exact ⟨x, by cases h; rfl⟩

/-- The certificate that a vote completes is of the block of the vote. -/
theorem of_addVote {a : Aggregator C} {v : Vote C} {qc : QC C}
    (h : (a.addVote c v).2 = .ok (some qc)) : qc.round = v.round ∧ qc.hash = v.hash := by
  rw [(addVote_eq a v).2] at h
  obtain ⟨votes, rfl⟩ := eq_of_map h
  exact ⟨rfl, rfl⟩

theorem of_addTimeout {a : Aggregator C} {t : Timeout C} {tc : TC C}
    (h : (a.addTimeout c t).2 = .ok (some tc)) : tc.round = t.round := by
  rw [(addTimeout_eq a t).2] at h
  obtain ⟨votes, rfl⟩ := eq_of_map h
  rfl

/-- A result that is not counted. -/
theorem countP_eq_zero {γ : Type} {result : Except (ConsensusError C) (Option γ)} {p : γ → Bool}
    (h : ∀ x, result = .ok (some x) → ¬ p x = true) : result.toOption.join.toList.countP p = 0 := by
  rcases result with e | _ | x
  · rfl
  · rfl
  · exact List.countP_singleton.trans (if_neg (h x rfl))

section Step

variable {a : Aggregator C} (hno : c.NoOverflow) (h : Tracks c r xs a) (hx : Verified c x)
include hno h hx

/-- **A call returns a certificate** of the block when it makes its voters reach the threshold. -/
theorem count_qcOf (hbc : BatchComplete C) :
    (if c.quorumThreshold.toNat ≤ c.weight (voters r hash (xs ++ [x])) then 1 else 0) =
      (if c.quorumThreshold.toNat ≤ c.weight (voters r hash xs) then 1 else 0) +
        (a.qcOf c x).toList.countP (fun qc => qc.round = r ∧ qc.hash = hash) := by
  cases x with
  | vote v =>
    by_cases hvr : v.round = r ∧ v.hash = hash
    · have hans := vote_answers hno h hbc hx hvr.1
      rw [show voters r hash (xs ++ [.vote v]) = insert v.author (voters r hash xs) from
        authors_append_some (if_pos hvr), reached_insert, ← hvr.2]
      exact congrArg _ (hans.count _ fun qc hqc => by simp [hqc]).symm
    · rw [show voters r hash (xs ++ [.vote v]) = voters r hash xs from
        authors_append_none (if_neg hvr)]
      refine (Nat.add_eq_left.mpr (countP_eq_zero fun qc hqc => ?_)).symm
      rw [(of_addVote hqc).1, (of_addVote hqc).2]
      simpa using hvr
  | timeout t =>
    rw [show voters r hash (xs ++ [.timeout t]) = voters r hash xs from authors_append_none rfl]
    rfl
  | cleanup r' =>
    rw [show voters r hash (xs ++ [.cleanup r']) = voters r hash xs from authors_append_none rfl]
    rfl

/-- The same for the timeouts of the round. -/
theorem count_tcOf :
    (if c.quorumThreshold.toNat ≤ c.weight (timedOut r (xs ++ [x])) then 1 else 0) =
      (if c.quorumThreshold.toNat ≤ c.weight (timedOut r xs) then 1 else 0) +
        (a.tcOf c x).toList.countP (fun tc => tc.round = r) := by
  cases x with
  | vote v =>
    rw [show timedOut r (xs ++ [.vote v]) = timedOut r xs from authors_append_none rfl]
    rfl
  | timeout t =>
    by_cases htr : t.round = r
    · have hans := timeout_answers hno h hx htr
      rw [show timedOut r (xs ++ [.timeout t]) = insert t.author (timedOut r xs) from
        authors_append_some (if_pos htr), reached_insert]
      exact congrArg _ (hans.count _ fun tc htc => by simp [htc]).symm
    · rw [show timedOut r (xs ++ [.timeout t]) = timedOut r xs from
        authors_append_none (if_neg htr)]
      refine (Nat.add_eq_left.mpr (countP_eq_zero fun tc htc => ?_)).symm
      rw [of_addTimeout htc]
      simpa using htr
  | cleanup r' =>
    rw [show timedOut r (xs ++ [.cleanup r']) = timedOut r xs from authors_append_none rfl]
    rfl

end Step

/-- **The quorum certificates of a run** for a block: one, if the threshold was reached. -/
theorem count_qcs (hno : c.NoOverflow) (hnc : NoCollision C) (hbc : BatchComplete C)
    (hv : ∀ x ∈ xs, Verified c x) (hun : Uninterrupted r xs) :
    (Aggregator.new.qcs c xs).countP (fun qc => qc.round = r ∧ qc.hash = hash) =
      if c.quorumThreshold.toNat ≤ c.weight (voters r hash xs) then 1 else 0 := by
  induction xs using List.reverseRecOn with
  | nil => exact (if_neg threshold_not_le_empty).symm
  | append_singleton xs x ih =>
    have hv' : ∀ y ∈ xs, Verified c y := fun y hy => hv y (List.mem_append_left _ hy)
    have htracks := tracks_run hno hnc hv' hun.of_append
    rw [count_qcOf hno htracks (hv x (by simp)) hbc, ← ih hv' hun.of_append,
      Aggregator.qcs_append, List.countP_append, Aggregator.qcs_singleton]

/-- **The timeout certificates of a run** for a round: one, if the threshold was reached. -/
theorem count_tcs (hno : c.NoOverflow) (hnc : NoCollision C) (hv : ∀ x ∈ xs, Verified c x)
    (hun : Uninterrupted r xs) : (Aggregator.new.tcs c xs).countP (fun tc => tc.round = r) =
      if c.quorumThreshold.toNat ≤ c.weight (timedOut r xs) then 1 else 0 := by
  induction xs using List.reverseRecOn with
  | nil => exact (if_neg threshold_not_le_empty).symm
  | append_singleton xs x ih =>
    have hv' : ∀ y ∈ xs, Verified c y := fun y hy => hv y (List.mem_append_left _ hy)
    have htracks := tracks_run hno hnc hv' hun.of_append
    rw [count_tcOf hno htracks (hv x (by simp)), ← ih hv' hun.of_append,
      Aggregator.tcs_append, List.countP_append, Aggregator.tcs_singleton]

end Calls

/-- **One certificate for each quorum**. Suppose that twice the total stake fits, that the hash has
no collisions and that the batch verification accepts what verifies one by one. In every sequence of
calls of an aggregator with votes and timeouts that pass their checks, and for every round that no
clean-up interrupts: each vote for a block of the round is answered with an error if the author
voted for it before, and then nothing changes; with a valid certificate of the block if the distinct
authors of the votes reach the threshold with it; and with nothing otherwise. So the calls return
one certificate of the block if its voters reach the threshold and none if not. The same holds of
the timeouts of the round. -/
theorem one_certificate {c : Committee C} (hno : c.NoOverflow) (hnc : NoCollision C)
    (hbc : BatchComplete C) {xs : List (Input C)} (hv : ∀ x ∈ xs, Verified c x) {r : Round}
    (hun : Uninterrupted r xs) :
    (∀ ys v zs, xs = ys ++ .vote v :: zs → v.round = r →
      Answers c (voters r v.hash ys) v.author
        (((Aggregator.new.run c ys).addVote c v).1 = Aggregator.new.run c ys)
        (fun qc => qc.hash = v.hash ∧ qc.round = r ∧ qc.verify c = .ok ())
        ((Aggregator.new.run c ys).addVote c v).2) ∧
    (∀ hash, (Aggregator.new.qcs c xs).countP (fun qc => qc.round = r ∧ qc.hash = hash) =
      if c.quorumThreshold.toNat ≤ c.weight (voters r hash xs) then 1 else 0) ∧
    (∀ ys t zs, xs = ys ++ .timeout t :: zs → t.round = r →
      Answers c (timedOut r ys) t.author
        (((Aggregator.new.run c ys).addTimeout c t).1 = Aggregator.new.run c ys)
        (fun tc => tc.round = r ∧ tc.verify c = .ok ())
        ((Aggregator.new.run c ys).addTimeout c t).2) ∧
    (Aggregator.new.tcs c xs).countP (fun tc => tc.round = r) =
      if c.quorumThreshold.toNat ≤ c.weight (timedOut r xs) then 1 else 0 := by
  refine ⟨?_, fun hash => count_qcs hno hnc hbc hv hun, ?_, count_tcs hno hnc hv hun⟩
  · rintro ys v zs rfl hr
    exact vote_answers hno (tracks_run hno hnc (fun y hy => hv y (List.mem_append_left _ hy))
      hun.of_append) hbc (hv (.vote v) (by simp)) hr
  · rintro ys t zs rfl hr
    exact timeout_answers hno (tracks_run hno hnc (fun y hy => hv y (List.mem_append_left _ hy))
      hun.of_append) (hv (.timeout t) (by simp)) hr

/-- The hash of a block. -/
def someHash : Ideal.crypto.Digest := Ideal.Tree.leaf 5

/-- Votes of four authorities for a block of the first round, one of them twice. -/
def fiveVotes : List (Input Ideal.crypto) :=
  [0, 1, 0, 2, 3].map fun k => .vote ⟨someHash, 1, Ideal.key k,
    Ideal.crypto.sign (Ideal.key k) (voteDigest someHash 1)⟩

theorem one_certificate_five :
    (Aggregator.new.qcs (Ideal.four 0).committee fiveVotes).countP
      (fun qc => qc.round = 1 ∧ qc.hash = someHash) = 1 := by
  have hv : ∀ x ∈ fiveVotes, Verified (Ideal.four 0).committee x := by
    simp only [fiveVotes, List.forall_mem_map, Verified, List.forall_mem_cons]
    exact ⟨rfl, rfl, rfl, rfl, rfl, by simp⟩
  have hun : Uninterrupted 1 fiveVotes := by
    intro ys r' zs h
    have : Input.cleanup r' ∈ fiveVotes := by rw [h]; simp
    simp [fiveVotes] at this
  refine ((one_certificate (by decide) Ideal.noCollision Ideal.batchComplete hv hun).2.1 _).trans ?_
  exact if_pos (by decide)

end Hotstuff.Consensus.Aggregation
