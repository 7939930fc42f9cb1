import Hotstuff.Consensus.Electing

/-! # The failure injector

`failure_injection.py` takes the leader of a round to be the node whose index is the round modulo
the number of nodes. Nodes are numbered as their keys were generated, whereas `get_leader` numbers
the authorities by their keys. The injector hits the leader exactly if as many keys are smaller than
that of the node as its index says, which is so in all rounds only if the keys were generated in
ascending order. -/

namespace Hotstuff.Benchmark.FailureInjection

open Hotstuff.Primitives Hotstuff.Consensus.Config Hotstuff.Consensus.Electing
open Hotstuff.Lib.Turns Hotstuff.Ideal

variable {C : Crypto} {names : List C.PublicKey}

/-- `NodeKiller.get_leader_for_round`: the index of a node. -/
def getLeaderForRound (roundNum numNodes : ℕ) : ℕ := roundNum % numNodes

/-- `LocalCommittee`: an authority of stake 1 for each of the keys. -/
def localCommittee (names : List C.PublicKey) : Committee C := .new (names.map fun n => (n, 1))

/-- The node that the injector takes for the leader of the round has the leader's key. -/
def KillsLeader (names : List C.PublicKey) (round : Round) : Prop :=
  names[getLeaderForRound round.toNat names.length]? = getLeader (localCommittee names) round

/-- Of all keys, as many are smaller than that of the node as its index says. -/
def Placed (names : List C.PublicKey) (i : ℕ) : Prop :=
  ∀ k, names[i]? = some k → names.countP (· < k) = i

theorem mem_members {k : C.PublicKey} : k ∈ (localCommittee names).members ↔ k ∈ names := by
  rw [Committee.members, List.mem_toFinset, localCommittee, mem_keys_new]
  simp

section Nodup

variable (hd : names.Nodup)
include hd

/-- The leaders take turns in the order of the sorted keys. -/
theorem turns_localCommittee :
    turns (localCommittee names) = names.insertionSort (· ≤ ·) :=
  insertionSort_congr (localCommittee names).nodup hd fun _ =>
    List.mem_toFinset.symm.trans mem_members

theorem killsLeader_iff_sort (round : Round) :
    KillsLeader names round ↔ names[round.toNat % names.length]? =
      (names.insertionSort (· ≤ ·))[round.toNat % names.length]? := by
  rw [KillsLeader, getLeaderForRound, getLeader_eq, turns_localCommittee hd,
    List.length_insertionSort]

theorem placed_iff {i : ℕ} (hi : i < names.length) :
    Placed names i ↔ names[i]? = (names.insertionSort (· ≤ ·))[i]? := by
  have hs : (names.insertionSort (· ≤ ·)).SortedLT :=
    List.sortedLE_insertionSort.sortedLT_of_nodup
      ((List.perm_insertionSort _ _).nodup_iff.mpr hd)
  rw [Placed, List.getElem?_eq_getElem hi]
  simp only [Option.some.injEq, forall_eq']
  rw [eq_comm (a := some _), getElem?_eq_some_iff hs,
    (List.perm_insertionSort _ names).countP_eq, List.mem_insertionSort,
    and_iff_right (List.getElem_mem hi)]

/-- All nodes are in their places exactly if the keys are sorted. -/
theorem sorted_iff : names.SortedLT ↔
    ∀ i < names.length, names[i]? = (names.insertionSort (· ≤ ·))[i]? := by
  constructor
  · intro h i _
    rw [h.sortedLE.pairwise.insertionSort_eq]
  · intro h
    have heq : names = names.insertionSort (· ≤ ·) := by
      refine List.ext_getElem? fun i => ?_
      rcases Nat.lt_or_ge i names.length with hi | hi
      · exact h i hi
      · rw [List.getElem?_eq_none hi, List.getElem?_eq_none (by simpa using hi)]
    rw [heq]
    exact List.sortedLE_insertionSort.sortedLT_of_nodup (heq ▸ hd)

/-- **The injector kills the leader of a round exactly if** the node at the index `round % n` has
`round % n` smaller keys, and the leader of every round exactly if the keys were generated in
ascending order. -/
theorem kills_leader_iff (hn : 0 < names.length) :
    (∀ round : Round, KillsLeader names round ↔ Placed names (round.toNat % names.length)) ∧
    (names.length ≤ 2 ^ 64 → ((∀ round : Round, KillsLeader names round) ↔ names.SortedLT)) := by
  refine ⟨fun round => ?_, fun hlen => ?_⟩
  · rw [killsLeader_iff_sort hd, placed_iff hd (Nat.mod_lt _ hn)]
  · rw [sorted_iff hd]
    constructor
    · intro h i hi
      have hr : (UInt64.ofNat i).toNat % names.length = i := by
        rw [UInt64.toNat_ofNat', Nat.mod_eq_of_lt (by omega : i < 2 ^ 64), Nat.mod_eq_of_lt hi]
      simpa only [hr] using (killsLeader_iff_sort hd (UInt64.ofNat i)).mp (h _)
    · intro h round
      exact (killsLeader_iff_sort hd round).mpr (h _ (Nat.mod_lt _ hn))

omit hd

end Nodup

theorem kills_leader_three :
    (KillsLeader [key 4, key 0, key 7] 2 ↔ Placed [key 4, key 0, key 7] 2) ∧
    ((∀ round, KillsLeader [key 0, key 4, key 7] round) ↔ [key 0, key 4, key 7].SortedLT) :=
  ⟨(kills_leader_iff (by decide) (by decide)).1 2,
    (kills_leader_iff (by decide) (by decide)).2 (by decide)⟩

/-- In round 1 the key of the node with the index 1 is the smallest one. -/
theorem kills_another : [key 4, key 0, key 7].Nodup ∧ 0 < [key 4, key 0, key 7].length ∧
    ¬ KillsLeader [key 4, key 0, key 7] 1 := by
  refine ⟨by decide, by decide, ?_⟩
  unfold KillsLeader
  decide

end Hotstuff.Benchmark.FailureInjection
