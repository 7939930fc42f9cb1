import Hotstuff.Lib.Turns
import Hotstuff.Ideal

/-! # The authorities take turns

`get_leader` sorts the keys and takes the one at the index `round % size`. A sorted list is
determined by its elements, so the leader is a function of the set of keys (`getLeader_congr`): it
is the authority with `round % size` smaller ones (`getLeader_eq_some`). In `size` consecutive
rounds whose numbers do not wrap each authority leads once. -/

namespace Hotstuff.Consensus.Electing

open Hotstuff.Primitives Hotstuff.Consensus.Config Hotstuff.Lib.Turns Hotstuff.Ideal

variable {C : Crypto}

section Turns

variable (c : Committee C)

/-- The keys in the order in which they lead. -/
def turns : List C.PublicKey := c.keys.insertionSort (· ≤ ·)

/-- The number of authorities with smaller keys. -/
def rank (k : C.PublicKey) : ℕ := (c.members.filter (· < k)).card

@[simp] theorem length_turns : (turns c).length = c.size := by
  rw [turns, List.length_insertionSort, Committee.keys, List.length_map, Committee.size]

@[simp] theorem mem_turns {k : C.PublicKey} : k ∈ turns c ↔ k ∈ c.members := by
  rw [turns, List.mem_insertionSort, Committee.members, List.mem_toFinset]

theorem nodup_turns : (turns c).Nodup := (List.perm_insertionSort _ _).nodup_iff.mpr c.nodup

theorem sortedLT_turns : (turns c).SortedLT :=
  List.sortedLE_insertionSort.sortedLT_of_nodup (nodup_turns c)

theorem countP_turns (k : C.PublicKey) : (turns c).countP (· < k) = rank c k := by
  have hset : ((turns c).filter (· < k)).toFinset = c.members.filter (· < k) := by
    ext a
    simp
  rw [rank, ← hset, List.toFinset_card_of_nodup ((nodup_turns c).filter _),
    List.countP_eq_length_filter]

theorem getLeader_eq (r : Round) : getLeader c r = (turns c)[r.toNat % (turns c).length]? := by
  rw [length_turns]
  rfl

/-- **The leader of a round** is the authority with `round % size` smaller ones. -/
theorem getLeader_eq_some {r : Round} {k : C.PublicKey} :
    getLeader c r = some k ↔ k ∈ c.members ∧ rank c k = r.toNat % c.size := by
  rw [getLeader_eq, getElem?_eq_some_iff (sortedLT_turns c), mem_turns, countP_turns, length_turns]

end Turns

variable {c : Committee C}

/-- The leader is a function of the set of keys. -/
theorem getLeader_congr {c' : Committee C} (h : c.members = c'.members) (r : Round) :
    getLeader c r = getLeader c' r := by
  have hturns : turns c = turns c' :=
    insertionSort_congr c.nodup c'.nodup fun a =>
      (List.mem_toFinset.symm.trans (Finset.ext_iff.mp h a)).trans List.mem_toFinset
  rw [getLeader_eq, getLeader_eq, hturns]

theorem members_new_congr {info info' : List (C.PublicKey × Stake)}
    (h : ∀ k, k ∈ info.map Prod.fst ↔ k ∈ info'.map Prod.fst) :
    (Committee.new info).members = (Committee.new info').members := by
  ext k
  rw [Committee.members, Committee.members, List.mem_toFinset, List.mem_toFinset, mem_keys_new,
    mem_keys_new, h]

theorem exists_leader (h : 0 < c.size) (r : Round) : ∃ k ∈ c.members, getLeader c r = some k := by
  have hi : r.toNat % (turns c).length < (turns c).length := Nat.mod_lt _ (by simpa using h)
  rw [getLeader_eq, List.getElem?_eq_getElem hi]
  exact ⟨_, (mem_turns c).mp (List.getElem_mem hi), rfl⟩

/-! ### A window of rounds -/

theorem toNat_add_ofNat {r : Round} {i n : ℕ} (h : r.toNat + n ≤ 2 ^ 64) (hi : i < n) :
    (r + UInt64.ofNat i).toNat = r.toNat + i := by
  rw [UInt64.toNat_add, UInt64.toNat_ofNat', Nat.add_mod_mod, Nat.mod_eq_of_lt (by omega)]

/-- **Leader election is consistent and fair**: the leader depends on the set of keys only, however
the committee was put together, and each authority leads once in `size` consecutive rounds. -/
theorem leaders_take_turns (c : Committee C) :
    (∀ c' : Committee C, c.members = c'.members → ∀ r, getLeader c r = getLeader c' r) ∧
    (∀ info info' : List (C.PublicKey × Stake),
      (∀ k, k ∈ info.map Prod.fst ↔ k ∈ info'.map Prod.fst) →
      ∀ r, getLeader (.new info) r = getLeader (.new info') r) ∧
    (0 < c.size → (∀ r, ∃ k ∈ c.members, getLeader c r = some k) ∧
      ∀ r : Round, r.toNat + c.size ≤ 2 ^ 64 →
        Set.BijOn (fun i => getLeader c (r + UInt64.ofNat i)) (Set.Iio c.size)
          (some '' {k | k ∈ c.members})) := by
  refine ⟨fun _ h r => getLeader_congr h r, fun _ _ h r => getLeader_congr (members_new_congr h) r,
    fun h => ⟨exists_leader h, fun r hr => ?_⟩⟩
  have hbij := bijOn_window (nodup_turns c) r.toNat
  simp only [length_turns, mem_turns] at hbij
  refine hbij.congr fun i hi => ?_
  rw [getLeader_eq, length_turns, toNat_add_ofNat hr hi]

theorem four_take_turns :
    (∀ r, getLeader (four 0).committee r =
      getLeader (.new [(key 2, 5), (key 3, 1), (key 0, 1), (key 1, 1), (key 2, 1)]) r) ∧
    (∀ r, getLeader (.new [(key 2, 1), (key 0, 1)]) r =
      getLeader (.new [(key 0, 3), (key 2, 1)]) r) ∧
    Set.BijOn (fun i => getLeader (four 0).committee (6 + UInt64.ofNat i)) (Set.Iio 4)
      (some '' {k | k ∈ (four 0).committee.members}) :=
  ⟨(leaders_take_turns _).1 _ (by decide),
    (leaders_take_turns (four 0).committee).2.1 _ _ fun k => by simp [or_comm],
    ((leaders_take_turns _).2.2 (by decide)).2 6 (by decide)⟩

end Hotstuff.Consensus.Electing
