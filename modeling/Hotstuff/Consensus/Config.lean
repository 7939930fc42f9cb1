import Hotstuff.Primitives
import Hotstuff.Lib.Lists
import Hotstuff.Lib.Quorum

/-! # The committee and the leader of a round

`Committee` maps each authority to its stake, all arithmetic on stakes being that of `u32`. As long
as twice the total stake fits (`NoOverflow`), `quorum_threshold` is `2N/3 + 1` (`toNat_threshold`),
and two quorums have a common authority outside a coalition of stake `f` with `3f + 1 ≤ N`
(`exists_common`). The leader of a round is taken in turn from the sorted keys. -/

namespace Hotstuff.Consensus.Config

open Hotstuff.Primitives Hotstuff.Lib.Quorum
open Hotstuff.Lib.Lists (mem_of_lookup)

variable {C : Crypto}

/-- The authorities and their stakes; a key has one entry. -/
structure Committee (C : Crypto) where
  authorities : List (C.PublicKey × Stake)
  nodup : (authorities.map Prod.fst).Nodup

namespace Committee

variable (c : Committee C)

/-- The keys of the authorities. -/
def keys : List C.PublicKey := c.authorities.map Prod.fst

def size : ℕ := c.authorities.length

/-- The stake of an authority, `0` for a key that is not in the committee. -/
def stake (name : C.PublicKey) : Stake := (c.authorities.lookup name).getD 0

/-- The threshold of a quorum, in the arithmetic of `u32`. -/
def quorumThreshold : Stake :=
  let totalVotes : Stake := (c.authorities.map Prod.snd).sum
  2 * totalVotes / 3 + 1

/-- The total stake, as a natural number. -/
def total : ℕ := (c.authorities.map fun a => a.2.toNat).sum

/-- Twice the total stake fits in a `u32`. -/
def NoOverflow : Prop := 2 * c.total < 2 ^ 32

instance : Decidable c.NoOverflow := by unfold NoOverflow; infer_instance

/-- `HashMap::insert`: an entry that the key has is replaced. -/
def insert (name : C.PublicKey) (stake : Stake) : Committee C where
  authorities := (name, stake) :: c.authorities.filter fun a => a.1 ≠ name
  nodup := by
    rw [List.map_cons, List.nodup_cons]
    exact ⟨by simp, c.nodup.sublist (List.filter_sublist.map _)⟩

/-- `Committee::new`: the entries are collected into the map. -/
def new (info : List (C.PublicKey × Stake)) : Committee C :=
  info.foldl (fun c a => c.insert a.1 a.2) ⟨[], List.nodup_nil⟩

/-- The authorities as a set. -/
def members : Finset C.PublicKey := c.keys.toFinset

/-- The stake of a set of authorities, as a natural number. -/
def weight (Q : Finset C.PublicKey) : ℕ := ∑ k ∈ Q, (c.stake k).toNat

/-- `Q` is a quorum of authorities. -/
def Quorum (Q : Finset C.PublicKey) : Prop :=
  Q ⊆ c.members ∧ c.quorumThreshold.toNat ≤ c.weight Q

end Committee

/-! ### The keys of a new committee -/

theorem mem_keys_insert (c : Committee C) {name k : C.PublicKey} {stake : Stake} :
    k ∈ (c.insert name stake).keys ↔ k = name ∨ k ∈ c.keys := by
  simp only [Committee.keys, Committee.insert, List.map_cons, List.mem_cons, List.mem_map,
    List.mem_filter, decide_eq_true_eq]
  constructor
  · rintro (h | ⟨a, ⟨ha, -⟩, rfl⟩)
    · exact .inl h
    · exact .inr ⟨a, ha, rfl⟩
  · rintro (h | ⟨a, ha, rfl⟩)
    · exact .inl h
    · by_cases hn : a.1 = name
      · exact .inl hn
      · exact .inr ⟨a, ⟨ha, hn⟩, rfl⟩

theorem mem_keys_foldl {k : C.PublicKey} : ∀ (info : List (C.PublicKey × Stake)) (c : Committee C),
    k ∈ (info.foldl (fun c a => c.insert a.1 a.2) c).keys ↔ k ∈ info.map Prod.fst ∨ k ∈ c.keys
  | [], c => by simp
  | a :: info, c => by
    rw [List.foldl_cons, mem_keys_foldl info, mem_keys_insert, List.map_cons, List.mem_cons]
    tauto

/-- The authorities are the keys of the entries, each once. -/
theorem mem_keys_new {k : C.PublicKey} {info : List (C.PublicKey × Stake)} :
    k ∈ (Committee.new info).keys ↔ k ∈ info.map Prod.fst := by
  rw [Committee.new, mem_keys_foldl]
  simp [Committee.keys]

/-! ### Stakes -/

theorem lookup_of_mem {α β : Type*} [DecidableEq α] : ∀ {l : List (α × β)}, (l.map Prod.fst).Nodup →
    ∀ a ∈ l, l.lookup a.1 = some a.2
  | [], _, a, ha => by simp at ha
  | b :: l, hl, a, ha => by
    rw [List.map_cons, List.nodup_cons] at hl
    rcases List.mem_cons.mp ha with rfl | ha
    · simp [List.lookup]
    · have hne : a.1 ≠ b.1 := fun h => hl.1 (h ▸ List.mem_map_of_mem ha)
      rw [List.lookup_cons, beq_false_of_ne hne]
      exact lookup_of_mem hl.2 a ha

variable (c : Committee C)

theorem weight_members : c.weight c.members = c.total := by
  unfold Committee.weight Committee.members Committee.total Committee.keys
  rw [List.sum_toFinset _ c.nodup, List.map_map]
  congr 1
  refine List.map_congr_left fun a ha => ?_
  simp [Committee.stake, lookup_of_mem c.nodup a ha]

theorem stake_pos_mem {k : C.PublicKey} (h : 0 < c.stake k) : k ∈ c.members := by
  unfold Committee.stake at h
  rcases hl : c.authorities.lookup k with _ | s
  · rw [hl] at h; exact absurd h (by simp)
  · simp only [Committee.members, Committee.keys, List.mem_toFinset]
    exact List.mem_map_of_mem (f := Prod.fst) (mem_of_lookup hl)

/-- Keys that are not in the committee weigh nothing. -/
theorem weight_le_total (Q : Finset C.PublicKey) : c.weight Q ≤ c.total := by
  have hmem : c.weight (Q.filter (· ∈ c.members)) = c.weight Q := by
    refine Finset.sum_filter_of_ne fun k _ hne => stake_pos_mem c ?_
    rw [UInt32.lt_iff_toNat_lt]
    exact Nat.pos_of_ne_zero hne
  rw [← hmem, ← weight_members c]
  exact Finset.sum_le_sum_of_subset fun k hk => (Finset.mem_filter.mp hk).2

theorem weight_toFinset {names : List C.PublicKey} (h : names.Nodup) :
    c.weight names.toFinset = ((names.map c.stake).map UInt32.toNat).sum := by
  rw [List.map_map]
  exact List.sum_toFinset (fun k => (c.stake k).toNat) h

theorem weight_toFinset_le (names : List C.PublicKey) :
    c.weight names.toFinset ≤ ((names.map c.stake).map UInt32.toNat).sum := by
  have hdedup : names.dedup.toFinset = names.toFinset := by
    ext k
    simp
  rw [← hdedup, weight_toFinset c names.nodup_dedup]
  exact ((names.dedup_sublist.map _).map _).sum_le_sum fun _ _ => Nat.zero_le _

theorem stake_le_total (k : C.PublicKey) : (c.stake k).toNat ≤ c.total := by
  simpa [Committee.weight] using weight_le_total c {k}

/-- A sum of `u32` is the sum of the values, modulo `2^32`. -/
theorem toNat_sum_mod : ∀ l : List Stake, l.sum.toNat = (l.map UInt32.toNat).sum % 2 ^ 32
  | [] => rfl
  | a :: l => by
    rw [List.sum_cons, List.map_cons, List.sum_cons, UInt32.toNat_add, toNat_sum_mod l,
      Nat.add_mod_mod]

/-- A sum of `u32` whose value fits is the sum of the values. -/
theorem toNat_sum (l : List Stake) (h : (l.map UInt32.toNat).sum < 2 ^ 32) :
    l.sum.toNat = (l.map UInt32.toNat).sum := by
  rw [toNat_sum_mod, Nat.mod_eq_of_lt h]

/-- The threshold, whatever the stakes. -/
theorem toNat_threshold_mod : c.quorumThreshold.toNat = 2 * c.total % 2 ^ 32 / 3 + 1 := by
  have hmap : ((c.authorities.map Prod.snd).map UInt32.toNat).sum = c.total := by
    rw [List.map_map]; rfl
  have h2 : (2 * (c.authorities.map Prod.snd).sum : Stake).toNat = 2 * c.total % 2 ^ 32 := by
    rw [UInt32.toNat_mul, toNat_sum_mod, hmap]
    exact Nat.mul_mod_mod 2 _ _
  have h3 : (2 * (c.authorities.map Prod.snd).sum / 3 : Stake).toNat =
      2 * c.total % 2 ^ 32 / 3 := by
    rw [UInt32.toNat_div, h2]; rfl
  unfold Committee.quorumThreshold
  rw [UInt32.toNat_add, h3]
  exact Nat.mod_eq_of_lt (by simp; omega)

variable {c}

theorem toNat_threshold (h : c.NoOverflow) : c.quorumThreshold.toNat = 2 * c.total / 3 + 1 := by
  rw [toNat_threshold_mod, Nat.mod_eq_of_lt h]

/-- The threshold is never zero, whatever the stakes. -/
theorem threshold_pos (c : Committee C) : 0 < c.quorumThreshold := by
  rw [UInt32.lt_iff_toNat_lt, toNat_threshold_mod]
  exact Nat.succ_pos _

/-- **Two quorums have a common authority outside a coalition of stake `f`**, if `3f + 1 ≤ N`. -/
theorem exists_common {f : ℕ} {Q Q' : Finset C.PublicKey} (bad : C.PublicKey → Prop)
    [DecidablePred bad] (h : c.NoOverflow) (hf : c.weight (c.members.filter bad) ≤ f)
    (h3 : 3 * f + 1 ≤ c.total) (hQ : c.Quorum Q) (hQ' : c.Quorum Q') :
    ∃ k ∈ Q, k ∈ Q' ∧ ¬ bad k := by
  refine exists_inter_not_bad bad hQ.1 hQ'.1 hQ.2 hQ'.2 hf ?_
  have hU : ∑ a ∈ c.members, (c.stake a).toNat = c.total := weight_members c
  rw [hU, toNat_threshold h]
  exact two_thirds_threshold h3

/-! ### The leader of a round -/

/-- `RRLeaderElector::get_leader`: the keys are sorted and take turns. There is no leader in an
empty committee, where the code panics. -/
def getLeader (c : Committee C) (round : Round) : Option C.PublicKey :=
  (c.keys.insertionSort (· ≤ ·))[round.toNat % c.size]?

theorem getLeader_mem {round : Round} {k : C.PublicKey} (h : getLeader c round = some k) :
    k ∈ c.members := by
  have := List.mem_of_getElem? h
  rw [List.mem_insertionSort] at this
  exact List.mem_toFinset.mpr this

theorem size_pos {k : C.PublicKey} (hk : k ∈ c.members) : 0 < c.size := by
  have hmem := List.length_pos_of_mem (List.mem_toFinset.mp hk)
  rwa [Committee.keys, List.length_map] at hmem

end Hotstuff.Consensus.Config
