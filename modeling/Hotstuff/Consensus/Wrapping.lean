import Hotstuff.Consensus.Messages
import Hotstuff.Ideal

/-! # Committees whose stakes do not fit

Nothing bounds the stakes of a committee, and both the threshold and the weight of a certificate are
computed in `u32`. Twice the total stake `N` and the stake `S` of the signers are then compared
modulo `2^32`, so that a few signers may be enough (`NoMinority` is the condition that they are
not). As long as `2N` fits a quorum is more than two thirds of the stake; for each larger `N` there
is a committee of that total in which a single authority, with less than that, is one
(`sound_iff_fits`). -/

namespace Hotstuff.Consensus.Wrapping

open Hotstuff.Primitives Hotstuff.Consensus.Config Hotstuff.Consensus.Messages Hotstuff.Ideal

variable {C : Crypto}

/-- The signers that the stake checks accept have more than two thirds of the stake. -/
def Sound (c : Committee C) : Prop :=
  ∀ names, checkQuorum c .qcRequiresQuorum names [] 0 = .ok () →
    2 * c.total < 3 * c.weight names.toFinset

/-- No authorities with at most two thirds of the stake appear to have more, modulo `2^32`. -/
def NoMinority (c : Committee C) : Prop :=
  ∀ Q ⊆ c.members, (∀ k ∈ Q, 0 < c.stake k) → 3 * c.weight Q ≤ 2 * c.total →
    3 * (c.weight Q % 2 ^ 32) ≤ 2 * c.total % 2 ^ 32

section Checks

variable {c : Committee C} {e : ConsensusError C} {names : List C.PublicKey}

theorem toNat_sum_stakes (h : names.Nodup) :
    (names.map c.stake).sum.toNat = c.weight names.toFinset % 2 ^ 32 := by
  rw [toNat_sum_mod, weight_toFinset c h]

theorem threshold_le_iff (h : names.Nodup) : c.quorumThreshold ≤ (names.map c.stake).sum ↔
    2 * c.total % 2 ^ 32 < 3 * (c.weight names.toFinset % 2 ^ 32) := by
  rw [UInt32.le_iff_toNat_le, toNat_threshold_mod, toNat_sum_stakes h]
  omega

/-- **What the stake checks accept.** -/
theorem check_iff : checkQuorum c e names [] 0 = .ok () ↔ names.Nodup ∧
    (∀ k ∈ names, 0 < c.stake k) ∧
      2 * c.total % 2 ^ 32 < 3 * (c.weight names.toFinset % 2 ^ 32) := by
  constructor
  · intro h
    obtain ⟨hnd, hs, hq⟩ := check_ok h
    exact ⟨hnd, fun k hk => (hs k hk).2, (threshold_le_iff hnd).mp (by simpa using hq)⟩
  · rintro ⟨hnd, hs, hq⟩
    refine check_of_sum hnd (fun k hk => ⟨by simp, hs k hk⟩) ?_
    simpa using (threshold_le_iff hnd).mpr hq

end Checks

theorem sound_iff_noMinority (c : Committee C) : Sound c ↔ NoMinority c := by
  constructor
  · intro h Q hQ hpos hle
    by_contra hlt
    have hmem : ∀ {k}, k ∈ Q.toList ↔ k ∈ Q := Finset.mem_toList
    have hacc := h Q.toList (check_iff.mpr ⟨Q.nodup_toList, fun k hk => hpos k (hmem.mp hk), by
      rw [Finset.toList_toFinset]; omega⟩)
    rw [Finset.toList_toFinset] at hacc
    omega
  · intro h names hacc
    obtain ⟨hnd, hpos, hlt⟩ := check_iff.mp hacc
    by_contra hle
    have hpos' : ∀ k ∈ names.toFinset, 0 < c.stake k := fun k hk =>
      hpos k (List.mem_toFinset.mp hk)
    have := h _ (fun k hk => stake_pos_mem c (hpos' k hk)) hpos' (by omega)
    omega

theorem sound_of_fits {c : Committee C} (h : c.NoOverflow) : Sound c := by
  intro names hacc
  have hq := (quorum_of_check h hacc).2
  rw [toNat_threshold h] at hq
  omega

/-! ### Totals that do not fit -/

/-- One authority of the given stake, and `n` others of stake one. -/
def lopsided {n : ℕ} (name : Fin (n + 1) ↪ C.PublicKey) (s : Stake) : Committee C where
  authorities := (name 0, s) :: (List.finRange n).map fun i => (name i.succ, 1)
  nodup := by
    rw [List.map_cons, List.map_map, List.nodup_cons]
    refine ⟨fun hm => ?_, (List.nodup_finRange n).map fun i j h => ?_⟩
    · obtain ⟨i, -, hi⟩ := List.mem_map.mp hm
      exact absurd (name.injective hi) (Fin.succ_ne_zero i)
    · exact Fin.succ_injective n (name.injective h)

section Lopsided

variable {n : ℕ} (name : Fin (n + 1) ↪ C.PublicKey) (s : Stake)

theorem total_lopsided : (lopsided name s).total = s.toNat + n := by
  simp [lopsided, Committee.total, Function.comp_def]

theorem weight_lopsided : (lopsided name s).weight {name 0} = s.toNat := by
  simp [lopsided, Committee.weight, Committee.stake]

end Lopsided

/-- **In a committee whose stakes do not fit one authority with few of them may be a quorum.** -/
theorem exists_unsound {N : ℕ} (h : 2 ^ 32 ≤ 2 * N) (keys : Fin (N + 1) ↪ C.PublicKey) :
    ∃ c : Committee C, c.total = N ∧ ¬ Sound c := by
  -- just enough for the threshold that the code computes
  obtain ⟨s, hs⟩ : ∃ s : Stake, s.toNat = 2 * N % 2 ^ 32 / 3 + 1 :=
    ⟨.ofNat (2 * N % 2 ^ 32 / 3 + 1), UInt32.toNat_ofNat_of_lt (by unfold UInt32.size; omega)⟩
  let name := (Fin.castLEEmb (Nat.succ_le_succ (Nat.sub_le N s.toNat))).trans keys
  let c := lopsided name s
  have htotal : c.total = N := by
    rw [total_lopsided]
    omega
  have hweight : c.weight {name 0} = s.toNat := weight_lopsided name s
  refine ⟨c, htotal, fun hsound => ?_⟩
  have hstake : (c.stake (name 0)).toNat = s.toNat := by
    refine Eq.trans ?_ hweight
    simp [Committee.weight]
  have hacc : checkQuorum c .qcRequiresQuorum [name 0] [] 0 = .ok () := by
    refine check_iff.mpr ⟨List.nodup_singleton _, fun k hk => ?_, ?_⟩
    · rw [List.mem_singleton.mp hk, UInt32.lt_iff_toNat_lt, hstake]
      exact hs ▸ Nat.succ_pos _
    · rw [List.toFinset_cons, List.toFinset_nil, insert_empty_eq, hweight, htotal,
        Nat.mod_eq_of_lt s.toNat_lt, hs]
      omega
  have hlt := hsound _ hacc
  rw [List.toFinset_cons, List.toFinset_nil, insert_empty_eq, hweight, htotal] at hlt
  omega

/-- **When the quorum check is sound**: for a committee, exactly when no minority appears to have
more than two thirds modulo `2^32`; for all committees of a total stake, if there are enough keys,
exactly when twice the total fits. -/
theorem sound_iff_fits :
    (∀ c : Committee C, Sound c ↔ NoMinority c) ∧
      ∀ N, Nonempty (Fin (N + 1) ↪ C.PublicKey) →
        ((∀ c : Committee C, c.total = N → Sound c) ↔ 2 * N < 2 ^ 32) := by
  refine ⟨sound_iff_noMinority, fun N ⟨keys⟩ => ⟨fun h => ?_, ?_⟩⟩
  · by_contra hN
    obtain ⟨c, hc, hns⟩ := exists_unsound (Nat.le_of_not_lt hN) keys
    exact hns (h c hc)
  · rintro hN c rfl
    exact sound_of_fits hN

/-- A committee of stakes 1 and `2^31 - 1`. -/
def skewed : Committee crypto := ⟨[((0 : ℕ), 1), ((1 : ℕ), 2147483647)], by decide⟩

theorem sound_iff_fits_skewed : (Sound skewed ↔ NoMinority skewed) ∧
    ((∀ c : Committee crypto, c.total = 2 ^ 31 → Sound c) ↔ 2 * 2 ^ 31 < 2 ^ 32) :=
  ⟨sound_iff_fits.1 skewed, sound_iff_fits.2 (2 ^ 31) ⟨Fin.valEmbedding⟩⟩

/-- The vote of an authority with stake 1 of `2^31` is accepted as a quorum. -/
theorem exists_minority_quorum : ¬ ∀ (c : Committee crypto) (qc : QC crypto),
    qc.verify c = .ok () → 2 * c.total < 3 * c.weight (qc.votes.map Prod.fst).toFinset := by
  intro h
  let digest : crypto.Digest := .leaf 1
  refine absurd (h skewed ⟨digest, 1, [(key 0, key 0, voteDigest digest 1)]⟩ ?_) ?_
  · rfl
  · decide

end Hotstuff.Consensus.Wrapping
