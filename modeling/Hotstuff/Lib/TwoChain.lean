import Mathlib

/-! # Safety of the two-chain commit rule

Each authority remembers, in order, the ballots and the timeouts it signed. A ballot names a block,
the block's round, and the parent with the round of the certificate it carries; a timeout names a
round and the highest certified round its signer knew. A block is certified by a quorum whose honest
members voted for it.

`History.Sound` lists what the honest authorities guarantee: the *lock* between ballots and timeouts
(`Locked`), and the rule a ballot obeys (`rule`: the parent is of the round before, or a quorum
timed out in the round before without knowing a certificate above the parent). From it follows
`ancestor_of_cert`: once a block and a child of the next round are both certified, every certified
block of that round or a later one descends from it. -/

namespace Hotstuff.Lib.TwoChain

variable {K D : Type*}

/-- A vote for the block `id` of round `round`, whose parent has been certified in `parentRound`. -/
structure Ballot (D : Type*) where
  id : D
  round : ℕ
  parent : D
  parentRound : ℕ

/-- What an authority signs. -/
inductive Signed (D : Type*) where
  | vote (b : Ballot D)
  | timeout (round highRound : ℕ)

/-- **The lock**: how two signed statements of one authority, the first made before the second, are
related. Ballots have increasing rounds, no ballot follows a timeout of its round or a later one,
and a timeout reports at least the certificate of every earlier ballot. -/
def Locked : Signed D → Signed D → Prop
  | .vote b, .vote b' => b.round < b'.round
  | .timeout r _, .vote b => r < b.round
  | .vote b, .timeout _ h => b.parentRound ≤ h
  | .timeout _ _, .timeout _ _ => True

/-- What all authorities signed, oldest first, with the honest ones and the quorums. -/
structure History (K D : Type*) where
  honest : K → Prop
  quorum : Finset K → Prop
  genesis : D
  signed : K → List (Signed D)

namespace History

variable (H : History K D)

/-- The honest authority `k` signed the ballot `b`. -/
def Voted (k : K) (b : Ballot D) : Prop := H.honest k ∧ Signed.vote b ∈ H.signed k

/-- The honest members of `Q` all voted for the block `d` in round `r`. -/
def VotedBy (Q : Finset K) (d : D) (r : ℕ) : Prop :=
  H.quorum Q ∧ ∀ k ∈ Q, H.honest k → ∃ b, Signed.vote b ∈ H.signed k ∧ b.id = d ∧ b.round = r

/-- The block `d` is certified in round `r`. -/
def Cert (d : D) (r : ℕ) : Prop := (d = H.genesis ∧ r = 0) ∨ ∃ Q, H.VotedBy Q d r

/-- The honest members of `Q` all timed out in round `r`, knowing no certificate above `h`. -/
def TimedOut (Q : Finset K) (r h : ℕ) : Prop :=
  H.quorum Q ∧ ∀ k ∈ Q, H.honest k → ∃ h' ≤ h, Signed.timeout r h' ∈ H.signed k

/-- An honest authority voted for `c` as a child of `p`. -/
def Child (p c : D) : Prop := ∃ k b, H.Voted k b ∧ b.id = c ∧ b.parent = p

/-- What the honest authorities guarantee. -/
structure Sound : Prop where
  inter : ∀ Q Q', H.quorum Q → H.quorum Q' → ∃ k ∈ Q, k ∈ Q' ∧ H.honest k
  locked : ∀ k, H.honest k → (H.signed k).Pairwise Locked
  pos : ∀ k b, H.Voted k b → 0 < b.round ∧ b.id ≠ H.genesis
  same : ∀ k k' b b', H.Voted k b → H.Voted k' b' → b.id = b'.id →
    b.round = b'.round ∧ b.parent = b'.parent
  parent : ∀ k b, H.Voted k b → H.Cert b.parent b.parentRound
  rule : ∀ k b, H.Voted k b →
    b.parentRound + 1 = b.round ∨ ∃ Q r, r + 1 = b.round ∧ H.TimedOut Q r b.parentRound
  above : ∀ Q k b, H.Voted k b → H.VotedBy Q b.id b.round → b.parentRound < b.round

end History

namespace History.Sound

variable {H : History K D} (hS : H.Sound)
include hS

/-- One of two signed statements was made first. -/
theorem locked_or {k : K} {x y : Signed D} (hk : H.honest k) (hx : x ∈ H.signed k)
    (hy : y ∈ H.signed k) (hne : x ≠ y) : Locked x y ∨ Locked y x := by
  have h : (H.signed k).Pairwise fun x y => Locked x y ∨ Locked y x :=
    (hS.locked k hk).imp Or.inl
  have : Std.Symm fun x y : Signed D => Locked x y ∨ Locked y x := ⟨fun _ _ h => h.symm⟩
  exact h.forall hx hy hne

/-- A quorum has an honest member, which voted. -/
theorem exists_voted {Q : Finset K} {d : D} {r : ℕ} (h : H.VotedBy Q d r) :
    ∃ k ∈ Q, ∃ b, H.Voted k b ∧ b.id = d ∧ b.round = r := by
  obtain ⟨k, hk, -, hh⟩ := hS.inter Q Q h.1 h.1
  obtain ⟨b, hb, hd, hr⟩ := h.2 k hk hh
  exact ⟨k, hk, b, ⟨hh, hb⟩, hd, hr⟩

/-- **At most one block is certified in a round.** -/
theorem cert_unique {d d' : D} {r : ℕ} (h : H.Cert d r) (h' : H.Cert d' r) : d = d' := by
  rcases h with ⟨rfl, rfl⟩ | ⟨Q, hQ⟩
  · rcases h' with ⟨rfl, -⟩ | ⟨Q, hQ⟩
    · rfl
    · obtain ⟨k, -, b, hb, -, hr⟩ := hS.exists_voted hQ
      have := (hS.pos k b hb).1
      omega
  · rcases h' with ⟨rfl, rfl⟩ | ⟨Q', hQ'⟩
    · obtain ⟨k, -, b, hb, -, hr⟩ := hS.exists_voted hQ
      have := (hS.pos k b hb).1
      omega
    · obtain ⟨k, hk, hk', hh⟩ := hS.inter Q Q' hQ.1 hQ'.1
      obtain ⟨b, hb, rfl, hr⟩ := hQ.2 k hk hh
      obtain ⟨b', hb', rfl, hr'⟩ := hQ'.2 k hk' hh
      by_contra hne
      have hne' : Signed.vote b ≠ Signed.vote b' := fun he => hne (by cases he; rfl)
      rcases hS.locked_or hh hb hb' hne' with h | h
      · have : b.round < b'.round := h
        omega
      · have : b'.round < b.round := h
        omega

/-- A block is certified in one round only. -/
theorem cert_round_unique {d : D} {r r' : ℕ} (h : H.Cert d r) (h' : H.Cert d r') : r = r' := by
  rcases h with ⟨rfl, rfl⟩ | ⟨Q, hQ⟩
  · rcases h' with ⟨-, rfl⟩ | ⟨Q, hQ⟩
    · rfl
    · obtain ⟨k, -, b, hb, hd, -⟩ := hS.exists_voted hQ
      exact absurd hd (hS.pos k b hb).2
  · obtain ⟨k, -, b, hb, hd, rfl⟩ := hS.exists_voted hQ
    rcases h' with ⟨hg, -⟩ | ⟨Q', hQ'⟩
    · exact absurd (hd.trans hg) (hS.pos k b hb).2
    · obtain ⟨k', -, b', hb', hd', rfl⟩ := hS.exists_voted hQ'
      exact (hS.same k k' b b' hb hb' (hd.trans hd'.symm)).1

/-- A certified block other than the first has a ballot, and its parent is certified below it. -/
theorem exists_ballot {d : D} {r : ℕ} (h : H.Cert d r) (hr : 0 < r) :
    ∃ k b, H.Voted k b ∧ b.id = d ∧ b.round = r ∧ b.parentRound < r ∧
      H.Cert b.parent b.parentRound := by
  rcases h with ⟨-, rfl⟩ | ⟨Q, hQ⟩
  · omega
  · obtain ⟨k, -, b, hb, rfl, rfl⟩ := hS.exists_voted hQ
    exact ⟨k, b, hb, rfl, rfl, hS.above Q k b hb hQ, hS.parent k b hb⟩

/-- **The lock carries over**: if a quorum voted for a child `c`, in round `r + 1`, of a block
certified in round `r`, a quorum that timed out in a later round reports a certificate of round `r`
or above. -/
theorem le_of_timedOut {p c : D} {r t h : ℕ} {Q Q' : Finset K} (hp : H.Cert p r)
    (hc : H.VotedBy Q c (r + 1)) (hpc : H.Child p c) (ht : H.TimedOut Q' t h) (hrt : r < t) :
    r ≤ h := by
  obtain ⟨k, hk, hk', hh⟩ := hS.inter Q Q' hc.1 ht.1
  obtain ⟨b, hb, hid, hround⟩ := hc.2 k hk hh
  obtain ⟨h', hle, hto⟩ := ht.2 k hk' hh
  obtain ⟨k₁, b₁, hb₁, hid₁, rfl⟩ := hpc
  -- the ballot of `k` has the certificate of `p`, of round `r`
  have hpar := (hS.same k k₁ b b₁ ⟨hh, hb⟩ hb₁ (hid.trans hid₁.symm)).2
  have hcert := hS.parent k b ⟨hh, hb⟩
  rw [hpar] at hcert
  have hpr : b.parentRound = r := hS.cert_round_unique hcert hp
  rcases hS.locked_or hh hb hto (by simp) with hl | hl
  · have : b.parentRound ≤ h' := hl
    omega
  · have : t < b.round := hl
    omega

/-- **Safety of the two-chain rule.** If `p` is certified in round `r` and its child `c` in round
`r + 1`, every block certified in round `r` or later is `p` or descends from it. -/
theorem ancestor_of_cert {p c d : D} {r r' : ℕ} {Q : Finset K} (hp : H.Cert p r)
    (hc : H.VotedBy Q c (r + 1)) (hpc : H.Child p c) (hd : H.Cert d r') (hr : r ≤ r') :
    Relation.ReflTransGen H.Child p d := by
  induction r' using Nat.strong_induction_on generalizing d with
  | _ r' ih =>
    rcases hr.lt_or_eq with hlt | rfl
    · obtain ⟨k, b, hb, rfl, rfl, hlow, hpar⟩ := hS.exists_ballot hd (by omega)
      rcases (show b.round = r + 1 ∨ r + 1 < b.round by omega) with hnext | hlater
      · have hcd : c = b.id := hS.cert_unique (.inr ⟨Q, hc⟩) (hnext ▸ hd)
        exact .single (hcd ▸ hpc)
      · -- the certificate that `b` carries is of round `r` or above: descend to it
        have hle : r ≤ b.parentRound := by
          rcases hS.rule k b hb with hone | ⟨Q', t, ht, hto⟩
          · omega
          · exact hS.le_of_timedOut hp hc hpc hto (by omega)
        exact (ih b.parentRound hlow hpar hle).tail ⟨k, b, hb, rfl, rfl⟩
    · rw [hS.cert_unique hp hd]

/-- The parent of a certified block is certified in an earlier round. -/
theorem cert_of_child {p d : D} {r : ℕ} (h : H.Child p d) (hd : H.Cert d r) :
    ∃ r' < r, H.Cert p r' := by
  obtain ⟨k, b, hb, rfl, rfl⟩ := h
  have hr : 0 < r := by
    rcases hd with ⟨h, -⟩ | ⟨Q, hQ⟩
    · exact absurd h (hS.pos k b hb).2
    · obtain ⟨k', -, b', hb', -, rfl⟩ := hS.exists_voted hQ
      exact (hS.pos k' b' hb').1
  obtain ⟨k', b', hb', hid, rfl, hlow, hpar⟩ := hS.exists_ballot hd hr
  rw [(hS.same k' k b' b hb' hb hid).2] at hpar
  exact ⟨_, hlow, hpar⟩

/-- Certified rounds grow from ancestors to descendants. -/
theorem le_of_ancestor {p d : D} {r r' : ℕ} (h : Relation.ReflTransGen H.Child p d)
    (hp : H.Cert p r) (hd : H.Cert d r') : r ≤ r' := by
  induction h generalizing r' with
  | refl => exact (hS.cert_round_unique hp hd).le
  | tail _ h ih =>
    obtain ⟨r₁, hlt, hq⟩ := hS.cert_of_child h hd
    exact (ih hq).trans hlt.le

/-- An ancestor of no earlier round is the block itself. -/
theorem eq_of_ancestor {p d : D} {r r' : ℕ} (h : Relation.ReflTransGen H.Child p d)
    (hp : H.Cert p r) (hd : H.Cert d r') (hr : r' ≤ r) : p = d := by
  rcases h.cases_tail with rfl | ⟨q, hpq, hqd⟩
  · rfl
  · obtain ⟨r₁, hlt, hq⟩ := hS.cert_of_child hqd hd
    have := hS.le_of_ancestor hpq hp hq
    omega

/-- The ancestors of a certified block are certified. -/
theorem cert_of_ancestor {p d : D} {r : ℕ} (h : Relation.ReflTransGen H.Child p d)
    (hd : H.Cert d r) : ∃ r' ≤ r, H.Cert p r' := by
  induction h generalizing r with
  | refl => exact ⟨r, le_rfl, hd⟩
  | tail _ h ih =>
    obtain ⟨r₁, hlt, hq⟩ := hS.cert_of_child h hd
    obtain ⟨r', hle, hp⟩ := ih hq
    exact ⟨r', hle.trans hlt.le, hp⟩

/-- A block has one parent. -/
theorem child_unique : Relator.RightUnique (Function.swap H.Child) := by
  rintro d p q ⟨k, b, hb, hid, rfl⟩ ⟨k', b', hb', hid', rfl⟩
  exact (hS.same k k' b b' hb hb' (hid.trans hid'.symm)).2

/-- Of two ancestors of a block, the one of no later round is an ancestor of the other. -/
theorem ancestor_of_le {p q d : D} {r r' : ℕ} (h : Relation.ReflTransGen H.Child p d)
    (h' : Relation.ReflTransGen H.Child q d) (hp : H.Cert p r) (hq : H.Cert q r') (hr : r ≤ r') :
    Relation.ReflTransGen H.Child p q := by
  have hswap : ∀ {x y : D}, Relation.ReflTransGen (Function.swap H.Child) x y ↔
      Relation.ReflTransGen H.Child y x := Relation.reflTransGen_swap
  rcases Relation.ReflTransGen.total_of_right_unique hS.child_unique (hswap.mpr h)
    (hswap.mpr h') with h | h
  · rw [hS.eq_of_ancestor (hswap.mp h) hq hp hr]
  · exact hswap.mp h

/-- Every certified block descends from the first one. -/
theorem genesis_ancestor {d : D} {r : ℕ} (hd : H.Cert d r) :
    Relation.ReflTransGen H.Child H.genesis d := by
  induction r using Nat.strong_induction_on generalizing d with
  | _ r ih =>
    rcases Nat.eq_zero_or_pos r with rfl | hr
    · rw [hS.cert_unique hd (.inl ⟨rfl, rfl⟩)]
    · obtain ⟨k, b, hb, rfl, rfl, hlow, hpar⟩ := hS.exists_ballot hd hr
      exact (ih b.parentRound hlow hpar).tail ⟨k, b, hb, rfl, rfl⟩

end History.Sound

end Hotstuff.Lib.TwoChain
