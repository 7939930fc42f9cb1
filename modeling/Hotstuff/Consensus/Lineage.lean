import Hotstuff.Consensus.Admission

/-! # Blocks listed after their parents

`bs` lists valid blocks with distinct digests, each one after its parent (`Input`). As long as the
store holds such blocks with their parents (`Content`), the ancestors that `process_block` and
`commit` look for are found (`getAncestors_found`, `gatherAncestors_found`): the loop of `commit`
goes back in the list, and so ends. -/

namespace Hotstuff.Consensus.Lineage

open Hotstuff.Primitives Hotstuff.Consensus.Config Hotstuff.Consensus.Messages
open Hotstuff.Consensus.Pacing Hotstuff.Consensus.Handlers
open Hotstuff.Consensus.Steps Hotstuff.Consensus.Admission
open Hotstuff.Lib.Lists (mem_of_lookup)

variable {C : Crypto} {T : Type}

/-! ### The blocks -/

/-- Valid blocks, listed after their parents, whose payloads are in the store `st₀`. No authority is
a quorum on its own. -/
structure Input (env : Env C) (st₀ : Store C) (bs : List (Block C)) : Prop where
  nodup : (bs.map Block.digest).Nodup
  parent : ∀ l₁ b l₂, bs = l₁ ++ b :: l₂ → b.qc.IsGenesis ∨ ∃ p ∈ l₁, p.digest = b.parent
  checked : ∀ b ∈ bs, Checked env b
  payload : ∀ b ∈ bs, ∀ d ∈ b.payload, (st₀.lookup d).isSome
  /-- No batch of `st₀` has the digest of a block. -/
  fresh : ∀ b ∈ bs, st₀.lookup b.digest = none
  noQuorum : ∀ k, env.committee.stake k < env.committee.quorumThreshold

/-- No certificate is of the last round, where the round of the node would wrap. -/
def NotLast (bs : List (Block C)) : Prop :=
  ∀ b ∈ bs, b.qc.round + 1 ≠ 0 ∧ ∀ tc, b.tc = some tc → tc.round + 1 ≠ 0

/-- `p` is the parent of `b` in the list. -/
def ParentIn (bs : List (Block C)) (p b : Block C) : Prop :=
  (b.qc.IsGenesis ∧ p = Block.genesis) ∨ (¬ b.qc.IsGenesis ∧ p ∈ bs ∧ p.digest = b.parent)

/-- The certificates of the block lead to the round. -/
def LeadsTo (b : Block C) (m : ℕ) : Prop :=
  m = b.qc.round.toNat + 1 ∨ ∃ tc, b.tc = some tc ∧ m = tc.round.toNat + 1

/-- The grandparent of the block is of the round and committed when the block is processed. -/
def Commits (bs : List (Block C)) (b : Block C) (m : ℕ) : Prop :=
  ∃ b0 b1, ParentIn bs b1 b ∧ ParentIn bs b0 b1 ∧ b0.round + 1 = b1.round ∧ m = b0.round.toNat

/-- Induction along a list, from its beginning. -/
theorem prefix_induction {α : Type*} {bs : List α} {P : List α → Prop} (h0 : P [])
    (hs : ∀ l a l₂, bs = l ++ a :: l₂ → P l → P (l ++ [a])) : P bs := by
  have hpre : ∀ l, l <+: bs → P l := by
    intro l
    induction l using List.reverseRecOn with
    | nil => exact fun _ => h0
    | append_singleton l a ih =>
      rintro ⟨l₂, hl⟩
      have hbs : bs = l ++ a :: l₂ := by rw [← hl, List.append_assoc]; rfl
      exact hs l a l₂ hbs (ih ⟨a :: l₂, hbs.symm⟩)
  exact hpre bs (List.prefix_refl bs)

section Input

variable {env : Env C} {st₀ : Store C} {bs : List (Block C)}

theorem Input.eq_of_digest (h : Input env st₀ bs) {b b' : Block C} (hb : b ∈ bs) (hb' : b' ∈ bs)
    (hd : b.digest = b'.digest) : b = b' :=
  List.inj_on_of_nodup_map h.nodup hb hb' hd

theorem Input.parent_mem (h : Input env st₀ bs) {b : Block C} (hb : b ∈ bs)
    (hg : ¬ b.qc.IsGenesis) : ∃ p ∈ bs, p.digest = b.parent := by
  obtain ⟨l₁, l₂, rfl⟩ := List.append_of_mem hb
  obtain ⟨p, hp, hd⟩ := (h.parent l₁ b l₂ rfl).resolve_left hg
  exact ⟨p, List.mem_append_left _ hp, hd⟩

theorem Input.parentIn_unique (h : Input env st₀ bs) {p p' b : Block C} (hp : ParentIn bs p b)
    (hp' : ParentIn bs p' b) : p = p' := by
  rcases hp with ⟨hg, rfl⟩ | ⟨hg, hp, hd⟩
  · rcases hp' with ⟨-, rfl⟩ | ⟨hg', -⟩
    · rfl
    · exact absurd hg hg'
  · rcases hp' with ⟨hg', -⟩ | ⟨-, hp', hd'⟩
    · exact absurd hg' hg
    · exact h.eq_of_digest hp hp' (hd.trans hd'.symm)

theorem Input.commits_iff (h : Input env st₀ bs) {b b0 b1 : Block C} (h1 : ParentIn bs b1 b)
    (h0 : ParentIn bs b0 b1) {m : ℕ} :
    Commits bs b m ↔ b0.round + 1 = b1.round ∧ m = b0.round.toNat := by
  constructor
  · rintro ⟨c0, c1, hc1, hc0, hr, hm⟩
    obtain rfl := h.parentIn_unique h1 hc1
    obtain rfl := h.parentIn_unique h0 hc0
    exact ⟨hr, hm⟩
  · rintro ⟨hr, hm⟩
    exact ⟨b0, b1, h1, h0, hr, hm⟩

/-- **Induction along the list**, from the parent of a block to the block. -/
theorem Input.induction (h : Input env st₀ bs) {P : Block C → Prop}
    (hP : ∀ b ∈ bs, (b.qc.IsGenesis ∨ ∃ p ∈ bs, p.digest = b.parent ∧ P p) → P b) :
    ∀ b ∈ bs, P b := by
  refine prefix_induction (P := fun l => ∀ b ∈ l, P b) (by simp) fun l a l₂ hbs ih => ?_
  refine List.forall_mem_append.mpr ⟨ih, List.forall_mem_singleton.mpr (hP a ?_ ?_)⟩
  · rw [hbs]; simp
  · refine (h.parent l a l₂ hbs).imp_right fun ⟨p, hp, hd⟩ => ⟨p, ?_, hd, ih p hp⟩
    rw [hbs]
    exact List.mem_append_left _ hp

end Input

/-! ### The store -/

/-- The store holds what `st₀` does and blocks of the list, each with its parent. -/
structure Content (st₀ : Store C) (bs : List (Block C)) (st : Store C) : Prop where
  value : ∀ d, st.lookup d = st₀.lookup d ∨
    ∃ b ∈ bs, b.digest = d ∧ st.lookup d = some (.block b)
  closed : ∀ b ∈ bs, (st.lookup b.digest).isSome → b.qc.IsGenesis ∨ (st.lookup b.parent).isSome

/-- The block is the first one, or in the list and stored. -/
def Found (bs : List (Block C)) (st : Store C) (b : Block C) : Prop :=
  b = Block.genesis ∨ (b ∈ bs ∧ (st.lookup b.digest).isSome)

section Content

variable {env : Env C} {st₀ st : Store C} {bs : List (Block C)} {b : Block C}

theorem Content.stored (h : Content st₀ bs st) (hin : Input env st₀ bs) (hb : b ∈ bs)
    (hs : (st.lookup b.digest).isSome) : st.lookup b.digest = some (.block b) := by
  rcases h.value b.digest with hl | ⟨b', hb', hd, hl⟩
  · rw [hl, hin.fresh b hb] at hs
    cases hs
  · rw [hl, hin.eq_of_digest hb' hb hd]

theorem Content.payload (h : Content st₀ bs st) (hin : Input env st₀ bs) (hb : b ∈ bs) :
    ∀ d ∈ b.payload, (st.lookup d).isSome := by
  intro d hd
  rcases h.value d with hl | ⟨b', -, -, hl⟩
  · rw [hl]
    exact hin.payload b hb d hd
  · rw [hl]
    rfl

theorem lookup_store (b : Block C) (d : C.Digest) :
    List.lookup d ((b.digest, Value.block b) :: st) =
      if d = b.digest then some (.block b) else st.lookup d := by
  rw [List.lookup_cons]
  by_cases hd : d = b.digest
  · simp [hd]
  · rw [beq_false_of_ne hd, if_neg hd]

theorem isSome_store (b : Block C) {d : C.Digest} (h : (st.lookup d).isSome) :
    (List.lookup d ((b.digest, Value.block b) :: st)).isSome := by
  rw [lookup_store]
  split_ifs
  · rfl
  · exact h

/-- A block is stored after its parent. -/
theorem Content.store (h : Content st₀ bs st) (hin : Input env st₀ bs) (hb : b ∈ bs)
    (hp : b.qc.IsGenesis ∨ (st.lookup b.parent).isSome) :
    Content st₀ bs ((b.digest, .block b) :: st) := by
  refine ⟨fun d => ?_, fun b' hb' hs => ?_⟩
  · rw [lookup_store]
    split_ifs with hd
    · exact .inr ⟨b, hb, hd.symm, rfl⟩
    · exact h.value d
  · have hp' : b'.qc.IsGenesis ∨ (st.lookup b'.parent).isSome := by
      rw [lookup_store] at hs
      split_ifs at hs with hd
      · rwa [hin.eq_of_digest hb' hb hd]
      · exact h.closed b' hb' hs
    exact hp'.imp_right (isSome_store b)

theorem Found.store (h : Found bs st b) (b' : Block C) :
    Found bs ((b'.digest, .block b') :: st) b :=
  h.imp_right fun ⟨hb, hs⟩ => ⟨hb, isSome_store b' hs⟩

end Content

/-! ### What the code expects to find -/

/-- No access of the store fails. -/
structure Succeeds (io : Io C) : Prop where
  read : ∀ d, io.readFails d = false
  write : ∀ d, io.writeFails d = false

section Lookups

variable {env : Env C} {st₀ : Store C} {bs : List (Block C)} {s : Core C T} {io : Io C}

theorem read_of_succeed (hio : Succeeds io) (st : Store C) (d : C.Digest) :
    st.read io d = .ok (st.lookup d) := by
  rw [Store.read, hio.read d]
  rfl

theorem getParentBlock_missing (hio : Succeeds io) {b : Block C} (hg : ¬ b.qc.IsGenesis)
    (hl : s.store.lookup b.parent = none) :
    getParentBlock env io s b = (s.emit (.suspend b), .ok none) := by
  unfold getParentBlock
  rw [if_neg hg, read_of_succeed hio, hl]

/-- The parent of a block of the list, or of the first one, if it is in the store. -/
theorem getParentBlock_found (hin : Input env st₀ bs) (hc : Content st₀ bs s.store)
    (hio : Succeeds io) {b : Block C} (hb : b = Block.genesis ∨ b ∈ bs)
    (hp : b.qc.IsGenesis ∨ (s.store.lookup b.parent).isSome) :
    ∃ p, getParentBlock env io s b = (s, .ok (some p)) ∧ ParentIn bs p b ∧
      Found bs s.store p := by
  unfold getParentBlock
  by_cases hg : b.qc.IsGenesis
  · exact ⟨_, if_pos hg, .inl ⟨hg, rfl⟩, .inl rfl⟩
  have hb := hb.resolve_left fun h => hg (by rw [h]; exact isGenesis_genesis)
  obtain ⟨p, hpm, hd⟩ := hin.parent_mem hb hg
  have hs := hp.resolve_left hg
  rw [← hd] at hs
  refine ⟨p, ?_, .inr ⟨hg, hpm, hd⟩, .inr ⟨hpm, hs⟩⟩
  rw [if_neg hg, read_of_succeed hio, ← hd, hc.stored hin hpm hs]
  rfl

theorem found_closed (hc : Content st₀ bs s.store) {b : Block C} (hb : Found bs s.store b) :
    (b = Block.genesis ∨ b ∈ bs) ∧ (b.qc.IsGenesis ∨ (s.store.lookup b.parent).isSome) := by
  rcases hb with rfl | ⟨hb, hs⟩
  · exact ⟨.inl rfl, .inl isGenesis_genesis⟩
  · exact ⟨.inr hb, hc.closed b hb hs⟩

theorem getAncestors_found (hin : Input env st₀ bs) (hc : Content st₀ bs s.store)
    (hio : Succeeds io) {b : Block C} (hb : b ∈ bs)
    (hp : b.qc.IsGenesis ∨ (s.store.lookup b.parent).isSome) :
    ∃ b0 b1, getAncestors env io s b = (s, .ok (some (b0, b1))) ∧ ParentIn bs b1 b ∧
      ParentIn bs b0 b1 ∧ Found bs s.store b0 := by
  obtain ⟨b1, h1, hpar1, hf1⟩ := getParentBlock_found hin hc hio (.inr hb) hp
  obtain ⟨hb1, hp1⟩ := found_closed hc hf1
  obtain ⟨b0, h0, hpar0, hf0⟩ := getParentBlock_found hin hc hio hb1 hp1
  exact ⟨b0, b1, by simp [getAncestors, h1, h0], hpar1, hpar0, hf0⟩

/-- The blocks of the list that are stored. -/
def storedBlocks (st : Store C) (bs : List (Block C)) : List (Block C) :=
  bs.filter fun b => (st.lookup b.digest).isSome

/-- The keys of a store include the distinct digests of the stored blocks. -/
theorem length_storedBlocks (h : (bs.map Block.digest).Nodup) (st : Store C) :
    (storedBlocks st bs).length ≤ st.length := by
  have hsub : ((storedBlocks st bs).map Block.digest) ⊆ st.map Prod.fst := by
    intro d hd
    obtain ⟨b, hb, rfl⟩ := List.mem_map.mp hd
    obtain ⟨v, hv⟩ := Option.isSome_iff_exists.mp (List.mem_filter.mp hb).2
    exact List.mem_map_of_mem (f := Prod.fst) (mem_of_lookup hv)
  have hnd : ((storedBlocks st bs).map Block.digest).Nodup :=
    h.sublist (List.filter_sublist.map _)
  simpa using (hnd.subperm hsub).length_le

theorem gatherAncestors_genesis (io : Io C) (last : Round) {n : ℕ} (h : 0 < n)
    (acc : List (Block C)) :
    gatherAncestors env io last n s Block.genesis acc = (s, .ok acc) := by
  obtain ⟨n, rfl⟩ := Nat.exists_eq_add_of_lt h
  have hr : ¬ last + 1 < (Block.genesis : Block C).round := fun h => pos_of_lt h rfl
  rw [Nat.zero_add, gatherAncestors, if_neg hr]

/-- **The loop of `commit` ends** with all the ancestors it looks for: it goes back in the list,
along blocks that are stored. -/
theorem gatherAncestors_found (hin : Input env st₀ bs) (hc : Content st₀ bs s.store)
    (hio : Succeeds io) (last : Round) : ∀ b ∈ bs, (s.store.lookup b.digest).isSome →
      ∀ n acc, (storedBlocks s.store bs).length < n →
        ∃ l, gatherAncestors env io last n s b acc = (s, .ok l) := by
  refine prefix_induction (P := fun l => ∀ b ∈ l, (s.store.lookup b.digest).isSome →
    ∀ n acc, (storedBlocks s.store l).length < n →
      ∃ l', gatherAncestors env io last n s b acc = (s, .ok l')) (by simp) ?_
  intro l a l₂ hbs ih b hb hs n acc hn
  have hlen : (storedBlocks s.store (l ++ [a])).length =
      (storedBlocks s.store l).length + (storedBlocks s.store [a]).length := by
    simp [storedBlocks]
  rcases List.mem_append.mp hb with hb | hb
  · exact ih b hb hs n acc (by omega)
  obtain rfl := List.mem_singleton.mp hb
  have hone : (storedBlocks s.store [b]).length = 1 := by
    simp [storedBlocks, hs]
  obtain ⟨n, rfl⟩ := Nat.exists_eq_add_of_lt (Nat.zero_lt_of_lt hn)
  rw [Nat.zero_add, gatherAncestors]
  split_ifs
  swap
  · exact ⟨_, rfl⟩
  have hmem : b ∈ bs := by rw [hbs]; simp
  obtain ⟨p, hget, hpar, hf⟩ :=
    getParentBlock_found hin hc hio (.inr hmem) (hc.closed b hmem hs)
  rw [hget]
  rcases hpar with ⟨-, rfl⟩ | ⟨hg, hp, hd⟩
  · exact ⟨_, gatherAncestors_genesis io last (by omega) _⟩
  rcases hf with rfl | ⟨-, hps⟩
  · exact ⟨_, gatherAncestors_genesis io last (by omega) _⟩
  -- the parent comes before the block
  have hpl : p ∈ l := by
    obtain ⟨p', hp', hd'⟩ := (hin.parent l b l₂ hbs).resolve_left hg
    have hpm : p' ∈ bs := by rw [hbs]; exact List.mem_append_left _ hp'
    rwa [hin.eq_of_digest hp hpm (hd.trans hd'.symm)]
  exact ih p hpl hps n _ (by omega)

end Lookups

end Hotstuff.Consensus.Lineage
