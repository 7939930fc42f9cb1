import Mathlib

/-! # Total order

A `Ledger` is what total order broadcast is for: one log that only grows, of which every reader has
read a prefix. Ledgers are ordered by growth, and the prefixes of two readers are comparable at any
time (`Ledger.read_total`).

The logs here are paths. Where every node but the root has exactly one parent, the path from the
root to a node is unique (`Path.unique`), its entries are the ancestors of the node
(`Path.mem_iff`), and the path to one of them is a prefix (`Path.prefix_of_mem`). -/

namespace Hotstuff.Lib.TotalOrder

open Relation

variable {D K : Type*}

/-! ### Paths from the root of a tree -/

/-- `l` leads from the root to `d`. -/
inductive Path (R : D → D → Prop) (root : D) : D → List D → Prop
  | root : Path R root root [root]
  | snoc {p d : D} {l : List D} (h : Path R root p l) (hd : R p d) : Path R root d (l ++ [d])

/-- Every node has at most one parent, and the root none. -/
structure Tree (R : D → D → Prop) (root : D) : Prop where
  unique : ∀ {p q d}, R p d → R q d → p = q
  root : ∀ {p}, ¬ R p root

section Paths

variable {R : D → D → Prop} {root d x : D} {l l' : List D}

theorem exists_path (h : ReflTransGen R root d) : ∃ l, Path R root d l := by
  induction h with
  | refl => exact ⟨[root], .root⟩
  | tail _ hd ih =>
    obtain ⟨l, hl⟩ := ih
    exact ⟨_, hl.snoc hd⟩

theorem Path.getLast? (h : Path R root d l) : l.getLast? = some d := by
  cases h with
  | root => rfl
  | snoc _ _ => exact List.getLast?_concat

theorem Path.mem_last (h : Path R root d l) : d ∈ l := List.mem_of_getLast? h.getLast?

/-- The path to a node on a path is a prefix of it. -/
theorem Path.prefix_of_mem (h : Path R root d l) (hx : x ∈ l) :
    ∃ l', Path R root x l' ∧ l' <+: l := by
  induction h with
  | root =>
    rw [List.mem_singleton.mp hx]
    exact ⟨_, .root, List.prefix_refl _⟩
  | @snoc p d l h hd ih =>
    rcases List.mem_append.mp hx with hx | hx
    · obtain ⟨l', hl', hpre⟩ := ih hx
      exact ⟨l', hl', hpre.trans (List.prefix_append _ _)⟩
    · rw [List.mem_singleton.mp hx]
      exact ⟨_, h.snoc hd, List.prefix_refl _⟩

theorem Path.ancestor (h : Path R root d l) (hx : x ∈ l) : ReflTransGen R x d := by
  induction h with
  | root => rw [List.mem_singleton.mp hx]
  | snoc h hd ih =>
    rcases List.mem_append.mp hx with hx | hx
    · exact (ih hx).tail hd
    · rw [List.mem_singleton.mp hx]

variable (hR : Tree R root)
include hR

/-- **There is one path to a node.** -/
theorem Path.unique (h : Path R root d l) (h' : Path R root d l') : l = l' := by
  induction h generalizing l' with
  | root =>
    cases h' with
    | root => rfl
    | snoc _ hd => exact absurd hd hR.root
  | snoc _ hd ih =>
    cases h' with
    | root => exact absurd hd hR.root
    | snoc h' hd' =>
      cases hR.unique hd hd'
      rw [ih h']

/-- **The entries of a path are the ancestors of its end.** -/
theorem Path.mem_iff (h : Path R root d l) : x ∈ l ↔ ReflTransGen R x d := by
  refine ⟨h.ancestor, fun hx => ?_⟩
  induction h with
  | root =>
    rcases hx.cases_tail with rfl | ⟨q, -, hq⟩
    · exact List.mem_singleton_self _
    · exact absurd hq hR.root
  | snoc h hd ih =>
    rcases hx.cases_tail with rfl | ⟨q, hxq, hq⟩
    · exact List.mem_append_right _ (List.mem_singleton_self _)
    · cases hR.unique hd hq
      exact List.mem_append_left _ (ih hxq)

theorem Path.nodup (h : Path R root d l) : l.Nodup := by
  induction h with
  | root => exact List.nodup_singleton _
  | @snoc p d l h hd ih =>
    refine List.nodup_append.mpr ⟨ih, List.nodup_singleton _, ?_⟩
    rintro x hx y hy rfl
    rw [List.mem_singleton.mp hy] at hx
    -- the end of the path on the path before it: a path to it is longer than itself
    obtain ⟨l', hl', hpre⟩ := h.prefix_of_mem hx
    have hle := hpre.length_le
    rw [hl'.unique hR (h.snoc hd), List.length_append, List.length_singleton] at hle
    omega

/-- The path to an ancestor is a prefix. -/
theorem Path.prefix_of_ancestor (h : Path R root x l) (h' : Path R root d l')
    (hx : ReflTransGen R x d) : l <+: l' := by
  obtain ⟨l'', hl'', hpre⟩ := h'.prefix_of_mem ((h'.mem_iff hR).mpr hx)
  rwa [h.unique hR hl'']

end Paths

/-! ### Ledgers -/

/-- A log, and how much of it each reader has read. -/
structure Ledger (K D : Type*) where
  log : List D
  nodup : log.Nodup
  position : K → ℕ
  position_le : ∀ k, position k ≤ log.length

namespace Ledger

/-- What the reader `k` has read. -/
def read (L : Ledger K D) (k : K) : List D := L.log.take (L.position k)

/-- The log has been appended to, and the readers have read on. -/
instance : Preorder (Ledger K D) where
  le L L' := L.log <+: L'.log ∧ ∀ k, L.position k ≤ L'.position k
  le_refl L := ⟨List.prefix_refl _, fun _ => le_rfl⟩
  le_trans _ _ _ h h' := ⟨h.1.trans h'.1, fun k => (h.2 k).trans (h'.2 k)⟩

theorem read_prefix_log (L : Ledger K D) (k : K) : L.read k <+: L.log := List.take_prefix _ _

/-- **Two readers agree** as far as both have read. -/
theorem read_total (L : Ledger K D) (k j : K) : L.read k <+: L.read j ∨ L.read j <+: L.read k :=
  List.prefix_or_prefix_of_prefix (L.read_prefix_log k) (L.read_prefix_log j)

theorem length_read (L : Ledger K D) (k : K) : (L.read k).length = L.position k :=
  List.length_take_of_le (L.position_le k)

/-- A reader that has read more entries is further. -/
theorem position_le_of_subset {L L' : Ledger K D} {k : K} (h : L.read k ⊆ L'.read k) :
    L.position k ≤ L'.position k := by
  have hnd : (L.read k).Nodup := L.nodup.sublist (L.read_prefix_log k).sublist
  rw [← length_read, ← length_read]
  exact (hnd.subperm h).length_le

end Ledger

end Hotstuff.Lib.TotalOrder
