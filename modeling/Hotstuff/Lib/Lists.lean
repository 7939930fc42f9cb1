import Mathlib.Data.List.Perm.Basic

/-! # Histories, waiting lists and stores

A history is a list to which entries are added at the end. From a waiting list an element is taken
out by its index. A store is a list of values with their keys. -/

namespace Hotstuff.Lib.Lists

variable {α β : Type*} {l l₁ l₂ : List α} {a x : α} {i : ℕ}

/-- An entry of a history is the last one, or one of those before. -/
theorem append_singleton_split (h : l ++ [a] = l₁ ++ x :: l₂) :
    (l₁ = l ∧ x = a ∧ l₂ = []) ∨ ∃ l₂', l₂ = l₂' ++ [a] ∧ l = l₁ ++ x :: l₂' := by
  rcases List.eq_nil_or_concat l₂ with rfl | ⟨l₂', b, rfl⟩
  · obtain ⟨rfl, hx⟩ := List.append_inj' h rfl
    cases hx
    exact .inl ⟨rfl, rfl, rfl⟩
  · have h' : l ++ [a] = (l₁ ++ x :: l₂') ++ [b] := by simpa using h
    obtain ⟨rfl, hb⟩ := List.append_inj' h' rfl
    cases hb
    exact .inr ⟨l₂', List.concat_eq_append, rfl⟩

theorem filterMap_concat (f : α → Option β) (l : List α) (a : α) :
    (l ++ [a]).filterMap f = l.filterMap f ++ (f a).toList := by
  rw [List.filterMap_append]
  rcases h : f a with _ | b <;> simp [h]

/-- The element that is taken out, and the others. -/
theorem perm_eraseIdx (h : l[i]? = some a) : (a :: l.eraseIdx i).Perm l := by
  obtain ⟨hi, rfl⟩ := List.getElem?_eq_some_iff.mp h
  exact List.getElem_cons_eraseIdx_perm hi

/-- Another element stays. -/
theorem mem_eraseIdx_of_ne (h : l[i]? = some a) (hx : x ∈ l) (hne : x ≠ a) : x ∈ l.eraseIdx i :=
  (List.mem_cons.mp ((perm_eraseIdx h).mem_iff.mpr hx)).resolve_left hne

/-- In a list whose elements have different keys, the others have not the key of the one that is
taken out. -/
theorem key_ne_of_mem_eraseIdx {key : α → β} (h : (l.map key).Nodup) (ha : l[i]? = some a)
    (hx : x ∈ l.eraseIdx i) : key x ≠ key a := by
  have hperm := ((perm_eraseIdx ha).map key).nodup_iff.mpr h
  rw [List.map_cons, List.nodup_cons] at hperm
  exact fun hkey => hperm.1 (hkey ▸ List.mem_map_of_mem hx)

/-- What is found in a store is in it. -/
theorem mem_of_lookup [BEq α] [LawfulBEq α] {st : List (α × β)} {b : β}
    (h : st.lookup a = some b) : (a, b) ∈ st := by
  obtain ⟨l₁, l₂, rfl, -⟩ := List.lookup_eq_some_iff.mp h
  exact List.mem_append_right _ List.mem_cons_self

end Hotstuff.Lib.Lists
