import Mathlib.Data.List.Basic
import Mathlib.Order.Lattice

/-! # Addressed messages

The messages sent to several addresses are a list of pairs. Those to the same address are numbered
in order (`number`); the number of a message finds it among them (`getElem?_number`), and different
messages to the same address have different numbers (`number_injective`). -/

namespace Hotstuff.Lib.Channels

variable {α β : Type*} [DecidableEq α] {l : List (α × β)} {a : α} {d d' : β} {i j : ℕ}

/-- The messages to an address. -/
def sentTo (l : List (α × β)) (a : α) : List β := (l.filter (·.1 = a)).map Prod.snd

/-- The number of the `i`-th message among those to the address. -/
def number (l : List (α × β)) (a : α) (i : ℕ) : ℕ := (sentTo (l.take i) a).length

theorem sentTo_append (l l' : List (α × β)) (a : α) :
    sentTo (l ++ l') a = sentTo l a ++ sentTo l' a := by
  rw [sentTo, List.filter_append, List.map_append]
  rfl

theorem number_append (l' : List (α × β)) (a : α) (h : i ≤ l.length) :
    number (l ++ l') a i = number l a i := by
  rw [number, List.take_append_of_le_length h]
  rfl

/-- The messages before the `i`-th one, the message, and those after it. -/
theorem sentTo_split (h : l[i]? = some (a, d)) :
    sentTo l a = sentTo (l.take i) a ++ d :: sentTo (l.drop (i + 1)) a := by
  obtain ⟨hi, hget⟩ := List.getElem?_eq_some_iff.mp h
  have hcons : sentTo ((a, d) :: l.drop (i + 1)) a = d :: sentTo (l.drop (i + 1)) a := by
    simp [sentTo]
  rw [← hcons, ← sentTo_append, ← hget, ← List.drop_eq_getElem_cons hi, List.take_append_drop]

theorem getElem?_number (h : l[i]? = some (a, d)) : (sentTo l a)[number l a i]? = some d := by
  rw [sentTo_split h, number, List.getElem?_append_right (le_refl _), Nat.sub_self]
  rfl

theorem number_lt_length (h : l[i]? = some (a, d)) : number l a i < (sentTo l a).length :=
  (List.getElem?_eq_some_iff.mp (getElem?_number h)).1

/-- A later message has a larger number. -/
theorem number_lt (hij : i < j) (h : l[i]? = some (a, d)) : number l a i < number l a j := by
  have hi : (l.take j)[i]? = some (a, d) := by rw [List.getElem?_take_of_lt hij, h]
  have hlt := number_lt_length hi
  rwa [number, List.take_take, Nat.min_eq_left hij.le] at hlt

theorem number_injective (hi : l[i]? = some (a, d)) (hj : l[j]? = some (a, d'))
    (h : number l a i = number l a j) : i = j := by
  rcases Nat.lt_trichotomy i j with hlt | heq | hlt
  · exact absurd h (number_lt hlt hi).ne
  · exact heq
  · exact absurd h (number_lt hlt hj).ne'

/-- A message that is added has a number that no earlier one has. -/
theorem length_le_number (l' : List (α × β)) (a : α) (h : l.length ≤ i) :
    (sentTo l a).length ≤ number (l ++ l') a i := by
  rw [number, List.take_append, List.take_of_length_le h, sentTo_append, List.length_append]
  exact Nat.le_add_right _ _

end Hotstuff.Lib.Channels
