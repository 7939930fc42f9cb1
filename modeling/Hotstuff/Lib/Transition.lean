import Mathlib
import Hotstuff.Lib.Lists

/-! # Runs of a labelled step relation

A run is a list of labels, in order, with the state it ends in. `Run.invariant` carries a property
along a run. `Run.invariant_of` does so for a property that is only claimed of states satisfying a
condition which every earlier state of the run then satisfies too (an assumption about the history,
made once, of the last state). `Every` states a condition on each step of a run, and `iff_every` and
`forall_iff_every` turn an equivalence for one step into one for whole runs. -/

namespace Hotstuff.Lib.Transition

open Hotstuff.Lib.Lists

variable {σ ε : Type*} {step : σ → ε → σ → Prop} {s₀ s s' : σ} {es es' : List ε} {e : ε}

/-- `Run step s₀ es s`: the labels `es` lead from `s₀` to `s`. -/
inductive Run (step : σ → ε → σ → Prop) (s₀ : σ) : List ε → σ → Prop
  | nil : Run step s₀ [] s₀
  | snoc {es : List ε} {s : σ} {e : ε} {s' : σ} (r : Run step s₀ es s) (h : step s e s') :
      Run step s₀ (es ++ [e]) s'

theorem Run.invariant {P : σ → Prop} (r : Run step s₀ es s) (h0 : P s₀)
    (hs : ∀ s e s', P s → step s e s' → P s') : P s := by
  induction r with
  | nil => exact h0
  | snoc _ h ih => exact hs _ _ _ ih h

/-- An invariant that only the labels of the run have to preserve. -/
theorem Run.invariant_mem {P : σ → Prop} {A : ε → Prop} (r : Run step s₀ es s)
    (hes : ∀ e ∈ es, A e) (h0 : P s₀) (hs : ∀ s e s', P s → A e → step s e s' → P s') : P s := by
  induction r with
  | nil => exact h0
  | snoc _ h ih =>
    rw [List.forall_mem_append, List.forall_mem_singleton] at hes
    exact hs _ _ _ (ih hes.1) hes.2 h

/-- **An invariant under a condition on the last state**: given an invariant `I`, if `Q` of a state
gives `Q` of the states before it, `P` only has to be preserved by steps into states satisfying
`Q`. -/
theorem Run.invariant_of {I P Q : σ → Prop} (r : Run step s₀ es s) (hI : I s₀)
    (hI' : ∀ s e s', I s → step s e s' → I s')
    (hQ : ∀ s e s', I s → step s e s' → Q s' → Q s) (h0 : P s₀)
    (hs : ∀ s e s', I s → P s → Q s' → step s e s' → P s') : Q s → P s := by
  induction r with
  | nil => exact fun _ => h0
  | snoc r h ih =>
    have hi := r.invariant hI hI'
    exact fun hq => hs _ _ _ hi (ih (hQ _ _ _ hi h hq)) hq h

theorem Run.cons (h : step s₀ e s) (r : Run step s es s') : Run step s₀ (e :: es) s' := by
  induction r with
  | nil => exact (.snoc .nil h : Run step s₀ ([] ++ [e]) _)
  | @snoc es _ e' _ _ h' ih => exact (.snoc ih h' : Run step s₀ ((e :: es) ++ [e']) _)

theorem Run.trans (r : Run step s₀ es s) (r' : Run step s es' s') : Run step s₀ (es ++ es') s' := by
  induction r' with
  | nil => rwa [List.append_nil]
  | snoc _ h ih =>
    rw [← List.append_assoc]
    exact .snoc ih h

/-- **What waits in a queue gets to its head**, if the label takes out the head of the queue. -/
theorem exists_run_head {α : Type*} (next : σ → ε → σ → Prop) (e : ε) (queue : σ → List α)
    {I : σ → Prop}
    (hpop : ∀ s x l, I s → queue s = x :: l → ∃ s', next s e s' ∧ I s' ∧ queue s' = l) {x : α} :
    ∀ {l : List α} {s : σ}, I s → queue s = l → x ∈ l →
      ∃ n s' l', Run next s (List.replicate n e) s' ∧ I s' ∧ queue s' = x :: l'
  | y :: l, s, hI, hq, hx => by
    by_cases hxy : x = y
    · exact ⟨0, s, l, .nil, hI, hxy ▸ hq⟩
    · obtain ⟨s₁, h₁, hI₁, hq₁⟩ := hpop s y l hI hq
      obtain ⟨n, s', l', r, hI', hq'⟩ :=
        exists_run_head next e queue hpop hI₁ hq₁ ((List.mem_cons.mp hx).resolve_left hxy)
      exact ⟨n + 1, s', l', r.cons h₁, hI', hq'⟩

/-- The condition `P` holds at every step of the run from `s₀` with the labels `es`. -/
def Every (step : σ → ε → σ → Prop) (s₀ : σ) (P : σ → ε → Prop) (es : List ε) : Prop :=
  ∀ es₁ e es₂ s, es = es₁ ++ e :: es₂ → Run step s₀ es₁ s → P s e

theorem every_nil {P : σ → ε → Prop} : Every step s₀ P [] := by
  intro es₁ e es₂ s h
  simp at h

theorem Every.of_append {P : σ → ε → Prop} (h : Every step s₀ P (es ++ es')) :
    Every step s₀ P es := by
  intro es₁ e es₂ s hes
  exact h es₁ e (es₂ ++ es') s (by rw [hes, List.append_assoc, List.cons_append])

/-- An invariant that only the steps that satisfy a condition have to preserve. -/
theorem Run.invariant_every {P : σ → Prop} {A : σ → ε → Prop} (r : Run step s₀ es s)
    (hes : Every step s₀ A es) (h0 : P s₀) (hs : ∀ s e s', P s → A s e → step s e s' → P s') :
    P s := by
  induction r with
  | nil => exact h0
  | @snoc es s e s' r h ih => exact hs _ _ _ (ih hes.of_append) (hes es e [] s rfl r) h

/-- A condition on the steps of a run and an invariant that they preserve give another condition. -/
theorem Every.of_invariant {P : σ → Prop} {A B : σ → ε → Prop} (h : Every step s₀ A es) (h0 : P s₀)
    (hs : ∀ s e s', P s → A s e → step s e s' → P s') (hB : ∀ s e, P s → A s e → B s e) :
    Every step s₀ B es := by
  intro es₁ e es₂ s hes r
  rw [hes] at h
  exact hB s e (r.invariant_every h.of_append h0 hs) (h es₁ e es₂ s rfl r)

/-- The last label of a non-empty run. -/
theorem Run.snoc_inv (r : Run step s₀ (es ++ [e]) s') : ∃ s, Run step s₀ es s ∧ step s e s' := by
  generalize hl : es ++ [e] = l at r
  cases r with
  | nil => simp at hl
  | snoc r h =>
    obtain ⟨rfl, hE⟩ := List.append_inj' hl rfl
    cases hE
    exact ⟨_, r, h⟩

/-- The first label of a non-empty run. -/
theorem Run.cons_inv (r : Run step s₀ (e :: es) s') : ∃ s, step s₀ e s ∧ Run step s es s' := by
  generalize hl : e :: es = l at r
  induction r generalizing es with
  | nil => simp at hl
  | @snoc l s e' _ r h ih =>
    rcases l with _ | ⟨x, l⟩
    · obtain ⟨rfl, rfl⟩ := List.cons.inj hl
      generalize hn : ([] : List ε) = l at r
      cases r with
      | nil => exact ⟨_, h, .nil⟩
      | snoc => simp at hn
    · obtain ⟨rfl, rfl⟩ := List.cons.inj hl
      obtain ⟨s₁, h1, r1⟩ := ih rfl
      exact ⟨s₁, h1, .snoc r1 h⟩

section Det

variable (hdet : ∀ s e s₁ s₂, step s e s₁ → step s e s₂ → s₁ = s₂)
include hdet

theorem Run.det {s₁ s₂ : σ} (r : Run step s₀ es s₁) : Run step s₀ es s₂ → s₁ = s₂ := by
  induction r generalizing s₂ with
  | nil =>
    intro r'
    generalize hl : ([] : List ε) = l at r'
    cases r' with
    | nil => rfl
    | snoc => simp at hl
  | snoc r h ih =>
    intro r'
    obtain ⟨s, r', h'⟩ := r'.snoc_inv
    cases ih r'
    exact hdet _ _ _ _ h h'

theorem every_snoc {P : σ → ε → Prop} (r : Run step s₀ es s) :
    Every step s₀ P (es ++ [e]) ↔ Every step s₀ P es ∧ P s e := by
  constructor
  · intro h
    refine ⟨fun es₁ e' es₂ s' hes => h es₁ e' (es₂ ++ [e]) s' (by simp [hes]), ?_⟩
    exact h es e [] s rfl r
  · rintro ⟨h1, h2⟩ es₁ e' es₂ s' hes r'
    rcases append_singleton_split hes with ⟨rfl, rfl, -⟩ | ⟨l, -, hes'⟩
    · rwa [← Run.det hdet r r']
    · exact h1 es₁ e' l s' hes' r'

theorem every_cons {P : σ → ε → Prop} (h : step s₀ e s) (hP : P s₀ e) (hs : Every step s P es) :
    Every step s₀ P (e :: es) := by
  intro es₁ e' es₂ s' hes r
  rcases es₁ with _ | ⟨x, es₁⟩
  · obtain ⟨rfl, rfl⟩ := List.cons.inj hes
    cases Run.det hdet r .nil
    exact hP
  · obtain ⟨rfl, rfl⟩ := List.cons.inj hes
    obtain ⟨s₁, h1, r1⟩ := r.cons_inv
    cases hdet _ _ _ _ h h1
    exact hs es₁ e' es₂ s' rfl r1

/-- **From one step to runs**: if the property of the state before and the condition on the step
together are the property of the state after, the property of a reached state is the condition on
every step that led to it. As in `Run.invariant_of`, `Q` is assumed of the last state. -/
theorem iff_every {I Q G : σ → Prop} {P : σ → ε → Prop} (r : Run step s₀ es s) (hI : I s₀)
    (hI' : ∀ s e s', I s → step s e s' → I s')
    (hQ : ∀ s e s', I s → step s e s' → Q s' → Q s) (h0 : G s₀)
    (hs : ∀ s e s', I s → step s e s' → Q s' → (G s' ↔ G s ∧ P s e)) :
    Q s → (G s ↔ Every step s₀ P es) := by
  induction r with
  | nil => exact fun _ => iff_of_true h0 every_nil
  | snoc r h ih =>
    have hi := r.invariant hI hI'
    exact fun hq => by rw [hs _ _ _ hi h hq, ih (hQ _ _ _ hi h hq), every_snoc hdet r]

/-- **From one step to all states of a run**: if from a state with the property exactly the steps
that meet the condition lead to a state with the property, all states of a run have it exactly if
every step meets the condition. -/
theorem forall_iff_every {I G : σ → Prop} {P : σ → ε → Prop} (r : Run step s₀ es s) (hI : I s₀)
    (hI' : ∀ s e s', I s → step s e s' → I s') (h0 : G s₀)
    (hs : ∀ s e s', I s → G s → step s e s' → (G s' ↔ P s e)) :
    (∀ es₁ es₂ s₁, es = es₁ ++ es₂ → Run step s₀ es₁ s₁ → G s₁) ↔ Every step s₀ P es := by
  induction r with
  | nil =>
    refine iff_of_true (fun es₁ es₂ s₁ hes r₁ => ?_) every_nil
    obtain ⟨rfl, -⟩ := List.append_eq_nil_iff.mp hes.symm
    rwa [← Run.det hdet .nil r₁]
  | @snoc es s e s' r h ih =>
    have hi := r.invariant hI hI'
    rw [every_snoc hdet r, ← ih]
    constructor
    · intro hall
      have hg : G s := hall es [e] s rfl r
      refine ⟨fun es₁ es₂ s₁ hes => hall es₁ (es₂ ++ [e]) s₁ (by rw [hes, List.append_assoc]), ?_⟩
      exact (hs s e s' hi hg h).mp (hall (es ++ [e]) [] s' (List.append_nil _).symm (.snoc r h))
    · rintro ⟨hall, hP⟩ es₁ es₂ s₁ hes r₁
      rcases List.eq_nil_or_concat es₂ with rfl | ⟨l, x, rfl⟩
      · rw [List.append_nil] at hes
        subst hes
        rw [← Run.det hdet (.snoc r h) r₁]
        exact (hs s e s' hi (hall es [] s (List.append_nil _).symm r) h).mpr hP
      · rw [List.concat_eq_append, ← List.append_assoc] at hes
        exact hall es₁ l s₁ (List.append_inj' hes rfl).1 r₁

end Det

/-! ### Runs of a step function -/

theorem step_det (f : σ → ε → Option σ) (s : σ) (e : ε) (s₁ s₂ : σ) (h₁ : f s e = some s₁)
    (h₂ : f s e = some s₂) : s₁ = s₂ :=
  Option.some.inj (h₁.symm.trans h₂)

/-- Folding a partial step function over labels. -/
def exec (f : σ → ε → Option σ) : σ → List ε → Option σ
  | s, [] => some s
  | s, e :: es => (f s e).bind fun s' => exec f s' es

theorem run_of_exec (f : σ → ε → Option σ) : ∀ (es : List ε) (s : σ) {s' : σ},
    exec f s es = some s' → Run (fun s e s' => f s e = some s') s es s'
  | [], s, s', h => by cases h; exact .nil
  | e :: es, s, s', h => by
    obtain ⟨s₁, h1, h2⟩ := Option.bind_eq_some_iff.mp h
    exact Run.cons h1 (run_of_exec f es s₁ h2)

end Hotstuff.Lib.Transition
