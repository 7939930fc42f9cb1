import Hotstuff.Consensus.Agreement

/-! # Rounds are climbed one by one

`history` is what the honest nodes of a run did, in the order in which they did it. A node moves to
a round above the first only with a certificate of the round before, and among the signers of the
certificate is an honest authority that signed a vote or a timeout while it was in that round
(`Climbs`). So the highest round of an honest node grows by one at a time, and a node that is in
round `R` has behind it at least `R - 1` statements signed by honest authorities (`no_jump`).

Nothing is assumed about the last round: past it a node is in round 0. -/

namespace Hotstuff.Consensus.Climbing

open Hotstuff.Primitives Hotstuff.Consensus.Config Hotstuff.Consensus.Messages
open Hotstuff.Consensus.Pacing Hotstuff.Consensus.Handlers Hotstuff.Consensus.Steps
open Hotstuff.Consensus.Entries Hotstuff.Consensus.Evidence Hotstuff.Consensus.Locking
open Hotstuff.Consensus.Wiring Hotstuff.Consensus.Queues Hotstuff.Consensus.System
open Hotstuff.Consensus.Coherence Hotstuff.Consensus.Admission Hotstuff.Consensus.Agreement
open Hotstuff.Lib.Transition Hotstuff.Ideal

variable {C : Crypto} {T : Type}

/-! ### The history of a run -/

/-- What the nodes did, the oldest first. -/
abbrev Log (C : Crypto) := List (C.PublicKey × Action C)

/-- The round of a signed statement. -/
def signedRound : Action C → Option Round
  | .vote b => some b.round
  | .timeout t => some t.round
  | _ => none

/-- The round after the moves in `l`, from `r`. -/
def lastMove (r : Round) (l : List (Action C)) : Round := (l.filterMap movedTo).getLast?.getD r

/-- What one node did. -/
def entriesOf (k : C.PublicKey) (h : Log C) : List (Action C) :=
  (h.filter fun x => x.1 = k).map Prod.snd

/-- The round in which a node is after what it did; it starts in round 1. -/
def roundIn (k : C.PublicKey) (h : Log C) : Round := lastMove 1 (entriesOf k h)

/-- An honest authority signed a vote or a timeout for the round while it was in it. -/
def SignedIn (w : Network C) (h : Log C) (r : Round) : Prop :=
  ∃ j a h₁ h₂, h = h₁ ++ (j, a) :: h₂ ∧ w.Honest j ∧ signedRound a = some r ∧ roundIn j h₁ = r

section Log

variable {w : Network C} {h h' : Log C} {k j : C.PublicKey} {l : List (Action C)} {r : Round}

theorem lastMove_append (l l' : List (Action C)) :
    lastMove r (l ++ l') = lastMove (lastMove r l) l' := by
  unfold lastMove
  rw [List.filterMap_append, List.getLast?_append]
  rcases (l'.filterMap movedTo).getLast? with _ | x <;> simp

theorem entriesOf_append : entriesOf k (h ++ h') = entriesOf k h ++ entriesOf k h' := by
  simp [entriesOf]

theorem entriesOf_self : entriesOf k (l.map (Prod.mk k)) = l := by
  unfold entriesOf
  rw [List.filter_eq_self.mpr (by simp), List.map_map]
  exact List.map_id _

theorem entriesOf_of_ne (hk : j ≠ k) : entriesOf k (l.map (Prod.mk j)) = [] := by
  simp [entriesOf, hk]

theorem roundIn_self : roundIn k (h ++ l.map (Prod.mk k)) = lastMove (roundIn k h) l := by
  unfold roundIn
  rw [entriesOf_append, entriesOf_self, lastMove_append]

theorem roundIn_of_ne (hk : j ≠ k) : roundIn k (h ++ l.map (Prod.mk j)) = roundIn k h := by
  unfold roundIn
  rw [entriesOf_append, entriesOf_of_ne hk, List.append_nil]

theorem SignedIn.mono (hs : SignedIn w h r) : SignedIn w (h ++ h') r := by
  obtain ⟨j, a, h₁, h₂, rfl, hj⟩ := hs
  exact ⟨j, a, h₁, h₂ ++ h', by simp, hj⟩

end Log

/-! ### Steps of a core -/

/-- There is a certificate for the round before `r`. -/
def Opened (c : Committee C) (sig : C.PublicKey → C.Digest → Prop) (r : Round) : Prop :=
  (∃ qc, QcKnown c sig qc ∧ qc.round + 1 = r) ∨ ∃ tc, TcSigned c sig tc ∧ tc.round + 1 = r

section Act

variable {s : Core C T} {qc : QC C} {r : Round}

theorem not_unsigned {a : Action C} (h : signedRound a = some r) : ¬ Unsigned a := by
  cases a <;> simp [signedRound, Unsigned] at h ⊢

theorem lastMove_of_none {l : List (Action C)} (hl : ∀ a ∈ l, movedTo a = none) :
    lastMove r l = r := by
  unfold lastMove
  rw [List.filterMap_eq_nil_iff.mpr hl]
  rfl

theorem lastMove_moved {p : Prop} [Decidable p] {r' : Round} :
    lastMove r (if p then [] else [Action.moved r'] : List (Action C)) = if p then r else r' := by
  split_ifs <;> rfl

theorem lastMove_qcTrace :
    lastMove r (qcTrace r qc) = if qc.round < r then r else qc.round + 1 := by
  unfold qcTrace
  rw [← lastMove_moved (C := C)]
  rfl

theorem moved_mem_qcTrace {r' : Round} (h : Action.moved r' ∈ qcTrace r qc) :
    qc.round + 1 = r' := by
  rcases mem_qcTrace_iff.mp h with h | ⟨-, h⟩ <;> cases h
  rfl

variable [RoundTimer T] {env : Env C} {G : Guard C} {s' : Core C T}
  {sig : C.PublicKey → C.Digest → Prop}

/-- An elementary step signs a statement of the round, or moves to a round that has been opened, or
neither. -/
theorem Act.climb_cases (h : Act env G s s') (hG : Delivers env sig G) (hs : Attested env sig s)
    (hs' : Attested env sig s') :
    (∃ a, s'.trace = s.trace ++ [a] ∧ signedRound a = some s.round ∧ movedTo a = none ∧
      s'.round = s.round) ∨
    ∃ l, s'.trace = s.trace ++ l ∧ (∀ a ∈ l, Unsigned a) ∧ s'.round = lastMove s.round l ∧
      ∀ r, .moved r ∈ l → Opened env.committee sig r := by
  have hqc : ∀ {qc r'}, .processQc qc r' ∈ s'.trace → ∀ r, .moved r ∈ qcTrace s.round qc →
      Opened env.committee sig r :=
    fun hm r hr => .inl ⟨_, hs'.qc _ _ hm, moved_mem_qcTrace hr⟩
  cases h with
  | timeout io => exact .inl ⟨_, rfl, rfl, rfl, rfl⟩
  | vote b hb hG hr => exact .inl ⟨_, rfl, congrArg some hr, rfl, rfl⟩
  | accept io b hb hc =>
    refine .inr ⟨.accept b :: qcTrace s.round b.qc, by simp [processQc_trace], ?_, ?_, ?_⟩
    · exact List.forall_mem_cons.mpr ⟨trivial, unsigned_qcTrace _ _⟩
    · rw [processQc_round]
      exact lastMove_qcTrace.symm
    · intro r hr
      exact hqc (mem_processQc (s.emit (.accept b)) io b.qc) r
        ((List.mem_cons.mp hr).resolve_left nofun)
  | assembleQc io v a qc =>
    refine .inr ⟨_, processQc_trace _ _ _, unsigned_qcTrace _ _, ?_,
      hqc (mem_processQc { s with aggregator := a } io qc)⟩
    rw [processQc_round]
    exact lastMove_qcTrace.symm
  | hearTimeout io t =>
    refine .inr ⟨_, processQc_trace _ _ _, unsigned_qcTrace _ _, ?_,
      hqc (mem_processQc s io t.highQc)⟩
    rw [processQc_round]
    exact lastMove_qcTrace.symm
  | acceptTc io b tc hb htc =>
    refine .inr ⟨_, advanceRound_trace _ _ _, unsigned_moved, ?_, fun r hr => ?_⟩
    · rw [advanceRound_round, lastMove_moved]
    · exact .inr ⟨tc, hs.accept b tc hb htc, (Action.moved.inj (mem_moved.mp hr).2).symm⟩
  | hearTc io tc htc hok =>
    refine .inr ⟨_, advanceRound_trace _ _ _, unsigned_moved, ?_, fun r hr => ?_⟩
    · rw [advanceRound_round, lastMove_moved]
    · exact .inr ⟨tc, hG.tc tc htc hok, (Action.moved.inj (mem_moved.mp hr).2).symm⟩
  | assembleTc io t a tc =>
    refine .inr ⟨_, by rw [emit_trace, advanceRound_trace, List.append_assoc], ?_, ?_, ?_⟩
    · refine List.forall_mem_append.mpr ⟨unsigned_moved, ?_⟩
      exact List.forall_mem_singleton.mpr trivial
    · rw [emit_round, advanceRound_round, lastMove_append, lastMove_moved]
      rfl
    · intro r hr
      have hr' := (List.mem_append.mp hr).resolve_right (by simp)
      exact .inr ⟨tc, hs'.tc tc (mem_emit_self _ _), (Action.moved.inj (mem_moved.mp hr').2).symm⟩
  | countVote | countTimeout => exact .inr ⟨[], by simp, by simp, rfl, by simp⟩
  | make | suspend | stuck | sendVote =>
    exact .inr ⟨_, rfl, List.forall_mem_singleton.mpr trivial, rfl, by simp⟩
  | wait | store | commit =>
    refine .inr ⟨_, List.append_assoc _ _ _, ?_, rfl, by simp⟩
    simp [Unsigned]
  | deliver b l =>
    refine .inr ⟨_, rfl, List.forall_mem_map.mpr fun _ _ => trivial, ?_, by simp⟩
    exact (lastMove_of_none (List.forall_mem_map.mpr fun _ _ => rfl)).symm

/-- What a core that was in the round `r` adds to its trace until it is in the round `r'`. -/
structure Climb (c : Committee C) (sig : C.PublicKey → C.Digest → Prop) (r : Round)
    (l : List (Action C)) (r' : Round) : Prop where
  round : r' = lastMove r l
  signed : ∀ l₁ a l₂, l = l₁ ++ a :: l₂ → ∀ x, signedRound a = some x → lastMove r l₁ = x
  moved : ∀ x, .moved x ∈ l → Opened c sig x

theorem Act.climb (h : Act env G s s') (hG : Delivers env sig G) (hs : Attested env sig s)
    (hs' : Attested env sig s') :
    ∃ l, s'.trace = s.trace ++ l ∧ Climb env.committee sig s.round l s'.round := by
  rcases Act.climb_cases h hG hs hs' with ⟨a, ha, hr, hm, hround⟩ | ⟨l, hl, hu, hround, hm⟩
  · refine ⟨[a], ha, ?_, fun l₁ x l₂ hx y hy => ?_, fun x hx => ?_⟩
    · rw [hround, lastMove_of_none (List.forall_mem_singleton.mpr hm)]
    · obtain ⟨rfl, rfl⟩ : l₁ = [] ∧ x = a := by
        cases l₁ <;> simp at hx ⊢
        exact hx.1.symm
      exact Option.some.inj (hr.symm.trans hy)
    · rw [← List.mem_singleton.mp hx] at hm
      cases hm
  · refine ⟨l, hl, hround, fun l₁ a l₂ ha x hx => ?_, hm⟩
    exact absurd (hu a (by simp [ha])) (not_unsigned hx)

end Act

/-! ### The invariant of all nodes -/

/-- The rounds of the honest nodes, and what is behind them. -/
structure Climbs (w : Network C) (cores : C.PublicKey → Core C T) (h : Log C) : Prop where
  entries : ∀ k, w.Honest k → Entries.Ok (w.env k) (cores k)
  attested : ∀ k, w.Honest k → Attested (w.env k) (Sig w cores) (cores k)
  round : ∀ k, w.Honest k → (cores k).round = roundIn k h
  signed : ∀ k, w.Honest k → ∀ a ∈ (cores k).trace, ∀ r, signedRound a = some r →
    ∃ h₁ h₂, h = h₁ ++ (k, a) :: h₂ ∧ roundIn k h₁ = r
  moved : ∀ k r h₁ h₂, h = h₁ ++ (k, .moved r) :: h₂ → 1 < r → SignedIn w h₁ (r - 1)

section System

variable {w : Network C} {cores : C.PublicKey → Core C T} {h : Log C} {k : C.PublicKey} {r : Round}

/-- **Among the signers of a certificate is an honest one**, which was in its round. -/
theorem Climbs.signedIn (hI : Climbs w cores h) (hnc : NoCollision C) (hf : FewFaults w)
    (ho : Opened w.committee (Sig w cores) r) (hr : 1 < r) : SignedIn w h (r - 1) := by
  have hsigned : ∀ j, w.Honest j → ∀ a ∈ (cores j).trace, signedRound a = some (r - 1) →
      SignedIn w h (r - 1) := by
    intro j hj a ha hround
    obtain ⟨h₁, h₂, hh, hin⟩ := hI.signed j hj a ha _ hround
    exact ⟨j, a, h₁, h₂, hh, hj, hround, hin⟩
  rcases ho with ⟨qc, hqc, rfl⟩ | ⟨tc, htc, rfl⟩
  · rcases hqc.quorum with hg | hsig
    · -- the first QC is of round 0, and opens round 1
      rw [hg.2] at hr
      exact absurd hr (by decide)
    · obtain ⟨j, hj, -, hh⟩ := exists_honest hf hsig.1 hsig.1
      obtain ⟨b, hb, -, hround⟩ := voted_of_qcSigned hnc hsig hj hh
      exact hsigned j hh _ hb (by simp [signedRound, hround])
  · obtain ⟨j, hj, -, hh⟩ := exists_honest hf htc.1 htc.1
    obtain ⟨t, ht, hround, -⟩ := timeout_of_tcSigned hnc htc hj hh
    exact hsigned j hh _ ht (by simp [signedRound, hround])

variable [RoundTimer T] {G : Guard C} {s' : Core C T}

/-- **An elementary step of one node.** -/
theorem climbs_act (hnc : NoCollision C) (hf : FewFaults w) (hk : w.Honest k)
    (ha : Act (w.env k) G (cores k) s') (hG : Delivers (w.env k) (Sig w cores) G)
    (hI : Climbs w cores h) : ∃ l, s'.trace = (cores k).trace ++ l ∧
      Climbs w (Function.update cores k s') (h ++ l.map (Prod.mk k)) := by
  have hok := hI.entries k hk
  have hself : Signs (w.env k) (Sig w cores) (cores k) :=
    ⟨fun b hb _ => List.mem_filterMap.mpr ⟨_, hb, rfl⟩,
      fun t ht _ => List.mem_filterMap.mpr ⟨_, ht, rfl⟩⟩
  have hat := Act.attested hok hG hself (hI.attested k hk) ha
  have hmono := sig_mono (w := w) (grows_update cores (Act.grows ha))
  obtain ⟨l, hl, hround, hsigned, hmoved⟩ := Act.climb ha hG (hI.attested k hk) hat
  refine ⟨l, hl, ?_, ?_, ?_, ?_, ?_⟩
  · exact forall_update (P := fun j s => Entries.Ok (w.env j) s) (Act.ok ha hok) hI.entries
  · exact forall_update (P := fun j s => Attested (w.env j) (Sig w (Function.update cores k s')) s)
      (hat.mono hmono) fun j hj => (hI.attested j hj).mono hmono
  · intro j hj
    by_cases hjk : j = k
    · subst hjk
      rw [Function.update_self, roundIn_self, hround, hI.round j hj]
    · rw [Function.update_of_ne hjk, roundIn_of_ne (Ne.symm hjk), hI.round j hj]
  · intro j hj a ha' x hx
    have hold : a ∈ (cores j).trace → ∃ h₁ h₂, h ++ l.map (Prod.mk k) = h₁ ++ (j, a) :: h₂ ∧
        roundIn j h₁ = x := by
      intro ha
      obtain ⟨h₁, h₂, hh, hin⟩ := hI.signed j hj a ha x hx
      exact ⟨h₁, h₂ ++ l.map (Prod.mk k), by simp [hh], hin⟩
    by_cases hjk : j = k
    · subst hjk
      rw [Function.update_self, hl] at ha'
      rcases List.mem_append.mp ha' with ha | ha
      · exact hold ha
      · obtain ⟨l₁, l₂, rfl⟩ := List.append_of_mem ha
        refine ⟨h ++ l₁.map (Prod.mk j), l₂.map (Prod.mk j), by simp, ?_⟩
        rw [roundIn_self, ← hI.round j hj]
        exact hsigned l₁ a l₂ rfl x hx
    · rw [Function.update_of_ne hjk] at ha'
      exact hold ha'
  · intro j x h₁ h₂ hh hx
    rcases List.append_eq_append_iff.mp hh with ⟨m, rfl, hm⟩ | ⟨m, rfl, hm⟩
    · -- a new move
      have hin : (j, Action.moved x) ∈ l.map (Prod.mk k) := by simp [hm]
      obtain ⟨a, ha, hja⟩ := List.mem_map.mp hin
      cases hja
      exact (hI.signedIn hnc hf (hmoved x ha) hx).mono
    · rcases m with _ | ⟨y, m⟩
      · have hin : (j, Action.moved x) ∈ l.map (Prod.mk k) := by
          rw [List.nil_append] at hm
          simp [← hm]
        obtain ⟨a, ha, hja⟩ := List.mem_map.mp hin
        cases hja
        rw [List.append_nil] at hI
        exact hI.signedIn hnc hf (hmoved x ha) hx
      · cases hm
        exact hI.moved j x h₁ m rfl hx

/-- The elementary steps of one event. -/
theorem climbs_acts (hnc : NoCollision C) (hf : FewFaults w) (hk : w.Honest k)
    (ha : Acts (w.env k) G (cores k) s') (hG : Delivers (w.env k) (Sig w cores) G)
    (hI : Climbs w cores h) : ∃ l, s'.trace = (cores k).trace ++ l ∧
      Climbs w (Function.update cores k s') (h ++ l.map (Prod.mk k)) := by
  induction ha with
  | refl => exact ⟨[], by simp, by simpa using hI⟩
  | @tail s₁ s₂ h₁ ha ih =>
    obtain ⟨l, hl, hI₁⟩ := ih
    have hG₁ := hG.mono (sig_mono (grows_update cores (Acts.grows h₁)))
    obtain ⟨l', hl', hI₂⟩ := climbs_act hnc hf hk (by rwa [Function.update_self]) hG₁ hI₁
    refine ⟨l ++ l', ?_, ?_⟩
    · rw [hl', Function.update_self, hl, List.append_assoc]
    · rwa [Function.update_idem, List.append_assoc, ← List.map_append] at hI₂

omit [RoundTimer T] in
/-- A step of another task at most adds a batch to the store. -/
theorem climbs_task (hI : Climbs w cores h) (hg : Grows (cores k) s')
    (hok : Entries.Ok (w.env k) s') (hk : w.Honest k) (htr : s'.trace = (cores k).trace)
    (hagg : s'.aggregator = (cores k).aggregator) (hround : s'.round = (cores k).round) :
    Climbs w (Function.update cores k s') h := by
  have hmono := sig_mono (w := w) (grows_update cores hg)
  have hat := hI.attested k hk
  refine ⟨?_, ?_, ?_, ?_, hI.moved⟩
  · exact forall_update (P := fun j s => Entries.Ok (w.env j) s) hok hI.entries
  · refine forall_update (P := fun j s =>
      Attested (w.env j) (Sig w (Function.update cores k s')) s) (Attested.mono hmono ?_)
      fun j hj => (hI.attested j hj).mono hmono
    refine ⟨by rw [hagg]; exact hat.aggregator, ?_, ?_, ?_, ?_, ?_⟩
    all_goals rw [htr]
    exacts [hat.qc, hat.accept, hat.store, hat.tc, hat.make]
  · exact forall_update (P := fun j s => s.round = roundIn j h) (hround.trans (hI.round k hk))
      hI.round
  · refine forall_update (P := fun j s => ∀ a ∈ s.trace, ∀ r, signedRound a = some r →
      ∃ h₁ h₂, h = h₁ ++ (j, a) :: h₂ ∧ roundIn j h₁ = r) ?_ hI.signed
    rw [htr]
    exact hI.signed k hk

end System

/-! ### Runs -/

section Runs

variable [RoundTimer T] {w : Network C} {S S' S₀ : Nodes C T}
  {es es' : List (C.PublicKey × Event C)}

/-- What the nodes do while they take the events. -/
def history (w : Network C) : Nodes C T → List (C.PublicKey × Event C) → Log C
  | _, [] => []
  | S, x :: es =>
    match step w S x with
    | none => []
    | some S' => (newEntries (S x.1) (S' x.1).core).map (Prod.mk x.1) ++ history w S' es

theorem history_append (r : SystemRun w S₀ es S) (es' : List (C.PublicKey × Event C)) :
    history w S₀ (es ++ es') = history w S₀ es ++ history w S es' := by
  induction r generalizing es' with
  | nil => rfl
  | snoc r h ih =>
    rw [List.append_assoc, ih, ih, List.append_assoc]
    simp [history, h]

theorem history_snoc (r : SystemRun w S₀ es S) {x : C.PublicKey × Event C}
    (h : step w S x = some S') : history w S₀ (es ++ [x]) =
      history w S₀ es ++ (newEntries (S x.1) (S' x.1).core).map (Prod.mk x.1) := by
  rw [history_append r]
  simp [history, h]

theorem climbs_step (hnc : NoCollision C) (hbs : BatchSound C) (hf : FewFaults w)
    (hn : ∀ k, Queues.Ok (w.env k) (S k)) {x : C.PublicKey × Event C} (h : step w S x = some S')
    {l : Log C} (hI : Climbs w (coresOf S) l) : Climbs w (coresOf S')
      (l ++ (newEntries (S x.1) (S' x.1).core).map (Prod.mk x.1)) := by
  obtain ⟨hk, hd, n, hstep, rfl⟩ := step_cases h
  rw [coresOf_update, Function.update_self]
  rcases hc : x.2.isCore with _ | _
  · have hok := (step_ok (hn x.1) hstep).core
    have hg := step_grows (hn x.1) hstep
    rw [newEntries_task (hn x.1) hc hstep, List.map_nil, List.append_nil]
    rcases task_step_cases (hn x.1) hc hstep with hframe | ⟨y, -, rfl⟩
    · exact climbs_task hI hg hok hk (by rw [hframe.core]; rfl) (by rw [hframe.core]; rfl)
        (by rw [hframe.core]; rfl)
    · exact climbs_task hI hg hok hk rfl rfl rfl
  · obtain ⟨l', hl', hI'⟩ := climbs_acts hnc hf hk (step_acts (hn x.1) hc hstep)
      (delivers_of_deliverable hnc hbs hf.1 hd (hn x.1) (hI.attested x.1 hk)) hI
    have hnew : newEntries (S x.1) n.core = l' := by
      unfold newEntries
      rw [hl']
      exact List.drop_left
    rwa [hnew]

theorem climbs_start (io : C.PublicKey → Io C) (timer : C.PublicKey → T) :
    Climbs w (coresOf (start w io timer)) [] := by
  have hI := coherent_start (w := w) io timer
  refine ⟨hI.entries, hI.attested, fun k _ => (boot_fields _ _ _).2.1, ?_, by simp⟩
  intro k _ a ha r hr
  rw [show (coresOf (start w io timer) k).trace = _ from boot_trace _ (io k) (timer k)] at ha
  split_ifs at ha
  · rw [List.mem_singleton.mp ha] at hr
    cases hr
  · simp at ha

/-- **In every reachable state.** -/
theorem run_climbs (hnc : NoCollision C) (hbs : BatchSound C) (hf : FewFaults w)
    {io : C.PublicKey → Io C} {timer : C.PublicKey → T} (r : SystemRun w (start w io timer) es S) :
    Climbs w (coresOf S) (history w (start w io timer) es) := by
  induction r with
  | nil => exact climbs_start io timer
  | snoc r h ih =>
    rw [history_snoc r h]
    exact climbs_step hnc hbs hf (nodes_ok r) h ih

end Runs

/-! ### What follows for the rounds -/

/-- The highest round that a node has been in. -/
def highest (h : Log C) : ℕ := ((h.filterMap fun x => movedTo x.2).map UInt64.toNat).foldr max 1

/-- The statements signed by honest authorities. -/
def honestStatements (w : Network C) (h : Log C) : Log C :=
  h.filter fun x => w.Honest x.1 ∧ (signedRound x.2).isSome

section Rounds

variable {w : Network C} {h h₁ h₂ : Log C} {k : C.PublicKey} {r : Round}

theorem le_foldr_max {l : List ℕ} {m : ℕ} (hm : m = 1 ∨ m ∈ l) : m ≤ l.foldr max 1 := by
  induction l with
  | nil => exact (hm.resolve_right List.not_mem_nil).le
  | cons a l ih =>
    rw [List.foldr_cons]
    rcases hm with hm | hm
    · exact le_max_of_le_right (ih (.inl hm))
    · rcases List.mem_cons.mp hm with rfl | hm
      · exact le_max_left _ _
      · exact le_max_of_le_right (ih (.inr hm))

/-- A node that is not in round 1 has moved to its round. -/
theorem moved_of_roundIn (hr : roundIn k h = r) : r = 1 ∨ (k, .moved r) ∈ h := by
  unfold roundIn lastMove at hr
  rcases hl : ((entriesOf k h).filterMap movedTo).getLast? with _ | x
  · rw [hl] at hr
    exact .inl hr.symm
  · rw [hl, Option.getD_some] at hr
    subst hr
    obtain ⟨a, ha, hx⟩ := List.mem_filterMap.mp (List.mem_of_getLast? hl)
    obtain ⟨⟨j, b⟩, hb, rfl⟩ := List.mem_map.mp ha
    obtain ⟨hb, hj⟩ := List.mem_filter.mp hb
    have hjk : j = k := by simpa using hj
    cases b <;> cases hx
    exact .inr (hjk ▸ hb)

theorem roundIn_le_highest : (roundIn k h).toNat ≤ highest h := by
  refine le_foldr_max ?_
  rcases moved_of_roundIn (k := k) (h := h) rfl with h1 | h1
  · rw [h1]
    exact .inl rfl
  · exact .inr (List.mem_map_of_mem (List.mem_filterMap.mpr ⟨_, h1, rfl⟩))

theorem highest_mono (h₁ h₂ : Log C) : highest h₁ ≤ highest (h₁ ++ h₂) := by
  unfold highest
  rw [List.filterMap_append, List.map_append, List.foldr_append]
  generalize (h₁.filterMap fun x => movedTo x.2).map UInt64.toNat = l
  induction l with
  | nil => exact le_foldr_max (.inl rfl)
  | cons a l ih => exact max_le_max le_rfl ih

theorem toNat_sub_one (hr : 1 < r) : r.toNat = (r - 1).toNat + 1 := by
  have h1 : (1 : Round).toNat < r.toNat := UInt64.lt_iff_toNat_lt.mp hr
  have h2 := UInt64.toNat_sub_of_le r 1 (UInt64.le_of_lt hr)
  simp only [UInt64.toNat_one] at h1 h2
  omega

variable (hm : ∀ k r h₁ h₂, h = h₁ ++ (k, .moved r) :: h₂ → 1 < r → SignedIn w h₁ (r - 1))
include hm

/-- The next round that a node moves to is at most one above the highest one. -/
theorem le_highest_of_moved (hh : h = h₁ ++ (k, .moved r) :: h₂) : r.toNat ≤ highest h₁ + 1 := by
  have hpos : 1 ≤ highest h₁ := le_foldr_max (.inl rfl)
  by_cases hr : 1 < r
  · obtain ⟨j, a, h₃, h₄, rfl, -, -, hin⟩ := hm k r h₁ h₂ hh hr
    have h1 := roundIn_le_highest (k := j) (h := h₃)
    have h2 := highest_mono h₃ ((j, a) :: h₄)
    rw [hin] at h1
    rw [toNat_sub_one hr]
    omega
  · have h1 : r.toNat ≤ (1 : Round).toNat := UInt64.le_iff_toNat_le.mp (by grind)
    simp only [UInt64.toNat_one] at h1
    omega

/-- **A node in round `R` has `R - 1` honest statements behind it**: one of each round below is
found further and further back. -/
theorem roundIn_le_statements : (roundIn k h).toNat ≤ (honestStatements w h).length + 1 := by
  induction hn : h.length using Nat.strong_induction_on generalizing h k with
  | _ n ih =>
  subst hn
  obtain ⟨r, hround⟩ : ∃ r, roundIn k h = r := ⟨_, rfl⟩
  rw [hround]
  by_cases hr : 1 < r
  · have hin : (k, Action.moved r) ∈ h := by
      refine (moved_of_roundIn hround).resolve_left fun h1 => ?_
      rw [h1] at hr
      exact absurd hr (by decide)
    obtain ⟨h₁, h₂, rfl⟩ := List.append_of_mem hin
    obtain ⟨j, a, h₃, h₄, rfl, hj, ha, hround'⟩ := hm _ _ _ _ rfl hr
    have h3 := ih h₃.length (by simp) (h := h₃) (k := j)
      (fun k' r' l₁ l₂ hl => hm k' r' l₁ (l₂ ++ (j, a) :: h₄ ++ (k, .moved r) :: h₂) (by simp [hl]))
      rfl
    rw [hround'] at h3
    -- the statement found is one more
    have hcount : (honestStatements w h₃).length + 1 ≤
        (honestStatements w (h₃ ++ (j, a) :: h₄ ++ (k, .moved r) :: h₂)).length := by
      simp [honestStatements, hj, ha, Nat.add_comm, Nat.add_left_comm]
    rw [toNat_sub_one hr]
    omega
  · have h1 : r.toNat ≤ (1 : Round).toNat := UInt64.le_iff_toNat_le.mp (by grind)
    simp only [UInt64.toNat_one] at h1
    omega

end Rounds

section Jump

variable [RoundTimer T] {w : Network C} {S : Nodes C T} {es : List (C.PublicKey × Event C)}

/-- **Rounds are not jumped.** If an honest node is in a round above the first, an honest node
signed a vote or a timeout for the round before, while it was in that round, before the node moved.
The highest round of an honest node grows by one at a time; and there are `R - 1` statements signed
by honest authorities when a node is in round `R`. -/
theorem no_jump (hnc : NoCollision C) (hbs : BatchSound C) (hf : FewFaults w)
    {io : C.PublicKey → Io C} {timer : C.PublicKey → T} (r : SystemRun w (start w io timer) es S) :
    (∀ k, w.Honest k → (S k).core.round = roundIn k (history w (start w io timer) es)) ∧
    (∀ k, w.Honest k → 1 < (S k).core.round → ∃ h₁ h₂,
      history w (start w io timer) es = h₁ ++ (k, .moved (S k).core.round) :: h₂ ∧
        SignedIn w h₁ ((S k).core.round - 1)) ∧
    (∀ k R h₁ h₂, history w (start w io timer) es = h₁ ++ (k, .moved R) :: h₂ →
      (1 < R → SignedIn w h₁ (R - 1)) ∧ R.toNat ≤ highest h₁ + 1) ∧
    ∀ k, w.Honest k → (S k).core.round.toNat ≤
      (honestStatements w (history w (start w io timer) es)).length + 1 := by
  have hI := run_climbs hnc hbs hf r
  refine ⟨hI.round, fun k hk hr => ?_, fun k R h₁ h₂ hh => ?_, fun k hk => ?_⟩
  · have hround : (S k).core.round = _ := hI.round k hk
    rcases moved_of_roundIn hround.symm with h1 | h1
    · rw [h1] at hr
      exact absurd hr (by decide)
    · obtain ⟨h₁, h₂, hh⟩ := List.append_of_mem h1
      exact ⟨h₁, h₂, hh, hI.moved _ _ _ _ hh hr⟩
  · exact ⟨hI.moved k R h₁ h₂ hh, le_highest_of_moved hI.moved hh⟩
  · have hround : (S k).core.round = _ := hI.round k hk
    rw [hround]
    exact roundIn_le_statements hI.moved

/-- A node of four moves to round 4 after an honest authority signed for round 3. -/
theorem no_jump_four : ∃ (S : Nodes crypto (Timer ℚ)) (h₁ h₂ : Log crypto),
    (S (key 0)).core.round = 4 ∧
      history fourNetwork fourStart fourRounds = h₁ ++ (key 0, .moved 4) :: h₂ ∧
      SignedIn fourNetwork h₁ 3 ∧
      (S (key 0)).core.round.toNat ≤
        (honestStatements fourNetwork (history fourNetwork fourStart fourRounds)).length + 1 := by
  obtain ⟨-, hmove, -, hcount⟩ := no_jump noCollision batchSound fewFaults_four
    (run_of_fourRun fourRounds rfl)
  obtain ⟨h₁, h₂, hh, hs⟩ := hmove (key 0) (by decide) (by decide)
  exact ⟨_, h₁, h₂, rfl, hh, hs, hcount (key 0) (by decide)⟩

end Jump

end Hotstuff.Consensus.Climbing
