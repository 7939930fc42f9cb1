import Hotstuff.Consensus.Assembling
import Hotstuff.Consensus.Proposals
import Hotstuff.Consensus.Repeats
import Hotstuff.Consensus.Walking

/-! # What honest nodes send is valid

A node checks what it receives, but not what it makes: blocks of certificates that it assembled or
received, timeouts with its high QC, TCs. All of it passes the checks of the others
(`run_verified`), and none of it is forged, also when it is sent later, as a reply to a request
(`sent_valid`). -/

namespace Hotstuff.Consensus.Validity

open Hotstuff.Primitives Hotstuff.Consensus.Config Hotstuff.Consensus.Messages
open Hotstuff.Consensus.Aggregation Hotstuff.Consensus.Pacing Hotstuff.Consensus.Handlers
open Hotstuff.Consensus.Steps Hotstuff.Consensus.Entries Hotstuff.Consensus.Certificates
open Hotstuff.Consensus.Evidence Hotstuff.Consensus.Admission Hotstuff.Consensus.Queues
open Hotstuff.Consensus.Wiring Hotstuff.Consensus.System Hotstuff.Consensus.Coherence
open Hotstuff.Consensus.Locking Hotstuff.Consensus.Proposals Hotstuff.Consensus.Mailbox
open Hotstuff.Consensus.Agreement Hotstuff.Consensus.Cancelling Hotstuff.Consensus.Walking
open Hotstuff.Lib.Transition Hotstuff.Ideal

variable {C : Crypto} {T : Type}

/-! ### Certificates -/

/-- The certificates that the core has pass the verifiers. -/
structure Verified (env : Env C) (s : Core C T) : Prop where
  aggregator : s.aggregator.Ok env.committee (fun _ d v => Signs env.committee d v.1 v.2)
    fun r v => Signs env.committee (timeoutDigest r v.2.2) v.1 v.2.1
  qc : ∀ qc r, .processQc qc r ∈ s.trace → Block.verifyQc qc env.committee = .ok ()
  tc : ∀ tc, .tc tc ∈ s.trace → tc.verify env.committee = .ok ()
  make : ∀ r qc tc, .make r qc (some tc) ∈ s.trace → tc.verify env.committee = .ok ()

theorem verifyQc_iff {c : Committee C} {qc : QC C} :
    Block.verifyQc qc c = .ok () ↔ qc.IsGenesis ∨ qc.verify c = .ok () := by
  unfold Block.verifyQc
  split_ifs with h
  · exact iff_of_true rfl (.inl h)
  · exact ⟨.inr, fun hq => hq.resolve_left h⟩

theorem verifyQc_of_accepted {env : Env C} {s : Core C T} (hs : Verified env s) {qc : QC C}
    (h : Accepted s qc) : Block.verifyQc qc env.committee = .ok () := by
  rcases h with rfl | ⟨r, hr⟩
  · exact verifyQc_iff.mpr (.inl ⟨rfl, rfl⟩)
  · exact hs.qc qc r hr

section Act

variable [RoundTimer T] {env : Env C} {G : Guard C} {s s' : Core C T}
  (hno : env.committee.NoOverflow) (hbc : BatchComplete C)
include hno hbc

/-- **An elementary step makes valid certificates of valid votes.** -/
theorem Act.verified (h : Act env G s s') (hs : Verified env s) : Verified env s' := by
  have hvote : ∀ v, HasVote env G s v → v.verify env.committee = .ok () →
      Signs env.committee v.digest v.author v.signature := fun v _ hok => Vote.verify_ok hok
  refine ⟨?_, fun qc r hm => ?_, fun tc hm => ?_, fun r qc tc hm => ?_⟩
  · exact Act.aggregator_ok h hs.aggregator hvote fun t _ hok _ =>
      ⟨(Timeout.verify_ok hok).1, (Timeout.verify_ok hok).2.1⟩
  · rcases Act.processQc_cases h hm with hm | ⟨-, ho⟩
    · exact hs.qc qc r hm
    cases ho with
    | proposal b hb hc hq => rw [hq]; exact verifyQc_iff.mpr (Block.verify_ok hc.2).2.1
    | timeout t ht hok hr hq => rw [hq]; exact verifyQc_iff.mpr (Timeout.verify_ok hok).2.2
    | assembled v a hv hok hr ha =>
      obtain ⟨hsig, hw⟩ := (addVote_ok hs.aggregator (hvote v hv hok)
        (stake_pos_mem _ (Vote.verify_ok hok).1) ha).2 qc rfl
      obtain ⟨hh, hround⟩ := addVote_qc ha
      have hdig : v.digest = qc.digest := by unfold Vote.digest QC.digest; rw [hh, hround]
      rw [hdig] at hsig
      exact verifyQc_iff.mpr (.inr (verify_of_signers_qc hno hbc qc hsig hw))
  · rcases Act.tc_cases h hm with hm | ⟨t, a, -, hok, -, ha⟩
    · exact hs.tc tc hm
    obtain ⟨hsig, hw, -⟩ := (addTimeout_ok hs.aggregator
      ⟨(Timeout.verify_ok hok).1, (Timeout.verify_ok hok).2.1⟩
      (stake_pos_mem _ (Timeout.verify_ok hok).1) ha).2 tc rfl
    rw [← addTimeout_tc ha] at hsig
    exact verify_of_signers_tc hno tc hsig hw
  · rcases Act.make_tc_cases h hm with hm | hm | ⟨-, hok⟩
    · exact hs.make r qc tc hm
    · exact hs.tc tc hm
    · exact hok

theorem Acts.verified (h : Acts env G s s') (hs : Verified env s) : Verified env s' := by
  induction h with
  | refl => exact hs
  | tail _ h ih => exact Act.verified hno hbc h ih

end Act

/-! ### Messages -/

/-- The messages that a node sends: its proposals and the blocks it is asked for, votes, timeouts
and TCs. -/
def Sends (n : Node C T) : ConsensusMessage C → Prop
  | .propose b => .store b ∈ n.core.trace ∨ Created n b
  | .vote v => ∃ dest, .sendVote v dest ∈ n.core.trace
  | .timeout t => .timeout t ∈ n.core.trace
  | .tc tc => .tc tc ∈ n.core.trace

/-- The message passes the checks of a receiver. -/
def Passes (c : Committee C) : ConsensusMessage C → Prop
  | .propose b => getLeader c b.round = some b.author ∧ b.verify c = .ok ()
  | .vote v => v.verify c = .ok ()
  | .timeout t => t.verify c = .ok ()
  | .tc tc => tc.verify c = .ok ()

theorem verify_of_parts {c : Committee C} {b : Block C} (hpos : 0 < c.stake b.author)
    (hsig : C.verify b.signature b.digest b.author = true)
    (hq : Block.verifyQc b.qc c = .ok ()) (htc : Block.verifyTc b.tc c = .ok ()) :
    b.verify c = .ok () := by
  unfold Block.verify
  rw [if_pos hpos, if_pos hsig, hq]
  exact htc

section Messages

variable {env : Env C} {n : Node C T} (hn : Queues.Ok env n) (hv : Verified env n.core)
  (hsv : SignVerifies C) (hpos : 0 < env.committee.stake env.name)
include hn hv hsv hpos

/-- A block of the proposer passes the checks. -/
theorem checked_of_created {b : Block C} (h : Created n b) : Checked env b := by
  obtain ⟨round, qc, tc, payload, hm, rfl, -⟩ := hn.created b h
  obtain ⟨hq, hl⟩ := hn.core.entry _ hm
  have htc : Block.verifyTc tc env.committee = .ok () := by
    cases tc with
    | none => rfl
    | some tc => exact hv.make _ _ _ hm
  exact ⟨hl, verify_of_parts hpos (hsv _ _) (verifyQc_of_accepted hv hq) htc⟩

theorem passes_of_sends (hst : Repeats.Stored n) {m : ConsensusMessage C} (h : Sends n m) :
    Passes env.committee m := by
  cases m with
  | propose b =>
    have hcases : .accept b ∈ n.core.trace ∨ Created n b := by
      rcases h with h | h
      · exact hst b h
      · exact .inr h
    rcases hcases with h | h
    · exact (hn.core.entry (.accept b) h).1
    · exact checked_of_created hn hv hsv hpos h
  | vote v =>
    obtain ⟨dest, hd⟩ := h
    obtain ⟨b, -, rfl⟩ := hn.core.entry (.sendVote v dest) hd
    show Vote.verify _ _ = _
    unfold Vote.verify
    rw [if_pos (show 0 < env.committee.stake (Vote.new b env.name).author from hpos)]
    exact if_pos (hsv _ _)
  | timeout t =>
    obtain ⟨heq, -, hq⟩ := hn.core.entry (.timeout t) h
    have hauthor : t.author = env.name := by rw [heq]; rfl
    show Timeout.verify _ _ = _
    unfold Timeout.verify
    rw [if_pos (by rw [hauthor]; exact hpos), if_pos (by rw [heq]; exact hsv _ _)]
    exact verifyQc_of_accepted hv hq
  | tc tc => exact hv.tc tc h

end Messages

/-! ### Runs -/

section Runs

variable [RoundTimer T] {env : Env C} {n n' : Node C T} {e : Event C} {es : List (Event C)}

theorem verified_step (hno : env.committee.NoOverflow) (hbc : BatchComplete C)
    (hn : Queues.Ok env n) (h : n.step env e = some n') (hs : Verified env n.core) :
    Verified env n'.core := by
  rcases step_core_cases hn h with hc | ⟨x, hc⟩ | hacts
  · rw [hc]; exact hs
  · rw [hc]; exact ⟨hs.aggregator, hs.qc, hs.tc, hs.make⟩
  · exact Acts.verified hno hbc hacts hs

theorem verified_boot (io : Io C) (timer : T) : Verified env (Node.boot env io timer).core := by
  have htr : ∀ a ∈ (Node.boot env io timer).core.trace, a = .make 1 QC.genesis none := by
    intro a ha
    have heq : (Node.boot env io timer).core.trace = _ := boot_trace env io timer
    rw [heq] at ha
    split_ifs at ha
    · exact List.mem_singleton.mp ha
    · simp at ha
  refine ⟨?_, fun qc r hm => ?_, fun tc hm => ?_, fun r qc tc hm => ?_⟩
  · rw [show (Node.boot env io timer).core.aggregator = _ from (boot_fields env io timer).2.2.2.2.2]
    exact ok_new
  all_goals cases htr _ hm

/-- The certificates of a node pass the verifiers in every reachable state. -/
theorem run_verified (hno : env.committee.NoOverflow) (hbc : BatchComplete C) {io : Io C}
    {timer : T} (r : NodeRun env (Node.boot env io timer) es n) : Verified env n.core :=
  run_invariant (boot_ok io timer) r (P := fun n => Verified env n.core) (verified_boot io timer)
    fun _ _ _ hn hs h => verified_step hno hbc hn h hs

end Runs

/-! ### The system -/

section System

variable [RoundTimer T] {w : Network C} {S S' S₁ S₂ : Nodes C T}
  {es es₁ es₂ : List (C.PublicKey × Event C)} {io : C.PublicKey → Io C} {timer : C.PublicKey → T}

/-- What is signed stays signed. -/
theorem run_signed_subset (hn : ∀ k, Queues.Ok (w.env k) (S₁ k)) (r : SystemRun w S₁ es S₂)
    (k : C.PublicKey) : signed (S₁ k) ⊆ signed (S₂ k) := by
  suffices hs : (∀ k, Queues.Ok (w.env k) (S₂ k)) ∧ signed (S₁ k) ⊆ signed (S₂ k) from hs.2
  refine r.invariant (P := fun S => (∀ k, Queues.Ok (w.env k) (S k)) ∧
    signed (S₁ k) ⊆ signed (S k)) ⟨hn, List.Subset.refl _⟩ ?_
  exact fun S x S' hs h => ⟨system_ok hs.1 h, List.Subset.trans hs.2 (signed_subset hs.1 h k)⟩

theorem run_unforged_mono (hn : ∀ k, Queues.Ok (w.env k) (S₁ k)) (r : SystemRun w S₁ es S₂)
    {m : ConsensusMessage C} (h : Unforged w S₁ m) : Unforged w S₂ m :=
  fun y hy hh hver => run_signed_subset hn r y.1 (h y hy hh hver)

/-- The blocks that a node has accepted are not forged. -/
def Genuine (w : Network C) (S : Nodes C T) : Prop :=
  ∀ k b, .accept b ∈ (S k).core.trace → Unforged w S (.propose b)

theorem genuine_step (hok : ∀ k, Queues.Ok (w.env k) (S k)) {x : C.PublicKey × Event C}
    (h : step w S x = some S') (hs : Genuine w S) : Genuine w S' := by
  intro k b hb
  refine unforged_mono hok h ?_
  obtain ⟨-, hd, n, hn, rfl⟩ := step_cases h
  by_cases hk : k = x.1
  swap
  · rw [Function.update_of_ne hk] at hb
    exact hs k b hb
  subst hk
  rw [Function.update_self] at hb
  rcases hcore : x.2.isCore with _ | _
  · refine hs x.1 b ?_
    rcases task_step_cases (hok _) hcore hn with hf | ⟨y, -, rfl⟩
    · rwa [hf.core] at hb
    · exact hb
  obtain ⟨htr, hfresh⟩ := fresh_of_step (hok _) hcore hn
  rw [htr] at hb
  rcases List.mem_append.mp hb with hb | hb
  · exact hs x.1 b hb
  · obtain ⟨io, hx⟩ := hfresh _ hb
    rw [hx] at hd
    exact hd

theorem run_genuine (r : SystemRun w (start w io timer) es S) : Genuine w S := by
  suffices hs : (∀ k, Queues.Ok (w.env k) (S k)) ∧ Genuine w S from hs.2
  refine r.invariant (P := fun S => (∀ k, Queues.Ok (w.env k) (S k)) ∧ Genuine w S)
    ⟨fun k => boot_ok (io k) (timer k), fun k b hb => ?_⟩ ?_
  swap
  · exact fun S x S' h h' => ⟨system_ok h.1 h', genuine_step h.1 h' h.2⟩
  have htr : (start w io timer k).core.trace = _ := boot_trace (w.env k) (io k) (timer k)
  rw [htr] at hb
  split_ifs at hb <;> simp at hb

section Sent

variable (hnc : NoCollision C) (hbs : BatchSound C) (hf : FewFaults w) (hsep : Separated C)
include hnc hbs hf hsep

theorem unforged_of_sends (r : SystemRun w (start w io timer) es S) {k : C.PublicKey}
    (hk : w.Honest k) {m : ConsensusMessage C} (h : Sends (S k) m) : Unforged w S m := by
  have hcert := fun j hj => certified_of_separated hnc hbs hsep hf r (k := j) hj
  have hI := run_coherent hnc hbs hf r fun j hj => (hcert j hj).2
  obtain ⟨hvote, htimeout, htc, hown⟩ := unforged_sent (nodes_ok r) hI hk
  cases m with
  | propose b =>
    rcases h with h | h
    · rcases Repeats.run_stored (node_run r k) b h with h | h
      · exact run_genuine r k b h
      · exact hown b h
    · exact hown b h
  | vote v => exact hvote v h.choose h.choose_spec
  | timeout t => exact htimeout t h
  | tc tc => exact htc tc h

end Sent

/-! ### Rounds of honest leaders -/

section Rounds

omit [RoundTimer T] in
/-- The leader of the round of a stored block made the block, if it is honest. -/
theorem created_of_stored (hnc : NoCollision C) (hg : Genuine w S) {k : C.PublicKey}
    (hn : Queues.Ok (w.env k) (S k)) (hst : Repeats.Stored (S k)) {b : Block C}
    (hb : .store b ∈ (S k).core.trace) {a : C.PublicKey} (ha : w.Honest a)
    (hl : getLeader w.committee b.round = some a) :
    ∃ c, Created (S a) c ∧ c.digest = b.digest := by
  rcases hst b hb with hacc | hcr
  · have hc : Checked (w.env k) b := (hn.core.entry (.accept b) hacc).1
    obtain rfl : b.author = a := Option.some.inj (hc.1.symm.trans hl)
    exact Repeats.created_of_signed hnc
      (hg k b hacc _ List.mem_cons_self ha (Block.verify_ok hc.2).1)
  · obtain ⟨round, qc, tc, payload, hm, heq⟩ := hn.created b hcr
    have hlead : getLeader w.committee round = some k := (hn.core.entry (.make round qc tc) hm).2
    rw [heq] at hl
    obtain rfl : k = a := Option.some.inj (hlead.symm.trans hl)
    exact ⟨b, hcr, rfl⟩

/-- The proposer makes at most one block for a round. -/
theorem created_unique {env : Env C} {n : Node C T} {es : List (Event C)} {io : Io C} {timer : T}
    (r : NodeRun env (Node.boot env io timer) es n) (hw : NoWrap n.core) {b b' : Block C}
    (hb : Created n b) (hb' : Created n b') (hr : b.round = b'.round) : b = b' := by
  have hmade : (n.core.trace.filterMap madeRound).Pairwise (· < ·) := by
    rw [List.pairwise_filterMap]
    refine (run_increasing r hw).later.imp fun {a b} hab r hr r' hr' => ?_
    cases a <;> simp only [madeRound, reduceCtorEq, Option.some.injEq] at hr
    cases b <;> simp only [madeRound, reduceCtorEq, Option.some.injEq] at hr'
    rw [← hr, ← hr']
    exact hab
  rw [createdRound_extends (run_inOrder r)] at hmade
  have hcreated := List.pairwise_filterMap.mp (List.pairwise_append.mp hmade).1
  rw [List.pairwise_iff_getElem] at hcreated
  obtain ⟨i, hi, hbi⟩ := List.getElem_of_mem hb
  obtain ⟨j, hj, hbj⟩ := List.getElem_of_mem hb'
  -- the earlier of two blocks is of a lower round
  rcases lt_trichotomy i j with hij | rfl | hij
  · have hlt := hcreated i j hi hj hij b.round (by rw [hbi]; rfl) b'.round (by rw [hbj]; rfl)
    exact absurd hlt (hr ▸ UInt64.lt_irrefl _)
  · cases hbi.symm.trans hbj
    rfl
  · have hlt := hcreated j i hj hi hij b'.round (by rw [hbj]; rfl) b.round (by rw [hbi]; rfl)
    exact absurd hlt (hr ▸ UInt64.lt_irrefl _)

/-- **A round of an honest leader has one block**: whatever the Byzantine authorities sent, all
honest nodes have stored the same block, up to what its digest does not cover, and it is the one
that the leader made. -/
theorem one_block (hnc : NoCollision C) (r : SystemRun w (start w io timer) es S) {a : C.PublicKey}
    (ha : w.Honest a) (hw : NoWrap (S a).core) {k k' : C.PublicKey} {b b' : Block C}
    (hb : .store b ∈ (S k).core.trace) (hb' : .store b' ∈ (S k').core.trace)
    (hl : getLeader w.committee b.round = some a) (hr : b.round = b'.round) :
    b.digest = b'.digest ∧ ∃ c, Created (S a) c ∧ c.digest = b.digest := by
  have hg := run_genuine r
  obtain ⟨c, hc, hd⟩ := created_of_stored hnc hg (nodes_ok r k) (Repeats.run_stored (node_run r k))
    hb ha hl
  obtain ⟨c', hc', hd'⟩ := created_of_stored hnc hg (nodes_ok r k')
    (Repeats.run_stored (node_run r k')) hb' ha (hr ▸ hl)
  have hround : c.round = c'.round := by
    rw [(digest_inj hnc hd).2.1, (digest_inj hnc hd').2.1, hr]
  obtain rfl := created_unique (node_run r a) hw hc hc' hround
  exact ⟨hd.symm.trans hd', c, hc, hd⟩

end Rounds

end System

/-! ### A run of four -/

/-- Two nodes of four have stored the block that the leader of round 2 made. -/
theorem one_block_four : ∃ S : Nodes crypto (Timer ℚ),
    .store Four.second ∈ (S (key 0)).core.trace ∧ .store Four.second ∈ (S (key 1)).core.trace ∧
      ∃ c, Created (S (key 2)) c ∧ c.digest = Four.second.digest := by
  have hrun := run_of_fourRun fourRounds rfl
  have h := List.mem_of_getElem?
    (show ((fourRun fourRounds).getD fourStart (key 0)).core.trace[9]? =
      some (.store Four.second) from rfl)
  have h' := List.mem_of_getElem?
    (show ((fourRun fourRounds).getD fourStart (key 1)).core.trace[8]? =
      some (.store Four.second) from rfl)
  exact ⟨_, h, h', (one_block noCollision hrun (a := key 2) (by decide) (by decide) h h' (by decide)
    rfl).2⟩

end Hotstuff.Consensus.Validity
