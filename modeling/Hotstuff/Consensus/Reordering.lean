import Hotstuff.Consensus.Catchup

/-! # Blocks that arrive in any order

A node is sent the blocks of a list as in `Input`, in any order and any number of times, and nothing
else. A block whose parent is not there waits in the synchronizer, which has a request for the
parent out, and comes back to the core once the parent is stored; none gets lost on the way (`Ok`).
When all have arrived and there is nothing left to deliver (`Drained`), all are stored, and the
state of the core is the one in which it ends if the blocks arrive in the order of the list
(`order_independent`). -/

namespace Hotstuff.Consensus.Reordering

open Hotstuff.Primitives Hotstuff.Consensus.Config Hotstuff.Consensus.Messages
open Hotstuff.Consensus.Pacing Hotstuff.Consensus.Handlers Hotstuff.Consensus.Steps
open Hotstuff.Consensus.Tasks Hotstuff.Consensus.Wiring Hotstuff.Consensus.Queues
open Hotstuff.Consensus.Lineage Hotstuff.Consensus.Catchup Hotstuff.Lib.Lists
open Hotstuff.Lib.Transition Hotstuff.Ideal

variable {C : Crypto} {T : Type}

/-- The events: a block of the list is proposed, or one is on its way to the synchronizer or back.
The retry timer of the synchronizer and the inputs of the payload waiter and of the proposer's
buffer do not matter. -/
inductive Arrival (bs : List (Block C)) : Event C → Prop
  | propose {b : Block C} {io : Io C} (hb : b ∈ bs) (hio : Succeeds io) :
      Arrival bs (.message (.propose b) io)
  | loopback {io : Io C} (hio : Succeeds io) : Arrival bs (.loopback io)
  | syncBlock (now : Instant) : Arrival bs (.syncBlock now)
  | syncReady (i : ℕ) : Arrival bs (.syncReady i)
  | syncTimer (delay : ℕ) (now : Instant) : Arrival bs (.syncTimer delay now)
  | payloadMessage : Arrival bs .payloadMessage
  | digest : Arrival bs .digest

/-- There is nothing left to deliver: no block is on its way to the synchronizer or back, and no
parent that a block waits for is in the store. -/
structure Drained (n : Node C T) : Prop where
  rxInner : n.synchronizer.rxInner = []
  rxLoopback : n.rxLoopback = []
  waiting : ∀ b ∈ n.synchronizer.waiting, n.core.store.lookup b.parent = none

/-- The invariant: every accepted block is stored or on its way, and what waits is pending and,
until the parent is stored, requested. -/
structure Ok (env : Env C) (st₀ : Store C) (bs : List (Block C)) (n : Node C T) : Prop where
  halted : n.halted = none
  synced : Synced env st₀ bs n.core
  held : ∀ b, Syncs n b ∨ b ∈ n.rxLoopback → .accept b ∈ n.core.trace
  kept : ∀ b, .accept b ∈ n.core.trace →
    (n.core.store.lookup b.digest).isSome ∨ Syncs n b ∨ b ∈ n.rxLoopback
  suspended : ∀ b, Syncs n b → ¬ b.qc.IsGenesis
  released : ∀ b ∈ n.rxLoopback, (n.core.store.lookup b.parent).isSome
  nodup : (n.synchronizer.waiting.map Block.digest).Nodup
  pending : ∀ d, d ∈ n.synchronizer.pending ↔ d ∈ n.synchronizer.waiting.map Block.digest
  requests : ∀ b ∈ n.synchronizer.waiting, n.core.store.lookup b.parent = none →
    b.parent ∈ n.synchronizer.requests.map Prod.fst
  /-- No parent was lost. -/
  answered : n.synchronizer.answered = []

section Steps

variable {env : Env C} {st₀ : Store C} {bs : List (Block C)} {n n' : Node C T}

/-- The event concerns neither the core nor the blocks of the synchronizer. -/
theorem Ok.congr (h : Ok env st₀ bs n) (hc : n'.core = n.core) (hh : n'.halted = n.halted)
    (hl : n'.rxLoopback = n.rxLoopback) (hi : n'.synchronizer.rxInner = n.synchronizer.rxInner)
    (hw : n'.synchronizer.waiting = n.synchronizer.waiting)
    (hp : n'.synchronizer.pending = n.synchronizer.pending)
    (hr : n'.synchronizer.requests = n.synchronizer.requests)
    (ha : n'.synchronizer.answered = n.synchronizer.answered) : Ok env st₀ bs n' := by
  have hs : ∀ b, Syncs n' b ↔ Syncs n b := fun b => by unfold Syncs; rw [hi, hw]
  refine ⟨hh ▸ h.halted, hc ▸ h.synced, ?_, ?_, ?_, ?_, hw ▸ h.nodup, ?_, ?_, ha ▸ h.answered⟩
  · simpa only [hs, hl, hc] using h.held
  · simpa only [hs, hl, hc] using h.kept
  · simpa only [hs] using h.suspended
  · simpa only [hl, hc] using h.released
  · simpa only [hp, hw] using h.pending
  · simpa only [hw, hc, hr] using h.requests

/-- **The core handles a block**, a proposal or the next one of the loopback channel. -/
theorem Ok.call (h : Ok env st₀ bs n) {b : Block C} {rest : List (Block C)} {r : Call C T Unit}
    (hr : Settled env st₀ bs b n.core r) (hlost : lostKeys n r.1 = [])
    (hrest : ∀ b', b' ∈ rest → b' ∈ n.rxLoopback)
    (hb : ∀ b', b' ∈ n.rxLoopback → b' = b ∨ b' ∈ rest) :
    Ok env st₀ bs ({ n with rxLoopback := rest }.call r) := by
  obtain ⟨l, hl, hacc, hout⟩ := hr.trace
  have hnew : newEntries { n with rxLoopback := rest } r.1 = l := by
    unfold newEntries
    rw [hl, List.drop_left]
  have hcall : ({ n with rxLoopback := rest }.call r).synchronizer =
      { n.synchronizer with rxInner := n.synchronizer.rxInner ++ l.filterMap toSynchronizer } := by
    have hkeys : lostKeys { n with rxLoopback := rest } r.1 = [] := hlost
    rw [call_synchronizer, hkeys, Synchronizer.answer_nil, hnew]
  have hsync : ∀ b', Syncs ({ n with rxLoopback := rest }.call r) b' ↔
      Syncs n b' ∨ b' ∈ l.filterMap toSynchronizer := by
    intro b'
    simp only [Syncs, hcall, List.mem_append]
    exact or_right_comm
  have hmem : ∀ b' ∈ l.filterMap toSynchronizer, b' = b ∧ ¬ b.qc.IsGenesis := by
    intro b' hb'
    rcases hout with ⟨-, hnil⟩ | ⟨hg, -, -, hone⟩
    · rw [hnil] at hb'
      simp at hb'
    · rw [hone] at hb'
      exact ⟨List.mem_singleton.mp hb', hg⟩
  refine ⟨?_, ?_, ?_, ?_, ?_, ?_, ?_, ?_, ?_, ?_⟩
  · rcases hh : ({ n with rxLoopback := rest }.call r).halted with _ | p
    · exact hh
    · exact absurd (panic_of_halted { n with rxLoopback := rest } r h.halted hh) (hr.panic p)
  · rw [call_core]
    exact hr.synced
  · rintro b' hb'
    rw [call_core]
    rw [hsync, call_rxLoopback] at hb'
    have hold : Syncs n b' ∨ b' ∈ n.rxLoopback → .accept b' ∈ r.1.trace := fun hb' => by
      rw [hl]
      exact List.mem_append_left _ (h.held b' hb')
    rcases hb' with (hb' | hb') | hb'
    · exact hold (.inl hb')
    · rw [(hmem b' hb').1]
      exact hr.accepted
    · exact hold (.inr (hrest b' hb'))
  · intro b' hb'
    rw [call_core] at hb' ⊢
    rw [hsync, call_rxLoopback]
    have hself : (r.1.store.lookup b.digest).isSome ∨ b ∈ l.filterMap toSynchronizer := by
      rcases hout with ⟨hst, -⟩ | ⟨-, -, -, hone⟩
      · rw [hst, lookup_store, if_pos rfl]
        exact .inl rfl
      · rw [hone]
        exact .inr (List.mem_singleton.mpr rfl)
    have hcase : b' = b ∨ .accept b' ∈ n.core.trace := by
      rw [hl] at hb'
      exact (List.mem_append.mp hb').symm.imp_left (hacc b')
    rcases hcase with rfl | hold
    · exact hself.imp_right fun hs => .inl (.inr hs)
    rcases h.kept b' hold with hs | hs | hs
    · exact .inl (hr.isSome hs)
    · exact .inr (.inl (.inl hs))
    · rcases hb b' hs with rfl | hs
      · exact hself.imp_right fun hs => .inl (.inr hs)
      · exact .inr (.inr hs)
  · intro b' hb'
    rcases (hsync b').mp hb' with hb' | hb'
    · exact h.suspended b' hb'
    · rw [(hmem b' hb').1]
      exact (hmem b' hb').2
  · rw [call_rxLoopback, call_core]
    exact fun b' hb' => hr.isSome (h.released b' (hrest b' hb'))
  · rw [hcall]
    exact h.nodup
  · rw [hcall]
    exact h.pending
  · rw [hcall, call_core]
    intro b' hb' hnone
    refine h.requests b' hb' ?_
    rw [← Option.not_isSome_iff_eq_none]
    intro hs
    have := hr.isSome hs
    rw [hnone] at this
    cases this
  · rw [hcall]
    exact h.answered

end Steps

/-! ### The synchronizer -/

section Synchronizer

variable {w w' : Synchronizer C} {b : Block C}

/-- The next block waits, with a request for its parent, unless one of its digest does. -/
theorem receive_cases {now : Instant} (h : w.receive now = some w') :
    ∃ b, w.rxInner = b :: w'.rxInner ∧ w'.answered = w.answered ∧
      ((b.digest ∈ w.pending ∧ w'.waiting = w.waiting ∧ w'.pending = w.pending ∧
          w'.requests = w.requests) ∨
        (b.digest ∉ w.pending ∧ w'.waiting = w.waiting ++ [b] ∧
          w'.pending = b.digest :: w.pending ∧ b.parent ∈ w'.requests.map Prod.fst ∧
          w.requests.map Prod.fst ⊆ w'.requests.map Prod.fst)) := by
  obtain ⟨b, blocks, hrx, rfl⟩ := Synchronizer.receive_eq h
  rw [hrx]
  refine ⟨b, ?_⟩
  unfold Synchronizer.handle
  dsimp only
  split_ifs with hp hr
  · exact ⟨rfl, rfl, .inl ⟨hp, rfl, rfl, rfl⟩⟩
  · exact ⟨rfl, rfl, .inr ⟨hp, rfl, rfl, hr, List.Subset.refl _⟩⟩
  · exact ⟨rfl, rfl, .inr ⟨hp, rfl, rfl, List.mem_cons_self, List.subset_cons_self _ _⟩⟩

/-- A block is let go as its parent is in the store, if no write has failed. -/
theorem ready_cases {st : Store C} {i : ℕ} (ha : w.answered = [])
    (h : w.ready st i = some (w', b)) :
    (st.lookup b.parent).isSome ∧ w.waiting.Perm (b :: w'.waiting) ∧ w'.rxInner = w.rxInner ∧
      w'.pending = w.pending.filter (· ≠ b.digest) ∧
      w'.requests = w.requests.filter (·.1 ≠ b.parent) ∧ w'.answered = [] := by
  obtain ⟨b', hf, hl, heq⟩ := Synchronizer.ready_eq h
  obtain ⟨rfl, rfl⟩ := Prod.mk.inj heq
  refine ⟨hl.resolve_right ?_, (perm_eraseIdx hf).symm, rfl, rfl, rfl, ?_⟩ <;> simp [ha]

end Synchronizer

section Steps

variable {env : Env C} {st₀ : Store C} {bs : List (Block C)} {n n' : Node C T}

theorem Ok.mem (h : Ok env st₀ bs n) {b : Block C} (hb : Syncs n b) : b ∈ bs :=
  h.synced.accepted b (h.held b (.inl hb))

/-- **The synchronizer takes a block.** -/
theorem Ok.syncBlock (hin : Input env st₀ bs) (h : Ok env st₀ bs n) {now : Instant}
    {w : Synchronizer C} (hw : n.synchronizer.receive now = some w) :
    Ok env st₀ bs { n with synchronizer := w } := by
  obtain ⟨b, hrx, hans, hcases⟩ := receive_cases hw
  have hb : Syncs n b := .inl (by rw [hrx]; exact List.mem_cons_self)
  have hsync : ∀ b', Syncs { n with synchronizer := w } b' ↔ Syncs n b' := by
    intro b'
    unfold Syncs
    rw [hrx]
    rcases hcases with ⟨hp, hwait, -, -⟩ | ⟨-, hwait, -⟩
    · -- the block that is dropped waits already
      rw [h.pending] at hp
      obtain ⟨c, hc, hd⟩ := List.mem_map.mp hp
      obtain rfl := hin.eq_of_digest (h.mem (.inr hc)) (h.mem hb) hd
      rw [hwait, List.mem_cons]
      exact ⟨Or.imp_left .inr, fun h => h.elim (fun h => h.elim (fun h => .inr (h ▸ hc)) .inl) .inr⟩
    · rw [hwait, List.mem_cons, List.mem_append, List.mem_singleton]
      tauto
  refine ⟨h.halted, h.synced, ?_, ?_, ?_, h.released, ?_, ?_, ?_, hans.trans h.answered⟩
  · simpa only [hsync] using h.held
  · simpa only [hsync] using h.kept
  · simpa only [hsync] using h.suspended
  · rcases hcases with ⟨-, hwait, -⟩ | ⟨hp, hwait, -⟩
    · rw [hwait]
      exact h.nodup
    · rw [hwait, List.map_append, List.nodup_append]
      refine ⟨h.nodup, List.nodup_singleton _, fun d hd d' hd' => ?_⟩
      rw [List.map_singleton, List.mem_singleton] at hd'
      rw [hd']
      rintro rfl
      exact hp ((h.pending _).mpr hd)
  · intro d
    rcases hcases with ⟨-, hwait, hpend, -⟩ | ⟨-, hwait, hpend, -⟩
    · rw [hwait, hpend]
      exact h.pending d
    · rw [hwait, hpend, List.mem_cons, h.pending, List.map_append, List.mem_append,
        List.map_singleton, List.mem_singleton]
      exact or_comm
  · intro c hc hnone
    rcases hcases with ⟨-, hwait, -, hreq⟩ | ⟨-, hwait, -, hself, hsub⟩
    · rw [hreq]
      exact h.requests c (hwait ▸ hc) hnone
    · rw [hwait] at hc
      rcases List.mem_append.mp hc with hc | hc
      · exact hsub (h.requests c hc hnone)
      · rw [List.mem_singleton.mp hc]
        exact hself

/-- **The synchronizer sends a block back to the core.** -/
theorem Ok.syncReady (h : Ok env st₀ bs n) {i : ℕ} {w : Synchronizer C} {b : Block C}
    (hw : n.synchronizer.ready n.core.store i = some (w, b)) :
    Ok env st₀ bs ({ n with synchronizer := w }.loop b) := by
  obtain ⟨hl, hperm, hrx, hpend, hreq, hans⟩ := ready_cases h.answered hw
  have hmap := hperm.map Block.digest
  have hnd : (b.digest :: w.waiting.map Block.digest).Nodup := hmap.nodup h.nodup
  have hsub : ∀ c ∈ w.waiting, c ∈ n.synchronizer.waiting := fun c hc =>
    hperm.mem_iff.mpr (List.mem_cons_of_mem _ hc)
  have hsync : ∀ c, Syncs n c ↔ c = b ∨ Syncs ({ n with synchronizer := w }.loop b) c := by
    intro c
    unfold Syncs Node.loop
    rw [hrx, hperm.mem_iff, List.mem_cons]
    exact or_left_comm
  refine ⟨h.halted, h.synced, ?_, ?_, ?_, ?_, ?_, ?_, ?_, hans⟩
  · rintro c (hc | hc)
    · exact h.held c (.inl ((hsync c).mpr (.inr hc)))
    · rcases List.mem_append.mp hc with hc | hc
      · exact h.held c (.inr hc)
      · rw [List.mem_singleton.mp hc]
        exact h.held b (.inl ((hsync b).mpr (.inl rfl)))
  · intro c hc
    rcases h.kept c hc with hs | hs | hs
    · exact .inl hs
    · rcases (hsync c).mp hs with rfl | hs
      · exact .inr (.inr (List.mem_append_right _ (List.mem_singleton.mpr rfl)))
      · exact .inr (.inl hs)
    · exact .inr (.inr (List.mem_append_left _ hs))
  · exact fun c hc => h.suspended c ((hsync c).mpr (.inr hc))
  · intro c hc
    rcases List.mem_append.mp hc with hc | hc
    · exact h.released c hc
    · rw [List.mem_singleton.mp hc]
      exact hl
  · exact (List.nodup_cons.mp hnd).2
  · intro d
    show d ∈ w.pending ↔ d ∈ w.waiting.map Block.digest
    rw [hpend, List.mem_filter, h.pending, hmap.mem_iff, List.map_cons, List.mem_cons]
    constructor
    · rintro ⟨hd, hne⟩
      exact hd.resolve_left (of_decide_eq_true hne)
    · intro hd
      refine ⟨.inr hd, decide_eq_true ?_⟩
      rintro rfl
      exact (List.nodup_cons.mp hnd).1 hd
  · intro c hc hnone
    show c.parent ∈ w.requests.map Prod.fst
    obtain ⟨a, ha, hac⟩ := List.mem_map.mp (h.requests c (hsub c hc) hnone)
    -- the parent whose request is dropped is in the store
    have hne : c.parent ≠ b.parent := fun he => by
      rw [← he] at hl
      rw [show n.core.store.lookup c.parent = none from hnone] at hl
      cases hl
    rw [hreq, ← hac]
    refine List.mem_map_of_mem (f := Prod.fst) (List.mem_filter.mpr ⟨ha, decide_eq_true ?_⟩)
    rw [hac]
    exact hne

variable [RoundTimer T]

/-- Without failing writes no key is lost. -/
theorem lostKeys_of_writes (hn : Queues.Ok env n) {e : Event C} (h : n.step env e = some n')
    (hc : e.isCore = true) (hw : ∀ d, e.writeFails d = false) :
    lostKeys n n'.core = [] := by
  refine List.eq_nil_iff_forall_not_mem.mpr fun d hd => ?_
  have hlost := lost_of_step hn hc h hd
  rw [hw] at hlost
  cases hlost

/-- **The invariant is kept.** -/
theorem Ok.step (hin : Input env st₀ bs) (hnl : NotLast bs) (hn : Queues.Ok env n)
    (h : Ok env st₀ bs n) {e : Event C} (he : Arrival bs e) (hstep : n.step env e = some n') :
    Ok env st₀ bs n' := by
  cases he with
  | @propose b io hb hio =>
    have hlost := lostKeys_of_writes hn hstep rfl hio.write
    obtain ⟨-, rfl⟩ := step_message hstep
    rw [call_core] at hlost
    exact h.call (handleProposal_settled hin hnl hio h.synced hb) hlost (fun _ hb' => hb')
      fun _ => .inr
  | @loopback io hio =>
    have hlost := lostKeys_of_writes hn hstep rfl hio.write
    obtain ⟨-, b, rest, hrest, rfl⟩ := step_loopback hstep
    rw [call_core] at hlost
    have hacc := h.held b (.inr (by rw [hrest]; exact List.mem_cons_self))
    refine h.call (processBlock_settled hin hio h.synced hacc) hlost (fun b' hb' => ?_)
      fun b' hb' => ?_
    · rw [hrest]
      exact List.mem_cons_of_mem _ hb'
    · rw [hrest] at hb'
      exact List.mem_cons.mp hb'
  | syncBlock now =>
    obtain ⟨w, hw, rfl⟩ := Option.map_eq_some_iff.mp hstep
    exact h.syncBlock hin hw
  | syncReady i =>
    obtain ⟨⟨w, b⟩, hw, rfl⟩ := Option.map_eq_some_iff.mp hstep
    exact h.syncReady hw
  | syncTimer delay now =>
    cases Option.some.inj hstep
    exact h.congr rfl rfl rfl rfl rfl rfl rfl rfl
  | payloadMessage =>
    obtain ⟨w, -, rfl⟩ := Option.map_eq_some_iff.mp hstep
    exact h.congr rfl rfl rfl rfl rfl rfl rfl rfl
  | digest =>
    obtain ⟨p, -, rfl⟩ := Option.map_eq_some_iff.mp hstep
    exact h.congr rfl rfl rfl rfl rfl rfl rfl rfl

end Steps

/-! ### Runs -/

/-- A node that has not yet been sent a block. -/
structure Fresh (n : Node C T) : Prop where
  halted : n.halted = none
  round : n.core.round = 1
  highQc : n.core.highQc = QC.genesis
  committed : n.core.lastCommittedRound = 0
  aggregator : n.core.aggregator = Aggregation.Aggregator.new
  trace : ∀ b, .accept b ∉ n.core.trace
  synchronizer : n.synchronizer = .new
  rxLoopback : n.rxLoopback = []

section Runs

variable [RoundTimer T] {env : Env C} {bs : List (Block C)} {n₀ n : Node C T}

theorem fresh_boot (io : Io C) (timer : T) : Fresh (Node.boot env io timer) := by
  obtain ⟨hq, hr, -, hc, -, ha⟩ := boot_fields env io timer
  have htr : ∀ a ∈ (Core.boot env io timer).trace, a = .make 1 QC.genesis none := by
    intro a ha
    rw [boot_trace] at ha
    split_ifs at ha
    · exact List.mem_singleton.mp ha
    · simp at ha
  have hno : ∀ b, .accept b ∉ (Core.boot env io timer).trace := fun b hb => by
    cases htr _ hb
  refine ⟨rfl, hr, hq, hc, ha, hno, ?_, rfl⟩
  have hnone : (Core.boot env io timer).trace.filterMap toSynchronizer = [] :=
    List.filterMap_eq_nil_iff.mpr fun a ha => by rw [htr a ha]; rfl
  show ({ Synchronizer.new with rxInner := [] ++ _ } : Synchronizer C) = _
  rw [hnone]
  rfl

/-- The payloads arrive first. -/
theorem fresh_batches {io : Io C} {timer : T} {xs : List C.Batch}
    (r : NodeRun env (Node.boot env io timer) (xs.map .batch) n) : Fresh n := by
  refine r.invariant_mem (A := fun e => ∃ x, e = .batch x) (fun e he => ?_) (fresh_boot io timer) ?_
  · obtain ⟨x, -, rfl⟩ := List.mem_map.mp he
    exact ⟨x, rfl⟩
  · rintro n e n' hn ⟨x, rfl⟩ h
    cases Option.some.inj h
    exact ⟨hn.halted, hn.round, hn.highQc, hn.committed, hn.aggregator, hn.trace, hn.synchronizer,
      hn.rxLoopback⟩

omit [RoundTimer T] in
theorem Fresh.ok (h : Fresh n) (hin : Input env n.core.store bs) :
    Ok env n.core.store bs n := by
  have hsync : ∀ b, ¬ Syncs n b := fun b hb => by
    simp [Syncs, h.synchronizer, Synchronizer.new] at hb
  have hnone : ∀ b ∈ bs, ¬ (n.core.store.lookup b.digest).isSome := fun b hb hs => by
    rw [hin.fresh b hb] at hs
    cases hs
  have hone : ∀ (i : ℕ) (P : ℕ → Prop), (∀ m, ¬ P m) → IsGreatest (insert i {m | P m}) i := by
    intro i P hP
    rw [show {m | P m} = ∅ from Set.eq_empty_of_forall_notMem hP, insert_empty_eq]
    exact isGreatest_singleton
  refine ⟨h.halted, ⟨⟨fun d => .inl rfl, fun b hb hs => absurd hs (hnone b hb)⟩, ?_, ?_, ?_, ?_,
    ?_⟩, ?_, ?_, ?_, ?_, ?_, ?_, ?_, ?_⟩
  · rw [h.aggregator]
    exact own_new
  · exact fun b hb => absurd hb (h.trace b)
  · rw [h.round]
    refine hone 1 _ fun m hm => ?_
    obtain ⟨b, hb, -⟩ := hm
    exact h.trace b hb
  · rw [h.highQc]
    refine hone 0 _ fun m hm => ?_
    obtain ⟨b, hb, -⟩ := hm
    exact h.trace b hb
  · rw [h.committed]
    refine hone 0 _ fun m hm => ?_
    obtain ⟨b, hb, hs, -⟩ := hm
    exact hnone b hb hs
  · rintro b (hb | hb)
    · exact absurd hb (hsync b)
    · simp [h.rxLoopback] at hb
  · exact fun b hb => absurd hb (h.trace b)
  · exact fun b hb => absurd hb (hsync b)
  · simp [h.rxLoopback]
  · simp [h.synchronizer, Synchronizer.new]
  · simp [h.synchronizer, Synchronizer.new]
  · simp [h.synchronizer, Synchronizer.new]
  · simp [h.synchronizer, Synchronizer.new]

/-- **In every run**, from a state in which the invariant holds: it holds, and what was proposed is
accepted. -/
theorem run_ok (hin : Input env n₀.core.store bs) (hnl : NotLast bs) (hn₀ : Queues.Ok env n₀)
    (h₀ : Ok env n₀.core.store bs n₀) {es : List (Event C)} (r : NodeRun env n₀ es n)
    (hes : ∀ e ∈ es, Arrival bs e) : Queues.Ok env n ∧ Ok env n₀.core.store bs n ∧
      ∀ b io, .message (.propose b) io ∈ es → .accept b ∈ n.core.trace := by
  induction r with
  | nil => exact ⟨hn₀, h₀, by simp⟩
  | @snoc es n e n' r h ih =>
    rw [List.forall_mem_append, List.forall_mem_singleton] at hes
    obtain ⟨hn, hok, hacc⟩ := ih hes.1
    refine ⟨step_ok hn h, hok.step hin hnl hn hes.2 h, fun b io hb => ?_⟩
    rcases List.mem_append.mp hb with hb | hb
    · exact (step_grows hn h).trace (hacc b io hb)
    · obtain rfl := List.mem_singleton.mp hb
      obtain ⟨-, rfl⟩ := step_message h
      rw [call_core]
      cases hes.2 with
      | propose hb hio => exact (handleProposal_settled hin hnl hio hok.synced hb).accepted

omit [RoundTimer T] in
/-- **When there is nothing left to deliver** all accepted blocks are stored, by induction from
parents to blocks, and none waits. -/
theorem Ok.complete {st₀ : Store C} (hin : Input env st₀ bs) (h : Ok env st₀ bs n)
    (hd : Drained n) (hacc : ∀ b ∈ bs, .accept b ∈ n.core.trace) :
    Complete bs n.core ∧ n.synchronizer.waiting = [] := by
  have hsync : ∀ b, Syncs n b ↔ b ∈ n.synchronizer.waiting := fun b => by
    simp [Syncs, hd.rxInner]
  have hst : ∀ b ∈ bs, (n.core.store.lookup b.digest).isSome := by
    refine hin.induction fun b hb hp => ?_
    rcases h.kept b (hacc b hb) with hs | hs | hs
    · exact hs
    · have hg := h.suspended b hs
      obtain ⟨p, -, hpd, hps⟩ := hp.resolve_left hg
      rw [hpd, hd.waiting b ((hsync b).mp hs)] at hps
      cases hps
    · rw [hd.rxLoopback] at hs
      simp at hs
  refine ⟨⟨hacc, hst⟩, List.eq_nil_iff_forall_not_mem.mpr fun b hb => ?_⟩
  have hs : Syncs n b := .inr hb
  obtain ⟨p, hp, hpd⟩ := hin.parent_mem (h.mem hs) (h.suspended b hs)
  have hps := hst p hp
  rw [hpd, hd.waiting b hb] at hps
  cases hps

/-- A block whose parent is in the store is stored at once: the synchronizer has nothing to do. -/
theorem Ok.propose_found {st₀ : Store C} (hin : Input env st₀ bs) (hnl : NotLast bs)
    (hn : Queues.Ok env n) (h : Ok env st₀ bs n) {b : Block C} (hb : b ∈ bs)
    (hp : b.qc.IsGenesis ∨ (n.core.store.lookup b.parent).isSome) {io : Io C}
    (hio : Succeeds io) : ∃ n', n.step env (.message (.propose b) io) = some n' ∧
      n'.synchronizer = n.synchronizer ∧ n'.rxLoopback = n.rxLoopback ∧
      n'.core.store = (b.digest, .block b) :: n.core.store := by
  obtain ⟨new, htr, -, ⟨hst, hnone⟩ | ⟨hg, hl, -⟩⟩ :=
    (handleProposal_settled hin hnl hio h.synced hb).trace
  swap
  · rw [hl] at hp
    cases hp.resolve_left hg
  have hnew : newEntries n (handleProposal env io n.core b).1 = new := by
    unfold newEntries
    rw [htr, List.drop_left]
  have hstep : n.step env (.message (.propose b) io) =
      some (n.call (handleProposal env io n.core b)) := by
    unfold Node.step
    rw [if_pos (show (Event.message (.propose b) io).isCore = true from rfl), if_pos h.halted]
    rfl
  have hlost := lostKeys_of_writes hn hstep rfl hio.write
  rw [call_core] at hlost
  refine ⟨_, hstep, ?_, call_rxLoopback _ _, ?_⟩
  · rw [call_synchronizer, hlost, Synchronizer.answer_nil, hnew, hnone, List.append_nil]
  · rw [call_core, hst]

/-- **Blocks in order**: each block finds its parent. -/
theorem exists_inOrder (hin : Input env n₀.core.store bs) (hnl : NotLast bs)
    (hn₀ : Queues.Ok env n₀) (hf : Fresh n₀) {ios : Block C → Io C}
    (hio : ∀ b, Succeeds (ios b)) :
    ∃ n₁, NodeRun env n₀ (bs.map fun b => .message (.propose b) (ios b)) n₁ ∧ Drained n₁ := by
  have hrun : ∃ n₁, NodeRun env n₀ (bs.map fun b => .message (.propose b) (ios b)) n₁ ∧
      (n₁.synchronizer = .new ∧ n₁.rxLoopback = []) ∧
      ∀ b ∈ bs, (n₁.core.store.lookup b.digest).isSome := by
    refine prefix_induction (P := fun l => ∃ n₁,
      NodeRun env n₀ (l.map fun b => .message (.propose b) (ios b)) n₁ ∧
        (n₁.synchronizer = .new ∧ n₁.rxLoopback = []) ∧
        ∀ b ∈ l, (n₁.core.store.lookup b.digest).isSome)
      ⟨n₀, .nil, ⟨hf.synchronizer, hf.rxLoopback⟩, by simp⟩ ?_
    rintro l b l₂ hbs ⟨n₁, r, ⟨hsync, hloop⟩, hst⟩
    have hb : b ∈ bs := by rw [hbs]; simp
    have hes : ∀ e ∈ l.map fun b => Event.message (.propose b) (ios b), Arrival bs e := by
      refine List.forall_mem_map.mpr fun c hc => .propose ?_ (hio c)
      rw [hbs]
      exact List.mem_append_left _ hc
    obtain ⟨hn, hok, -⟩ := run_ok hin hnl hn₀ (hf.ok hin) r hes
    have hp : b.qc.IsGenesis ∨ (n₁.core.store.lookup b.parent).isSome :=
      (hin.parent l b l₂ hbs).imp_right fun ⟨p, hp, hd⟩ => hd ▸ hst p hp
    obtain ⟨n', hstep, hsync', hloop', hst'⟩ := hok.propose_found hin hnl hn hb hp (hio b)
    refine ⟨n', by rw [List.map_append]; exact .snoc r hstep,
      ⟨hsync'.trans hsync, hloop'.trans hloop⟩, fun c hc => ?_⟩
    rw [hst', lookup_store]
    split_ifs with hd
    · rfl
    · rcases List.mem_append.mp hc with hc | hc
      · exact hst c hc
      · exact absurd (by rw [List.mem_singleton.mp hc]) hd
  obtain ⟨n₁, r, ⟨hsync, hloop⟩, -⟩ := hrun
  refine ⟨n₁, r, ?_, hloop, ?_⟩
  · rw [hsync]
    rfl
  · rw [hsync]
    simp [Synchronizer.new]

/-- The events that deliver blocks to the synchronizer and back. -/
inductive Delivery : Event C → Prop
  | loopback {io : Io C} (hio : Succeeds io) : Delivery (.loopback io)
  | syncBlock (now : Instant) : Delivery (.syncBlock now)
  | syncReady (i : ℕ) : Delivery (.syncReady i)

omit [RoundTimer T] in
theorem Delivery.arrival {e : Event C} (h : Delivery e) : Arrival bs e := by
  cases h with
  | loopback hio => exact .loopback hio
  | syncBlock now => exact .syncBlock now
  | syncReady i => exact .syncReady i

/-- The deliveries that are left, at most: a block goes to the synchronizer, waits and comes
back. -/
def backlog (n : Node C T) : ℕ :=
  3 * n.synchronizer.rxInner.length + 2 * n.synchronizer.waiting.length + n.rxLoopback.length

theorem exists_syncBlock (hrx : n.synchronizer.rxInner ≠ []) : ∃ n',
    n.step env (.syncBlock 0) = some n' ∧ backlog n' < backlog n := by
  obtain ⟨b, blocks, hrx⟩ := List.exists_cons_of_ne_nil hrx
  have hw : n.synchronizer.receive 0 =
      some ({ n.synchronizer with rxInner := blocks }.handle 0 b) := by
    simp only [Synchronizer.receive, hrx]
  refine ⟨_, Option.map_eq_some_iff.mpr ⟨_, hw, rfl⟩, ?_⟩
  obtain ⟨b', hrx', -, ⟨-, hwait, -⟩ | ⟨-, hwait, -⟩⟩ := receive_cases hw
  all_goals
    unfold backlog
    rw [hrx', hwait]
    simp only [List.length_cons, List.length_append, List.length_nil]
    omega

/-- A block that comes back is stored, and does not go round again. -/
theorem Ok.exists_loopback {st₀ : Store C} (hin : Input env st₀ bs) (h : Ok env st₀ bs n)
    (hl : n.rxLoopback ≠ []) {io : Io C} (hio : Succeeds io) : ∃ n',
    n.step env (.loopback io) = some n' ∧ backlog n' < backlog n := by
  obtain ⟨b, rest, hl⟩ := List.exists_cons_of_ne_nil hl
  have hb : b ∈ n.rxLoopback := by rw [hl]; exact List.mem_cons_self
  obtain ⟨new, htr, -, ⟨-, hnone⟩ | ⟨-, hmiss, -⟩⟩ :=
    (processBlock_settled hin hio h.synced (h.held b (.inr hb))).trace
  swap
  · have hs := h.released b hb
    rw [hmiss] at hs
    cases hs
  have hnew : newEntries { n with rxLoopback := rest } (processBlock env io n.core b).1 = new := by
    unfold newEntries
    rw [htr, List.drop_left]
  refine ⟨{ n with rxLoopback := rest }.call (processBlock env io n.core b), ?_, ?_⟩
  · unfold Node.step
    rw [if_pos (show (Event.loopback io : Event C).isCore = true from rfl), if_pos h.halted]
    simp only [Node.coreStep, hl]
  · unfold backlog
    rw [call_synchronizer, call_rxLoopback, hnew, hnone, List.append_nil, hl]
    simp only [Synchronizer.answer, List.length_cons]
    omega

theorem Ok.exists_syncReady {st₀ : Store C} (h : Ok env st₀ bs n) {b : Block C}
    (hb : b ∈ n.synchronizer.waiting)
    (hs : (n.core.store.lookup b.parent).isSome) : ∃ i n',
    n.step env (.syncReady i) = some n' ∧ backlog n' < backlog n := by
  obtain ⟨i, hi⟩ := List.mem_iff_getElem?.mp hb
  obtain ⟨w, hw⟩ : ∃ w, n.synchronizer.ready n.core.store i = some (w, b) :=
    ⟨_, by simp only [Synchronizer.ready, hi, if_pos (Or.inl hs)]; rfl⟩
  refine ⟨i, { n with synchronizer := w }.loop b, Option.map_eq_some_iff.mpr ⟨_, hw, rfl⟩, ?_⟩
  obtain ⟨-, hperm, hrx, -⟩ := ready_cases h.answered hw
  have hlen := hperm.length_eq
  rw [List.length_cons] at hlen
  show 3 * w.rxInner.length + 2 * w.waiting.length + (n.rxLoopback ++ [b]).length < backlog n
  unfold backlog
  rw [hrx, List.length_append, List.length_singleton]
  omega

/-- As long as there is something to deliver, a delivery can be made, and lowers the backlog. -/
theorem Ok.exists_delivery {st₀ : Store C} (hin : Input env st₀ bs) (h : Ok env st₀ bs n)
    (hd : ¬ Drained n) :
    ∃ e n', Delivery e ∧ n.step env e = some n' ∧ backlog n' < backlog n := by
  by_cases hrx : n.synchronizer.rxInner = []
  swap
  · obtain ⟨n', hstep, hlt⟩ := exists_syncBlock hrx
    exact ⟨_, n', .syncBlock 0, hstep, hlt⟩
  by_cases hl : n.rxLoopback = []
  swap
  · have hio : Succeeds (⟨0, 0, fun _ => false, fun _ => false⟩ : Io C) :=
      ⟨fun _ => rfl, fun _ => rfl⟩
    obtain ⟨n', hstep, hlt⟩ := h.exists_loopback hin hl hio
    exact ⟨_, n', .loopback hio, hstep, hlt⟩
  have hwait : ∃ b ∈ n.synchronizer.waiting, (n.core.store.lookup b.parent).isSome := by
    by_contra hno
    refine hd ⟨hrx, hl, fun b hb => ?_⟩
    rw [← Option.not_isSome_iff_eq_none]
    exact fun hs => hno ⟨b, hb, hs⟩
  obtain ⟨b, hb, hs⟩ := hwait
  obtain ⟨i, n', hstep, hlt⟩ := h.exists_syncReady hb hs
  exact ⟨_, n', .syncReady i, hstep, hlt⟩

/-- **There comes a time when there is nothing left to deliver**, whatever has arrived. -/
theorem Ok.exists_drained {st₀ : Store C} (hin : Input env st₀ bs) (hnl : NotLast bs)
    (hn : Queues.Ok env n) (h : Ok env st₀ bs n) :
    ∃ es n', NodeRun env n es n' ∧ (∀ e ∈ es, Delivery e) ∧ Drained n' := by
  induction hk : backlog n using Nat.strong_induction_on generalizing n with
  | _ k ih =>
    by_cases hd : Drained n
    · exact ⟨[], n, .nil, by simp, hd⟩
    obtain ⟨e, n₁, he, hstep, hlt⟩ := h.exists_delivery hin hd
    obtain ⟨es, n', r, hes, hd'⟩ := ih _ (hk ▸ hlt) (step_ok hn hstep)
      (h.step hin hnl hn he.arrival hstep) rfl
    exact ⟨e :: es, n', Run.cons hstep r, List.forall_mem_cons.mpr ⟨he, hes⟩, hd'⟩

/-- **Order independence of the synchronization**: in every run in which a node is sent the blocks,
every pending block whose parent is not in the store is in `requests`, and once all blocks have been
sent and there is nothing left to deliver, all are stored, none is pending, and the core is in the
state to which the blocks lead in order. -/
theorem order_independent {io : Io C} {timer : T} {xs : List C.Batch} {es : List (Event C)}
    (r₀ : NodeRun env (Node.boot env io timer) (xs.map .batch) n₀)
    (hin : Input env n₀.core.store bs) (hnl : NotLast bs) (r : NodeRun env n₀ es n)
    (hes : ∀ e ∈ es, Arrival bs e) :
    (∀ d ∈ n.synchronizer.pending, ∃ b ∈ bs, b.digest = d ∧
      (n.core.store.lookup b.parent = none → b.parent ∈ n.synchronizer.requests.map Prod.fst)) ∧
    ((∀ b ∈ bs, ∃ io, .message (.propose b) io ∈ es) → Drained n →
      (∀ b ∈ bs, n.core.store.lookup b.digest = some (.block b)) ∧
      n.synchronizer.pending = [] ∧
      ∀ ios : Block C → Io C, (∀ b, Succeeds (ios b)) → ∃ n₁,
        NodeRun env n₀ (bs.map fun b => .message (.propose b) (ios b)) n₁ ∧ Drained n₁ ∧
          Agree n.core n₁.core) := by
  have hn₀ := Queues.run_ok r₀
  have hf := fresh_batches r₀
  obtain ⟨-, hok, hacc⟩ := run_ok hin hnl hn₀ (hf.ok hin) r hes
  refine ⟨fun d hd => ?_, fun hall hd => ?_⟩
  · obtain ⟨b, hb, hbd⟩ := List.mem_map.mp ((hok.pending d).mp hd)
    exact ⟨b, hok.mem (.inr hb), hbd, hok.requests b hb⟩
  obtain ⟨hcomplete, hwait⟩ := hok.complete hin hd fun b hb =>
    (hall b hb).elim fun io hio => hacc b io hio
  refine ⟨fun b hb => hok.synced.content.stored hin hb (hcomplete.stored b hb), ?_, ?_⟩
  · refine List.eq_nil_iff_forall_not_mem.mpr fun d hd => ?_
    rw [hok.pending, hwait] at hd
    simp at hd
  intro ios hio
  obtain ⟨n₁, r₁, hd₁⟩ := exists_inOrder hin hnl hn₀ hf hio
  have hes₁ : ∀ e ∈ bs.map fun b => Event.message (.propose b) (ios b), Arrival bs e :=
    List.forall_mem_map.mpr fun b hb => .propose hb (hio b)
  obtain ⟨-, hok₁, hacc₁⟩ := run_ok hin hnl hn₀ (hf.ok hin) r₁ hes₁
  have hcomplete₁ := (hok₁.complete hin hd₁ fun b hb =>
    hacc₁ b (ios b) (List.mem_map_of_mem hb)).1
  exact ⟨n₁, r₁, hd₁, hok.synced.agree hin hok₁.synced hcomplete hcomplete₁⟩

end Runs

/-! ### A child before its parent -/

/-- The certificate of a block by three of four. -/
def certify (b : Block crypto) (round : Round) : QC crypto :=
  ⟨b.digest, round,
    [key 0, key 1, key 2].map fun k => (k, crypto.sign k (voteDigest b.digest round))⟩

/-- The block of round 1, with a batch. -/
def parent : Block crypto := Block.new QC.genesis none (key 1) 1 [crypto.batchDigest (7 : ℕ)]

/-- The block of round 3, with the QC of round 1. -/
def child : Block crypto := Block.new (certify parent 1) none (key 3) 3 []

/-- A block with a QC of the last round. -/
def wrapping : Block crypto := Block.new (certify parent 18446744073709551615) none (key 2) 2 []

def booted : Node crypto (Timer ℚ) := Node.boot (four 0) calm (Timer.new 0 1000)

/-- A node that has the batch. -/
def supplied : Node crypto (Timer ℚ) := { booted with
  core := { booted.core with store := [(crypto.batchDigest (7 : ℕ), .batch (7 : ℕ))] }
  proposer := { booted.proposer with rxMempool := [crypto.batchDigest (7 : ℕ)] } }

theorem supplied_run :
    NodeRun (four 0) booted (([(7 : ℕ)] : List crypto.Batch).map Event.batch) supplied :=
  run_of_exec (fun n e => n.step (four 0) e) [.batch (7 : ℕ)] booted rfl

def suppliedRun (es : List (Event crypto)) : Option (Node crypto (Timer ℚ)) :=
  exec (fun n e => n.step (four 0) e) supplied es

theorem run_of_suppliedRun (es : List (Event crypto)) {n : Node crypto (Timer ℚ)}
    (h : suppliedRun es = some n) : NodeRun (four 0) supplied es n :=
  run_of_exec _ es supplied h

def propose (b : Block crypto) : Event crypto := .message (.propose b) calm

/-- A block with a QC of three of four, or with the first one. -/
theorem checked_new {qc : QC crypto} (hqc : qc.IsGenesis ∨ ∃ b round, qc = certify b round)
    {k : ℕ} {round : Round} (payload : List crypto.Digest)
    (hl : getLeader (four 0).committee round = some k) (hs : 0 < (four 0).committee.stake (key k)) :
    Checked (four 0) (Block.new qc none (key k) round payload) := by
  refine ⟨hl, ?_⟩
  have hq : Block.verifyQc qc (four 0).committee = .ok () := by
    unfold Block.verifyQc
    split_ifs with hg
    · rfl
    obtain ⟨b, r, rfl⟩ := hqc.resolve_left hg
    have hcheck : checkQuorum (four 0).committee .qcRequiresQuorum
        ((certify b r).votes.map Prod.fst) [] 0 = .ok () := rfl
    have hbatch : crypto.verifyBatch (certify b r).digest (certify b r).votes = true :=
      List.all_eq_true.mpr (List.forall_mem_map.mpr fun k _ => decide_eq_true rfl)
    unfold QC.verify
    rw [hcheck, hbatch]
    rfl
  set b := Block.new qc none (key k) round payload with hb
  have hs' : 0 < (four 0).committee.stake b.author := hs
  have hsig : crypto.verify b.signature b.digest b.author = true := signVerifies _ _
  have hq' : Block.verifyQc b.qc (four 0).committee = .ok () := hq
  unfold Block.verify
  rw [if_pos hs', if_pos hsig, hq']
  rfl

/-- The first block with children of it. -/
theorem input_children {bs : List (Block crypto)} (hnd : ((parent :: bs).map Block.digest).Nodup)
    (hbs : ∀ b ∈ bs, b = wrapping ∨ b = child) :
    Input (four 0) supplied.core.store (parent :: bs) := by
  have hall : ∀ {P : Block crypto → Prop}, P parent → P wrapping → P child →
      ∀ b ∈ parent :: bs, P b := by
    intro P hp hw hc
    refine List.forall_mem_cons.mpr ⟨hp, fun b hb => ?_⟩
    rcases hbs b hb with rfl | rfl
    · exact hw
    · exact hc
  refine ⟨hnd, fun l₁ b l₂ hl => ?_, ?_, ?_, ?_, ?_⟩
  · rcases l₁ with _ | ⟨a, l₁⟩
    · obtain ⟨rfl, -⟩ := List.cons.inj hl
      exact .inl isGenesis_genesis
    · obtain ⟨rfl, rfl⟩ := List.cons.inj hl
      refine .inr ⟨parent, List.mem_cons_self, ?_⟩
      rcases hbs b (List.mem_append_right _ List.mem_cons_self) with rfl | rfl <;> rfl
  · exact hall (checked_new (.inl isGenesis_genesis) _ rfl (by decide))
      (checked_new (.inr ⟨_, _, rfl⟩) _ rfl (by decide))
      (checked_new (.inr ⟨_, _, rfl⟩) _ rfl (by decide))
  · exact hall (by decide) (by decide) (by decide)
  · exact hall (by decide) (by decide) (by decide)
  · intro k
    by_cases hk : 0 < (four 0).committee.stake k
    · have hmem : k ∈ (four 0).committee.keys := List.mem_toFinset.mp (stake_pos_mem _ hk)
      have hall : ∀ k ∈ (four 0).committee.keys, (four 0).committee.stake k <
          (four 0).committee.quorumThreshold := by decide
      exact hall k hmem
    · have hz : (four 0).committee.stake k = 0 := by grind
      rw [hz]
      decide

/-- The node is sent the blocks in the order of the list. -/
theorem arrival_propose {bs l : List (Block crypto)} (hl : ∀ b ∈ l, b ∈ bs) :
    ∀ e ∈ l.map propose, Arrival bs e :=
  List.forall_mem_map.mpr fun b hb => .propose (hl b hb) ⟨fun _ => rfl, fun _ => rfl⟩

/-- **The order matters for a certificate of the last round**, after which the round of the node
starts again from zero: at the end it depends on which of two blocks came last. -/
theorem exists_reordered : ¬ ∀ (bs : List (Block crypto)) (es : List (Event crypto))
    (n n₁ : Node crypto (Timer ℚ)), Input (four 0) supplied.core.store bs →
    (∀ e ∈ es, Arrival bs e) → NodeRun (four 0) supplied es n →
    (∀ b ∈ bs, ∃ io, .message (.propose b) io ∈ es) → Drained n →
    NodeRun (four 0) supplied (bs.map propose) n₁ → n.core.round = n₁.core.round := by
  intro h
  have hin : Input (four 0) supplied.core.store [parent, wrapping, child] :=
    input_children (by decide) (by simp)
  have hrun : ∃ n, NodeRun (four 0) supplied ([parent, child, wrapping].map propose) n ∧
      Drained n ∧ n.core.round = 0 :=
    ⟨_, run_of_suppliedRun _ rfl, ⟨rfl, rfl, List.forall_mem_nil _⟩, rfl⟩
  have hrun₁ : ∃ n, NodeRun (four 0) supplied ([parent, wrapping, child].map propose) n ∧
      n.core.round = 2 :=
    ⟨_, run_of_suppliedRun _ rfl, rfl⟩
  obtain ⟨n, r, hd, h0⟩ := hrun
  obtain ⟨n₁, r₁, h2⟩ := hrun₁
  have := h _ _ _ _ hin (arrival_propose (by simp)) r ?_ hd r₁
  · rw [h0, h2] at this
    exact absurd this (by decide)
  · intro b hb
    refine ⟨calm, List.mem_map_of_mem (f := propose) ?_⟩
    simp only [List.mem_cons, List.not_mem_nil, or_false] at hb ⊢
    tauto

/-- The child comes first, and waits for its parent. -/
def childFirst : List (Event crypto) :=
  [propose child, .syncBlock 0, propose parent, .syncReady 0, .loopback calm]

theorem order_independent_childFirst : ∃ n n₁ : Node crypto (Timer ℚ),
    NodeRun (four 0) supplied childFirst n ∧ n.core.round = 2 ∧
      n.synchronizer.pending = [] ∧
      NodeRun (four 0) supplied ([parent, child].map propose) n₁ ∧ Agree n.core n₁.core := by
  have hrun : ∃ n, NodeRun (four 0) supplied childFirst n ∧ Drained n ∧ n.core.round = 2 :=
    ⟨_, run_of_suppliedRun _ rfl, ⟨rfl, rfl, List.forall_mem_nil _⟩, rfl⟩
  obtain ⟨n, r, hd, hround⟩ := hrun
  have hin : Input (four 0) supplied.core.store [parent, child] :=
    input_children (by decide) (by simp)
  have hnl : NotLast [parent, child] := by
    intro b hb
    rcases List.mem_pair.mp hb with rfl | rfl <;> exact ⟨by decide, fun tc h => nomatch h⟩
  have hio : Succeeds calm := ⟨fun _ => rfl, fun _ => rfl⟩
  have hes : ∀ e ∈ childFirst, Arrival [parent, child] e := by
    simp only [childFirst, List.forall_mem_cons]
    exact ⟨.propose (by simp) hio, .syncBlock 0, .propose (by simp) hio, .syncReady 0,
      .loopback hio, List.forall_mem_nil _⟩
  obtain ⟨-, h⟩ := order_independent supplied_run hin hnl r hes
  have hall : ∀ b ∈ [parent, child], ∃ io, .message (.propose b) io ∈ childFirst := by
    intro b hb
    refine ⟨calm, ?_⟩
    rcases List.mem_pair.mp hb with rfl | rfl <;> simp [childFirst, propose]
  obtain ⟨-, hpend, h⟩ := h hall hd
  obtain ⟨n₁, r₁, -, hagree⟩ := h (fun _ => calm) fun _ => hio
  exact ⟨n, n₁, r, hround, hpend, r₁, hagree⟩

end Hotstuff.Consensus.Reordering
