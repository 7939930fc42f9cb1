import Hotstuff.Consensus.Entries
import Hotstuff.Consensus.Wiring

/-! # What the tasks hold

Every block on its way back to the core has either passed the checks of `handle_proposal` or was
made by the node's own proposer (`Ok`). So whatever the order of events, the core only processes
blocks that may be processed, and an event of the core is a sequence of its elementary steps
(`step_acts`).

The payloads of these blocks are in the store, or are what the payload waiter waits for (`Backed`),
as long as no write fails that matters (`Harmless`): a batch that is not stored has its digest in
the store none the less, as far as the proposer and the payload waiter know. -/

namespace Hotstuff.Consensus.Queues

open Hotstuff.Primitives Hotstuff.Consensus.Config Hotstuff.Consensus.Messages
open Hotstuff.Consensus.Pacing Hotstuff.Consensus.Handlers Hotstuff.Consensus.Steps
open Hotstuff.Consensus.Entries Hotstuff.Consensus.Tasks Hotstuff.Consensus.Wiring
open Hotstuff.Lib.Transition

variable {C : Crypto} {T : Type}

theorem has_iff_lookup {st : Store C} {d : C.Digest} : st.Has d ↔ (st.lookup d).isSome := by
  rw [List.lookup_isSome_iff]
  constructor
  · rintro ⟨v, hv⟩
    exact ⟨(d, v), hv, beq_self_eq_true d⟩
  · rintro ⟨⟨d', v⟩, hv, hd⟩
    exact ⟨v, by rwa [beq_iff_eq.mp hd]⟩

/-! ### What an event changes -/

section Call

variable (n : Node C T) (r : Call C T Unit)

/-- The new entries of the trace. -/
def newEntries (n : Node C T) (s : Core C T) : List (Action C) := s.trace.drop n.core.trace.length

theorem halt_eq (x : Except (Stop C) Unit) : ∃ p, n.halt x = { n with halted := p } := by
  unfold Node.halt
  split
  · exact ⟨_, rfl⟩
  · exact ⟨n.halted, rfl⟩

@[simp] theorem call_core : (n.call r).core = r.1 := by
  obtain ⟨p, hp⟩ := halt_eq (({ n with core := r.1 } : Node C T).route (newEntries n r.1)) r.2
  unfold newEntries at hp
  unfold Node.call
  rw [hp]; rfl

@[simp] theorem call_rxLoopback : (n.call r).rxLoopback = n.rxLoopback := by
  obtain ⟨p, hp⟩ := halt_eq (({ n with core := r.1 } : Node C T).route (newEntries n r.1)) r.2
  unfold newEntries at hp
  unfold Node.call
  rw [hp]; rfl

/-- The keys of the blocks whose writes failed. -/
def lostKeys (n : Node C T) (s : Core C T) : List C.Digest :=
  (newEntries n s).filterMap (unwritten s.store)

@[simp] theorem call_payloadWaiter :
    (n.call r).payloadWaiter = { n.payloadWaiter.answer (lostKeys n r.1) with
      rxMessage := n.payloadWaiter.rxMessage ++ (newEntries n r.1).filterMap toPayloadWaiter } := by
  obtain ⟨p, hp⟩ := halt_eq (({ n with core := r.1 } : Node C T).route (newEntries n r.1)) r.2
  unfold newEntries at hp
  unfold Node.call
  rw [hp]; rfl

@[simp] theorem call_synchronizer :
    (n.call r).synchronizer = { n.synchronizer.answer (lostKeys n r.1) with
      rxInner := n.synchronizer.rxInner ++ (newEntries n r.1).filterMap toSynchronizer } := by
  obtain ⟨p, hp⟩ := halt_eq (({ n with core := r.1 } : Node C T).route (newEntries n r.1)) r.2
  unfold newEntries at hp
  unfold Node.call
  rw [hp]; rfl

@[simp] theorem call_proposer : (n.call r).proposer = { n.proposer with
    rxMessage := n.proposer.rxMessage ++ (newEntries n r.1).filterMap toProposer } := by
  obtain ⟨p, hp⟩ := halt_eq (({ n with core := r.1 } : Node C T).route (newEntries n r.1)) r.2
  unfold newEntries at hp
  unfold Node.call
  rw [hp]; rfl

theorem halted_of_panic {p : Panic} (h : r.2 = .error (.panic p)) : (n.call r).halted = some p := by
  unfold Node.call
  rw [h]; rfl

theorem panic_of_halted {p : Panic} (hh : n.halted = none) (h : (n.call r).halted = some p) :
    r.2 = .error (.panic p) := by
  unfold Node.call Node.halt at h
  split at h
  · cases h
    assumption
  · exact absurd (hh.symm.trans h) (by simp)

end Call

/-! ### The invariant -/

/-- The proposer made the block. -/
def Created (n : Node C T) (b : Block C) : Prop := .created b ∈ n.proposer.trace

/-- The payload waiter has the block, which waits for `missing`. -/
def Waits (n : Node C T) (missing : List C.Digest) (b : Block C) : Prop :=
  .wait missing b ∈ n.payloadWaiter.rxMessage ∨
    ∃ f ∈ n.payloadWaiter.waiting, f.missing = missing ∧ f.deliver = b

/-- The synchronizer has the block. -/
def Syncs (n : Node C T) (b : Block C) : Prop :=
  b ∈ n.synchronizer.rxInner ∨ b ∈ n.synchronizer.waiting

/-- The block has passed the checks, or the proposer made it. -/
def Ready (n : Node C T) (b : Block C) : Prop := .accept b ∈ n.core.trace ∨ Created n b

/-- A block of the proposer is made as a message of the core says. -/
def Made (env : Env C) (n : Node C T) (b : Block C) : Prop :=
  ∃ round qc tc payload, .make round qc tc ∈ n.core.trace ∧
    b = Block.new qc tc env.name round payload

/-- The invariant of a node. -/
structure Ok (env : Env C) (n : Node C T) : Prop where
  core : Entries.Ok env n.core
  make : ∀ round qc tc, .make round qc tc ∈ n.proposer.rxMessage →
    .make round qc tc ∈ n.core.trace
  created : ∀ b, Created n b → Made env n b
  wait : ∀ missing b, Waits n missing b → .accept b ∈ n.core.trace
  sync : n.halted = none → ∀ b, Syncs n b → Ready n b
  loopback : n.halted = none → ∀ b ∈ n.rxLoopback, Ready n b

/-- The payload of the block is in the store. -/
def Present (n : Node C T) (b : Block C) : Prop := ∀ d ∈ b.payload, n.core.store.Has d

/-- The digests of the proposer and the payloads of blocks are in the store, but for those that the
payload waiter waits for. -/
structure Backed (n : Node C T) : Prop where
  digests : ∀ d, d ∈ n.proposer.rxMempool ∨ d ∈ n.proposer.buffer → n.core.store.Has d
  wait : ∀ missing b, Waits n missing b → ∀ d ∈ b.payload, d ∈ missing ∨ n.core.store.Has d
  sync : n.halted = none → ∀ b, Syncs n b → Present n b
  loopback : n.halted = none → ∀ b ∈ n.rxLoopback, Present n b

/-- **No write that matters fails**: if the write of a batch fails, its key is in the store already;
if that of a block does, this is so too, or the payload waiter does not wait for the key. -/
structure Harmless (n : Node C T) (e : Event C) : Prop where
  batch : ∀ x, e = .batchLost x → n.core.store.Has (C.batchDigest x)
  block : ∀ d, e.writeFails d = true →
    n.core.store.Has d ∨ ∀ f ∈ n.payloadWaiter.waiting, d ∉ f.missing

theorem writeFails_of_writes {e : Event C} (h : e.Writes) (d : C.Digest) :
    e.writeFails d = false := by
  cases e with
  | message m io | loopback io | timeout io => exact h d
  | _ => rfl

theorem harmless_of_writes (n : Node C T) {e : Event C} (h : e.Writes) : Harmless n e := by
  refine ⟨fun x he => ?_, fun d hd => ?_⟩
  · subst he
    exact absurd h id
  · exact absurd ((writeFails_of_writes h d).symm.trans hd) (by simp)

/-- The block may be stored and voted for: its author leads the round, it was made by the node or
verified, and its payload is in the store. -/
structure Proper (env : Env C) (n : Node C T) (b : Block C) : Prop where
  leader : getLeader env.committee b.round = some b.author
  verified : Created n b ∨ b.verify env.committee = .ok ()
  payload : Present n b

/-- The block is proper, if what the tasks hold is backed by the store. -/
structure Vetted (env : Env C) (n : Node C T) (b : Block C) : Prop where
  leader : getLeader env.committee b.round = some b.author
  verified : Created n b ∨ b.verify env.committee = .ok ()
  payload : Backed n → Present n b

theorem Vetted.proper {env : Env C} {n : Node C T} {b : Block C} (h : Vetted env n b)
    (hn : Backed n) : Proper env n b :=
  ⟨h.leader, h.verified, h.payload hn⟩

/-- What an event brings from outside to the core. -/
def guard (env : Env C) (n n' : Node C T) (e : Event C) : Guard C where
  proposal b := ∃ io, e = .message (.propose b) io
  vote v := ∃ io, e = .message (.vote v) io
  timeout t := ∃ io, e = .message (.timeout t) io
  tc tc := (∃ io, e = .message (.tc tc) io) ∧ n.core.round ≤ tc.round
  block b := Vetted env n b
  own b := Created n b
  lost d := e.writeFails d = true
  expires := ∃ io, e = .timeout io
  panics := n'.halted ≠ none

section Ready

variable {env : Env C} {n n' : Node C T} {b : Block C}

theorem ready_mono (h : Grows n.core n'.core) (ht : n.proposer.trace ⊆ n'.proposer.trace)
    (hb : Ready n b) : Ready n' b :=
  hb.imp (fun hb => h.trace hb) fun hb => ht hb

theorem made_mono (h : Grows n.core n'.core) (hb : Made env n b) : Made env n' b := by
  obtain ⟨round, qc, tc, payload, hm, hb⟩ := hb
  exact ⟨round, qc, tc, payload, h.trace hm, hb⟩

theorem present_mono (h : Grows n.core n'.core) (hb : Present n b) : Present n' b :=
  fun d hd => Store.Has.mono h.store (hb d hd)

/-- The QC of a block that may be processed has been processed. -/
theorem accepted_of_ready (hn : Ok env n) (hb : Ready n b) : Accepted n.core b.qc := by
  rcases hb with h | h
  · exact .inr (hn.core.entry _ h).2
  · obtain ⟨round, qc, tc, payload, hm, rfl⟩ := hn.created b h
    exact (hn.core.entry _ hm).1

/-- It is of the leader of its round. -/
theorem leader_of_ready (hn : Ok env n) (hb : Ready n b) :
    getLeader env.committee b.round = some b.author := by
  rcases hb with h | h
  · exact (hn.core.entry _ h).1.1
  · obtain ⟨round, qc, tc, payload, hm, rfl⟩ := hn.created b h
    exact (hn.core.entry _ hm).2

theorem vetted_of_ready (hn : Ok env n) (hb : Ready n b) (hp : Backed n → Present n b) :
    Vetted env n b :=
  ⟨leader_of_ready hn hb, hb.symm.imp_right fun h => (hn.core.entry (.accept b) h).1.2, hp⟩

end Ready

/-! ### Events of the core -/

section Core

variable [RoundTimer T] {env : Env C} {n n' : Node C T} {e : Event C}

theorem step_message {m : ConsensusMessage C} {io : Io C}
    (h : n.step env (.message m io) = some n') :
    n.halted = none ∧ n' = n.call (handleMessage env io n.core m) := by
  unfold Node.step at h
  rw [if_pos (show (Event.message m io).isCore = true from rfl)] at h
  split_ifs at h with hh
  exact ⟨hh, (Option.some.inj h).symm⟩

theorem step_timeout {io : Io C} (h : n.step env (.timeout io) = some n') :
    n.halted = none ∧ n' = n.call (localTimeoutRound env io n.core) := by
  unfold Node.step at h
  rw [if_pos (show (Event.timeout io : Event C).isCore = true from rfl)] at h
  split_ifs at h with hh
  exact ⟨hh, (Option.some.inj h).symm⟩

theorem step_loopback {io : Io C} (h : n.step env (.loopback io) = some n') :
    n.halted = none ∧ ∃ b bs, n.rxLoopback = b :: bs ∧
      n' = { n with rxLoopback := bs }.call (processBlock env io n.core b) := by
  unfold Node.step at h
  rw [if_pos (show (Event.loopback io : Event C).isCore = true from rfl)] at h
  split_ifs at h with hh
  unfold Node.coreStep at h
  rcases hl : n.rxLoopback with _ | ⟨b, bs⟩
  · simp [hl] at h
  · simp only [hl, Option.some.injEq] at h
    exact ⟨hh, b, bs, rfl, h.symm⟩

/-- **An event of the core is a sequence of elementary steps.** -/
theorem step_acts (hn : Ok env n) (hc : e.isCore = true) (h : n.step env e = some n') :
    Acts env (guard env n n' e) n.core n'.core := by
  cases e with
  | message m io =>
    obtain ⟨-, rfl⟩ := step_message h
    rw [call_core]
    refine handleMessage_acts io ?_ ?_ ?_ ?_ ?_ (fun _ hd => hd) ?_
    · rintro b rfl; exact ⟨io, rfl⟩
    · rintro v rfl; exact ⟨io, rfl⟩
    · rintro t rfl; exact ⟨io, rfl⟩
    · rintro tc rfl hr; exact ⟨⟨io, rfl⟩, hr⟩
    · exact fun b _ hb hp => ⟨hb.1, .inr hb.2, fun _ => hp⟩
    · intro p hp
      simp [guard, halted_of_panic n _ hp]
  | loopback io =>
    obtain ⟨hh, b, bs, hl, rfl⟩ := step_loopback h
    have hin : b ∈ n.rxLoopback := by simp [hl]
    have hb := hn.loopback hh b hin
    have hv := vetted_of_ready hn hb fun hn => hn.loopback hh b hin
    rw [call_core]
    refine processBlock_acts io ⟨hv, hb, accepted_of_ready hn hb⟩ (fun _ hd => hd) ?_
    intro p hp
    simp [guard, halted_of_panic _ _ hp]
  | timeout io =>
    obtain ⟨-, rfl⟩ := step_timeout h
    rw [call_core]
    exact localTimeoutRound_acts io ⟨io, rfl⟩
  | _ => simp [Event.isCore] at hc

/-- The new entries of an event of the core. -/
theorem fresh_of_step (hn : Ok env n) (hc : e.isCore = true) (h : n.step env e = some n') :
    n'.core.trace = n.core.trace ++ newEntries n n'.core ∧
      ∀ a ∈ newEntries n n'.core, Fresh (guard env n n' e) n'.core a := by
  obtain ⟨l, hl, hf⟩ := Acts.fresh (step_acts hn hc h)
  have : newEntries n n'.core = l := by
    unfold newEntries
    rw [hl, List.drop_left]
  rw [this]
  exact ⟨hl, hf⟩

/-- What an event of the core changes in the other tasks. -/
theorem step_core_tasks (hc : e.isCore = true) (h : n.step env e = some n') :
    n.halted = none ∧ n'.rxLoopback ⊆ n.rxLoopback ∧
      n'.payloadWaiter = { n.payloadWaiter.answer (lostKeys n n'.core) with
        rxMessage := n.payloadWaiter.rxMessage ++
          (newEntries n n'.core).filterMap toPayloadWaiter } ∧
      n'.synchronizer = { n.synchronizer.answer (lostKeys n n'.core) with
        rxInner := n.synchronizer.rxInner ++ (newEntries n n'.core).filterMap toSynchronizer } ∧
      n'.proposer = { n.proposer with
        rxMessage := n.proposer.rxMessage ++ (newEntries n n'.core).filterMap toProposer } := by
  cases e with
  | message m io =>
    obtain ⟨hh, rfl⟩ := step_message h
    simp [hh]
  | loopback io =>
    obtain ⟨hh, b, bs, hl, rfl⟩ := step_loopback h
    simp [hh, hl, newEntries, lostKeys]
  | timeout io =>
    obtain ⟨hh, rfl⟩ := step_timeout h
    simp [hh]
  | _ => simp [Event.isCore] at hc

/-- What waits after an event of the core. -/
theorem waits_core (hc : e.isCore = true) (h : n.step env e = some n') {missing : List C.Digest}
    {b : Block C} (hb : Waits n' missing b) : .wait missing b ∈ newEntries n n'.core ∨
      ∃ before, Waits n before b ∧ ∀ d ∈ before, d ∈ missing ∨
        (d ∈ lostKeys n n'.core ∧ ∃ f ∈ n.payloadWaiter.waiting, d ∈ f.missing) := by
  obtain ⟨-, -, hw, -, -⟩ := step_core_tasks hc h
  unfold Waits at hb
  rw [hw] at hb
  rcases hb with hb | ⟨f', hf', rfl, rfl⟩
  · rcases List.mem_append.mp hb with hb | hb
    · exact .inr ⟨missing, .inl hb, fun d hd => .inl hd⟩
    · obtain ⟨a, ha, hato⟩ := List.mem_filterMap.mp hb
      cases a <;> simp [toPayloadWaiter] at hato
      obtain ⟨rfl, rfl⟩ := hato
      exact .inl ha
  · obtain ⟨f, hf, hd, hm⟩ := PayloadWaiter.mem_answer hf'
    exact .inr ⟨f.missing, .inr ⟨f, hf, rfl, hd⟩,
      fun d hd => (hm d hd).imp_right fun hw => ⟨hw, f, hf, hd⟩⟩

/-- What the synchronizer has after an event of the core. -/
theorem syncs_core (hc : e.isCore = true) (h : n.step env e = some n') {b : Block C}
    (hb : Syncs n' b) : Syncs n b ∨ .suspend b ∈ newEntries n n'.core := by
  obtain ⟨-, -, -, hsync, -⟩ := step_core_tasks hc h
  unfold Syncs at hb
  rw [hsync] at hb
  rcases hb with hb | hb
  · rcases List.mem_append.mp hb with hb | hb
    · exact .inl (.inl hb)
    · obtain ⟨a, ha, hato⟩ := List.mem_filterMap.mp hb
      cases a <;> simp [toSynchronizer] at hato
      subst hato
      exact .inr ha
  · exact .inl (.inr hb)

/-- A key that was not written is one whose write failed. -/
theorem lost_of_step (hn : Ok env n) (hc : e.isCore = true) (h : n.step env e = some n')
    {d : C.Digest} (hd : d ∈ lostKeys n n'.core) : e.writeFails d = true := by
  obtain ⟨a, ha, hato⟩ := List.mem_filterMap.mp hd
  cases a <;> simp only [unwritten, reduceCtorEq, Option.ite_none_right_eq_some,
    Option.some.injEq] at hato
  obtain ⟨hno, rfl⟩ := hato
  rcases ((fresh_of_step hn hc h).2 _ ha).2 with hhas | hlost
  · rw [has_iff_lookup] at hhas
    rw [Option.isNone_iff_eq_none.mp hno] at hhas
    cases hhas
  · exact hlost

theorem core_step_ok (hn : Ok env n) (hc : e.isCore = true) (h : n.step env e = some n') :
    Ok env n' := by
  have hacts := step_acts hn hc h
  have hg := Acts.grows hacts
  obtain ⟨htr, hf⟩ := fresh_of_step hn hc h
  obtain ⟨hh, hloop, -, -, hp⟩ := step_core_tasks hc h
  have hcore := Acts.ok hacts hn.core
  have hin : ∀ a ∈ newEntries n n'.core, a ∈ n'.core.trace := fun a ha => by
    rw [htr]; exact List.mem_append_right _ ha
  have hpt : n.proposer.trace ⊆ n'.proposer.trace := by rw [hp]; exact List.Subset.refl _
  refine ⟨hcore, ?_, ?_, ?_, ?_, ?_⟩
  · intro round qc tc hm
    rw [hp] at hm
    rcases List.mem_append.mp hm with hm | hm
    · exact hg.trace (hn.make _ _ _ hm)
    · obtain ⟨a, ha, hato⟩ := List.mem_filterMap.mp hm
      cases a <;> simp [toProposer] at hato
      obtain ⟨rfl, rfl, rfl⟩ := hato
      exact hin _ ha
  · intro b hb
    unfold Created at hb
    rw [hp] at hb
    exact made_mono hg (hn.created b hb)
  · intro missing b hb
    rcases waits_core hc h hb with hb | ⟨before, hb, -⟩
    · exact (hcore.entry _ (hin _ hb)).1
    · exact hg.trace (hn.wait _ _ hb)
  · intro hh' b hb
    rcases syncs_core hc h hb with hb | hb
    · exact ready_mono hg hpt (hn.sync hh b hb)
    · rcases hf _ hb with hpan | hadm
      · exact absurd hh' hpan
      · exact hadm.2.1.imp_right fun h => hpt h
  · exact fun _ b hb => ready_mono hg hpt (hn.loopback hh b (hloop hb))

theorem core_step_backed (hn : Ok env n) (hb : Backed n) (hs : Harmless n e)
    (hc : e.isCore = true) (h : n.step env e = some n') : Backed n' := by
  have hacts := step_acts hn hc h
  have hg := Acts.grows hacts
  obtain ⟨htr, hf⟩ := fresh_of_step hn hc h
  obtain ⟨hh, hloop, -, -, hp⟩ := step_core_tasks hc h
  have hcore := Acts.ok hacts hn.core
  refine ⟨?_, ?_, ?_, ?_⟩
  · rw [hp]
    exact fun d hd => Store.Has.mono hg.store (hb.digests d hd)
  · intro missing b hw d hd
    rcases waits_core hc h hw with hw | ⟨before, hw, hm⟩
    · have hin : .wait missing b ∈ n'.core.trace := by
        rw [htr]; exact List.mem_append_right _ hw
      exact (hcore.entry _ hin).2 d hd
    rcases hb.wait _ _ hw d hd with hd | hd
    · refine (hm d hd).imp_right fun ⟨hlost, f, hf, hdf⟩ => ?_
      exact Store.Has.mono hg.store ((hs.block d (lost_of_step hn hc h hlost)).resolve_right
        fun hno => hno f hf hdf)
    · exact .inr (Store.Has.mono hg.store hd)
  · intro hh' b hw
    rcases syncs_core hc h hw with hw | hw
    · exact present_mono hg (hb.sync hh b hw)
    · rcases hf _ hw with hpan | hadm
      · exact absurd hh' hpan
      · exact present_mono hg (hadm.1.payload hb)
  · exact fun _ b hw => present_mono hg (hb.loopback hh b (hloop hw))

end Core

/-! ### Events of the other tasks -/

section Tasks

variable {env : Env C} {n n' : Node C T} {e : Event C}

/-- What an event of a task may do, if it is not a batch stored: digests, messages and blocks move
on, a block is made as a message says, and a block that may be processed is sent to the core. -/
structure Frame (env : Env C) (n n' : Node C T) (e : Event C) : Prop where
  core : n'.core = n.core
  halted : n'.halted = n.halted
  trace : n.proposer.trace ⊆ n'.proposer.trace
  digests : Harmless n e → ∀ d, d ∈ n'.proposer.rxMempool ∨ d ∈ n'.proposer.buffer →
    (d ∈ n.proposer.rxMempool ∨ d ∈ n.proposer.buffer) ∨ n.core.store.Has d
  make : n'.proposer.rxMessage ⊆ n.proposer.rxMessage
  created : ∀ b, Created n' b → Created n b ∨ Made env n b
  wait : ∀ missing b, Waits n' missing b → ∃ before, Waits n before b ∧
    (Harmless n e → ∀ d ∈ before, d ∈ missing ∨ n.core.store.Has d)
  sync : ∀ b, Syncs n' b → Syncs n b
  loopback : ∀ b ∈ n'.rxLoopback, b ∈ n.rxLoopback ∨
    (n.halted = none → Ready n' b ∧ (Backed n → Present n b))

theorem frame_ok (hn : Ok env n) (h : Frame env n n' e) : Ok env n' := by
  have hg : Grows n.core n'.core := by rw [h.core]; exact .refl _
  refine ⟨by rw [h.core]; exact hn.core, ?_, ?_, ?_, ?_, ?_⟩
  · intro round qc tc hm
    rw [h.core]
    exact hn.make round qc tc (h.make hm)
  · intro b hb
    rcases h.created b hb with hb | hb
    · exact made_mono hg (hn.created b hb)
    · exact made_mono hg hb
  · intro missing b hb
    obtain ⟨before, hb, -⟩ := h.wait missing b hb
    rw [h.core]
    exact hn.wait before b hb
  · intro hh b hb
    exact ready_mono hg h.trace (hn.sync (h.halted ▸ hh) b (h.sync b hb))
  · intro hh b hb
    rw [h.halted] at hh
    rcases h.loopback b hb with hb | hb
    · exact ready_mono hg h.trace (hn.loopback hh b hb)
    · exact (hb hh).1

theorem frame_backed (hb : Backed n) (hs : Harmless n e) (h : Frame env n n' e) : Backed n' := by
  have hg : Grows n.core n'.core := by rw [h.core]; exact .refl _
  refine ⟨?_, ?_, ?_, ?_⟩
  · intro d hd
    rw [h.core]
    exact (h.digests hs d hd).elim (hb.digests d) id
  · intro missing b hw d hd
    obtain ⟨before, hw, hm⟩ := h.wait missing b hw
    rw [h.core]
    exact (hb.wait before b hw d hd).elim (hm hs d) .inr
  · intro hh b hw
    exact present_mono hg (hb.sync (h.halted ▸ hh) b (h.sync b hw))
  · intro hh b hw
    rw [h.halted] at hh
    rcases h.loopback b hw with hw | hw
    · exact present_mono hg (hb.loopback hh b hw)
    · exact present_mono hg ((hw hh).2 hb)

/-- What waits is what waited before. -/
theorem wait_of_waits (h : ∀ missing b, Waits n' missing b → Waits n missing b)
    (missing : List C.Digest) (b : Block C) (hb : Waits n' missing b) : ∃ before,
      Waits n before b ∧ (Harmless n e → ∀ d ∈ before, d ∈ missing ∨ n.core.store.Has d) :=
  ⟨missing, h missing b hb, fun _ _ => .inl⟩

theorem payloadMessage_frame {w : PayloadWaiter C} (h : n.payloadWaiter.receive = some w) :
    Frame env n { n with payloadWaiter := w } e := by
  obtain ⟨m, ms, hrx, rfl⟩ := PayloadWaiter.receive_eq h
  refine ⟨rfl, rfl, List.Subset.refl _, fun _ _ => .inl, List.Subset.refl _, fun _ => .inl,
    wait_of_waits fun missing b hb => ?_, fun _ => id, fun _ => .inl⟩
  unfold Waits at hb ⊢
  rw [hrx]
  cases m with
  | wait missing' b' =>
    unfold PayloadWaiter.handle at hb
    dsimp only at hb
    split_ifs at hb
    · exact hb.imp_left (List.mem_cons_of_mem _)
    · rcases hb with hb | ⟨f, hf, hm, hd⟩
      · exact .inl (List.mem_cons_of_mem _ hb)
      · rcases List.mem_append.mp hf with hf | hf
        · exact .inr ⟨f, hf, hm, hd⟩
        · rw [List.mem_singleton.mp hf] at hm hd
          exact .inl (by rw [← hm, ← hd]; exact List.mem_cons_self)
  | cleanup round => exact hb.imp_left (List.mem_cons_of_mem _)

/-- A future of the payload waiter is dropped. -/
theorem payloadErase_wait {w : PayloadWaiter C} {i : ℕ}
    (hrx : w.rxMessage = n.payloadWaiter.rxMessage)
    (hw : w.waiting = n.payloadWaiter.waiting.eraseIdx i) (missing : List C.Digest) (b : Block C)
    (hb : .wait missing b ∈ w.rxMessage ∨ ∃ f ∈ w.waiting, f.missing = missing ∧ f.deliver = b) :
    Waits n missing b := by
  rw [hrx, hw] at hb
  exact hb.imp_right fun ⟨f, hf, h⟩ => ⟨f, List.eraseIdx_subset hf, h⟩

theorem payloadReady_frame (hn : Ok env n) {i : ℕ} {r : PayloadWaiter C × Block C}
    (h : n.payloadWaiter.ready n.core.store i = some r) :
    Frame env n ({ n with payloadWaiter := r.1 }.loop r.2) e := by
  obtain ⟨f, hf, hall, rfl⟩ := PayloadWaiter.ready_eq h
  refine ⟨rfl, rfl, List.Subset.refl _, fun _ _ => .inl, List.Subset.refl _, fun _ => .inl,
    wait_of_waits (payloadErase_wait rfl rfl), fun _ => id, fun b hb => ?_⟩
  rcases List.mem_append.mp hb with hb | hb
  · exact .inl hb
  -- what the future waits for is in the store
  rw [List.mem_singleton.mp hb]
  have hw : Waits n f.missing f.deliver := .inr ⟨f, List.mem_of_getElem? hf, rfl, rfl⟩
  refine .inr fun _ => ⟨.inl (hn.wait _ _ hw), fun hback d hd => ?_⟩
  rcases hback.wait _ _ hw d hd with hd | hd
  · exact has_iff_lookup.mpr (hall d hd)
  · exact hd

theorem payloadCancelled_frame {i : ℕ} {w : PayloadWaiter C}
    (h : n.payloadWaiter.cancelled i = some w) : Frame env n { n with payloadWaiter := w } e := by
  obtain ⟨f, -, -, rfl⟩ := PayloadWaiter.cancelled_eq h
  exact ⟨rfl, rfl, List.Subset.refl _, fun _ _ => .inl, List.Subset.refl _, fun _ => .inl,
    wait_of_waits (payloadErase_wait rfl rfl), fun _ => id, fun _ => .inl⟩

theorem payloadFailed_frame {i : ℕ} {w : PayloadWaiter C}
    (h : n.payloadWaiter.failed i = some w) : Frame env n { n with payloadWaiter := w } e := by
  obtain ⟨f, -, rfl⟩ := PayloadWaiter.failed_eq h
  exact ⟨rfl, rfl, List.Subset.refl _, fun _ _ => .inl, List.Subset.refl _, fun _ => .inl,
    wait_of_waits (payloadErase_wait rfl rfl), fun _ => id, fun _ => .inl⟩

theorem syncBlock_frame {now : Instant} {w : Synchronizer C}
    (h : n.synchronizer.receive now = some w) : Frame env n { n with synchronizer := w } e := by
  obtain ⟨b, bs, hrx, rfl⟩ := Synchronizer.receive_eq h
  refine ⟨rfl, rfl, List.Subset.refl _, fun _ _ => .inl, List.Subset.refl _, fun _ => .inl,
    wait_of_waits fun _ _ => id, fun b' hb' => ?_, fun _ => .inl⟩
  have hcases : b' = b ∨ b' ∈ bs ∨ b' ∈ n.synchronizer.waiting := by
    unfold Syncs Synchronizer.handle at hb'
    dsimp only at hb'
    split_ifs at hb' <;> simp at hb' <;> tauto
  unfold Syncs
  rw [hrx]
  rcases hcases with rfl | h | h
  · simp
  · exact .inl (List.mem_cons_of_mem _ h)
  · exact .inr h

theorem syncReady_frame (hn : Ok env n) {i : ℕ} {r : Synchronizer C × Block C}
    (h : n.synchronizer.ready n.core.store i = some r) :
    Frame env n ({ n with synchronizer := r.1 }.loop r.2) e := by
  obtain ⟨b, hf, -, rfl⟩ := Synchronizer.ready_eq h
  have hs : Syncs n b := .inr (List.mem_of_getElem? hf)
  refine ⟨rfl, rfl, List.Subset.refl _, fun _ _ => .inl, List.Subset.refl _, fun _ => .inl,
    wait_of_waits fun _ _ => id, fun b' hb' => ?_, fun b' hb' => ?_⟩
  · exact Or.imp_right (fun hb' => List.eraseIdx_subset hb') hb'
  rcases List.mem_append.mp hb' with hb' | hb'
  · exact .inl hb'
  · rw [List.mem_singleton.mp hb']
    exact .inr fun hh => ⟨hn.sync hh b hs, fun hback => hback.sync hh b hs⟩

theorem syncFailed_frame {i : ℕ} {w : Synchronizer C} (h : n.synchronizer.failed i = some w) :
    Frame env n { n with synchronizer := w } e := by
  obtain ⟨b, -, rfl⟩ := Synchronizer.failed_eq h
  exact ⟨rfl, rfl, List.Subset.refl _, fun _ _ => .inl, List.Subset.refl _, fun _ => .inl,
    wait_of_waits fun _ _ => id,
    fun b hb => Or.imp_right (fun hb => List.eraseIdx_subset hb) hb, fun _ => .inl⟩

theorem digest_frame {p : Proposer C} (h : n.proposer.receiveDigest = some p) :
    Frame env n { n with proposer := p } e := by
  unfold Proposer.receiveDigest at h
  split at h
  swap
  · simp at h
  rename_i hw hrx
  cases h
  refine ⟨rfl, rfl, List.subset_append_left _ _, fun _ d hd => .inl ?_, List.Subset.refl _,
    fun b hb => .inl (by simpa [Created] using hb), wait_of_waits fun _ _ => id, fun _ => id,
    fun _ => .inl⟩
  rw [hrx]
  rcases hd with hd | hd
  · exact .inl (List.mem_cons_of_mem _ hd)
  · rcases List.mem_insert_iff.mp hd with rfl | hd
    · exact .inl List.mem_cons_self
    · exact .inr hd

theorem proposerMessage_frame (hn : Ok env n) {payload : List C.Digest}
    {r : Proposer C × Option (Block C)} (h : n.proposer.receiveMessage env payload = some r) :
    Frame env n (n.proposed r.1 r.2) e := by
  unfold Proposer.receiveMessage at h
  split at h
  · rename_i round qc tc ms hw hrx
    split_ifs at h with hperm
    cases h
    have hmade : Made env n (Block.new qc tc env.name round payload) :=
      ⟨round, qc, tc, payload, hn.make _ _ _ (by simp [hrx]), rfl⟩
    refine ⟨rfl, rfl, List.subset_append_left _ _,
      fun _ d hd => .inl (hd.imp_right fun h => absurd h List.not_mem_nil),
      fun m hm => hrx ▸ List.mem_cons_of_mem _ hm, fun b hb => ?_, wait_of_waits fun _ _ => id,
      fun _ => id, fun b hb => ?_⟩
    · rcases List.mem_append.mp hb with hb | hb
      · exact .inl hb
      · cases List.mem_singleton.mp hb
        exact .inr hmade
    · rcases List.mem_append.mp hb with hb | hb
      · exact .inl hb
      · rw [List.mem_singleton.mp hb]
        exact .inr fun _ => ⟨.inr (List.mem_append_right _ (by simp)),
          fun hback d hd => hback.digests d (.inr (hperm.mem_iff.mp hd))⟩
  · rename_i digests ms hw hrx
    cases h
    exact ⟨rfl, rfl, List.subset_append_left _ _,
      fun _ d hd => .inl (hd.imp_right fun h => (List.mem_filter.mp h).1),
      fun m hm => hrx ▸ List.mem_cons_of_mem _ hm,
      fun b hb => .inl (by simpa [Created, Node.proposed] using hb), wait_of_waits fun _ _ => id,
      fun _ => id, fun _ => .inl⟩
  · simp at h

theorem ack_frame {i : ℕ} {p : Proposer C}
    (h : n.proposer.acknowledge env.committee i = some p) :
    Frame env n { n with proposer := p } e := by
  unfold Proposer.acknowledge at h
  split at h
  · simp at h
  · split at h
    · simp at h
    · cases h
      exact ⟨rfl, rfl, List.Subset.refl _, fun _ _ => .inl, List.Subset.refl _, fun _ => .inl,
        wait_of_waits fun _ _ => id, fun _ => id, fun _ => .inl⟩

theorem batchLost_frame (x : C.Batch) :
    Frame env n ({ n with
      proposer := { n.proposer with
        rxMempool := n.proposer.rxMempool ++ [C.batchDigest x] } }.answer [C.batchDigest x])
      (.batchLost x) := by
  refine ⟨rfl, rfl, List.Subset.refl _, fun hs d hd => ?_, List.Subset.refl _, fun _ => .inl,
    fun missing b hb => ?_, fun _ => id, fun _ => .inl⟩
  · rcases hd with hd | hd
    · rcases List.mem_append.mp hd with hd | hd
      · exact .inl (.inl hd)
      · rw [List.mem_singleton.mp hd]
        exact .inr (hs.batch x rfl)
    · exact .inl (.inr hd)
  · rcases hb with hb | ⟨f', hf', rfl, rfl⟩
    · exact ⟨missing, .inl hb, fun _ _ => .inl⟩
    · obtain ⟨f, hf, hd, hm⟩ := PayloadWaiter.mem_answer hf'
      refine ⟨f.missing, .inr ⟨f, hf, rfl, hd⟩, fun hs d hdf => (hm d hdf).imp_right fun hw => ?_⟩
      rw [List.mem_singleton.mp hw]
      exact hs.batch x rfl

/-- The state after a batch has been stored. -/
abbrev stored (n : Node C T) (x : C.Batch) : Node C T :=
  { n with
    core := { n.core with store := (C.batchDigest x, .batch x) :: n.core.store }
    proposer := { n.proposer with rxMempool := n.proposer.rxMempool ++ [C.batchDigest x] } }

theorem grows_stored (n : Node C T) (x : C.Batch) : Grows n.core (stored n x).core :=
  ⟨List.Subset.refl _, List.subset_cons_self _ _, UInt64.le_refl _, UInt64.le_refl _⟩

theorem batch_ok (hn : Ok env n) (x : C.Batch) : Ok env (stored n x) := by
  have hg := grows_stored n x
  exact ⟨⟨fun a ha => (hn.core.entry a ha).mono hg, hn.core.highQc⟩, hn.make,
    fun b hb => made_mono hg (hn.created b hb), hn.wait, hn.sync, hn.loopback⟩

theorem batch_backed (hb : Backed n) (x : C.Batch) : Backed (stored n x) := by
  have hg := grows_stored n x
  refine ⟨fun d hd => ?_, fun missing b hw d hd => ?_,
    fun hh b hw => present_mono hg (hb.sync hh b hw),
    fun hh b hw => present_mono hg (hb.loopback hh b hw)⟩
  · have hcases : d = C.batchDigest x ∨ d ∈ n.proposer.rxMempool ∨ d ∈ n.proposer.buffer := by
      rcases hd with hd | hd
      · rcases List.mem_append.mp hd with hd | hd
        · exact .inr (.inl hd)
        · exact .inl (List.mem_singleton.mp hd)
      · exact .inr (.inr hd)
    rcases hcases with rfl | hd
    · exact ⟨.batch x, List.mem_cons_self⟩
    · exact Store.Has.mono hg.store (hb.digests d hd)
  · exact (hb.wait missing b hw d hd).imp_right (Store.Has.mono hg.store)

end Tasks

/-! ### Runs -/

section Runs

variable [RoundTimer T] {env : Env C} {n n' : Node C T} {e : Event C}

/-- An event of another task changes the core only by a batch added to the store. -/
theorem task_step_cases (hn : Ok env n) (hc : e.isCore = false) (h : n.step env e = some n') :
    Frame env n n' e ∨ ∃ x, e = .batch x ∧ n' = stored n x := by
  unfold Node.step at h
  rw [hc] at h
  cases e with
  | message | loopback | timeout => simp [Event.isCore] at hc
  | payloadMessage =>
    obtain ⟨w, hw, rfl⟩ := Option.map_eq_some_iff.mp h
    exact .inl (payloadMessage_frame hw)
  | payloadReady i =>
    obtain ⟨r, hr, rfl⟩ := Option.map_eq_some_iff.mp h
    exact .inl (payloadReady_frame hn hr)
  | payloadCancelled i =>
    obtain ⟨w, hw, rfl⟩ := Option.map_eq_some_iff.mp h
    exact .inl (payloadCancelled_frame hw)
  | payloadFailed i =>
    obtain ⟨w, hw, rfl⟩ := Option.map_eq_some_iff.mp h
    exact .inl (payloadFailed_frame hw)
  | syncBlock now =>
    obtain ⟨w, hw, rfl⟩ := Option.map_eq_some_iff.mp h
    exact .inl (syncBlock_frame hw)
  | syncReady i =>
    obtain ⟨r, hr, rfl⟩ := Option.map_eq_some_iff.mp h
    exact .inl (syncReady_frame hn hr)
  | syncFailed i =>
    obtain ⟨w, hw, rfl⟩ := Option.map_eq_some_iff.mp h
    exact .inl (syncFailed_frame hw)
  | syncTimer delay now =>
    cases Option.some.inj h
    exact .inl ⟨rfl, rfl, List.Subset.refl _, fun _ _ => .inl, List.Subset.refl _, fun _ => .inl,
      wait_of_waits fun _ _ => id, fun _ => id, fun _ => .inl⟩
  | digest =>
    obtain ⟨p, hp, rfl⟩ := Option.map_eq_some_iff.mp h
    exact .inl (digest_frame hp)
  | proposerMessage payload =>
    obtain ⟨r, hr, rfl⟩ := Option.map_eq_some_iff.mp h
    exact .inl (proposerMessage_frame hn hr)
  | ack i =>
    obtain ⟨p, hp, rfl⟩ := Option.map_eq_some_iff.mp h
    exact .inl (ack_frame hp)
  | batch x =>
    cases Option.some.inj h
    exact .inr ⟨x, rfl, rfl⟩
  | batchLost x =>
    cases Option.some.inj h
    exact .inl (batchLost_frame x)

/-- **An event, seen from the core**: nothing, a batch added to the store, or elementary steps. -/
theorem step_core_cases (hn : Ok env n) (h : n.step env e = some n') : n'.core = n.core ∨
    (∃ x, n'.core = { n.core with store := (C.batchDigest x, .batch x) :: n.core.store }) ∨
      Acts env (guard env n n' e) n.core n'.core := by
  rcases hc : e.isCore with _ | _
  · rcases task_step_cases hn hc h with hf | ⟨x, -, rfl⟩
    · exact .inl hf.core
    · exact .inr (.inl ⟨x, rfl⟩)
  · exact .inr (.inr (step_acts hn hc h))

theorem step_grows (hn : Ok env n) (h : n.step env e = some n') : Grows n.core n'.core := by
  rcases step_core_cases hn h with hc | ⟨x, hc⟩ | hacts
  · rw [hc]; exact .refl _
  · rw [hc]; exact grows_stored n x
  · exact Acts.grows hacts

theorem step_ok (hn : Ok env n) (h : n.step env e = some n') : Ok env n' := by
  rcases hc : e.isCore with _ | _
  · rcases task_step_cases hn hc h with hf | ⟨x, -, rfl⟩
    · exact frame_ok hn hf
    · exact batch_ok hn x
  · exact core_step_ok hn hc h

theorem step_backed (hn : Ok env n) (hb : Backed n) (hs : Harmless n e)
    (h : n.step env e = some n') : Backed n' := by
  rcases hc : e.isCore with _ | _
  · rcases task_step_cases hn hc h with hf | ⟨x, -, rfl⟩
    · exact frame_backed hb hs hf
    · exact batch_backed hb x
  · exact core_step_backed hn hb hs hc h

variable (env) in
/-- The trace of the core when the main loop starts. -/
theorem boot_trace (io : Io C) (timer : T) : (Core.boot env io timer).trace =
    if getLeader env.committee 1 = some env.name then [.make 1 QC.genesis none] else [] := by
  unfold Core.boot
  dsimp only
  split_ifs with h1 h2 h2
  · rfl
  · exact absurd h1 h2
  · exact absurd h2 h1
  · rfl

variable (env) in
theorem boot_fields (io : Io C) (timer : T) : (Core.boot env io timer).highQc = QC.genesis ∧
    (Core.boot env io timer).round = 1 ∧ (Core.boot env io timer).lastVotedRound = 0 ∧
    (Core.boot env io timer).lastCommittedRound = 0 ∧ (Core.boot env io timer).store = [] ∧
    (Core.boot env io timer).aggregator = Aggregation.Aggregator.new := by
  unfold Core.boot
  dsimp only
  split_ifs <;> exact ⟨rfl, rfl, rfl, rfl, rfl, rfl⟩

/-- The messages on the way when the main loop starts are those that ask for the first block. -/
theorem boot_entries (io : Io C) (timer : T) : ∀ a ∈ (Core.boot env io timer).trace,
    a = .make 1 QC.genesis none ∧ getLeader env.committee 1 = some env.name := by
  intro a ha
  rw [boot_trace] at ha
  split_ifs at ha with hl
  · exact ⟨List.mem_singleton.mp ha, hl⟩
  · simp at ha

theorem boot_waits (io : Io C) (timer : T) (missing : List C.Digest) (b : Block C) :
    ¬ Waits (Node.boot env io timer) missing b := by
  rintro (hb | ⟨f, hf, -⟩)
  · obtain ⟨a, ha, hato⟩ := List.mem_filterMap.mp hb
    obtain ⟨rfl, -⟩ := boot_entries io timer a ha
    simp [toPayloadWaiter] at hato
  · simp at hf

theorem boot_syncs (io : Io C) (timer : T) (b : Block C) : ¬ Syncs (Node.boot env io timer) b := by
  rintro (hb | hb)
  · obtain ⟨a, ha, hato⟩ := List.mem_filterMap.mp hb
    obtain ⟨rfl, -⟩ := boot_entries io timer a ha
    simp [toSynchronizer] at hato
  · simp at hb

theorem boot_ok (io : Io C) (timer : T) : Ok env (Node.boot env io timer) := by
  have hcore : (Node.boot env io timer).core = Core.boot env io timer := rfl
  have hq : Accepted (Core.boot env io timer) QC.genesis := .inl rfl
  refine ⟨⟨fun a ha => ?_, by rw [hcore, (boot_fields env io timer).1]; exact hq⟩, ?_, ?_,
    fun missing b hb => absurd hb (boot_waits io timer missing b),
    fun _ b hb => absurd hb (boot_syncs io timer b), fun _ b hb => ?_⟩
  · obtain ⟨rfl, hl⟩ := boot_entries io timer a ha
    exact ⟨hq, hl⟩
  · intro round qc tc hm
    obtain ⟨a, ha, hato⟩ := List.mem_filterMap.mp hm
    obtain ⟨rfl, -⟩ := boot_entries io timer a ha
    simp only [toProposer, Option.some.injEq, ProposerMessage.make.injEq] at hato
    obtain ⟨rfl, rfl, rfl⟩ := hato
    exact ha
  · intro b hb
    simp [Created] at hb
  · simp at hb

theorem boot_backed (io : Io C) (timer : T) : Backed (Node.boot env io timer) := by
  refine ⟨fun d hd => ?_, fun missing b hb => absurd hb (boot_waits io timer missing b),
    fun _ b hb => absurd hb (boot_syncs io timer b), fun _ b hb => ?_⟩
  · simp at hd
  · simp at hb

/-- **The invariant holds in every reachable state.** -/
theorem run_ok {io : Io C} {timer : T} {es : List (Event C)}
    (r : NodeRun env (Node.boot env io timer) es n) : Ok env n :=
  r.invariant (boot_ok io timer) fun _ _ _ hn h => step_ok hn h

/-- **What the tasks hold is backed by the store**, as long as no write fails that matters. -/
theorem run_backed {io : Io C} {timer : T} {es : List (Event C)}
    (r : NodeRun env (Node.boot env io timer) es n)
    (hs : Every (fun n e n' => n.step env e = some n') (Node.boot env io timer) Harmless es) :
    Backed n :=
  (r.invariant_every (P := fun m => Ok env m ∧ Backed m) hs ⟨boot_ok io timer, boot_backed io timer⟩
    fun _ _ _ hm he h => ⟨step_ok hm.1 h, step_backed hm.1 hm.2 he h⟩).2

section Invariants

variable {P : Node C T → Prop} {es : List (Event C)} (hn : Ok env n) (r : NodeRun env n es n')
include hn r

/-- **A further invariant**, for which every step may assume this one. -/
theorem run_invariant (h0 : P n)
    (hs : ∀ m e m', Ok env m → P m → m.step env e = some m' → P m') : P n' :=
  (r.invariant (P := fun m => Ok env m ∧ P m) ⟨hn, h0⟩
    fun _ _ _ hm h => ⟨step_ok hm.1 h, hs _ _ _ hm.1 hm.2 h⟩).2

/-- The same for an invariant that holds as long as the core is not one of those that `Q` excludes,
and which stay excluded. -/
theorem run_invariant_of {Q : Core C T → Prop} (hQ : ∀ {s s'}, Grows s s' → Q s' → Q s) (h0 : P n)
    (hs : ∀ m e m', Ok env m → P m → Q m'.core → m.step env e = some m' → P m') (hq : Q n'.core) :
    P n' :=
  r.invariant_of (I := Ok env) (Q := fun m => Q m.core) hn (fun _ _ _ hm h => step_ok hm h)
    (fun _ _ _ hm h => hQ (step_grows hm h)) h0 hs hq

theorem run_grows : Ok env n' ∧ Grows n.core n'.core :=
  run_invariant hn r (P := fun m => Ok env m ∧ Grows n.core m.core) ⟨hn, .refl _⟩
    fun _ _ _ hm h h' => ⟨step_ok hm h', h.2.trans (step_grows hm h')⟩

end Invariants

end Runs

end Hotstuff.Consensus.Queues
