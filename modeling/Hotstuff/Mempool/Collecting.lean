import Hotstuff.Mempool.Synchronizer
import Hotstuff.Consensus.Reordering
import Hotstuff.Consensus.Walking

/-! # The age of requests

An authority: its node with the mempool synchronizer, to which the core of the node sends the
digests that are missing and the rounds to clean up. `process_block` sends a clean-up for every
block whose ancestors `b0` and `b1` are of consecutive rounds, before `commit` looks whether `b0` is
above the last committed round.

As long as no block is processed whose `b0` is below that round, and the commits go through, the
clock of the synchronizer follows the last committed round (`collects_in_time`). A block that is
processed once more sets it back, and what is registered then is dropped too early
(`exists_early`). -/

namespace Hotstuff.Mempool.Collecting

open Hotstuff.Primitives Hotstuff.Consensus.Config Hotstuff.Consensus.Messages
open Hotstuff.Consensus.Pacing Hotstuff.Consensus.Handlers Hotstuff.Consensus.Steps
open Hotstuff.Consensus.Entries Hotstuff.Consensus.Queues Hotstuff.Consensus.Wiring
open Hotstuff.Consensus.Walking Hotstuff.Lib.Transition Hotstuff.Ideal
open Hotstuff.Consensus.Reordering (certify propose)
open Hotstuff.Lib.Lists (mem_of_lookup)

variable {C : Crypto} {T : Type}

/-! ### An authority -/

/-- What the core sends to the mempool. -/
def toMempool : Action C → Option (ConsensusMempoolMessage C)
  | .synchronize missing target => some (.synchronize missing target)
  | .gc round => some (.cleanup round)
  | _ => none

structure Authority (C : Crypto) (T : Type) where
  node : Node C T
  synchronizer : Synchronizer C
  /-- For each message in the channel, the last committed round of the core that has sent it. -/
  sent : List Round
  /-- The same for the message that registered the request of a cancel channel. -/
  asked : ℕ → Round
  /-- The cancel channels of the futures whose key was to be written, but was not. -/
  answered : List ℕ

inductive Event (C : Crypto) where
  | node (e : Consensus.Wiring.Event C)
  /-- The synchronizer takes a message; a future of it completes, is cancelled or fails; its timer
  expires. -/
  | syncMessage (now : Instant)
  | syncReady (i : ℕ)
  | syncCancelled (i : ℕ)
  | syncFailed (i : ℕ)
  | syncTimer (now : Instant)

namespace Authority

/-- The keys that are not written though an event of the node means to. -/
def lost (s : Authority C T) (e : Consensus.Wiring.Event C) (n : Node C T) : List C.Digest :=
  match e with
  | .batchLost x => [C.batchDigest x]
  | _ => lostKeys s.node n.core

/-- After an event of the node its messages are in the channel. The store answers the futures that
wait for a key whether or not its write succeeds. -/
def forward (s : Authority C T) (e : Consensus.Wiring.Event C) (n : Node C T) : Authority C T :=
  let messages := (newEntries s.node n.core).filterMap toMempool
  { s with
    node := n
    synchronizer := { s.synchronizer with rxMessage := s.synchronizer.rxMessage ++ messages }
    sent := s.sent ++ List.replicate messages.length n.core.lastCommittedRound
    answered := s.answered ++
      (s.synchronizer.waiting.filter (·.1 ∈ s.lost e n)).map Prod.snd }

/-- A future that has been answered completes as if the batch was in the store. -/
def deliver (s : Authority C T) (i : ℕ) : Option (Synchronizer C) :=
  match s.synchronizer.waiting[i]? with
  | none => none
  | some (digest, handler) =>
    if handler ∈ s.answered then
      some { s.synchronizer with
        waiting := s.synchronizer.waiting.eraseIdx i
        pending := s.synchronizer.pending.filter (·.digest ≠ digest) }
    else s.synchronizer.ready s.node.core.store i

/-- After a message the new requests are those with the cancel channels from `nextHandler` on. -/
def taken (s : Authority C T) (w : Synchronizer C) : Authority C T :=
  { s with
    synchronizer := w
    sent := s.sent.tail
    asked := fun i => if i < s.synchronizer.nextHandler then s.asked i else s.sent.headD 0 }

variable [RoundTimer T] (env : Env C) (cfg : Config C)

/-- Nothing is sent to the mempool before the main loop. -/
def boot (io : Io C) (timer : T) : Authority C T :=
  ⟨Node.boot env io timer, .new, [], fun _ => 0, []⟩

def step (s : Authority C T) : Event C → Option (Authority C T)
  | .node e => (s.node.step env e).map (s.forward e)
  | .syncMessage now => (s.synchronizer.receive cfg now).map s.taken
  | .syncReady i => (s.deliver i).map fun w => { s with synchronizer := w }
  | .syncCancelled i => (s.synchronizer.cancelled i).map fun w => { s with synchronizer := w }
  | .syncFailed i => (s.synchronizer.failed i).map fun w => { s with synchronizer := w }
  | .syncTimer now => some { s with synchronizer := s.synchronizer.retry cfg now }

/-- The step relation of `AuthorityRun`. -/
abbrev Steps (s : Authority C T) (e : Event C) (s' : Authority C T) : Prop :=
  s.step env cfg e = some s'

end Authority

abbrev AuthorityRun [RoundTimer T] (env : Env C) (cfg : Config C) (s₀ : Authority C T) :
    List (Event C) → Authority C T → Prop :=
  Run (Authority.Steps env cfg) s₀

def cleanupRound : ConsensusMempoolMessage C → Option Round
  | .synchronize _ _ => none
  | .cleanup round => some round

/-- The rounds of the clean-ups sent to the mempool, oldest first. -/
def cleanups (s : Core C T) : List Round := (s.trace.filterMap toMempool).filterMap cleanupRound

/-! ### The condition -/

/-- `get_parent_block` reads the parent, without an error. -/
def Reads (env : Env C) (io : Io C) (st : Store C) (b p : Block C) : Prop :=
  Parent env st b p ∧ (b.qc.IsGenesis ∨ io.readFails b.parent = false)

/-- `commit` reads the ancestors of the block, without an error. -/
def Found (env : Env C) (io : Io C) (st : Store C) (last : Round) (b : Block C) : Prop :=
  ∃ l, Ancestors env st last b l ∧
    ∀ a ∈ (b :: l).dropLast, a.qc.IsGenesis ∨ io.readFails a.parent = false

/-- The block that `process_block` is called for: a proposal that passes the checks and whose
payload is in the store, or the next block of the loopback channel. -/
inductive Processes (env : Env C) (n : Node C T) :
    Consensus.Wiring.Event C → Io C → Block C → Prop
  | proposal {io : Io C} {b : Block C} (hc : Checked env b)
      (hp : missingPayload io n.core.store b.payload = .ok []) :
      Processes env n (.message (.propose b) io) io b
  | loopback {io : Io C} {b : Block C} {bs : List (Block C)} (h : n.rxLoopback = b :: bs) :
      Processes env n (.loopback io) io b

/-- The store after `process_block` has written a block. -/
def written (io : Io C) (st : Store C) (b : Block C) : Store C :=
  if io.writeFails b.digest then st else (b.digest, .block b) :: st

/-- The clean-up for the ancestor `b0` of a block `b` is not below the last committed round, and if
it is above then `b0` is committed. -/
def Advances (env : Env C) (io : Io C) (st : Store C) (last : Round) (b : Block C) : Prop :=
  ∀ b1 b0, Reads env io st b b1 → Reads env io st b1 b0 → b0.round + 1 = b1.round →
    last ≤ b0.round ∧ (last < b0.round → Found env io (written io st b) last b0)

/-- **The condition.** What the core processes does not call for a clean-up below the last committed
round. -/
def InOrder (env : Env C) (s : Authority C T) : Event C → Prop
  | .node e => ∀ io b, Processes env s.node e io b →
      Advances env io s.node.core.store s.node.core.lastCommittedRound b
  | _ => True

/-- The clock of the synchronizer does not go back. A clean-up only drops a request if, since the
core asked for the digest, the last committed round has advanced by `gc_depth`. The core asked when
it was in the present round, if no clean-up has been sent since. -/
structure Timely (cfg : Config C) (s : Authority C T) (e : Event C) (s' : Authority C T) :
    Prop where
  clock : s.synchronizer.round ≤ s'.synchronizer.round
  age : ∀ now r ms, e = .syncMessage now → s.synchronizer.rxMessage = .cleanup r :: ms →
    ∀ p ∈ s.synchronizer.pending, p ∉ s'.synchronizer.pending →
      (s.asked p.handler).toNat + cfg.gcDepth.toNat ≤ s.node.core.lastCommittedRound.toNat
  prompt : ∀ now, e = .syncMessage now → (∀ r, .cleanup r ∉ s.synchronizer.rxMessage) →
    s.sent.head? = some s.node.core.lastCommittedRound

/-! ### What the core sends -/

/-- From `s` to `s'` the core sends the messages `ms` to the mempool. -/
def Told (s s' : Core C T) (ms : List (ConsensusMempoolMessage C)) : Prop :=
  ∃ l, s'.trace = s.trace ++ l ∧ l.filterMap toMempool = ms

/-- Nothing is sent to the mempool, stored or committed. -/
structure Quiet (s s' : Core C T) : Prop where
  told : Told s s' []
  last : s'.lastCommittedRound = s.lastCommittedRound
  store : s'.store = s.store

section Quiet

variable {s s' s'' : Core C T} {ms ms' : List (ConsensusMempoolMessage C)}

theorem Told.trans (h : Told s s' ms) (h' : Told s' s'' ms') : Told s s'' (ms ++ ms') := by
  obtain ⟨l, hl, rfl⟩ := h
  obtain ⟨l', hl', rfl⟩ := h'
  exact ⟨l ++ l', by rw [hl', hl, List.append_assoc], List.filterMap_append⟩

theorem told_emit (s : Core C T) {a : Action C} (ha : toMempool a = none) :
    Told s (s.emit a) [] :=
  ⟨[a], rfl, List.filterMap_cons_none ha⟩

theorem quiet_of_eq (ht : s'.trace = s.trace) (hl : s'.lastCommittedRound = s.lastCommittedRound)
    (hs : s'.store = s.store) : Quiet s s' :=
  ⟨⟨[], by rw [ht, List.append_nil], rfl⟩, hl, hs⟩

theorem Quiet.refl (s : Core C T) : Quiet s s := quiet_of_eq rfl rfl rfl

theorem Quiet.trans (h : Quiet s s') (h' : Quiet s' s'') : Quiet s s'' :=
  ⟨h.told.trans h'.told, h'.last.trans h.last, h'.store.trans h.store⟩

theorem quiet_emit (s : Core C T) {a : Action C} (ha : toMempool a = none) : Quiet s (s.emit a) :=
  ⟨told_emit s ha, rfl, rfl⟩

theorem quiet_aggregator (s : Core C T) (a : Consensus.Aggregation.Aggregator C) :
    Quiet s { s with aggregator := a } :=
  quiet_of_eq rfl rfl rfl

variable [RoundTimer T] (s) (env : Env C) (io : Io C)

theorem quiet_advanceRound (r : Round) : Quiet s (advanceRound io s r) := by
  refine ⟨⟨_, advanceRound_trace s io r, ?_⟩, by simp, by simp⟩
  split_ifs <;> rfl

theorem quiet_processQc (qc : QC C) : Quiet s (processQc io s qc) := by
  refine ⟨⟨_, processQc_trace s io qc, ?_⟩, by simp, by simp⟩
  unfold qcTrace
  split_ifs <;> rfl

omit [RoundTimer T] in
theorem quiet_propose (tc : Option (TC C)) :
    Quiet s (if s.IsLeader env then generateProposal s tc else s) := by
  split_ifs
  · exact quiet_emit s rfl
  · exact .refl s

theorem quiet_handleVote (v : Vote C) : Quiet s (handleVote env io s v).1 := by
  rcases handleVote_cases env s io v with h | ⟨-, -, a, ⟨r, -, h⟩ | ⟨qc, -, h⟩⟩ <;> rw [h]
  · exact .refl s
  · exact quiet_aggregator s a
  · exact ((quiet_aggregator s a).trans (quiet_processQc _ io qc)).trans (quiet_propose _ env none)

theorem quiet_handleTimeout (t : Timeout C) : Quiet s (handleTimeout env io s t).1 := by
  have hqc := quiet_processQc s io t.highQc
  rcases handleTimeout_cases env s io t with
    ⟨-, h⟩ | ⟨-, -, a, ⟨r, -, -, h⟩ | ⟨tc, -, h⟩⟩ <;> rw [h]
  · exact .refl s
  · exact hqc.trans (quiet_aggregator _ a)
  · have htc := (quiet_aggregator (processQc io s t.highQc) a).trans
      (quiet_advanceRound _ io tc.round)
    exact ((hqc.trans htc).trans (quiet_emit _ rfl)).trans (quiet_propose _ env (some tc))

theorem quiet_handleTc (tc : TC C) : Quiet s (handleTc env io s tc).1 := by
  rcases handleTc_cases env s io tc with ⟨-, h⟩ | ⟨-, -, h⟩ <;> rw [h]
  · exact .refl s
  · exact (quiet_advanceRound s io tc.round).trans (quiet_propose _ env (some tc))

theorem quiet_localTimeoutRound : Quiet s (localTimeoutRound env io s).1 := by
  unfold localTimeoutRound
  refine .trans ?_ (quiet_handleTimeout _ env _ _)
  exact ⟨⟨_, rfl, rfl⟩, rfl, rfl⟩

theorem quiet_voteFor (b : Block C) : Quiet s (voteFor env io s b).1 := by
  have hvote : Quiet s ((increaseLastVotedRound s b.round).emit (.vote b)) :=
    ⟨⟨_, rfl, rfl⟩, rfl, rfl⟩
  rcases voteFor_cases env s io b with
    h | ⟨-, h⟩ | ⟨-, -, -, ⟨-, h⟩ | h | ⟨k, h⟩⟩ <;> rw [h]
  · exact .refl s
  · exact .refl s
  · exact hvote
  · exact hvote.trans (quiet_handleVote _ env io _)
  · exact hvote.trans (quiet_emit _ rfl)

theorem quiet_processCertificates (b : Block C) : Quiet s (processCertificates io s b) := by
  unfold processCertificates
  rcases b.tc with _ | tc
  · exact quiet_processQc s io b.qc
  · exact (quiet_processQc s io b.qc).trans (quiet_advanceRound _ io tc.round)

end Quiet

/-! ### Reading the ancestors -/

section Ancestors

variable {env : Env C} {io : Io C} {s : Core C T} {st : Store C} {last : Round} {b p : Block C}
  {l l' : List (Block C)}

theorem getParentBlock_iff :
    getParentBlock env io s b = (s, .ok (some p)) ↔ Reads env io s.store b p := by
  unfold getParentBlock Reads Parent Store.read
  split_ifs with hg hf
  · simp only [hg, Prod.mk.injEq, true_and, Except.ok.injEq, Option.some.injEq, not_true_eq_false,
      false_and, or_false, true_or, and_true]
    exact eq_comm
  · simp [hg, hf]
  · rcases hl : s.store.lookup b.parent with _ | v
    · simp [hg, Core.emit]
    · rcases hd : env.deserialize v with _ | p'
      · simp [hg, hd]
      · simp [hg, hf, hd]

theorem reads_of_getAncestors {b0 b1 : Block C}
    (h : getAncestors env io s b = (s, .ok (some (b0, b1)))) :
    Reads env io s.store b b1 ∧ Reads env io s.store b1 b0 := by
  unfold getAncestors at h
  rcases getParentBlock_cases env s io b with ⟨p, h1, -⟩ | ⟨h1, -⟩ | ⟨e, h1⟩
  · simp only [h1] at h
    rcases getParentBlock_cases env s io p with ⟨q, h0, -⟩ | ⟨h0, -⟩ | ⟨e, h0⟩
    · simp only [h0, Prod.mk.injEq, true_and, Except.ok.injEq, Option.some.injEq] at h
      obtain ⟨rfl, rfl⟩ := h
      exact ⟨getParentBlock_iff.mp h1, getParentBlock_iff.mp h0⟩
    · simp [h0] at h
    · simp [h0] at h
  · simp [h1] at h
  · simp [h1] at h

theorem ancestors_unique (h : Ancestors env st last b l) (h' : Ancestors env st last b l') :
    l = l' := by
  induction h generalizing l' with
  | stop hr =>
    cases h' with
    | stop => rfl
    | step hr' => exact absurd hr' hr
  | step hr hp _ ih =>
    cases h' with
    | stop hr' => exact absurd hr hr'
    | step _ hp' r' =>
      cases parent_unique hp hp'
      rw [ih r']

/-- The ancestors of an ancestor are some of the last ones. -/
theorem ancestors_of_mem (h : Ancestors env st last b l) (hp : p ∈ l) :
    ∃ l', Ancestors env st last p l' ∧ l'.length < l.length := by
  induction h with
  | stop => cases hp
  | @step b a l hr ha r ih =>
    rcases List.mem_cons.mp hp with rfl | hp
    · exact ⟨l, r, Nat.lt_succ_self _⟩
    · obtain ⟨l', r', hlt⟩ := ih hp
      exact ⟨l', r', Nat.lt_succ_of_lt hlt⟩

/-- No block comes up twice. -/
theorem ancestors_nodup (h : Ancestors env st last b l) : l.Nodup := by
  induction h with
  | stop => exact List.nodup_nil
  | @step b a l hr ha r ih =>
    refine List.nodup_cons.mpr ⟨fun hmem => ?_, ih⟩
    obtain ⟨l', r', hlt⟩ := ancestors_of_mem r hmem
    rw [ancestors_unique r r'] at hlt
    exact lt_irrefl _ hlt

theorem ancestors_subset (h : Ancestors env st last b l) :
    l ⊆ Block.genesis :: st.filterMap fun x => env.deserialize x.2 := by
  induction h with
  | stop => exact List.nil_subset _
  | @step b a l hr ha r ih =>
    refine List.cons_subset.mpr ⟨?_, ih⟩
    rcases ha with ⟨-, rfl⟩ | ⟨-, v, hv, hd⟩
    · exact List.mem_cons_self
    · exact List.mem_cons_of_mem _ (List.mem_filterMap.mpr ⟨(b.parent, v), mem_of_lookup hv, hd⟩)

theorem ancestors_length_le (h : Ancestors env st last b l) : l.length ≤ st.length + 1 := by
  have hle := ((ancestors_nodup h).subperm (ancestors_subset h)).length_le
  rw [List.length_cons] at hle
  exact hle.trans (Nat.succ_le_succ (List.length_filterMap_le _ _))

/-- **The loop of `commit` goes through**, if there are ancestors and no read of them fails. -/
theorem gatherAncestors_of_ancestors (h : Ancestors env s.store last b l)
    (hr : ∀ a ∈ (b :: l).dropLast, a.qc.IsGenesis ∨ io.readFails a.parent = false) {n : ℕ}
    (hn : l.length < n) (acc : List (Block C)) :
    ∃ l', gatherAncestors env io last n s b acc = (s, .ok l') := by
  induction h generalizing n acc with
  | stop hlt =>
    obtain ⟨n, rfl⟩ := Nat.exists_eq_succ_of_ne_zero (Nat.ne_zero_of_lt hn)
    rw [gatherAncestors, if_neg hlt]
    exact ⟨acc, rfl⟩
  | @step b a l hlt hp r ih =>
    obtain ⟨n, rfl⟩ := Nat.exists_eq_succ_of_ne_zero (Nat.ne_zero_of_lt hn)
    rw [List.dropLast_cons_cons, List.forall_mem_cons] at hr
    rw [gatherAncestors, if_pos hlt, getParentBlock_iff.mpr ⟨hp, hr.1⟩]
    exact ih hr.2 (Nat.lt_of_succ_lt_succ hn) _

end Ancestors

/-! ### An event of the node -/

/-- What an event of the core sends, and what becomes of the last committed round. -/
inductive Orderly (s s' : Core C T) : Prop
  | quiet (h : Told s s' []) (hl : s'.lastCommittedRound = s.lastCommittedRound)
  | asks {ds : List C.Digest} {target : C.PublicKey} (h : Told s s' [.synchronize ds target])
      (hl : s'.lastCommittedRound = s.lastCommittedRound)
  | cleans {r : Round} (h : Told s s' [.cleanup r]) (hr : s.lastCommittedRound ≤ r)
      (hl : s'.lastCommittedRound = r)

section Orderly

variable {s s' s'' : Core C T} {env : Env C} {io : Io C} {b b0 b1 : Block C}

theorem Quiet.orderly (h : Quiet s s') : Orderly s s' := .quiet h.told h.last

theorem Told.trans_orderly (h : Told s s' []) (hl : s'.lastCommittedRound = s.lastCommittedRound)
    (h' : Orderly s' s'') : Orderly s s'' := by
  cases h' with
  | quiet h' hl' => exact .quiet (h.trans h') (hl'.trans hl)
  | asks h' hl' => exact .asks (h.trans h') (hl'.trans hl)
  | cleans h' hr hl' => exact .cleans (h.trans h') (hl ▸ hr) hl'

theorem Orderly.trans_quiet (h : Orderly s s') (h' : Quiet s' s'') : Orderly s s'' := by
  cases h with
  | quiet h hl => exact .quiet (h.trans h'.told) (h'.last.trans hl)
  | asks h hl => exact .asks (h.trans h'.told) (h'.last.trans hl)
  | cleans h hr hl => exact .cleans (h.trans h'.told) hr (h'.last.trans hl)

/-- The round of a block that is committed is the last committed one afterwards. -/
theorem commit_last (hle : s.lastCommittedRound ≤ b0.round)
    (hf : s.lastCommittedRound < b0.round → Found env io s.store s.lastCommittedRound b0) :
    Told s (commit env io s b0).1 [] ∧ (commit env io s b0).1.lastCommittedRound = b0.round ∧
      (commit env io s b0).2 = .ok () := by
  have hemit : Told s (s.emit (.commit s.lastCommittedRound b0)) [] := told_emit s rfl
  by_cases hr : b0.round ≤ s.lastCommittedRound
  · rw [commit_of_le env s io hr]
    exact ⟨hemit, UInt64.le_antisymm hle hr, rfl⟩
  have hlt := UInt64.not_le.mp hr
  obtain ⟨l, hl, hreads⟩ := hf hlt
  have hn : l.length < s.store.length + 2 := Nat.lt_succ_of_le (ancestors_length_le hl)
  obtain ⟨l', hg⟩ := gatherAncestors_of_ancestors
    (s := s.emit (.commit s.lastCommittedRound b0)) hl hreads hn []
  rw [commit_of_gathered env s io hlt hg]
  refine ⟨hemit.trans ⟨_, rfl, ?_⟩, rfl, rfl⟩
  rw [List.filterMap_map]
  exact List.filterMap_eq_nil_iff.mpr fun _ _ => rfl

/-- The condition of the commit rule, in the state in which it is applied. -/
theorem commitRule_orderly (h : b0.round + 1 = b1.round → s.lastCommittedRound ≤ b0.round ∧
      (s.lastCommittedRound < b0.round → Found env io s.store s.lastCommittedRound b0)) :
    Orderly s (commitRule env io s b0 b1).1 ∧ (commitRule env io s b0 b1).2 = .ok () := by
  unfold commitRule
  split_ifs with hr
  · obtain ⟨hle, hf⟩ := h hr
    obtain ⟨htold, hlast, hok⟩ := commit_last (s := s.emit (.gc b0.round)) hle hf
    have hgc : Told s (s.emit (.gc b0.round)) [.cleanup b0.round] := ⟨_, rfl, rfl⟩
    exact ⟨.cleans (hgc.trans htold) hle hlast, hok⟩
  · exact ⟨(Quiet.refl s).orderly, rfl⟩

variable [RoundTimer T]

theorem processBlock_orderly (h : Advances env io s.store s.lastCommittedRound b) :
    Orderly s (processBlock env io s b).1 := by
  rcases processBlock_cases env s io b with
    ⟨b0, b1, -, -, hanc, hc⟩ | h' | ⟨b1, -, -, -, h'⟩ | ⟨e, h'⟩
  · obtain ⟨h1, h0⟩ := reads_of_getAncestors hanc
    have hstore : Told s ((storeBlock io s b).emit (.cleanup b0 b1 b)) [] :=
      ⟨_, List.append_assoc _ _ _, rfl⟩
    obtain ⟨horderly, hok⟩ :=
      commitRule_orderly (s := (storeBlock io s b).emit (.cleanup b0 b1 b)) (h b1 b0 h1 h0)
    rcases hc with ⟨e, he, -⟩ | ⟨-, h'⟩
    · rw [hok] at he
      cases he
    · rw [h']
      exact (hstore.trans_orderly rfl horderly).trans_quiet (quiet_voteFor _ env io b)
  · rw [h']
    exact (quiet_emit s rfl).orderly
  · rw [h']
    exact (quiet_emit s rfl).orderly
  · rw [h']
    exact (Quiet.refl s).orderly

theorem handleProposal_orderly (h : Checked env b → missingPayload io s.store b.payload = .ok [] →
      Advances env io s.store s.lastCommittedRound b) :
    Orderly s (handleProposal env io s b).1 := by
  by_cases hc : Checked env b
  swap
  · obtain ⟨e, he⟩ := handleProposal_unchecked env s io hc
    rw [he]
    exact (Quiet.refl s).orderly
  have hcert : Quiet s (processCertificates io (s.emit (.accept b)) b) :=
    (quiet_emit s rfl).trans (quiet_processCertificates _ io b)
  refine hcert.told.trans_orderly hcert.last ?_
  rcases handleProposal_checked env s io hc with
    ⟨e, h'⟩ | ⟨hm, h'⟩ | ⟨missing, -, -, h'⟩ <;> rw [h']
  · exact (Quiet.refl _).orderly
  · refine processBlock_orderly ?_
    rw [hcert.store] at hm ⊢
    rw [hcert.last]
    exact h hc hm
  · exact .asks ⟨_, List.append_assoc _ _ _, rfl⟩ rfl

end Orderly

section Node

variable [RoundTimer T] {env : Env C} {n n' : Node C T} {e : Consensus.Wiring.Event C}

/-- **An event of the node**, under the condition. -/
theorem step_orderly (hn : Consensus.Queues.Ok env n) (h : n.step env e = some n')
    (he : ∀ io b, Processes env n e io b →
      Advances env io n.core.store n.core.lastCommittedRound b) : Orderly n.core n'.core := by
  rcases hc : e.isCore with _ | _
  · rcases task_step_cases hn hc h with hf | ⟨x, -, rfl⟩
    · rw [hf.core]
      exact (Quiet.refl _).orderly
    · exact .quiet ⟨[], (List.append_nil _).symm, rfl⟩ rfl
  cases e with
  | message m io =>
    obtain ⟨-, rfl⟩ := step_message h
    rw [call_core]
    cases m with
    | propose b => exact handleProposal_orderly fun hb hp => he io b (.proposal hb hp)
    | vote v => exact (quiet_handleVote _ env io v).orderly
    | timeout t => exact (quiet_handleTimeout _ env io t).orderly
    | tc tc => exact (quiet_handleTc _ env io tc).orderly
  | loopback io =>
    obtain ⟨-, b, bs, hl, rfl⟩ := step_loopback h
    rw [call_core]
    exact processBlock_orderly (he io b (.loopback hl))
  | timeout io =>
    obtain ⟨-, rfl⟩ := step_timeout h
    rw [call_core]
    exact (quiet_localTimeoutRound _ env io).orderly
  | _ => simp [Consensus.Wiring.Event.isCore] at hc

end Node

/-! ### The channel -/

/-- The channel between the synchronizer, whose clock is `clock`, and the core, whose last committed
round is `last`: what lies between two clean-ups was sent in the round of the first. -/
def Aligned : Round → List (ConsensusMempoolMessage C) → List Round → Round → Prop
  | clock, [], [], last => clock = last
  | clock, .synchronize _ _ :: ms, c :: cs, last => c = clock ∧ Aligned clock ms cs last
  | clock, .cleanup r :: ms, c :: cs, last => c = r ∧ clock ≤ r ∧ Aligned r ms cs last
  | _, _, _, _ => False

section Channel

variable {clock last r : Round} {ms : List (ConsensusMempoolMessage C)} {cs : List Round}

theorem Aligned.synchronize (h : Aligned clock ms cs last) (ds : List C.Digest)
    (target : C.PublicKey) :
    Aligned clock (ms ++ [.synchronize ds target]) (cs ++ [last]) last := by
  fun_induction Aligned clock ms cs last with
  | case1 clock last => exact ⟨h.symm, h⟩
  | case2 clock _ _ ms c cs last ih => exact ⟨h.1, ih h.2⟩
  | case3 clock r ms c cs last ih => exact ⟨h.1, h.2.1, ih h.2.2⟩
  | case4 => exact h.elim

theorem Aligned.cleanup (h : Aligned clock ms cs last) (hr : last ≤ r) :
    Aligned clock (ms ++ [.cleanup r]) (cs ++ [r]) r := by
  fun_induction Aligned clock ms cs last with
  | case1 clock last => exact ⟨rfl, h ▸ hr, rfl⟩
  | case2 clock _ _ ms c cs last ih => exact ⟨h.1, ih h.2 hr⟩
  | case3 clock r' ms c cs last ih => exact ⟨h.1, h.2.1, ih h.2.2 hr⟩
  | case4 => exact h.elim

theorem Aligned.le (h : Aligned clock ms cs last) : clock ≤ last := by
  fun_induction Aligned clock ms cs last with
  | case1 clock last => exact UInt64.le_of_eq h
  | case2 clock _ _ ms c cs last ih => exact ih h.2
  | case3 clock r ms c cs last ih => exact UInt64.le_trans h.2.1 (ih h.2.2)
  | case4 => exact h.elim

/-- If no clean-up is on its way, the clock is right. -/
theorem Aligned.eq_of_forall (h : Aligned clock ms cs last) (hms : ∀ r, .cleanup r ∉ ms) :
    clock = last := by
  fun_induction Aligned clock ms cs last with
  | case1 clock last => exact h
  | case2 clock _ _ ms c cs last ih =>
    exact ih h.2 fun r hr => hms r (List.mem_cons_of_mem _ hr)
  | case3 clock r ms c cs last ih => exact absurd List.mem_cons_self (hms r)
  | case4 => exact h.elim

/-- The next message asks for digests. -/
theorem Aligned.of_synchronize {ds : List C.Digest} {target : C.PublicKey}
    (h : Aligned clock (.synchronize ds target :: ms) cs last) :
    ∃ cs', cs = clock :: cs' ∧ Aligned clock ms cs' last := by
  cases cs with
  | nil => exact h.elim
  | cons c cs => exact ⟨cs, by rw [h.1], h.2⟩

/-- The next message is a clean-up. -/
theorem Aligned.of_cleanup (h : Aligned clock (.cleanup r :: ms) cs last) :
    ∃ cs', cs = r :: cs' ∧ clock ≤ r ∧ Aligned r ms cs' last := by
  cases cs with
  | nil => exact h.elim
  | cons c cs => exact ⟨cs, by rw [h.1], h.2⟩

end Channel

/-! ### The synchronizer -/

/-- Requests are only dropped. -/
structure Keeps (w w' : Synchronizer C) : Prop where
  rxMessage : w'.rxMessage = w.rxMessage
  round : w'.round = w.round
  nextHandler : w'.nextHandler = w.nextHandler
  pending : w'.pending ⊆ w.pending

section Synchronizer

variable {w w' : Synchronizer C} {cfg : Config C} {now : Instant} {i : ℕ}

theorem deliver_keeps {s : Authority C T} (h : s.deliver i = some w) :
    Keeps s.synchronizer w := by
  unfold Authority.deliver at h
  split at h
  · cases h
  split_ifs at h with ha
  · cases h
    exact ⟨rfl, rfl, rfl, fun _ hp => List.mem_of_mem_filter hp⟩
  · obtain ⟨digest, handler, -, -, rfl⟩ := Synchronizer.ready_eq h
    exact ⟨rfl, rfl, rfl, fun _ hp => List.mem_of_mem_filter hp⟩

theorem cancelled_keeps (h : w.cancelled i = some w') : Keeps w w' := by
  cases Synchronizer.cancelled_eq h
  exact ⟨rfl, rfl, rfl, List.Subset.refl _⟩

theorem failed_keeps (h : w.failed i = some w') : Keeps w w' := by
  obtain ⟨f, -, rfl⟩ := Synchronizer.failed_eq h
  exact ⟨rfl, rfl, rfl, List.Subset.refl _⟩

theorem retry_keeps : Keeps w (w.retry cfg now) := by
  obtain ⟨l, hl⟩ := Synchronizer.retry_eq cfg w now
  rw [hl]
  exact ⟨rfl, rfl, rfl, List.Subset.refl _⟩

/-- What is registered gets the round of the synchronizer and a new cancel channel. -/
theorem register_cases : ∀ {ds : List C.Digest} {w : Synchronizer C},
    (w.register now ds).1.round = w.round ∧
      w.nextHandler ≤ (w.register now ds).1.nextHandler ∧
      ∀ p ∈ (w.register now ds).1.pending, p ∈ w.pending ∨ (p.round = w.round ∧
        w.nextHandler ≤ p.handler ∧ p.handler < (w.register now ds).1.nextHandler)
  | [], w => ⟨rfl, le_rfl, fun p hp => .inl hp⟩
  | d :: ds, w => by
    unfold Synchronizer.register
    split_ifs with hd
    · exact register_cases
    obtain ⟨hround, hnext, hpend⟩ := register_cases (w := { w with
      waiting := w.waiting ++ [(d, w.nextHandler)]
      pending := w.pending ++ [⟨d, w.round, w.nextHandler, now⟩]
      nextHandler := w.nextHandler + 1 })
    refine ⟨hround, (Nat.le_succ _).trans hnext, fun p hp => ?_⟩
    rcases hpend p hp with hp | ⟨hr, hle, hlt⟩
    · rcases List.mem_append.mp hp with hp | hp
      · exact .inl hp
      · cases List.mem_singleton.mp hp
        exact .inr ⟨rfl, le_rfl, hnext⟩
    · exact .inr ⟨hr, (Nat.le_succ _).trans hle, hlt⟩

variable (w cfg now) in
theorem synchronize_cases (ds : List C.Digest) (target : C.PublicKey) :
    (w.handle cfg now (.synchronize ds target)).round = w.round ∧
      w.nextHandler ≤ (w.handle cfg now (.synchronize ds target)).nextHandler ∧
      ∀ p ∈ (w.handle cfg now (.synchronize ds target)).pending,
        p ∈ w.pending ∨ (p.round = w.round ∧ w.nextHandler ≤ p.handler ∧
          p.handler < (w.handle cfg now (.synchronize ds target)).nextHandler) := by
  unfold Synchronizer.handle
  dsimp only
  split_ifs <;> exact register_cases

variable (w cfg now) in
/-- What a clean-up drops is `gc_depth` old by the clock. -/
theorem cleanup_cases (r : Round) : (w.handle cfg now (.cleanup r)).round = r ∧
    (w.handle cfg now (.cleanup r)).nextHandler = w.nextHandler ∧
    (w.handle cfg now (.cleanup r)).pending ⊆ w.pending ∧
    ∀ p ∈ w.pending, p ∉ (w.handle cfg now (.cleanup r)).pending →
      p.round.toNat + cfg.gcDepth.toNat ≤ r.toNat := by
  unfold Synchronizer.handle
  dsimp only
  split_ifs with hr
  · exact ⟨rfl, rfl, List.Subset.refl _, fun p hp hn => absurd hp hn⟩
  refine ⟨rfl, rfl, fun _ hp => List.mem_of_mem_filter hp, fun p hp hn => ?_⟩
  rw [List.mem_filter, not_and, decide_eq_true_eq] at hn
  have hle := UInt64.le_iff_toNat_le.mp (UInt64.not_lt.mp (hn hp))
  have hgc := UInt64.le_iff_toNat_le.mp (UInt64.not_lt.mp hr)
  rw [UInt64.toNat_sub_of_le _ _ (UInt64.not_lt.mp hr)] at hle
  omega

end Synchronizer

/-! ### Runs -/

/-- **The invariant** of the runs that meet the condition. -/
structure Sound (env : Env C) (s : Authority C T) : Prop where
  ok : Consensus.Queues.Ok env s.node
  channel : Aligned s.synchronizer.round s.synchronizer.rxMessage s.sent
    s.node.core.lastCommittedRound
  sorted : (cleanups s.node.core).Pairwise (· ≤ ·)
  bound : ∀ r ∈ cleanups s.node.core, r ≤ s.node.core.lastCommittedRound
  pending : ∀ p ∈ s.synchronizer.pending,
    p.handler < s.synchronizer.nextHandler ∧ s.asked p.handler = p.round

section Sound

variable {s s' : Authority C T} {env : Env C} {cfg : Config C}

theorem told_cleanups {s s' : Core C T} {ms : List (ConsensusMempoolMessage C)}
    (h : Told s s' ms) : cleanups s' = cleanups s ++ ms.filterMap cleanupRound := by
  obtain ⟨l, hl, rfl⟩ := h
  unfold cleanups
  rw [hl, List.filterMap_append, List.filterMap_append]

theorem newEntries_of_told {n : Node C T} {s : Core C T} {ms : List (ConsensusMempoolMessage C)}
    (h : Told n.core s ms) : (newEntries n s).filterMap toMempool = ms := by
  obtain ⟨l, hl, rfl⟩ := h
  unfold newEntries
  rw [hl, List.drop_left]

/-- The node takes an event. -/
theorem Sound.forward (hs : Sound env s) {n : Node C T} (hn : Consensus.Queues.Ok env n)
    (h : Orderly s.node.core n.core) (e : Consensus.Wiring.Event C) :
    Sound env (s.forward e n) := by
  unfold Authority.forward
  cases h with
  | quiet h hl =>
    rw [newEntries_of_told h]
    have hc := told_cleanups h
    rw [List.filterMap_nil, List.append_nil] at hc
    refine ⟨hn, ?_, hc ▸ hs.sorted, hc ▸ hl ▸ hs.bound, hs.pending⟩
    simpa [hl] using hs.channel
  | @asks ds target h hl =>
    rw [newEntries_of_told h]
    have hc : cleanups n.core = cleanups s.node.core ++ [] := told_cleanups h
    rw [List.append_nil] at hc
    refine ⟨hn, ?_, hc ▸ hs.sorted, hc ▸ hl ▸ hs.bound, hs.pending⟩
    dsimp only
    rw [hl]
    exact hs.channel.synchronize ds target
  | @cleans r h hr hl =>
    rw [newEntries_of_told h]
    have hc : cleanups n.core = cleanups s.node.core ++ [r] := told_cleanups h
    have hle : ∀ x ∈ cleanups s.node.core, x ≤ r := fun x hx => UInt64.le_trans (hs.bound x hx) hr
    refine ⟨hn, ?_, ?_, ?_, hs.pending⟩
    · dsimp only
      rw [hl]
      exact hs.channel.cleanup hr
    · rw [hc]
      exact List.pairwise_append.mpr ⟨hs.sorted, List.pairwise_singleton _ _, fun x hx y hy =>
        List.mem_singleton.mp hy ▸ hle x hx⟩
    · rw [hc, hl]
      exact List.forall_mem_append.mpr ⟨hle, List.forall_mem_singleton.mpr (UInt64.le_refl r)⟩

/-- The synchronizer takes a message. -/
theorem Sound.taken (hs : Sound env s) {w : Synchronizer C} {now : Instant}
    (h : s.synchronizer.receive cfg now = some w) : Sound env (s.taken w) := by
  obtain ⟨m, ms, hrx, rfl⟩ := Synchronizer.receive_eq h
  have hchannel := hs.channel
  rw [hrx] at hchannel
  unfold Authority.taken
  cases m with
  | synchronize ds target =>
    obtain ⟨cs, hcs, hal⟩ := hchannel.of_synchronize
    obtain ⟨hround, hnext, hpend⟩ :=
      synchronize_cases { s.synchronizer with rxMessage := ms } cfg now ds target
    refine ⟨hs.ok, ?_, hs.sorted, hs.bound, fun p hp => ?_⟩
    · dsimp only
      rw [hround, Synchronizer.handle_rxMessage, hcs]
      exact hal
    dsimp only at hp ⊢
    rcases hpend p hp with hp | ⟨hr, hle, hlt⟩
    · obtain ⟨hlt, hasked⟩ := hs.pending p hp
      rw [if_pos hlt]
      exact ⟨hlt.trans_le hnext, hasked⟩
    · -- registered in the round of the clock
      rw [if_neg (Nat.not_lt.mpr hle), hcs]
      exact ⟨hlt, hr.symm⟩
  | cleanup r =>
    obtain ⟨cs, hcs, hle, hal⟩ := hchannel.of_cleanup
    obtain ⟨hround, hnext, hpend, -⟩ :=
      cleanup_cases { s.synchronizer with rxMessage := ms } cfg now r
    refine ⟨hs.ok, ?_, hs.sorted, hs.bound, fun p hp => ?_⟩
    · dsimp only
      rw [hround, Synchronizer.handle_rxMessage, hcs]
      exact hal
    · obtain ⟨hlt, hasked⟩ := hs.pending p (hpend hp)
      dsimp only
      rw [if_pos hlt, hnext]
      exact ⟨hlt, hasked⟩

theorem Sound.keeps (hs : Sound env s) {w : Synchronizer C} (h : Keeps s.synchronizer w) :
    Sound env { s with synchronizer := w } := by
  refine ⟨hs.ok, ?_, hs.sorted, hs.bound, fun p hp => ?_⟩
  · dsimp only
    rw [h.round, h.rxMessage]
    exact hs.channel
  · dsimp only
    rw [h.nextHandler]
    exact hs.pending p (h.pending hp)

variable [RoundTimer T] {e : Event C}

/-- The steps of the synchronizer that take no message. -/
theorem step_cases (h : s.step env cfg e = some s') :
    (∃ e' n, e = .node e' ∧ s.node.step env e' = some n ∧ s' = s.forward e' n) ∨
      (∃ now w, e = .syncMessage now ∧ s.synchronizer.receive cfg now = some w ∧
        s' = s.taken w) ∨
      (∀ now, e ≠ .syncMessage now) ∧
        ∃ w, Keeps s.synchronizer w ∧ s' = { s with synchronizer := w } := by
  cases e with
  | node e =>
    obtain ⟨n, hn, rfl⟩ := Option.map_eq_some_iff.mp h
    exact .inl ⟨e, n, rfl, hn, rfl⟩
  | syncMessage now =>
    obtain ⟨w, hw, rfl⟩ := Option.map_eq_some_iff.mp h
    exact .inr (.inl ⟨now, w, rfl, hw, rfl⟩)
  | syncReady i =>
    obtain ⟨w, hw, rfl⟩ := Option.map_eq_some_iff.mp h
    exact .inr (.inr ⟨by simp, w, deliver_keeps hw, rfl⟩)
  | syncCancelled i =>
    obtain ⟨w, hw, rfl⟩ := Option.map_eq_some_iff.mp h
    exact .inr (.inr ⟨by simp, w, cancelled_keeps hw, rfl⟩)
  | syncFailed i =>
    obtain ⟨w, hw, rfl⟩ := Option.map_eq_some_iff.mp h
    exact .inr (.inr ⟨by simp, w, failed_keeps hw, rfl⟩)
  | syncTimer now =>
    cases h
    exact .inr (.inr ⟨by simp, _, retry_keeps, rfl⟩)

/-- **A step that meets the condition keeps the invariant.** -/
theorem sound_step (hs : Sound env s) (he : InOrder env s e) (h : s.step env cfg e = some s') :
    Sound env s' := by
  rcases step_cases h with ⟨e, n, rfl, hn, rfl⟩ | ⟨now, w, rfl, hw, rfl⟩ | ⟨-, w, hw, rfl⟩
  · exact hs.forward (step_ok hs.ok hn) (step_orderly hs.ok hn he) e
  · exact hs.taken hw
  · exact hs.keeps hw

/-- **A step from a state with the invariant.** -/
theorem timely_step (hs : Sound env s) (h : s.step env cfg e = some s') : Timely cfg s e s' := by
  rcases step_cases h with ⟨e, n, rfl, hn, rfl⟩ | ⟨now, w, rfl, hw, rfl⟩ | ⟨hne, w, hw, rfl⟩
  · exact ⟨UInt64.le_refl _, fun _ _ _ h => (nomatch h), fun _ h => (nomatch h)⟩
  swap
  · exact ⟨UInt64.le_of_eq hw.round.symm, fun now _ _ h => absurd h (hne now),
      fun now h => absurd h (hne now)⟩
  obtain ⟨m, ms, hrx, rfl⟩ := Synchronizer.receive_eq hw
  have hchannel := hs.channel
  rw [hrx] at hchannel
  unfold Authority.taken
  cases m with
  | synchronize ds target =>
    obtain ⟨cs, hcs, hal⟩ := hchannel.of_synchronize
    obtain ⟨hround, -⟩ :=
      synchronize_cases { s.synchronizer with rxMessage := ms } cfg now ds target
    refine ⟨UInt64.le_of_eq hround.symm, fun _ r ms' _ hr => ?_, fun _ _ hno => ?_⟩
    · cases hrx.symm.trans hr
    · rw [hcs, hal.eq_of_forall fun r hr => hno r (hrx ▸ List.mem_cons_of_mem _ hr)]
      rfl
  | cleanup r =>
    obtain ⟨cs, hcs, hle, hal⟩ := hchannel.of_cleanup
    obtain ⟨hround, -, -, hdrop⟩ :=
      cleanup_cases { s.synchronizer with rxMessage := ms } cfg now r
    refine ⟨UInt64.le_trans hle (UInt64.le_of_eq hround.symm), fun _ _ _ _ _ p hp hn => ?_,
      fun _ _ hno => ?_⟩
    · rw [(hs.pending p hp).2]
      exact (hdrop p hp hn).trans (UInt64.le_iff_toNat_le.mp hal.le)
    · exact absurd (hrx ▸ List.mem_cons_self) (hno r)

theorem sound_boot (io : Io C) (timer : T) : Sound env (Authority.boot env io timer) := by
  have hcore : (Authority.boot env io timer).node.core = Core.boot env io timer := rfl
  have hnone : cleanups (Core.boot env io timer) = [] := by
    unfold cleanups
    rw [boot_trace]
    split_ifs <;> rfl
  refine ⟨boot_ok io timer, ?_, ?_, ?_, List.forall_mem_nil _⟩
  · exact ((boot_fields env io timer).2.2.2.1).symm
  · rw [hcore, hnone]
    exact List.Pairwise.nil
  · rw [hcore, hnone]
    exact List.forall_mem_nil _

/-- **Clean-ups in order.** In every run of an authority in which no block is processed whose `b0`,
the first of two ancestors of consecutive rounds, is below the last committed round, and in which
the commits of these go through: the rounds of the clean-ups never decrease, nor does the clock of
the synchronizer, and no digest is dropped before the last committed round has advanced by
`gc_depth`. -/
theorem collects_in_time {io : Io C} {timer : T} {es : List (Event C)}
    (r : AuthorityRun env cfg (Authority.boot env io timer) es s)
    (h : Every (Authority.Steps env cfg) (Authority.boot env io timer) (InOrder env) es) :
    (cleanups s.node.core).Pairwise (· ≤ ·) ∧
      Every (Authority.Steps env cfg) (Authority.boot env io timer)
        (fun s e => ∀ s', s.step env cfg e = some s' → Timely cfg s e s') es :=
  ⟨(r.invariant_every h (sound_boot io timer) fun _ _ _ hs he h' => sound_step hs he h').sorted,
    h.of_invariant (sound_boot io timer) (fun _ _ _ hs he h' => sound_step hs he h')
      fun _ _ hs _ _ h' => timely_step hs h'⟩

end Sound

/-! ### A block that is delivered again -/

/-- The blocks of the first three rounds. -/
def first : Block crypto := Block.new QC.genesis none (key 1) 1 []
def second : Block crypto := Block.new (certify first 1) none (key 2) 2 []
def third : Block crypto := Block.new (certify second 2) none (key 3) 3 []

/-- A block whose batch is missing. -/
def lacking : Block crypto :=
  Block.new (certify third 3) none (key 1) 5 [crypto.batchDigest (7 : ℕ)]

def later : Block crypto := Block.new (certify third 3) none (key 2) 6 []

def shallow : Config crypto := ⟨2, 5000, 3, [key 0, key 1, key 2, key 3]⟩

def started : Authority crypto (Timer ℚ) := Authority.boot (four 0) calm (Timer.new 0 1000)

theorem run_of_started (es : List (Event crypto)) {s : Authority crypto (Timer ℚ)}
    (h : exec (fun s e => s.step (four 0) shallow e) started es = some s) :
    AuthorityRun (four 0) shallow started es s :=
  run_of_exec _ es started h

def inOrder : List (Event crypto) :=
  [.node (propose first), .node (propose second), .node (propose third), .syncMessage 0,
    .syncMessage 0]

/-- The condition for a block with known ancestors. -/
theorem advances_of_parents {env : Env C} {io : Io C} {st : Store C} {last : Round}
    {b b1 b0 : Block C} (h1 : Parent env st b b1) (h0 : Parent env st b1 b0)
    (h : b0.round + 1 = b1.round →
      last ≤ b0.round ∧ (last < b0.round → Found env io (written io st b) last b0)) :
    Advances env io st last b := by
  intro p1 p0 hr1 hr0
  cases parent_unique h1 hr1.1
  cases parent_unique h0 hr0.1
  exact h

theorem collects_in_time_inOrder : ∃ s : Authority crypto (Timer ℚ),
    AuthorityRun (four 0) shallow started inOrder s ∧ cleanups s.node.core = [0, 1] ∧
      (cleanups s.node.core).Pairwise (· ≤ ·) ∧
      Every (Authority.Steps (four 0) shallow) started
        (fun s e => ∀ s', s.step (four 0) shallow e = some s' → Timely shallow s e s') inOrder := by
  have r := run_of_started inOrder rfl
  have hdet := step_det fun (s : Authority crypto (Timer ℚ)) e => s.step (four 0) shallow e
  refine ⟨_, r, rfl, collects_in_time r (every_cons hdet rfl ?_ (every_cons hdet rfl ?_
    (every_cons hdet rfl ?_ (every_cons hdet rfl trivial (every_cons hdet rfl trivial
      every_nil)))))⟩
  · rintro _ _ ⟨-⟩
    exact advances_of_parents (.inl ⟨isGenesis_genesis, rfl⟩) (.inl ⟨isGenesis_genesis, rfl⟩)
      fun h => absurd h (by decide)
  · rintro _ _ ⟨-⟩
    exact advances_of_parents (.inr ⟨by decide, .block first, rfl, rfl⟩)
      (.inl ⟨isGenesis_genesis, rfl⟩) fun _ => ⟨by decide, fun h => absurd h (by decide)⟩
  · rintro _ _ ⟨-⟩
    exact advances_of_parents (.inr ⟨by decide, .block second, rfl, rfl⟩)
      (.inr ⟨by decide, .block first, rfl, rfl⟩)
      fun _ => ⟨by decide, fun _ => ⟨[], .stop (by decide), List.forall_mem_nil _⟩⟩

/-- The block of round 2 comes again after that of round 3. -/
def again : List (Event crypto) :=
  [.node (propose first), .node (propose second), .node (propose third), .node (propose second),
    .syncMessage 0, .syncMessage 0]

/-- **Clean-ups out of order.** When a block is delivered again after its child, a clean-up of an
earlier round is sent, the clock of the synchronizer goes back, and a digest that is registered then
is dropped when the last committed round has advanced by less than `gc_depth`. -/
theorem exists_early :
    (¬ ∀ es s, AuthorityRun (four 0) shallow started es s →
      (cleanups s.node.core).Pairwise (· ≤ ·)) ∧
    (¬ ∀ es s e s', AuthorityRun (four 0) shallow started es s →
      s.step (four 0) shallow e = some s' → s.synchronizer.round ≤ s'.synchronizer.round) ∧
    ¬ ∀ es s now s' r ms, AuthorityRun (four 0) shallow started es s →
      s.step (four 0) shallow (.syncMessage now) = some s' →
      s.synchronizer.rxMessage = .cleanup r :: ms →
      ∀ p ∈ s.synchronizer.pending, p ∉ s'.synchronizer.pending →
        (s.asked p.handler).toNat + shallow.gcDepth.toNat ≤
          s.node.core.lastCommittedRound.toNat := by
  refine ⟨fun h => ?_, fun h => ?_, fun h => ?_⟩
  · have r := h _ _ (run_of_started again rfl)
    exact absurd r (by decide)
  · exact absurd (h _ _ (.syncMessage 0) _ (run_of_started again rfl) rfl) (by decide)
  · have r := run_of_started (again ++ [.syncMessage 0, .node (propose lacking), .syncMessage 0,
      .node (propose later)]) rfl
    have hdrop := h _ _ 0 _ _ _ r rfl rfl _ List.mem_cons_self List.not_mem_nil
    exact absurd hdrop (by decide)

end Hotstuff.Mempool.Collecting
