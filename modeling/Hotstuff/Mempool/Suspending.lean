import Hotstuff.Consensus.Coherence
import Hotstuff.Consensus.Sharing
import Hotstuff.Mempool.Orphans

/-! # Suspended blocks are delivered

The payload waiter keeps, for the digest of a suspended block, the round of the block and the
sending end of the channel that cancels its waiter. A waiter that was cancelled may still win its
`select!` and deliver its block; it then removes an entry that may belong to a newer waiter of the
same digest, which is cancelled by that. A `Wait` for a digest that has an entry is ignored.

As long as neither reads nor writes of the store fail, no block is lost by any of these races
(`no_block_lost`): an entry always has its waiter, which nothing but the entry's removal can cancel
(`Guards`). -/

namespace Hotstuff.Mempool.Suspending

open Hotstuff.Primitives Hotstuff.Consensus.Messages Hotstuff.Consensus.Handlers
open Hotstuff.Consensus.Tasks Hotstuff.Consensus.Sharing Hotstuff.Mempool.Orphans
open Hotstuff.Consensus.Coherence (digest_inj)
open Hotstuff.Lib.Lists Hotstuff.Lib.Transition Hotstuff.Ideal

variable {C : Crypto}

/-! ### The payload waiter with its driver and the store -/

/-- What the payload waiter did. -/
inductive Entry (C : Crypto) where
  /-- A `Wait` was handled. The number is that of its waiter, if it got one. -/
  | wait (missing : List C.Digest) (block : Block C) (waiter : Option ℕ)
  | cleanup (round : Round)
  /-- A waiter delivered its block. -/
  | delivered (waiter : ℕ) (block : Block C)

structure Suspension (C : Crypto) where
  store : Store C
  payloadWaiter : PayloadWaiter C
  /-- What the payload waiter did, oldest first. -/
  log : List (Entry C)

inductive Event (C : Crypto) where
  /-- The core calls the driver. -/
  | verify (io : Io C) (block : Block C)
  | cleanup (round : Round)
  /-- Another task writes to the store. -/
  | write (key : C.Digest) (value : Value C)
  /-- The payload waiter takes a message; a waiter delivers its block, or completes without. -/
  | message
  | ready (i : ℕ)
  | cancelled (i : ℕ)

/-- What is noted when a message is handled. -/
def entryOf (w : PayloadWaiter C) : PayloadWaiterMessage C → Entry C
  | .wait missing block =>
    .wait missing block (if (w.pending block.digest).isSome then none else some w.nextHandler)
  | .cleanup round => .cleanup round

namespace Suspension

def new : Suspension C := ⟨[], .new, []⟩

/-- The driver sends messages. -/
def send (S : Suspension C) (ms : List (PayloadWaiterMessage C)) : Suspension C :=
  { S with payloadWaiter := { S.payloadWaiter with
      rxMessage := S.payloadWaiter.rxMessage ++ ms } }

def step (S : Suspension C) : Event C → Option (Suspension C)
  | .verify io block => some (S.send ((verify io S.store block).map Command.toPayloadWaiter))
  | .cleanup round => some (S.send [.cleanup round])
  | .write key value => some { S with store := (key, value) :: S.store }
  | .message =>
    match S.payloadWaiter.rxMessage with
    | [] => none
    | m :: _ => S.payloadWaiter.receive.map fun w =>
      { S with payloadWaiter := w, log := S.log ++ [entryOf S.payloadWaiter m] }
  | .ready i =>
    match S.payloadWaiter.waiting[i]? with
    | none => none
    | some f => (S.payloadWaiter.ready S.store i).map fun r =>
      { S with payloadWaiter := r.1, log := S.log ++ [.delivered f.handler r.2] }
  | .cancelled i => (S.payloadWaiter.cancelled i).map fun w => { S with payloadWaiter := w }

end Suspension

abbrev SuspensionRun := Run fun (S : Suspension C) e S' => S.step e = some S'

/-- The digest is bound in the store. -/
def InStore (st : Store C) (d : C.Digest) : Prop := (st.lookup d).isSome

/-- No waiter can deliver its block. -/
def Drained (S : Suspension C) : Prop := ∀ i, S.payloadWaiter.ready S.store i = none

/-! ### What a step changes -/

/-- What the driver tells the payload waiter of a block: what is missing is in the payload, and what
is not missing is in the store. -/
structure Verified (st : Store C) (missing : List C.Digest) (block : Block C) : Prop where
  payload : ∀ d ∈ missing, d ∈ block.payload
  missing : ∀ d ∈ block.payload, d ∈ missing ∨ InStore st d

/-- The changes. -/
inductive Change (S : Suspension C) : Suspension C → Prop
  | send (ms : List (PayloadWaiterMessage C))
      (h : ∀ missing block, .wait missing block ∈ ms → Verified S.store missing block) :
      Change S (S.send ms)
  | write (key : C.Digest) (value : Value C) :
      Change S { S with store := (key, value) :: S.store }
  /-- A `Wait` for a digest that has an entry. -/
  | ignored {missing : List C.Digest} {block : Block C} {ms : List (PayloadWaiterMessage C)}
      (hm : S.payloadWaiter.rxMessage = .wait missing block :: ms)
      (hp : (S.payloadWaiter.pending block.digest).isSome) :
      Change S { S with
        payloadWaiter := { S.payloadWaiter with rxMessage := ms }
        log := S.log ++ [.wait missing block none] }
  | registered {missing : List C.Digest} {block : Block C} {ms : List (PayloadWaiterMessage C)}
      (hm : S.payloadWaiter.rxMessage = .wait missing block :: ms)
      (hp : S.payloadWaiter.pending block.digest = none) :
      Change S { S with
        payloadWaiter :=
          { rxMessage := ms
            waiting := S.payloadWaiter.waiting ++ [⟨S.payloadWaiter.nextHandler, missing, block⟩]
            pending := fun d => if d = block.digest then
              some (block.round, S.payloadWaiter.nextHandler) else S.payloadWaiter.pending d
            nextHandler := S.payloadWaiter.nextHandler + 1 }
        log := S.log ++ [.wait missing block (some S.payloadWaiter.nextHandler)] }
  | cleaned {round : Round} {ms : List (PayloadWaiterMessage C)}
      (hm : S.payloadWaiter.rxMessage = .cleanup round :: ms) :
      Change S { S with
        payloadWaiter := { S.payloadWaiter with rxMessage := ms }.handle (.cleanup round)
        log := S.log ++ [.cleanup round] }
  | delivered {i : ℕ} {f : PayloadFuture C} (hf : S.payloadWaiter.waiting[i]? = some f)
      (hd : ∀ d ∈ f.missing, InStore S.store d) :
      Change S { S with
        payloadWaiter := { S.payloadWaiter with
          waiting := S.payloadWaiter.waiting.eraseIdx i
          pending := fun d =>
            if d = f.deliver.digest then none else S.payloadWaiter.pending d }
        log := S.log ++ [.delivered f.handler f.deliver] }
  /-- The entry of the block is not that of the waiter. -/
  | cancelled {i : ℕ} {f : PayloadFuture C} (hf : S.payloadWaiter.waiting[i]? = some f)
      (hp : ∀ r, S.payloadWaiter.pending f.deliver.digest ≠ some (r, f.handler)) :
      Change S { S with payloadWaiter := { S.payloadWaiter with
        waiting := S.payloadWaiter.waiting.eraseIdx i } }

section Changes

variable {S S' : Suspension C}

/-- The driver's verdict on a block is right. -/
theorem verified_of_verify {io : Io C} {st : Store C} {b block : Block C} {missing : List C.Digest}
    (h : .wait missing block ∈ (verify io st b).map Command.toPayloadWaiter) :
    Verified st missing block := by
  unfold verify at h
  rcases hm : missingPayload io st b.payload with e | (_ | ⟨x, xs⟩)
  · simp [hm] at h
  · simp [hm] at h
  obtain ⟨rfl, rfl⟩ : missing = x :: xs ∧ block = b := by
    simpa [hm, Command.toPayloadWaiter, eq_comm] using h
  rcases missingPayload_cases io st block.payload with ⟨-, e, he⟩ | ⟨-, hok⟩
  · rw [hm] at he
    cases he
  · have hfilter := Except.ok.inj (hm.symm.trans hok)
    rw [hfilter]
    refine ⟨fun d hd => List.mem_of_mem_filter hd, fun d hd => ?_⟩
    by_cases hs : InStore st d
    · exact .inr hs
    · refine .inl (List.mem_filter.mpr ⟨hd, ?_⟩)
      simpa only [InStore, Option.not_isSome_iff_eq_none, Option.isNone_iff_eq_none] using hs

/-- **What a step does.** -/
theorem change_of_step {e : Event C} (h : S.step e = some S') : Change S S' := by
  cases e with
  | verify io block =>
    cases h
    exact .send _ fun _ _ hm => verified_of_verify hm
  | cleanup round =>
    cases h
    exact .send _ fun _ _ hm => by simp at hm
  | write key value =>
    cases h
    exact .write key value
  | message =>
    rcases hm : S.payloadWaiter.rxMessage with _ | ⟨m, ms⟩
    · simp [Suspension.step, hm] at h
    simp only [Suspension.step, PayloadWaiter.receive, hm, Option.map_some, Option.some.injEq] at h
    cases m with
    | wait missing block =>
      rcases hp : S.payloadWaiter.pending block.digest with _ | x
      · simp only [PayloadWaiter.handle, entryOf, hp, Option.isSome_none, Bool.false_eq_true,
          if_false] at h
        rw [← h]
        exact .registered hm hp
      · simp only [PayloadWaiter.handle, entryOf, hp, Option.isSome_some, if_true] at h
        rw [← h]
        exact .ignored hm (by rw [hp]; rfl)
    | cleanup round =>
      rw [← h]
      exact .cleaned hm
  | ready i =>
    rcases hf : S.payloadWaiter.waiting[i]? with _ | f
    · simp [Suspension.step, hf] at h
    simp only [Suspension.step, hf] at h
    obtain ⟨r, hr, rfl⟩ := Option.map_eq_some_iff.mp h
    obtain ⟨f', hf', hd, rfl⟩ := PayloadWaiter.ready_eq hr
    cases hf.symm.trans hf'
    exact .delivered hf hd
  | cancelled i =>
    obtain ⟨w, hw, rfl⟩ := Option.map_eq_some_iff.mp h
    obtain ⟨f, hf, hp, rfl⟩ := PayloadWaiter.cancelled_eq hw
    refine .cancelled hf fun r hr => hp ?_
    rw [hr]
    rfl

end Changes

/-! ### The messages -/

section Messages

variable {S S' : Suspension C} {st st' : Store C} {missing : List C.Digest} {block : Block C}

theorem InStore.cons {d : C.Digest} (h : InStore st d) (key : C.Digest) (value : Value C) :
    InStore ((key, value) :: st) d := by
  unfold InStore at *
  rw [List.lookup_cons]
  split
  · rfl
  · exact h

theorem Verified.mono (h : Verified st missing block) (hst : ∀ d, InStore st d → InStore st' d) :
    Verified st' missing block :=
  ⟨h.payload, fun d hd => (h.missing d hd).imp_right (hst d)⟩

/-- The blocks handed over, on their way and later, are as the driver says. -/
structure Promised (S : Suspension C) : Prop where
  channel : ∀ missing block, .wait missing block ∈ S.payloadWaiter.rxMessage →
    Verified S.store missing block
  log : ∀ missing block o, .wait missing block o ∈ S.log → Verified S.store missing block

theorem promised_change (h : Promised S) (hc : Change S S') : Promised S' := by
  cases hc with
  | send ms hms =>
    refine ⟨fun missing block hm => ?_, h.log⟩
    exact (List.mem_append.mp hm).elim (h.channel missing block) (hms missing block)
  | write key value =>
    have hst : ∀ d, InStore S.store d → InStore ((key, value) :: S.store) d :=
      fun d hd => hd.cons key value
    exact ⟨fun missing block hm => (h.channel missing block hm).mono hst,
      fun missing block o hm => (h.log missing block o hm).mono hst⟩
  | @ignored missing block ms hm hp =>
    refine ⟨fun m b hb => h.channel m b (by rw [hm]; exact List.mem_cons_of_mem _ hb), ?_⟩
    intro m b o hb
    rcases List.mem_append.mp hb with hb | hb
    · exact h.log m b o hb
    · cases List.mem_singleton.mp hb
      exact h.channel missing block (by rw [hm]; exact List.mem_cons_self)
  | @registered missing block ms hm hp =>
    refine ⟨fun m b hb => h.channel m b (by rw [hm]; exact List.mem_cons_of_mem _ hb), ?_⟩
    intro m b o hb
    rcases List.mem_append.mp hb with hb | hb
    · exact h.log m b o hb
    · cases List.mem_singleton.mp hb
      exact h.channel missing block (by rw [hm]; exact List.mem_cons_self)
  | @cleaned round ms hm =>
    refine ⟨fun m b hb => h.channel m b (by rw [hm]; exact List.mem_cons_of_mem _ hb), ?_⟩
    intro m b o hb
    exact h.log m b o (by simpa using hb)
  | delivered hf hd => exact ⟨h.channel, fun m b o hb => h.log m b o (by simpa using hb)⟩
  | cancelled hf hp => exact ⟨h.channel, h.log⟩

end Messages

/-! ### The numbers of the waiters -/

/-- The waiter that the message got. -/
def Entry.registers : Entry C → Option ℕ
  | .wait _ _ waiter => waiter
  | .cleanup _ => none
  | .delivered _ _ => none

/-- The waiter that delivered. -/
def Entry.delivers : Entry C → Option ℕ
  | .wait _ _ _ => none
  | .cleanup _ => none
  | .delivered waiter _ => some waiter

/-- A waiter has the number of its `Wait`, and delivers at most once, when nothing is missing. -/
structure Numbered (S : Suspension C) : Prop where
  registered : (S.log.filterMap Entry.registers).Nodup
  lt : ∀ h ∈ S.log.filterMap Entry.registers, h < S.payloadWaiter.nextHandler
  waiting : ∀ f ∈ S.payloadWaiter.waiting, .wait f.missing f.deliver (some f.handler) ∈ S.log
  once : (S.payloadWaiter.waiting.map PayloadFuture.handler ++
    S.log.filterMap Entry.delivers).Nodup
  delivered : ∀ l₁ h block l₂, S.log = l₁ ++ .delivered h block :: l₂ →
    ∃ missing, .wait missing block (some h) ∈ l₁ ∧ ∀ d ∈ missing, InStore S.store d

section Numbers

variable {S S' : Suspension C}

theorem Numbered.mem_registers (h : Numbered S) {f : PayloadFuture C}
    (hf : f ∈ S.payloadWaiter.waiting) : f.handler ∈ S.log.filterMap Entry.registers :=
  List.mem_filterMap.mpr ⟨_, h.waiting f hf, rfl⟩

/-- The next number is new. -/
theorem Numbered.fresh (h : Numbered S) :
    S.payloadWaiter.nextHandler ∉ S.payloadWaiter.waiting.map PayloadFuture.handler ++
      S.log.filterMap Entry.delivers := by
  intro hm
  have hreg : S.payloadWaiter.nextHandler ∈ S.log.filterMap Entry.registers := by
    rcases List.mem_append.mp hm with hm | hm
    · obtain ⟨f, hf, hn⟩ := List.mem_map.mp hm
      rw [← hn]
      exact h.mem_registers hf
    · obtain ⟨x, hx, hn⟩ := List.mem_filterMap.mp hm
      cases x with
      | delivered n block =>
        cases hn
        obtain ⟨l₁, l₂, hl⟩ := List.append_of_mem hx
        obtain ⟨missing, hw, -⟩ := h.delivered l₁ _ block l₂ hl
        refine List.mem_filterMap.mpr
          ⟨.wait missing block (some S.payloadWaiter.nextHandler), ?_, rfl⟩
        rw [hl]
        exact List.mem_append_left _ hw
      | wait | cleanup => cases hn
  exact Nat.lt_irrefl _ (h.lt _ hreg)

/-- Another entry of the log, which is not of a delivery. -/
theorem delivered_append (h : Numbered S) {x : Entry C} (hx : x.delivers = none) :
    ∀ l₁ n block l₂, S.log ++ [x] = l₁ ++ .delivered n block :: l₂ →
      ∃ missing, .wait missing block (some n) ∈ l₁ ∧ ∀ d ∈ missing, InStore S.store d := by
  intro l₁ n block l₂ hl
  rcases append_singleton_split hl with ⟨-, rfl, -⟩ | ⟨l₂', -, hl⟩
  · cases hx
  · exact h.delivered l₁ n block l₂' hl

/-- A waiter leaves. -/
theorem once_eraseIdx (h : Numbered S) (i : ℕ) :
    ((S.payloadWaiter.waiting.eraseIdx i).map PayloadFuture.handler ++
      S.log.filterMap Entry.delivers).Nodup :=
  h.once.sublist (((List.eraseIdx_sublist _ i).map _).append_right _)

/-- Another entry of the log, which is neither of a new waiter nor of a delivery. -/
theorem Numbered.concat (h : Numbered S) {x : Entry C} {w : PayloadWaiter C}
    (hr : x.registers = none) (hd : x.delivers = none) (hw : w.waiting = S.payloadWaiter.waiting)
    (hn : w.nextHandler = S.payloadWaiter.nextHandler) :
    Numbered { S with payloadWaiter := w, log := S.log ++ [x] } := by
  refine ⟨?_, ?_, fun f hf => List.mem_append_left _ (h.waiting f (hw ▸ hf)), ?_,
    delivered_append h hd⟩
  · rw [filterMap_concat, hr, Option.toList_none, List.append_nil]
    exact h.registered
  · rw [filterMap_concat, hr, Option.toList_none, List.append_nil]
    intro n hm
    dsimp only
    rw [hn]
    exact h.lt n hm
  · rw [filterMap_concat, hd, Option.toList_none, List.append_nil, hw]
    exact h.once

theorem numbered_change (h : Numbered S) (hc : Change S S') : Numbered S' := by
  cases hc with
  | send ms hms => exact ⟨h.registered, h.lt, h.waiting, h.once, h.delivered⟩
  | write key value =>
    refine ⟨h.registered, h.lt, h.waiting, h.once, fun l₁ n block l₂ hl => ?_⟩
    obtain ⟨missing, hw, hd⟩ := h.delivered l₁ n block l₂ hl
    exact ⟨missing, hw, fun d hm => (hd d hm).cons key value⟩
  | ignored hm hp => exact h.concat rfl rfl rfl rfl
  | @registered missing block ms hm hp =>
    refine ⟨?_, ?_, fun f hf => ?_, ?_, delivered_append h rfl⟩
    · rw [filterMap_concat]
      refine List.nodup_append.mpr ⟨h.registered, List.nodup_singleton _, fun a ha b hb => ?_⟩
      rw [List.mem_singleton.mp hb]
      exact (h.lt a ha).ne
    · intro n hn
      rw [filterMap_concat] at hn
      rcases List.mem_append.mp hn with hn | hn
      · exact Nat.lt_succ_of_lt (h.lt n hn)
      · rw [List.mem_singleton.mp hn]
        exact Nat.lt_succ_self _
    · rcases List.mem_append.mp hf with hf | hf
      · exact List.mem_append_left _ (h.waiting f hf)
      · cases List.mem_singleton.mp hf
        exact List.mem_append_right _ (List.mem_singleton_self _)
    · rw [filterMap_concat, Entry.delivers, Option.toList_none, List.append_nil, List.map_append,
        List.append_assoc]
      exact List.perm_middle.nodup_iff.mpr (List.nodup_cons.mpr ⟨h.fresh, h.once⟩)
  | cleaned hm => exact h.concat rfl rfl rfl rfl
  | @delivered i f hf hd =>
    have hmem := List.mem_of_getElem? hf
    refine ⟨?_, ?_, fun g hg => ?_, ?_, fun l₁ n block l₂ hl => ?_⟩
    · rw [filterMap_concat, Entry.registers, Option.toList_none, List.append_nil]
      exact h.registered
    · rw [filterMap_concat, Entry.registers, Option.toList_none, List.append_nil]
      exact h.lt
    · exact List.mem_append_left _ (h.waiting g (List.mem_of_mem_eraseIdx hg))
    · -- the number moves from the waiters to the deliveries
      have hperm := ((perm_eraseIdx hf).map PayloadFuture.handler).append_right
        (S.log.filterMap Entry.delivers)
      rw [filterMap_concat, Entry.delivers, Option.toList_some, ← List.append_assoc]
      exact ((List.perm_append_singleton _ _).trans hperm).nodup_iff.mpr h.once
    · rcases append_singleton_split hl with ⟨rfl, hx, -⟩ | ⟨l₂', -, hl⟩
      · cases hx
        exact ⟨f.missing, h.waiting f hmem, hd⟩
      · exact h.delivered l₁ n block l₂' hl
  | @cancelled i f hf hp =>
    exact ⟨h.registered, h.lt, fun g hg => h.waiting g (List.mem_of_mem_eraseIdx hg),
      once_eraseIdx h i, h.delivered⟩

end Numbers

/-! ### The entries and their waiters -/

/-- What is no longer owed: the block is cleaned up, or a block of its digest is delivered. -/
def Settles (block : Block C) : Entry C → Prop
  | .wait _ _ _ => False
  | .cleanup round => block.round ≤ round
  | .delivered _ b => b.digest = block.digest

/-- The block was handed over, and has not been settled since. -/
def Awaited (log : List (Entry C)) (block : Block C) : Prop :=
  ∃ l₁ missing o l₂, log = l₁ ++ .wait missing block o :: l₂ ∧ ∀ x ∈ l₂, ¬ Settles block x

/-- Each entry has its waiter, and a block that is awaited has an entry. -/
structure Guards (S : Suspension C) : Prop where
  waiter : ∀ d r h, S.payloadWaiter.pending d = some (r, h) →
    ∃ f ∈ S.payloadWaiter.waiting, f.handler = h ∧ f.deliver.digest = d ∧ f.deliver.round = r
  awaited : ∀ block, Awaited S.log block → (S.payloadWaiter.pending block.digest).isSome

section Guards

variable {S S' : Suspension C} {block : Block C} {log : List (Entry C)} {x : Entry C}

/-- One more entry of the log. -/
theorem awaited_concat (h : Awaited (log ++ [x]) block) :
    (Awaited log block ∧ ¬ Settles block x) ∨ ∃ missing o, x = .wait missing block o := by
  obtain ⟨l₁, missing, o, l₂, hl, hs⟩ := h
  rcases append_singleton_split hl with ⟨-, rfl, -⟩ | ⟨l₂', rfl, hlog⟩
  · exact .inr ⟨missing, o, rfl⟩
  · rw [List.forall_mem_append, List.forall_mem_singleton] at hs
    exact .inl ⟨⟨l₁, missing, o, l₂', hlog, hs.1⟩, hs.2⟩

theorem guards_deliver (h : Guards S) {i : ℕ} {f : PayloadFuture C}
    (hf : S.payloadWaiter.waiting[i]? = some f) :
    Guards { S with
      payloadWaiter := { S.payloadWaiter with
        waiting := S.payloadWaiter.waiting.eraseIdx i
        pending := fun d => if d = f.deliver.digest then none else S.payloadWaiter.pending d }
      log := S.log ++ [.delivered f.handler f.deliver] } := by
  refine ⟨fun d r n hp => ?_, fun block ha => ?_⟩
  · dsimp only at hp
    split_ifs at hp with hd
    obtain ⟨g, hg, rfl, hgd, hgr⟩ := h.waiter d r n hp
    refine ⟨g, mem_eraseIdx_of_ne hf hg ?_, rfl, hgd, hgr⟩
    rintro rfl
    exact hd hgd.symm
  · rcases awaited_concat ha with ⟨ha, hs⟩ | ⟨missing, o, hx⟩
    · dsimp only
      rw [if_neg fun hd => hs hd.symm]
      exact h.awaited block ha
    · cases hx

/-- The waiter of an entry is not cancelled. -/
theorem guards_cancel (h : Guards S) {i : ℕ} {f : PayloadFuture C}
    (hf : S.payloadWaiter.waiting[i]? = some f)
    (hp : ∀ r, S.payloadWaiter.pending f.deliver.digest ≠ some (r, f.handler)) :
    Guards { S with payloadWaiter := { S.payloadWaiter with
      waiting := S.payloadWaiter.waiting.eraseIdx i } } := by
  refine ⟨fun d r n hd => ?_, h.awaited⟩
  obtain ⟨g, hg, rfl, rfl, hgr⟩ := h.waiter d r n hd
  refine ⟨g, mem_eraseIdx_of_ne hf hg ?_, rfl, rfl, hgr⟩
  rintro rfl
  exact hp r hd

variable (hnc : NoCollision C)
include hnc

/-- A clean-up leaves the blocks of later rounds. -/
theorem guards_clean (h : Guards S) {round : Round} {ms : List (PayloadWaiterMessage C)} :
    Guards { S with
      payloadWaiter := { S.payloadWaiter with rxMessage := ms }.handle (.cleanup round)
      log := S.log ++ [.cleanup round] } := by
  refine ⟨fun d r n hp => h.waiter d r n (cleanup_cases hp).1, fun block ha => ?_⟩
  rcases awaited_concat ha with ⟨ha, hs⟩ | ⟨missing, o, hx⟩
  · obtain ⟨⟨r, n⟩, hp⟩ := Option.isSome_iff_exists.mp (h.awaited block ha)
    obtain ⟨f, -, -, hd, hr⟩ := h.waiter _ r n hp
    -- the round of the entry is that of the block
    have hround : r = block.round := hr.symm.trans (digest_inj hnc hd).2.1
    have hlt : round < r := by
      rw [hround]
      exact UInt64.not_le.mp hs
    unfold PayloadWaiter.handle
    simp only [hp, if_pos hlt, Option.isSome_some]
  · cases hx

/-- **Step lemma.** -/
theorem guards_change (h : Guards S) (hc : Change S S') : Guards S' := by
  cases hc with
  | send ms hms => exact ⟨h.waiter, h.awaited⟩
  | write key value => exact ⟨h.waiter, h.awaited⟩
  | @ignored missing block ms hm hp =>
    refine ⟨h.waiter, fun b ha => ?_⟩
    rcases awaited_concat ha with ⟨ha, -⟩ | ⟨missing, o, hx⟩
    · exact h.awaited b ha
    · cases hx
      exact hp
  | @registered missing block ms hm hp =>
    refine ⟨fun d r n hd => ?_, fun b ha => ?_⟩
    · dsimp only at hd
      split_ifs at hd with heq
      · cases hd
        exact ⟨_, List.mem_append_right _ (List.mem_singleton_self _), rfl, heq.symm, rfl⟩
      · obtain ⟨f, hf, hf'⟩ := h.waiter d r n hd
        exact ⟨f, List.mem_append_left _ hf, hf'⟩
    · dsimp only
      split_ifs with heq
      · rfl
      · rcases awaited_concat ha with ⟨ha, -⟩ | ⟨missing, o, hx⟩
        · exact h.awaited b ha
        · cases hx
          exact absurd rfl heq
  | cleaned hm => exact guards_clean hnc h
  | delivered hf hd => exact guards_deliver h hf
  | cancelled hf hp => exact guards_cancel h hf hp

end Guards

/-! ### Runs -/

/-- The invariant. -/
structure Ok (S : Suspension C) : Prop where
  promised : Promised S
  numbered : Numbered S
  guards : Guards S

theorem ok_new : Ok (.new : Suspension C) where
  promised := ⟨nofun, nofun⟩
  numbered := ⟨List.nodup_nil, nofun, nofun, List.nodup_nil, by simp [Suspension.new]⟩
  guards := ⟨nofun, fun block ⟨l₁, _, _, l₂, hl, _⟩ => by simp [Suspension.new] at hl⟩

section Runs

variable {S : Suspension C} {es : List (Event C)} (hnc : NoCollision C)
include hnc

/-- **Run lemma.** -/
theorem ok_run (r : SuspensionRun .new es S) : Ok S :=
  r.invariant ok_new fun _ _ _ h hs =>
    have hc := change_of_step hs
    ⟨promised_change h.promised hc, numbered_change h.numbered hc, guards_change hnc h.guards hc⟩

/-- A block whose missing digests are in the store is not awaited when all waiters that can deliver
have done so. -/
theorem not_awaited (h : Ok S) (hd : Drained S) {l₁ l₂ : List (Entry C)} {missing : List C.Digest}
    {block : Block C} {o : Option ℕ} (hl : S.log = l₁ ++ .wait missing block o :: l₂)
    (hm : ∀ d ∈ missing, InStore S.store d) : ∃ x ∈ l₂, Settles block x := by
  by_contra hs
  push Not at hs
  obtain ⟨⟨r, n⟩, hp⟩ :=
    Option.isSome_iff_exists.mp (h.guards.awaited block ⟨l₁, missing, o, l₂, hl, hs⟩)
  obtain ⟨f, hf, -, hdigest, -⟩ := h.guards.waiter _ r n hp
  have hpayload := (digest_inj hnc hdigest).2.2.1
  -- the waiter waits for digests of the same payload
  have hthis := h.promised.log missing block o (by rw [hl]; simp)
  have hother := h.promised.log _ _ _ (h.numbered.waiting f hf)
  have hready : ∀ d ∈ f.missing, InStore S.store d := by
    intro d hd'
    have hin := hother.payload d hd'
    rw [hpayload] at hin
    exact (hthis.missing d hin).elim (hm d) id
  obtain ⟨i, hi⟩ := List.mem_iff_getElem?.mp hf
  have hnone := hd i
  have hall : (f.missing.all fun d => (S.store.lookup d).isSome) = true :=
    List.all_eq_true.mpr fun d hd' => hready d hd'
  simp only [PayloadWaiter.ready, hi, hall, if_true, reduceCtorEq] at hnone

/-- **Suspended blocks are not lost.** In every run: a block is delivered by the waiter of its
`Wait`, after which all that was missing is in the store; each `Wait` has at most one waiter, each
waiter is that of one `Wait`, and it delivers at most once; and when all waiters that can deliver
have done so, then a block whose missing digests are in the store, and whose round has not been
cleaned up since its `Wait`, has been delivered since, or another of its digest. -/
theorem no_block_lost (r : SuspensionRun .new es S) :
    (∀ l₁ h block l₂, S.log = l₁ ++ .delivered h block :: l₂ →
      ∃ missing, .wait missing block (some h) ∈ l₁ ∧ ∀ d ∈ missing, InStore S.store d) ∧
    (S.log.filterMap Entry.registers).Nodup ∧ (S.log.filterMap Entry.delivers).Nodup ∧
    (Drained S → ∀ l₁ missing block o l₂, S.log = l₁ ++ .wait missing block o :: l₂ →
      (∀ d ∈ missing, InStore S.store d) → (∀ round, .cleanup round ∈ l₂ → round < block.round) →
        ∃ h b, .delivered h b ∈ l₂ ∧ b.digest = block.digest) := by
  have h := ok_run hnc r
  refine ⟨h.numbered.delivered, h.numbered.registered, h.numbered.once.of_append_right, ?_⟩
  intro hd l₁ missing block o l₂ hl hm hclean
  obtain ⟨x, hx, hs⟩ := not_awaited hnc h hd hl hm
  cases x with
  | wait => exact hs.elim
  | cleanup round => exact absurd hs (UInt64.not_le.mpr (hclean round hx))
  | delivered n b => exact ⟨n, b, hx, hs⟩

end Runs

/-! ### A block that is suspended and delivered -/

def lateBatch : crypto.Digest := crypto.batchDigest (7 : ℕ)

/-- A block whose batch is not in the store. -/
def withheldBlock : Block crypto := Block.new QC.genesis none (key 1) 1 [lateBatch]

/-- The block is suspended, its batch is stored, and its waiter delivers it. -/
def arrival : List (Event crypto) :=
  [.verify calm withheldBlock, .message, .write lateBatch (.batch (7 : ℕ)), .ready 0]

theorem no_block_lost_arrival : ∃ S, SuspensionRun .new arrival S ∧ Drained S ∧
    (S.log.filterMap Entry.delivers).Nodup ∧
    ∃ h b, .delivered h b ∈ S.log ∧ b.digest = withheldBlock.digest := by
  obtain ⟨S, hS, hw, hlog⟩ : ∃ S, exec Suspension.step .new arrival = some S ∧
      S.payloadWaiter.waiting = [] ∧
      S.log = [.wait [lateBatch] withheldBlock (some 0), .delivered 0 withheldBlock] :=
    ⟨_, rfl, rfl, rfl⟩
  have r : SuspensionRun .new arrival S := run_of_exec _ _ _ hS
  have hd : Drained S := fun i => by simp [PayloadWaiter.ready, hw]
  obtain ⟨hdel, -, honce, hlost⟩ := no_block_lost noCollision r
  obtain ⟨missing, hm, hstore⟩ :=
    hdel [.wait [lateBatch] withheldBlock (some 0)] 0 withheldBlock [] hlog
  cases List.mem_singleton.mp hm
  obtain ⟨h, b, hb, hdigest⟩ := hlost hd [] [lateBatch] withheldBlock (some 0) _ hlog hstore
    (by simp)
  refine ⟨S, r, hd, honce, h, b, ?_, hdigest⟩
  rw [hlog]
  exact List.mem_cons_of_mem _ hb

end Hotstuff.Mempool.Suspending
