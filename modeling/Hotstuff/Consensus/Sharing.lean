import Hotstuff.Consensus.Admission

/-! # The shared store

`Node::new` gives the consensus and the mempool the same store. The core writes blocks to it and the
processors of the mempool batches, each under its own digest (`Keyed`); readers cannot tell the two
apart by the key.

`MempoolDriver::verify` only looks whether the digests of a payload are bound in the store. So it
takes the digest of a block for that of a batch (`verify_iff`). -/

namespace Hotstuff.Consensus.Sharing

open Hotstuff.Primitives Hotstuff.Consensus.Config Hotstuff.Consensus.Messages
open Hotstuff.Consensus.Pacing Hotstuff.Consensus.Handlers Hotstuff.Consensus.Steps
open Hotstuff.Consensus.Entries Hotstuff.Consensus.Queues Hotstuff.Consensus.Admission
open Hotstuff.Consensus.Wiring Hotstuff.Lib.Transition Hotstuff.Ideal
open Hotstuff.Lib.Lists (mem_of_lookup)

variable {C : Crypto} {T : Type}

/-! ### The keys -/

/-- The digest of a value. -/
def digestOf : Value C → C.Digest
  | .block b => b.digest
  | .batch x => C.batchDigest x

/-- Every value is stored under its digest. -/
def Keyed (st : Store C) : Prop := ∀ d v, (d, v) ∈ st → d = digestOf v

section Keyed

variable [RoundTimer T] {env : Env C} {n n' : Node C T} {e : Event C}

omit [RoundTimer T] in
theorem keyed_cons {st : Store C} (h : Keyed st) (v : Value C) : Keyed ((digestOf v, v) :: st) := by
  intro d v' hm
  rcases List.mem_cons.mp hm with hm | hm
  · cases hm
    rfl
  · exact h d v' hm

theorem keyed_acts {G : Guard C} {s s' : Core C T} (h : Acts env G s s') (hs : Keyed s.store) :
    Keyed s'.store := by
  induction h with
  | refl => exact hs
  | tail _ h ih =>
    rcases Act.store_cases h with ⟨io, b, b0, b1, rfl, -⟩ | ⟨hst, -⟩
    · rw [emit_store, storeBlock_store]
      split_ifs
      · exact ih
      · exact keyed_cons ih (.block b)
    · rw [hst]
      exact ih

theorem keyed_step (hn : Queues.Ok env n) (h : n.step env e = some n') (hs : Keyed n.core.store) :
    Keyed n'.core.store := by
  rcases step_core_cases hn h with hc | ⟨x, hc⟩ | hacts
  · rw [hc]; exact hs
  · rw [hc]; exact keyed_cons hs (.batch x)
  · exact keyed_acts hacts hs

theorem keyed_boot (io : Io C) (timer : T) : Keyed (Node.boot env io timer).core.store := by
  rw [show (Node.boot env io timer).core.store = [] from (boot_fields _ _ _).2.2.2.2.1]
  intro d v hm
  cases hm

/-- **In every reachable state** every value is stored under its digest. -/
theorem run_keyed {io : Io C} {timer : T} {es : List (Event C)}
    (r : NodeRun env (Node.boot env io timer) es n) : Keyed n.core.store :=
  run_invariant (boot_ok io timer) r (P := fun n => Keyed n.core.store) (keyed_boot io timer)
    fun _ _ _ hn hs h => keyed_step hn h hs

end Keyed

/-! ### Payloads -/

/-- The digest is that of a batch that was stored. -/
def HasBatch (st : Store C) (d : C.Digest) : Prop := ∃ x, C.batchDigest x = d ∧ (d, .batch x) ∈ st

/-- The digest is that of a block that was stored. -/
def HasBlock (st : Store C) (d : C.Digest) : Prop :=
  ∃ b : Block C, b.digest = d ∧ (d, .block b) ∈ st

theorem lookup_eq_none_of_not_mem {st : Store C} {d : C.Digest} (h : ∀ v, (d, v) ∉ st) :
    st.lookup d = none := by
  rcases hl : st.lookup d with _ | v
  · rfl
  · exact absurd (mem_of_lookup hl) (h v)

theorem lookup_ne_none_of_mem {st : Store C} {d : C.Digest} {v : Value C} (h : (d, v) ∈ st) :
    st.lookup d ≠ none := by
  intro hl
  have hne := List.lookup_eq_none_iff.mp hl (d, v) h
  simp at hne

/-- What is neither a batch nor a block is not bound. -/
theorem lookup_eq_none {st : Store C} (hst : Keyed st) {d : C.Digest} (hbatch : ¬ HasBatch st d)
    (hblock : ¬ HasBlock st d) : st.lookup d = none := by
  refine lookup_eq_none_of_not_mem fun v hm => ?_
  have hd := hst d v hm
  cases v with
  | block b => exact hblock ⟨b, hd.symm, hm⟩
  | batch x => exact hbatch ⟨x, hd.symm, hm⟩

/-- What the loop of `MempoolDriver::verify` returns. -/
theorem missingPayload_cases (io : Io C) (st : Store C) : ∀ payload : List C.Digest,
    ((∃ d ∈ payload, io.readFails d = true) ∧ ∃ e, missingPayload io st payload = .error e) ∨
      ((∀ d ∈ payload, io.readFails d = false) ∧ missingPayload io st payload =
        .ok (payload.filter fun d => (st.lookup d).isNone))
  | [] => .inr ⟨by simp, rfl⟩
  | x :: xs => by
    unfold missingPayload Store.read
    split_ifs with hx
    · exact .inl ⟨⟨x, by simp, hx⟩, _, rfl⟩
    rcases missingPayload_cases io st xs with ⟨⟨d, hd, hf⟩, e, he⟩ | ⟨hxs, hok⟩
    · exact .inl ⟨⟨d, List.mem_cons_of_mem _ hd, hf⟩, e, by simp [he]⟩
    · refine .inr ⟨List.forall_mem_cons.mpr ⟨by simpa using hx, hxs⟩, ?_⟩
      simp only [hok, List.filter_cons]

/-- The entries that a call adds to the trace. -/
def added (s : Core C T) (r : Call C T Bool) : List (Action C) := r.1.trace.drop s.trace.length

/-- **Available means batches**: if a digest of the payload is not that of a batch that was stored,
the payload is not available, and the mempool is asked for the digest if for any. -/
def BatchesOnly (s : Core C T) (io : Io C) (b : Block C) : Prop :=
  ∀ d ∈ b.payload, ¬ HasBatch s.store d →
    (mempoolVerify io s b).2 ≠ .ok true ∧
      ∀ missing target, .synchronize missing target ∈ added s (mempoolVerify io s b) → d ∈ missing

theorem batchesOnly_iff {s : Core C T} (hst : Keyed s.store) (io : Io C) (b : Block C) :
    BatchesOnly s io b ↔ (∃ d ∈ b.payload, io.readFails d = true) ∨
      ∀ d ∈ b.payload, HasBlock s.store d → HasBatch s.store d := by
  unfold BatchesOnly mempoolVerify
  rcases missingPayload_cases io s.store b.payload with ⟨hfails, e, he⟩ | ⟨hreads, hok⟩
  · -- a read fails, and nothing is asked for
    rw [he]
    refine iff_of_true (fun d _ _ => ⟨by simp, fun missing target hm => ?_⟩) (.inl hfails)
    simp [added] at hm
  have hno : ¬ ∃ d ∈ b.payload, io.readFails d = true := by
    rintro ⟨d, hd, hf⟩
    rw [hreads d hd] at hf
    cases hf
  rw [or_iff_right hno, hok]
  constructor
  · rintro h d hd ⟨b', -, hm⟩
    by_contra hbatch
    obtain ⟨hres, hmissing⟩ := h d hd hbatch
    rcases hl : b.payload.filter fun d => (s.store.lookup d).isNone with _ | ⟨x, xs⟩
    · rw [hl] at hres
      exact hres rfl
    · rw [hl] at hmissing
      have hin := hmissing (x :: xs) b.author (by simp [added])
      rw [← hl] at hin
      have hnone := (List.mem_filter.mp hin).2
      exact lookup_ne_none_of_mem hm (by simpa using hnone)
  · intro h d hd hbatch
    have hnone := lookup_eq_none hst hbatch fun hblock => hbatch (h d hd hblock)
    have hin : d ∈ b.payload.filter fun d => (s.store.lookup d).isNone :=
      List.mem_filter.mpr ⟨hd, by rw [hnone]; rfl⟩
    rcases hl : b.payload.filter fun d => (s.store.lookup d).isNone with _ | ⟨x, xs⟩
    · rw [hl] at hin
      cases hin
    · rw [hl] at hin
      refine ⟨by simp, fun missing target hm => ?_⟩
      simp only [added, emit_trace, List.append_assoc, List.drop_left, List.mem_append,
        List.mem_singleton, Action.synchronize.injEq, reduceCtorEq, or_false] at hm
      rw [hm.1]
      exact hin

variable [RoundTimer T]

/-- **When available means batches.** In every reachable state and for every block, a digest of the
payload that is not that of a batch that the mempool stored counts as missing, if and only if a read
of the store fails or no digest of the payload is that of a stored block only. -/
theorem verify_iff {env : Env C} {io₀ : Io C} {timer : T} {es : List (Event C)} {n : Node C T}
    (r : NodeRun env (Node.boot env io₀ timer) es n) (io : Io C) (b : Block C) :
    BatchesOnly n.core io b ↔ (∃ d ∈ b.payload, io.readFails d = true) ∨
      ∀ d ∈ b.payload, HasBlock n.core.store d → HasBatch n.core.store d :=
  batchesOnly_iff (run_keyed r) io b

/-- A block with a batch that the mempool has stored. -/
theorem verify_iff_solo : ∃ (n : Node crypto (Timer ℚ)) (b : Block crypto), b.payload.length = 1 ∧
    (mempoolVerify calm n.core b).2 = .ok true ∧ BatchesOnly n.core calm b := by
  have r := run_of_soloRun [.batch (7 : ℕ)] rfl
  refine ⟨_, { Block.genesis with payload := [crypto.batchDigest (7 : ℕ)] }, rfl, ?_,
    (verify_iff r calm _).mpr (.inr ?_)⟩
  · rfl
  · intro d hd _
    rw [List.mem_singleton.mp hd]
    exact ⟨_, rfl, List.mem_cons_self⟩

/-- The digest of a stored block in the payload counts as available. -/
theorem exists_block_available : ¬ ∀ (env : Env crypto) (io₀ : Io crypto) (timer : Timer ℚ)
    (es : List (Event crypto)) (n : Node crypto (Timer ℚ)),
    NodeRun env (Node.boot env io₀ timer) es n → ∀ io b, BatchesOnly n.core io b := by
  intro h
  obtain ⟨n, d, b, hrun, hst⟩ : ∃ n d b,
      soloRun [.proposerMessage [], .loopback calm] = some n ∧ n.core.store = [(d, .block b)] :=
    ⟨_, _, _, rfl, rfl⟩
  have hb := h solo calm (Timer.new 0 1000) _ n (run_of_soloRun _ hrun) calm
    { Block.genesis with payload := [d] } d (List.mem_singleton_self d) ?_
  · refine hb.1 ?_
    simp [mempoolVerify, missingPayload, Store.read, calm, hst]
  · rintro ⟨x, -, hx⟩
    rw [hst] at hx
    simp at hx

end Hotstuff.Consensus.Sharing
