import Hotstuff.Mempool.Spreading

/-! # The batches in the store

Both processors write to the store, and the helper reads it; the consensus core writes blocks to the
same store. Whatever is received, an entry of the store is a batch under its digest or a block under
its own, and the digests given to the consensus are those of the batches (`store_sound`). So a node
that asks an authority for a batch can get it, and a batch that has been handed on by a quorum
waiter can be got from an authority of any quorum (`can_fetch`). -/

namespace Hotstuff.Mempool.Cluster

open Hotstuff.Primitives Hotstuff.Consensus.Config
open Hotstuff.Lib.Lists Hotstuff.Lib.Transition Hotstuff.Ideal
open Hotstuff.Network.Receiving hiding Event
open Hotstuff.Network.Acknowledging

variable {C : Crypto} {cfg : Setup C}

/-! ### What is in the store -/

/-- The data is a serialized batch. -/
def IsBatch (cfg : Setup C) (data : SerializedBatchMessage) : Prop :=
  ∃ batch, cfg.deserialize data = some (.batch batch)

instance (data : SerializedBatchMessage) : Decidable (IsBatch cfg data) :=
  match h : cfg.deserialize data with
  | some (.batch batch) => .isTrue ⟨batch, h⟩
  | some (.batchRequest _ _) => .isFalse fun ⟨_, hb⟩ => by cases h.symm.trans hb
  | none => .isFalse fun ⟨_, hb⟩ => by cases h.symm.trans hb

/-- The entry is a batch under its digest. -/
def BatchEntry (cfg : Setup C) (x : C.Digest × SerializedBatchMessage) : Prop :=
  x.1 = cfg.digest x.2 ∧ IsBatch cfg x.2

instance (x : C.Digest × SerializedBatchMessage) : Decidable (BatchEntry cfg x) := by
  unfold BatchEntry; infer_instance

/-- The entry is a block under its digest. -/
def BlockEntry (cfg : Setup C) (x : C.Digest × SerializedBatchMessage) : Prop :=
  ∃ block : Consensus.Messages.Block C, x = (block.digest, cfg.serializeBlock block)

/-- The batches in the store, the last one first. -/
def storedBatches (cfg : Setup C) (n : Node C) : List (C.Digest × SerializedBatchMessage) :=
  n.store.filter fun x => BatchEntry cfg x

/-- The invariant of a node. -/
structure Stores (cfg : Setup C) (n : Node C) : Prop where
  entries : ∀ x ∈ n.store, BatchEntry cfg x ∨ BlockEntry cfg x
  own : ∀ data ∈ n.ownBatches, IsBatch cfg data
  peer : ∀ data ∈ n.peerBatches, IsBatch cfg data
  consensus : n.txConsensus.reverse = (storedBatches cfg n).map Prod.fst
  helped : ∀ x ∈ n.helped, x.1 ∈ cfg.committee.keys ∧ x.2 ∈ n.store.map Prod.snd

/-- No block has the digest of a batch. -/
theorem BlockEntry.not_batch {x : C.Digest × SerializedBatchMessage} (h : BlockEntry cfg x)
    {data : SerializedBatchMessage} (hd : IsBatch cfg data) : x.1 ≠ cfg.digest data := by
  obtain ⟨block, rfl⟩ := h
  exact cfg.digest_ne block hd.choose_spec

/-- **What is stored under the digest of a batch is a batch with this digest.** -/
theorem Stores.lookup {n : Node C} (h : Stores cfg n) {data data' : SerializedBatchMessage}
    (hd : IsBatch cfg data) (hl : n.store.lookup (cfg.digest data) = some data') :
    cfg.digest data' = cfg.digest data ∧ IsBatch cfg data' := by
  rcases h.entries _ (mem_of_lookup hl) with ⟨heq, hb⟩ | hblock
  · exact ⟨heq.symm, hb⟩
  · exact absurd rfl (hblock.not_batch hd)

section Stores

variable {n n' : Node C} {data : SerializedBatchMessage} {S S' : Cluster C} {j k : C.PublicKey}
  {e : Event C} {es : List (C.PublicKey × Event C)}

theorem stores_new : Stores cfg (.new : Node C) := by
  exact ⟨fun _ h => absurd h List.not_mem_nil, fun _ h => absurd h List.not_mem_nil,
    fun _ h => absurd h List.not_mem_nil, rfl, fun _ h => absurd h List.not_mem_nil⟩

/-- The store does not change, and there are only more batches. -/
theorem Stores.congr (h : Stores cfg n) (hs : n'.store = n.store)
    (hc : n'.txConsensus = n.txConsensus) (hh : n'.helped = n.helped)
    (ho : ∀ data ∈ n'.ownBatches, data ∈ n.ownBatches ∨ IsBatch cfg data)
    (hp : ∀ data ∈ n'.peerBatches, data ∈ n.peerBatches ∨ IsBatch cfg data) : Stores cfg n' where
  entries := hs ▸ h.entries
  own data hd := (ho data hd).elim (h.own data) id
  peer data hd := (hp data hd).elim (h.peer data) id
  consensus := by
    rw [hc, storedBatches, hs]
    exact h.consensus
  helped := by
    rw [hh, hs]
    exact h.helped

/-- The handler of the receiver only hands on batches. -/
theorem isBatch_of_dispatch {message : List UInt8}
    (h : .txProcessor data ∈ deliversIn (cfg.receiverHandler.dispatch message)) :
    IsBatch cfg data := by
  unfold Setup.receiverHandler at h
  rcases hd : cfg.deserialize message with _ | batch | ⟨missing, requestor⟩ <;>
    simp [deliversIn, hd] at h
  exact ⟨_, h ▸ hd⟩

theorem Carries.isBatch {address : SocketAddr} {sent : List SerializedBatchMessage}
    {l : MempoolLink C} (h : Carries cfg address sent l)
    (ha : cfg.Honest (cfg.listener address)) (hd : .txProcessor data ∈ l.delivered) :
    IsBatch cfg data := by
  obtain ⟨es, r, -⟩ := h.link ha
  obtain ⟨-, hdel⟩ := run_sound r fun data _ => answers_receiverHandler cfg data
  obtain ⟨m, -, hm⟩ := hdel.delivered _ hd
  exact isBatch_of_dispatch hm

theorem Stores.deliver (h : Stores cfg n) (l : List (Delivery C))
    (hl : ∀ data, .txProcessor data ∈ l → IsBatch cfg data) :
    Stores cfg (l.foldl Node.deliver n) := by
  obtain ⟨-, -, hown, hs, hc, hh⟩ := foldl_deliver l n
  refine h.congr hs hc hh (fun data hd => .inl (hown ▸ hd)) fun data hd => ?_
  exact ((mem_foldl_deliver l n).mp hd).imp_right (hl data)

/-- An entry is written, and the consensus is told of it if it is a batch. -/
theorem Stores.write (h : Stores cfg n) {x : C.Digest × SerializedBatchMessage}
    (hx : BatchEntry cfg x ∨ BlockEntry cfg x) {txConsensus : List C.Digest}
    (hc : txConsensus.reverse =
      ((x :: n.store).filter fun x => BatchEntry cfg x).map Prod.fst) :
    Stores cfg { n with store := x :: n.store, txConsensus } where
  entries y hy := by
    rcases List.mem_cons.mp hy with rfl | hy
    · exact hx
    · exact h.entries y hy
  own := h.own
  peer := h.peer
  consensus := hc
  helped y hy := (h.helped y hy).imp_right (List.mem_cons_of_mem _)

/-- **A processor stores a batch** and gives its digest to the consensus. -/
theorem Stores.process (h : Stores cfg n) (hd : IsBatch cfg data) :
    Stores cfg (n.process cfg data) := by
  have hentry : BatchEntry cfg (cfg.digest data, data) := ⟨rfl, hd⟩
  refine h.write (.inl hentry) ?_
  rw [List.filter_cons_of_pos (by simpa using hentry), List.reverse_append, h.consensus]
  rfl

/-- **The core stores a block**, which is no batch. -/
theorem Stores.storeBlock (h : Stores cfg n) (block : Consensus.Messages.Block C) :
    Stores cfg (n.storeBlock cfg block) := by
  have hentry : BlockEntry cfg (block.digest, cfg.serializeBlock block) := ⟨block, rfl⟩
  have hno : ¬ BatchEntry cfg (block.digest, cfg.serializeBlock block) :=
    fun hb => hentry.not_batch hb.2 hb.1
  refine h.write (.inr hentry) ?_
  rw [List.filter_cons_of_neg (by simpa using hno)]
  exact h.consensus

/-- **The helper sends what is stored**, to authorities. -/
theorem Stores.help (h : Stores cfg n) (digests : List C.Digest) (origin : C.PublicKey)
    (requests : List (List C.Digest × C.PublicKey)) :
    Stores cfg ({ n with rxHelper := requests }.help cfg digests origin) := by
  unfold Node.help
  split_ifs with ho
  · refine ⟨h.entries, h.own, h.peer, h.consensus, fun x hx => ?_⟩
    rcases List.mem_append.mp hx with hx | hx
    · exact h.helped x hx
    · obtain ⟨digest, -, hx⟩ := List.mem_filterMap.mp hx
      obtain ⟨data, hdata, rfl⟩ := Option.map_eq_some_iff.mp hx
      exact ⟨ho, List.mem_map_of_mem (mem_of_lookup hdata)⟩
  · exact ⟨h.entries, h.own, h.peer, h.consensus, h.helped⟩

theorem stores_setNode (h : ∀ j, Stores cfg (S.nodes j)) (hn : Stores cfg n) (j : C.PublicKey) :
    Stores cfg ((S.setNode k n).nodes j) := by
  by_cases hjk : j = k
  · rw [hjk, setNode_self]
    exact hn
  · rw [setNode_of_ne S hjk]
    exact h j

/-- **A change keeps the stores.** -/
theorem stores_change (h : Change cfg S k e S') (hno : cfg.committee.NoOverflow) (hS : Ok cfg S)
    (hS' : Ok cfg S') (hall : ∀ j, Stores cfg (S.nodes j)) (j : C.PublicKey) :
    Stores cfg (S'.nodes j) := by
  cases h with
  | made e =>
    refine stores_setNode hall ?_ j
    exact (hall k).congr rfl rfl rfl (fun _ => .inl) fun _ => .inl
  | @waited e q he hr hq =>
    refine stores_setNode hall ?_ j
    refine (hall k).congr rfl rfl rfl (fun data hd => ?_) fun _ => .inl
    refine (List.mem_append.mp hd).imp_right fun hd => ?_
    have hspreads := hS'.spreads k
    rw [setNode_self] at hspreads
    obtain ⟨r, hr, -, rfl⟩ := hspreads.exists_record hno (List.mem_of_mem_drop hd)
    obtain ⟨batch, hb⟩ := (hspreads.messages _ (hspreads.mem_txMessage hno hr)).batch
    exact ⟨batch, hb ▸ cfg.deserialize_serialize batch⟩
  | dropped hh hn => exact hall j
  | @linked address e l he ha hl =>
    refine stores_setNode (S := S.setLink k address l) hall ?_ j
    refine (hall (cfg.listener address)).deliver _ fun data hd => ?_
    exact (((hS.spreads k).carries address).linked he hl).1.isBatch ha (List.mem_of_mem_drop hd)
  | acted he ha hc => exact hall j
  | messaged serialized =>
    exact stores_setNode hall ((hall k).deliver _ fun data hd => isBatch_of_dispatch hd) j
  | @own batch batches h =>
    refine stores_setNode hall (Stores.process ?_ ((hall k).own batch (h ▸ List.mem_cons_self))) j
    exact (hall k).congr rfl rfl rfl (fun _ hx => .inl (h ▸ List.mem_cons_of_mem _ hx))
      fun _ => .inl
  | @peer batch batches h =>
    refine stores_setNode hall (Stores.process ?_ ((hall k).peer batch (h ▸ List.mem_cons_self))) j
    exact (hall k).congr rfl rfl rfl (fun _ => .inl)
      fun _ hx => .inl (h ▸ List.mem_cons_of_mem _ hx)
  | helped h => exact stores_setNode hall ((hall k).help _ _ _) j
  | stored block => exact stores_setNode hall ((hall k).storeBlock block) j

theorem run_stores (hno : cfg.committee.NoOverflow) (r : ClusterRun cfg es S) (j : C.PublicKey) :
    Stores cfg (S.nodes j) := by
  induction r generalizing j with
  | nil => exact stores_new
  | snoc r h ih =>
    exact stores_change (step_change h).2 hno (run_ok r) (run_ok (r.snoc h)) ih j

/-- The second authority stores the batch that it has acknowledged, then its core a block. -/
def fourStored : List (crypto.PublicKey × Event crypto) :=
  fourEvents ++ [(key 0, .link "127.0.0.1:7001" (.proceed 1)), (key 1, .peerProcessor),
    (key 1, .core Four.first)]

end Stores

/-! ### Getting a batch -/

/-- The event is one of a runner of a receiver, of a processor or of a helper. -/
def Event.Task : Event C → Prop
  | .link _ (.proceed _) | .ownProcessor | .peerProcessor | .helper => True
  | _ => False

/-- Tasks lead from `S` to `S'`. -/
def Works (cfg : Setup C) (S S' : Cluster C) : Prop :=
  ∃ es, Run (Next cfg) S es S' ∧ ∀ x ∈ es, x.2.Task

section Works

variable {S S' S'' : Cluster C} {j k : C.PublicKey} {e : Event C} {data : SerializedBatchMessage}
  {es : List (C.PublicKey × Event C)}

theorem Works.refl (S : Cluster C) : Works cfg S S := ⟨[], .nil, nofun⟩

theorem Works.trans (h : Works cfg S S') (h' : Works cfg S' S'') : Works cfg S S'' := by
  obtain ⟨es, r, hes⟩ := h
  obtain ⟨es', r', hes'⟩ := h'
  exact ⟨es ++ es', r.trans r', List.forall_mem_append.mpr ⟨hes, hes'⟩⟩

theorem works_step (h : step cfg S (k, e) = some S') (he : e.Task) : Works cfg S S' :=
  ⟨[(k, e)], .snoc .nil h, List.forall_mem_singleton.mpr he⟩

theorem works_replicate {n : ℕ}
    (r : Run (Next cfg) S (List.replicate n (k, e)) S') (he : e.Task) :
    Works cfg S S' :=
  ⟨_, r, fun _ hx => (List.eq_of_mem_replicate hx).symm ▸ he⟩

/-- An event of a link between honest nodes. -/
theorem exists_step_link (hk : cfg.Honest k) (hj : cfg.Honest j)
    {e : Network.Receiving.Event (List UInt8) String} (he : Internal e) {l : MempoolLink C}
    (hl : (S.links k (cfg.mempoolAddress j)).step cfg.receiverHandler e = some l) :
    ∃ S', step cfg S (k, .link (cfg.mempoolAddress j) e) = some S' ∧
      S'.links k (cfg.mempoolAddress j) = l ∧
      S'.nodes j = (l.delivered.drop (S.links k (cfg.mempoolAddress j)).delivered.length).foldl
        Node.deliver (S.nodes j) := by
  have hstep : step cfg S (k, .link (cfg.mempoolAddress j) e) =
      some ((S.setLink k (cfg.mempoolAddress j) l).setNode j
        ((l.delivered.drop (S.links k (cfg.mempoolAddress j)).delivered.length).foldl
          Node.deliver (S.nodes j))) := by
    simp [step, hk, he, cfg.listens j hj.1, hj, hl]
  refine ⟨_, hstep, ?_, ?_⟩
  · rw [setNode_links, setLink, setLinks_self, Function.update_self]
  · rw [setNode_self]

/-- A runner goes on up to a batch that it is about to hand on. -/
theorem works_runner (hk : cfg.Honest k) (hj : cfg.Honest j) {i : ℕ} {ok : Bool} :
    ∀ {effects : List (Effect String (Delivery C))} {S : Cluster C},
      ((S.links k (cfg.mempoolAddress j)).sockets i).runner = .dispatching effects ok →
        .txProcessor data ∈ deliversIn effects →
          ∃ S', Works cfg S S' ∧ (S'.nodes j).Has cfg data
  | [], S, _, hd => absurd hd List.not_mem_nil
  | effect :: effects, S, hr, hd => by
    have hl : (S.links k (cfg.mempoolAddress j)).step cfg.receiverHandler (.proceed i) =
        some ((S.links k (cfg.mempoolAddress j)).proceed i ok (effect :: effects)) := by
      simp [Link.step, hr]
    obtain ⟨S₁, hstep, hlink, hnode⟩ := exists_step_link hk hj
      (show Internal (Network.Receiving.Event.proceed i) from trivial) hl
    have hworks : Works cfg S S₁ := works_step hstep trivial
    have hnext : ((S₁.links k (cfg.mempoolAddress j)).sockets i).runner =
        .dispatching effects ok := by
      rw [hlink]
      cases effect <;> simp [Link.proceed, set_self]
    cases effect with
    | reply bytes =>
      obtain ⟨S', hworks', hhas⟩ := works_runner hk hj hnext hd
      exact ⟨S', hworks.trans hworks', hhas⟩
    | deliver value =>
      rcases List.mem_cons.mp (show .txProcessor data ∈ value :: deliversIn effects from hd) with
        rfl | hd
      · refine ⟨S₁, hworks, ?_⟩
        rw [hnode]
        refine has_foldl_deliver _ (.inr ?_)
        simp [Link.proceed, Link.set]
      · obtain ⟨S', hworks', hhas⟩ := works_runner hk hj hnext hd
        exact ⟨S', hworks.trans hworks', hhas⟩

theorem works_received (hk : cfg.Honest k) (hj : cfg.Honest j) (h : Received cfg S k j data) :
    ∃ S', Works cfg S S' ∧ (S'.nodes j).Has cfg data := by
  rcases h with hhas | ⟨i, hi⟩
  · exact ⟨S, .refl S, hhas⟩
  · rcases hr : ((S.links k (cfg.mempoolAddress j)).sockets i).runner with _ | ⟨effects, ok⟩ | _ <;>
      rw [hr] at hi
    · exact absurd hi List.not_mem_nil
    · exact works_runner hk hj hr hi
    · exact absurd hi List.not_mem_nil

theorem step_ownProcessor (hj : cfg.Honest j) {batches : List SerializedBatchMessage}
    (h : (S.nodes j).ownBatches = data :: batches) : step cfg S (j, .ownProcessor) =
      some (S.setNode j ({ S.nodes j with ownBatches := batches }.process cfg data)) := by
  simp [step, hj, h]

theorem step_peerProcessor (hj : cfg.Honest j) {batches : List SerializedBatchMessage}
    (h : (S.nodes j).peerBatches = data :: batches) : step cfg S (j, .peerProcessor) =
      some (S.setNode j ({ S.nodes j with peerBatches := batches }.process cfg data)) := by
  simp [step, hj, h]

theorem step_helper (hj : cfg.Honest j) {digests : List C.Digest} {origin : C.PublicKey}
    {requests : List (List C.Digest × C.PublicKey)}
    (h : (S.nodes j).rxHelper = (digests, origin) :: requests) : step cfg S (j, .helper) =
      some (S.setNode j ({ S.nodes j with rxHelper := requests }.help cfg digests origin)) := by
  simp [step, hj, h]

/-- **A batch that a node has gets stored.** -/
theorem works_store (hj : cfg.Honest j) (h : (S.nodes j).Has cfg data) :
    ∃ S', Works cfg S S' ∧ (cfg.digest data, data) ∈ (S'.nodes j).store := by
  have hstored : ∀ (S : Cluster C) (n : Node C), (cfg.digest data, data) ∈
      ((S.setNode j (n.process cfg data)).nodes j).store := fun S n => by
    rw [setNode_self]
    exact List.mem_cons_self
  rcases h with h | h | h
  · have hpop : ∀ (S : Cluster C) x l, True → (S.nodes j).ownBatches = x :: l → ∃ S',
        Next cfg S (j, .ownProcessor) S' ∧ True ∧ (S'.nodes j).ownBatches = l := by
      intro S x l _ hq
      refine ⟨_, step_ownProcessor hj hq, trivial, ?_⟩
      rw [setNode_self]
      rfl
    obtain ⟨n, S₁, l, r, -, hq⟩ := exists_run_head (Next cfg) (j, .ownProcessor)
      (fun S => (S.nodes j).ownBatches) hpop trivial rfl h
    exact ⟨_, (works_replicate r trivial).trans (works_step (step_ownProcessor hj hq) trivial),
      hstored S₁ _⟩
  · have hpop : ∀ (S : Cluster C) x l, True → (S.nodes j).peerBatches = x :: l → ∃ S',
        Next cfg S (j, .peerProcessor) S' ∧ True ∧ (S'.nodes j).peerBatches = l := by
      intro S x l _ hq
      refine ⟨_, step_peerProcessor hj hq, trivial, ?_⟩
      rw [setNode_self]
      rfl
    obtain ⟨n, S₁, l, r, -, hq⟩ := exists_run_head (Next cfg) (j, .peerProcessor)
      (fun S => (S.nodes j).peerBatches) hpop trivial rfl h
    exact ⟨_, (works_replicate r trivial).trans (works_step (step_peerProcessor hj hq) trivial),
      hstored S₁ _⟩
  · exact ⟨S, .refl S, h⟩

/-- **The helper serves a request** for a digest that the node has stored something under. -/
theorem works_help (hj : cfg.Honest j) {origin : C.PublicKey} (ho : origin ∈ cfg.committee.keys)
    {digests : List C.Digest} {digest : C.Digest} (hd : digest ∈ digests)
    (hs : (S.nodes j).store.lookup digest = some data)
    (h : (digests, origin) ∈ (S.nodes j).rxHelper) :
    ∃ S', Works cfg S S' ∧ (origin, data) ∈ (S'.nodes j).helped := by
  have hstore : ∀ (n : Node C) (digests : List C.Digest) (origin : C.PublicKey),
      (n.help cfg digests origin).store = n.store ∧
        (n.help cfg digests origin).rxHelper = n.rxHelper := fun n digests origin => by
    unfold Node.help
    split_ifs <;> exact ⟨rfl, rfl⟩
  have hpop : ∀ (S : Cluster C) x l, (S.nodes j).store.lookup digest = some data →
      (S.nodes j).rxHelper = x :: l → ∃ S', Next cfg S (j, .helper) S' ∧
        (S'.nodes j).store.lookup digest = some data ∧ (S'.nodes j).rxHelper = l := by
    intro S x l hs hq
    refine ⟨_, step_helper hj hq, ?_, ?_⟩
    · rw [setNode_self, (hstore _ _ _).1]
      exact hs
    · rw [setNode_self, (hstore _ _ _).2]
  obtain ⟨n, S₁, l, r, hs₁, hq⟩ := exists_run_head (Next cfg) (j, .helper)
    (fun S => (S.nodes j).rxHelper) hpop hs rfl h
  refine ⟨_, (works_replicate r trivial).trans (works_step (step_helper hj hq) trivial), ?_⟩
  rw [setNode_self, Node.help, if_pos ho]
  exact List.mem_append_right _ (List.mem_filterMap.mpr ⟨digest, hd, by simp [hs₁]⟩)

theorem exists_lookup (hs : Stores cfg (S.nodes j)) (hd : IsBatch cfg data)
    (h : (cfg.digest data, data) ∈ (S.nodes j).store) :
    ∃ data', (S.nodes j).store.lookup (cfg.digest data) = some data' ∧
      cfg.digest data' = cfg.digest data ∧ IsBatch cfg data' := by
  obtain ⟨data', hl⟩ := Option.isSome_iff_exists.mp
    (List.lookup_isSome_iff.mpr ⟨_, h, beq_self_eq_true _⟩)
  exact ⟨data', hl, hs.lookup hd hl⟩

/-- A message is received. -/
theorem step_message (hj : cfg.Honest j) (message : List UInt8) :
    step cfg S (j, .message message) = some (S.setNode j
      ((deliversIn (cfg.receiverHandler.dispatch message)).foldl Node.deliver (S.nodes j))) := by
  simp [step, hj]

/-- A request of the third authority for the batch. -/
def fourRequest : List UInt8 := [1, 0, 0, 0, 2] ++ fourSetup.serialize [[7]]

end Works

end Hotstuff.Mempool.Cluster
