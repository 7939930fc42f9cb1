import Hotstuff.Lib.Redelivery
import Hotstuff.Network.Receiving

/-! # What a link delivers

A message that is acknowledged has been received, and its reply is the one that the handler of the
peer made for it (`acked_received`). The peer receives the messages in the order in which they were
submitted, up to repetitions and to messages that the caller cancelled (`received_in_order`). The
handler has to answer each message exactly once: the connection counts the replies. -/

namespace Hotstuff.Network.Acknowledging

open Hotstuff.Lib.Lists Hotstuff.Lib.Transition Hotstuff.Lib.Redelivery
open Hotstuff.Network.ReliableSender hiding Event
open Hotstuff.Network.Receiving

variable {D R X : Type}

/-! ### The invariant -/

def repliesIn (l : List (Effect R X)) : List R :=
  l.filterMap fun
    | .reply bytes => some bytes
    | .deliver _ => none

def deliversIn (l : List (Effect R X)) : List X :=
  l.filterMap fun
    | .reply _ => none
    | .deliver value => some value

/-- The handler answers the message once. -/
def Answers (H : Handler D R X) (data : D) : Prop := ∃ bytes, repliesIn (H.dispatch data) = [bytes]

/-- What holds of a connection in every run. -/
structure Reliable (c : Connection D R) : Prop where
  idle : Idle c
  kept : Kept c c.held
  matched : Matched c
  ordered : Ordered c

/-- What holds of each TCP connection of a link that has received the messages `l`. -/
structure SocketOk (H : Handler D R X) (c : Connection D R) (l : List (InnerMessage D))
    (k : Socket D R X) : Prop where
  replies : k.answered ++ k.replies ++ repliesIn k.runner.left =
    k.received.flatMap fun m => repliesIn (H.dispatch m.data)
  increasing : ((k.received ++ k.frames).map InnerMessage.cancelHandler).Pairwise (· < ·)
  received : k.received ⊆ l
  taken : k.frames ⊆ c.taken
  gapless : Gapless (fun n => n ∈ c.closed ∨ n ∈ l.map InnerMessage.cancelHandler)
    (k.frames.map InnerMessage.cancelHandler)

/-- The TCP connection in use: what has been written is received or on its way. -/
structure InUse (c : Connection D R) (k : Socket D R X) : Prop where
  written : Connected c →
    (k.received ++ k.frames).map InnerMessage.cancelHandler = (onConnection c.trace).1
  answered : Connected c → k.answered.length = (onConnection c.trace).2

/-- The invariant of a link. -/
structure Sound (H : Handler D R X) (s : Link D R X) : Prop where
  connection : Reliable s.connection
  inUse : InUse s.connection s.socket
  sockets : ∀ i, SocketOk H s.connection s.received (s.sockets i)
  unopened : ∀ i, s.current < i → s.sockets i = .new
  taken : s.received ⊆ s.connection.taken
  gapless : Gapless (· ∈ s.connection.closed) (s.received.map InnerMessage.cancelHandler)
  acked : ∀ bytes n, .reply bytes (some n) ∈ s.connection.trace →
    ∃ m ∈ s.received, m.cancelHandler = n ∧ repliesIn (H.dispatch m.data) = [bytes]

section Sound

variable {H : Handler D R X} {s s' : Link D R X} {k : Socket D R X} {c c' : Connection D R}
  {l l' : List (InnerMessage D)} {e : ReliableSender.Event D R}

theorem reliable_step (h : c.step e = some c') (hc : Reliable c) : Reliable c' := by
  obtain ⟨hi, hk⟩ := kept_step h hc.idle hc.kept
  exact ⟨hi, hk, matched_step h hc.matched, ordered_step h hc.idle hc.kept hc.ordered⟩

theorem SocketOk.mono (h : SocketOk H c l k) (hc : Recorded c c' e) (hl : l ⊆ l') :
    SocketOk H c' l' k :=
  ⟨h.replies, h.increasing, List.Subset.trans h.received hl,
    List.Subset.trans h.taken hc.taken_subset,
    h.gapless.mono fun _ => Or.imp (hc.closed_subset ·) (List.map_subset _ hl ·)⟩

theorem ok_new : SocketOk H c l (Socket.new : Socket D R X) :=
  ⟨rfl, List.Pairwise.nil, List.nil_subset _, List.nil_subset _, gapless_nil⟩

theorem unopened_set {i : ℕ} (hi : i ≤ s.current) (hs : ∀ j, s.current < j → s.sockets j = .new)
    {j : ℕ} (hj : s.current < j) : (s.set i k).sockets j = .new := by
  rw [set_of_ne s k (by omega), hs j hj]

/-- What is not about the TCP connection in use. -/
theorem unrelated_actions
    (he : e ≠ .connect true ∧ e ≠ .write true ∧ ∀ bytes, e ≠ .reply bytes) :
    ∀ a ∈ actions c e, Unrelated a := by
  cases e with
  | recv => exact List.forall_mem_map.mpr fun _ _ => trivial
  | connect ok | write ok => cases ok <;> simp_all [actions]
  | reply bytes => exact absurd rfl (he.2.2 bytes)
  | _ => simp [actions]

/-- The answers of a handler that answers each message once. -/
theorem exists_answered : ∀ {l : List (InnerMessage D)} {n : ℕ} {bytes : R},
    (∀ m ∈ l, Answers H m.data) →
      (l.flatMap fun m => repliesIn (H.dispatch m.data))[n]? = some bytes →
        ∃ m, l[n]? = some m ∧ repliesIn (H.dispatch m.data) = [bytes]
  | [], n, bytes, _, h => by simp at h
  | m :: l, n, bytes, hl, h => by
    obtain ⟨b, hb⟩ := hl m List.mem_cons_self
    rw [List.flatMap_cons, hb] at h
    rcases n with _ | n
    · refine ⟨m, rfl, ?_⟩
      rw [hb]
      exact congrArg (fun x => [x]) (Option.some.inj h)
    · exact exists_answered (l := l) (fun x hx => hl x (List.mem_cons_of_mem _ hx)) h

theorem sound_quiet (h : s.connection.step e = some c)
    (he : e ≠ .connect true ∧ e ≠ .write true ∧ ∀ bytes, e ≠ .reply bytes) (hs : Sound H s) :
    Sound H { s with connection := c } := by
  have hrec := recorded_step h
  have hon : onConnection c.trace = onConnection s.connection.trace :=
    hrec.onConnection.trans (onConnection_unrelated (unrelated_actions he))
  have hcon : Connected c → Connected s.connection := fun hc =>
    (hrec.connected hc).resolve_right he.1
  refine ⟨reliable_step h hs.connection, ⟨fun hc => ?_, fun hc => ?_⟩, fun i => ?_, hs.unopened,
    List.Subset.trans hs.taken hrec.taken_subset,
    hs.gapless.mono fun _ => (hrec.closed_subset ·), ?_⟩
  · exact (hs.inUse.written (hcon hc)).trans (by rw [hon])
  · exact (hs.inUse.answered (hcon hc)).trans (by rw [hon])
  · exact (hs.sockets i).mono hrec (List.Subset.refl _)
  · exact fun bytes n hm => hs.acked bytes n ((hrec.acked hm).resolve_right fun h =>
      he.2.2 bytes h.1)

theorem sound_connected (h : s.connection.step (.connect true) = some c) (hs : Sound H s) :
    Sound H { s.set (s.current + 1) .new with current := s.current + 1, connection := c } := by
  have hrec := recorded_step h
  have hon : onConnection c.trace = ([], 0) := hrec.onConnection.trans onConnection_established
  refine ⟨reliable_step h hs.connection, ?_, ?_, fun i hi => ?_,
    List.Subset.trans hs.taken hrec.taken_subset, hs.gapless.mono fun _ => (hrec.closed_subset ·),
    fun bytes n hm => hs.acked bytes n ((hrec.acked hm).resolve_right fun h => by cases h.1)⟩
  · show InUse c ((s.set (s.current + 1) .new).sockets (s.current + 1))
    rw [set_self]
    exact ⟨fun _ => by rw [hon]; rfl, fun _ => by rw [hon]; rfl⟩
  · exact forall_set ok_new fun j => (hs.sockets j).mono hrec (List.Subset.refl _)
  · have hlt : s.current + 1 < i := hi
    exact (set_of_ne s _ (by omega)).trans (hs.unopened i (by omega))

/-- What has a smaller number than the message that is being written has been received, or has been
cancelled, or is on its way on the same TCP connection. -/
theorem gone_before {m : InnerMessage D} (hm : s.connection.mode = .sending m) (hs : Sound H s)
    {n : ℕ} (hn : n < m.cancelHandler) : (n ∈ s.connection.closed ∨
      n ∈ s.received.map InnerMessage.cancelHandler) ∨
        n ∈ s.socket.frames.map InnerMessage.cancelHandler := by
  have hk := hs.connection.kept
  have hc : Connected s.connection := ⟨by simp [hm], by simp [hm]⟩
  have hheld : s.connection.held =
      s.connection.pendingReplies ++ m :: s.connection.buffer := by
    simp [Connection.held, Connection.inFlight, hm]
  have hlt : m.cancelHandler < s.connection.taken.length :=
    lt_of_held hk (List.mem_map_of_mem (by simp [hheld]))
  -- the message with the number has been taken from the channel
  have hmem : n ∈ s.connection.taken.map InnerMessage.cancelHandler := by
    rw [numbers_taken hk, List.mem_range]
    exact hn.trans hlt
  obtain ⟨x, hx, rfl⟩ := List.mem_map.mp hmem
  by_cases hacked : x.cancelHandler ∈ s.connection.acked
  · obtain ⟨a, ha, hax⟩ := List.mem_filterMap.mp hacked
    cases a <;> simp only [ackedBy, reduceCtorEq] at hax
    subst hax
    obtain ⟨y, hy, hyx, -⟩ := hs.acked _ _ ha
    exact .inl (.inr (hyx ▸ List.mem_map_of_mem hy))
  by_cases hdropped : x.cancelHandler ∈ s.connection.dropped
  · exact .inl (.inl (hk.closed _ hdropped))
  have hxheld : x ∈ s.connection.held := by
    rw [hk.held, List.mem_filter]
    exact ⟨hx, by simp [hacked, hdropped]⟩
  -- it is held before the message that is being written
  have hpending : x ∈ s.connection.pendingReplies := by
    have hinc := increasing_of_kept hk
    rw [hheld, List.map_append, List.map_cons] at hinc
    have hafter := (List.pairwise_cons.mp (List.pairwise_append.mp hinc).2.1).1
    rw [hheld, List.mem_append, List.mem_cons] at hxheld
    rcases hxheld with hxp | rfl | hxb
    · exact hxp
    · exact absurd hn (Nat.lt_irrefl _)
    · exact absurd (hafter _ (List.mem_map_of_mem hxb)) (by omega)
  have hdrop := (hs.connection.matched.established hc.1 hc.2).eq
  have hwritten : x.cancelHandler ∈
      (s.socket.received ++ s.socket.frames).map InnerMessage.cancelHandler := by
    rw [hs.inUse.written hc]
    exact List.mem_of_mem_drop (hdrop ▸ List.mem_map_of_mem hpending)
  rw [List.map_append, List.mem_append] at hwritten
  exact hwritten.imp_left fun h => .inr (List.map_subset _ (hs.sockets s.current).received h)

/-- After a write, or an error of it. -/
theorem onConnection_write {ok : Bool} {m : InnerMessage D} (hm : c.mode = .sending m)
    (h : c.step (.write ok) = some c') (hc : Connected c') :
    onConnection c'.trace =
      ((onConnection c.trace).1 ++ [m.cancelHandler], (onConnection c.trace).2) := by
  cases ok
  · unfold Connection.step at h
    simp only [hm, Bool.false_eq_true, if_false, Option.some.injEq] at h
    exact absurd (h ▸ rfl) hc.1
  · rw [(recorded_step h).onConnection, actions, show c.inFlight = [m] by
      simp [Connection.inFlight, hm]]
    exact onConnection_written _

theorem sound_pushed {ok : Bool} {m : InnerMessage D} (hm : s.connection.mode = .sending m)
    (h : s.connection.step (.write ok) = some c) (hs : Sound H s) :
    Sound H { s.set s.current { s.socket with frames := s.socket.frames ++ [m] } with
      connection := c } := by
  have hrec := recorded_step h
  have hcon : Connected s.connection := ⟨by simp [hm], by simp [hm]⟩
  have hfl : s.connection.inFlight = [m] := by simp [Connection.inFlight, hm]
  have hw := hs.inUse.written hcon
  have hok := hs.sockets s.current
  have hnew : SocketOk H s.connection s.received
      { s.socket with frames := s.socket.frames ++ [m] } := by
    refine ⟨hok.replies, ?_, hok.received, ?_, ?_⟩
    · show ((s.socket.received ++ (s.socket.frames ++ [m])).map _).Pairwise _
      have hinc := hs.connection.ordered.written hcon
      rw [hfl, ← hw, ← List.map_append, ← List.append_assoc, List.map_append,
        List.append_assoc] at hinc
      exact (List.pairwise_append.mp hinc).1
    · have hheld : m ∈ s.connection.held := by simp [Connection.held, hfl]
      rw [hs.connection.kept.held] at hheld
      exact List.append_subset.mpr ⟨hok.taken, List.forall_mem_singleton.mpr
        (List.mem_of_mem_filter hheld)⟩
    · rw [List.map_append]
      exact hok.gapless.snoc fun n hn => gone_before hm hs hn
  refine ⟨reliable_step h hs.connection, ?_,
    forall_set (hnew.mono hrec (List.Subset.refl _)) fun j =>
      (hs.sockets j).mono hrec (List.Subset.refl _),
    fun i hi => unopened_set le_rfl hs.unopened hi,
    List.Subset.trans hs.taken hrec.taken_subset, hs.gapless.mono fun _ => (hrec.closed_subset ·),
    fun bytes n hb => hs.acked bytes n ((hrec.acked hb).resolve_right fun h => by cases h.1)⟩
  show InUse c ((s.set s.current _).sockets s.current)
  rw [set_self]
  refine ⟨fun hc => ?_, fun hc => ?_⟩
  · rw [onConnection_write hm h hc, ← hw, ← List.append_assoc, List.map_append]
    rfl
  · rw [onConnection_write hm h hc]
    exact hs.inUse.answered hcon

/-- The reply that is read is the one for the first message without a reply. -/
theorem answer_of_reply (hH : ∀ m ∈ s.connection.taken, Answers H m.data) {bytes : R}
    {replies : List R} (hr : s.socket.replies = bytes :: replies)
    (h : s.connection.step (.reply bytes) = some c) (hs : Sound H s) {n : ℕ}
    (hn : s.connection.pendingReplies.head?.map InnerMessage.cancelHandler = some n) :
    ∃ m ∈ s.received, m.cancelHandler = n ∧ repliesIn (H.dispatch m.data) = [bytes] := by
  have hok : SocketOk H s.connection s.received s.socket := hs.sockets s.current
  have hreplies := hok.replies
  rw [hr] at hreplies
  have hcon : Connected s.connection := by
    unfold Connection.step at h
    rcases hm : s.connection.mode with _ | _ | m | _ <;> simp only [hm, reduceCtorEq] at h
    exact ⟨by simp [hm], by simp [hm]⟩
  -- the message written at the position of the reply
  have hpos : (onConnection s.connection.trace).1[s.socket.answered.length]? = some n := by
    rw [hs.inUse.answered hcon, ← List.head?_drop,
      ← (hs.connection.matched.established hcon.1 hcon.2).eq, List.head?_map, hn]
  rw [← hs.inUse.written hcon] at hpos
  have hreply : (s.socket.received.flatMap fun m =>
      repliesIn (H.dispatch m.data))[s.socket.answered.length]? = some bytes := by
    rw [← hreplies]
    simp
  obtain ⟨m, hm, hmr⟩ := exists_answered
    (fun x hx => hH x (hs.taken (hok.received hx))) hreply
  refine ⟨m, hok.received (List.mem_of_getElem? hm), ?_, hmr⟩
  rw [List.map_append, List.getElem?_append_left, List.getElem?_map, hm] at hpos
  · exact Option.some.inj hpos
  · rw [List.length_map]
    exact (List.getElem?_eq_some_iff.mp hm).1

theorem sound_answered (hH : ∀ m ∈ s.connection.taken, Answers H m.data) {bytes : R}
    {replies : List R} (hr : s.socket.replies = bytes :: replies)
    (h : s.connection.step (.reply bytes) = some c) (hs : Sound H s) :
    Sound H { s.set s.current { s.socket with
      replies := replies
      answered := s.socket.answered ++ [bytes] } with
      connection := c } := by
  have hrec := recorded_step h
  have hok : SocketOk H s.connection s.received s.socket := hs.sockets s.current
  have hreplies := hok.replies
  rw [hr] at hreplies
  have hcon : Connected c → Connected s.connection := fun hc =>
    (hrec.connected hc).resolve_right (by simp)
  have hon : onConnection c.trace =
      ((onConnection s.connection.trace).1, (onConnection s.connection.trace).2 + 1) :=
    hrec.onConnection.trans (onConnection_reply _ _)
  have hnew : SocketOk H s.connection s.received { s.socket with
      replies := replies
      answered := s.socket.answered ++ [bytes] } := by
    refine ⟨?_, hok.increasing, hok.received, hok.taken, hok.gapless⟩
    rw [← hreplies]
    simp
  refine ⟨reliable_step h hs.connection, ?_,
    forall_set (hnew.mono hrec (List.Subset.refl _)) fun j =>
      (hs.sockets j).mono hrec (List.Subset.refl _),
    fun i hi => unopened_set le_rfl hs.unopened hi,
    List.Subset.trans hs.taken hrec.taken_subset, hs.gapless.mono fun _ => (hrec.closed_subset ·),
    fun bytes' n hb => ?_⟩
  · show InUse c ((s.set s.current _).sockets s.current)
    rw [set_self]
    refine ⟨fun hc => ?_, fun hc => ?_⟩
    · rw [hon]
      exact hs.inUse.written (hcon hc)
    · rw [hon, List.length_append, hs.inUse.answered (hcon hc)]
      rfl
  · rcases hrec.acked hb with hb | ⟨he, hn⟩
    · exact hs.acked bytes' n hb
    · cases he
      exact answer_of_reply hH hr h hs hn

theorem sound_frame {i : ℕ} {m : InnerMessage D} {ms : List (InnerMessage D)}
    (hr : (s.sockets i).runner = .reading) (hf : (s.sockets i).frames = m :: ms)
    (hs : Sound H s) :
    Sound H { s.set i { s.sockets i with
      frames := ms
      runner := .dispatching (H.dispatch m.data) (H.ok m.data)
      received := (s.sockets i).received ++ [m] } with
      received := s.received ++ [m] } := by
  have hok := hs.sockets i
  have hgap := hok.gapless
  have htaken := hok.taken
  rw [hf, List.map_cons] at hgap
  rw [hf] at htaken
  have hsub : s.received ⊆ s.received ++ [m] := List.subset_append_left _ _
  have hmove : (s.sockets i).received ++ [m] ++ ms =
      (s.sockets i).received ++ (s.sockets i).frames := by rw [hf, List.append_assoc]; rfl
  have hmem : ∀ n, (n ∈ s.connection.closed ∨
      n ∈ s.received.map InnerMessage.cancelHandler) ∨ n = m.cancelHandler →
        n ∈ s.connection.closed ∨ n ∈ (s.received ++ [m]).map InnerMessage.cancelHandler := by
    intro n hn
    rw [List.map_append, List.mem_append, List.map_singleton, List.mem_singleton]
    exact hn.elim (Or.imp_right .inl) fun h => .inr (.inr h)
  have hi : i ≤ s.current := by
    by_contra hlt
    rw [hs.unopened i (by omega)] at hf
    cases hf
  refine ⟨hs.connection, ?_, forall_set ?_ fun j => ?_, fun j hj => unopened_set hi hs.unopened hj,
    List.append_subset.mpr ⟨hs.taken, List.forall_mem_singleton.mpr (htaken List.mem_cons_self)⟩,
    ?_, fun bytes n hb => ?_⟩
  · show InUse s.connection ((s.set i _).sockets s.current)
    refine ⟨fun hc => ?_, fun hc => ?_⟩
    · rw [view_set (fun k => k.received ++ k.frames) hmove]
      exact hs.inUse.written hc
    · exact (congrArg List.length (view_set Socket.answered (by rfl) _)).trans
        (hs.inUse.answered hc)
  · refine ⟨?_, ?_, ?_, List.Subset.trans (List.subset_cons_self _ _) htaken, hgap.tail hmem⟩
    · have hreplies := hok.replies
      rw [hr] at hreplies
      rw [List.flatMap_append, ← hreplies]
      simp [Runner.left, repliesIn]
    · rw [hmove]
      exact hok.increasing
    · exact List.append_subset.mpr ⟨List.Subset.trans hok.received hsub,
        List.subset_append_right _ _⟩
  · have h := hs.sockets j
    exact ⟨h.replies, h.increasing, List.Subset.trans h.received hsub, h.taken,
      h.gapless.mono fun n hn => hmem n (.inl hn)⟩
  · rw [List.map_append]
    exact hs.gapless.snoc hgap.head
  · obtain ⟨x, hx, h⟩ := hs.acked bytes n hb
    exact ⟨x, hsub hx, h⟩

/-- The task of a TCP connection goes on. -/
theorem sound_runner {i : ℕ} {k : Socket D R X} (hi : i ≤ s.current)
    (hframes : k.frames = (s.sockets i).frames) (hreceived : k.received = (s.sockets i).received)
    (hanswered : k.answered = (s.sockets i).answered)
    (hreplies : k.replies ++ repliesIn k.runner.left =
      (s.sockets i).replies ++ repliesIn (s.sockets i).runner.left) (hs : Sound H s) :
    Sound H (s.set i k) := by
  have hok := hs.sockets i
  refine ⟨hs.connection, ?_, forall_set ?_ hs.sockets, fun j hj => unopened_set hi hs.unopened hj,
    hs.taken, hs.gapless, hs.acked⟩
  · show InUse s.connection ((s.set i _).sockets s.current)
    refine ⟨fun hc => ?_, fun hc => ?_⟩
    · rw [view_set (fun k => k.received ++ k.frames) (by rw [hframes, hreceived])]
      exact hs.inUse.written hc
    · rw [view_set Socket.answered hanswered]
      exact hs.inUse.answered hc
  · refine ⟨?_, ?_, ?_, ?_, ?_⟩
    · rw [List.append_assoc, hreplies, hanswered, hreceived, ← hok.replies, List.append_assoc]
    · rw [hreceived, hframes]
      exact hok.increasing
    · rw [hreceived]
      exact hok.received
    · rw [hframes]
      exact hok.taken
    · rw [hframes]
      exact hok.gapless

/-- **A change keeps the invariant.** -/
theorem sound_change (h : Change H s s') (hH : ∀ m ∈ s.connection.taken, Answers H m.data)
    (hs : Sound H s) : Sound H s' := by
  have hopen : ∀ i, (s.sockets i).runner ≠ .reading → i ≤ s.current := by
    intro i hi
    by_contra hlt
    exact hi (by rw [hs.unopened i (by omega)]; rfl)
  cases h with
  | quiet h he => exact sound_quiet h he hs
  | connected h => exact sound_connected h hs
  | pushed hm h => exact sound_pushed hm h hs
  | answered hr h => exact sound_answered hH hr h hs
  | frame hr hf => exact sound_frame hr hf hs
  | @replied i bytes effects ok hr =>
    refine sound_runner (hopen i (by simp [hr])) rfl rfl rfl ?_ hs
    simp [hr, Runner.left, repliesIn]
  | @delivered i value effects ok hr =>
    have hs' := sound_runner (k := { s.sockets i with runner := .dispatching effects ok })
      (hopen i (by simp [hr])) rfl rfl rfl (by simp [hr, Runner.left, repliesIn]) hs
    exact ⟨hs'.connection, hs'.inUse, hs'.sockets, hs'.unopened, hs'.taken, hs'.gapless, hs'.acked⟩
  | @returned i runner hr hi hl =>
    refine sound_runner (hi.elim (hopen i) id) rfl rfl rfl ?_ hs
    simp [hr, hl]

theorem sound_new : Sound H (Link.new : Link D R X) := by
  have hidle : Idle (Connection.new : Connection D R) := fun _ => rfl
  have hkept : Kept (Connection.new : Connection D R) Connection.new.held :=
    (run_kept .nil).2
  refine ⟨⟨hidle, hkept, run_matched .nil, ordered_of_closed (.inl rfl)⟩,
    ⟨fun h => absurd rfl h.1, fun h => absurd rfl h.1⟩, fun _ => ok_new, fun _ _ => rfl,
    List.nil_subset _, gapless_nil, ?_⟩
  intro bytes n h
  simp [Link.new, Connection.new] at h

end Sound

/-! ### What the handler delivers -/

/-- What the handler delivers of what is received is delivered, or a runner is about to. -/
structure Delivers (H : Handler D R X) (s : Link D R X) : Prop where
  done : ∀ m ∈ s.received, ∀ x ∈ deliversIn (H.dispatch m.data),
    x ∈ s.delivered ∨ ∃ i, x ∈ deliversIn (s.sockets i).runner.left
  delivered : ∀ x ∈ s.delivered, ∃ m ∈ s.received, x ∈ deliversIn (H.dispatch m.data)
  left : ∀ i, ∀ x ∈ deliversIn (s.sockets i).runner.left,
    ∃ m ∈ s.received, x ∈ deliversIn (H.dispatch m.data)

section Delivers

variable {H : Handler D R X} {s s' : Link D R X} {k : Socket D R X} {i : ℕ}

theorem Delivers.congr (h : Delivers H s) (hr : s'.received = s.received)
    (hd : s'.delivered = s.delivered)
    (hl : ∀ j, deliversIn (s'.sockets j).runner.left = deliversIn (s.sockets j).runner.left) :
    Delivers H s' := by
  refine ⟨?_, ?_, ?_⟩
  · simp only [hr, hd, hl]
    exact h.done
  · simp only [hr, hd]
    exact h.delivered
  · simp only [hr, hl]
    exact h.left

theorem delivers_frame {m : InnerMessage D} {ms : List (InnerMessage D)}
    (hr : (s.sockets i).runner = .reading) (h : Delivers H s) :
    Delivers H { s.set i { s.sockets i with
      frames := ms
      runner := .dispatching (H.dispatch m.data) (H.ok m.data)
      received := (s.sockets i).received ++ [m] } with
      received := s.received ++ [m] } := by
  have hnil : deliversIn (s.sockets i).runner.left = [] := by rw [hr]; rfl
  have hm : m ∈ s.received ++ [m] := List.mem_append_right _ (List.mem_singleton_self m)
  refine ⟨fun y hy x hx => ?_, fun x hx => ?_, fun j x hx => ?_⟩
  · rcases List.mem_append.mp hy with hy | hy
    · refine (h.done y hy x hx).imp_right fun ⟨j, hj⟩ => ⟨j, ?_⟩
      have hne : j ≠ i := by
        rintro rfl
        simp [hnil] at hj
      exact (set_of_ne s _ hne).symm ▸ hj
    · rw [List.mem_singleton.mp hy] at hx
      exact .inr ⟨i, (set_self s i _).symm ▸ hx⟩
  · obtain ⟨y, hy, hyx⟩ := h.delivered x hx
    exact ⟨y, List.mem_append_left _ hy, hyx⟩
  · by_cases hj : j = i
    · subst hj
      have hleft : x ∈ deliversIn ((s.set j _).sockets j).runner.left := hx
      rw [set_self] at hleft
      exact ⟨m, hm, hleft⟩
    · obtain ⟨y, hy, hyx⟩ := h.left j x ((set_of_ne s _ hj) ▸ hx)
      exact ⟨y, List.mem_append_left _ hy, hyx⟩

theorem delivers_delivered {value : X} {effects : List (Effect R X)} {ok : Bool}
    (hr : (s.sockets i).runner = .dispatching (.deliver value :: effects) ok)
    (h : Delivers H s) :
    Delivers H { s.set i { s.sockets i with runner := .dispatching effects ok } with
      delivered := s.delivered ++ [value] } := by
  have hcons : deliversIn (s.sockets i).runner.left = value :: deliversIn effects := by
    rw [hr]
    rfl
  refine ⟨fun y hy x hx => ?_, fun x hx => ?_, fun j x hx => ?_⟩
  · rcases h.done y hy x hx with hx | ⟨j, hj⟩
    · exact .inl (List.mem_append_left _ hx)
    · by_cases hji : j = i
      · subst hji
        rw [hcons] at hj
        rcases List.mem_cons.mp hj with rfl | hj
        · exact .inl (List.mem_append_right _ (List.mem_singleton_self _))
        · exact .inr ⟨j, (set_self s j _).symm ▸ hj⟩
      · exact .inr ⟨j, (set_of_ne s _ hji).symm ▸ hj⟩
  · rcases List.mem_append.mp hx with hx | hx
    · exact h.delivered x hx
    · rw [List.mem_singleton.mp hx]
      exact h.left i value (hcons ▸ List.mem_cons_self)
  · by_cases hji : j = i
    · subst hji
      have hleft : x ∈ deliversIn ((s.set j _).sockets j).runner.left := hx
      rw [set_self] at hleft
      exact h.left j x (hcons ▸ List.mem_cons_of_mem _ hleft)
    · exact h.left j x ((set_of_ne s _ hji) ▸ hx)

theorem delivers_change (h : Change H s s') (hs : Sound H s) (hd : Delivers H s) :
    Delivers H s' := by
  cases h with
  | quiet h he => exact hd.congr rfl rfl fun _ => rfl
  | connected h =>
    refine hd.congr rfl rfl (view_set (fun k => deliversIn k.runner.left) ?_)
    rw [hs.unopened _ (by omega)]
  | pushed hm h => exact hd.congr rfl rfl (view_set (fun k => deliversIn k.runner.left) rfl)
  | answered hr h => exact hd.congr rfl rfl (view_set (fun k => deliversIn k.runner.left) rfl)
  | frame hr hf => exact delivers_frame hr hd
  | replied hr =>
    refine hd.congr rfl rfl (view_set (fun k => deliversIn k.runner.left) ?_)
    simp [hr, Runner.left, deliversIn]
  | delivered hr => exact delivers_delivered hr hd
  | returned hr hi hl =>
    refine hd.congr rfl rfl (view_set (fun k => deliversIn k.runner.left) ?_)
    simp [hr, hl]

end Delivers

/-! ### Runs -/

/-- What is submitted at the link. -/
def submits : Event D R → Option D
  | .sender e => sentBy e
  | _ => none

theorem submits_internal {e : Event D R} (h : Internal e) : submits e = none := by
  cases e with
  | sender e => cases e <;> first | rfl | cases h
  | _ => rfl

section Runs

variable [DecidableEq R] {H : Handler D R X} {s s' : Link D R X} {es : List (Event D R)}

theorem transport_connection {e : ReliableSender.Event D R} (h : s.transport e = some s') :
    s'.connection = s.connection := by
  unfold Link.transport at h
  split at h
  · cases h; rfl
  · cases h; rfl
  · rcases hr : s.socket.replies with _ | ⟨reply, replies⟩ <;>
      simp only [hr, reduceCtorEq] at h
    split_ifs at h
    cases h; rfl
  · cases h; rfl

theorem step_connection {e : Event D R} (h : s.step H e = some s') :
    (s'.connection = s.connection ∧ submits e = none) ∨
      ∃ e', s.connection.step e' = some s'.connection ∧ sentBy e' = submits e ∧
        (Internal e → Internal (.sender e')) := by
  cases e with
  | sender e =>
    obtain ⟨s₁, ht, hmap⟩ := Option.bind_eq_some_iff.mp h
    obtain ⟨c, hc, rfl⟩ := Option.map_eq_some_iff.mp hmap
    exact .inr ⟨e, transport_connection ht ▸ hc, rfl, id⟩
  | writeFailed =>
    obtain ⟨c, hc, rfl⟩ := Option.map_eq_some_iff.mp h
    exact .inr ⟨_, hc, rfl, fun _ => trivial⟩
  | frame i =>
    unfold Link.step at h
    rcases hr : (s.sockets i).runner with _ | _ | _ <;>
      rcases hf : (s.sockets i).frames with _ | ⟨m, ms⟩ <;>
      simp only [hr, hf, reduceCtorEq] at h
    cases h
    exact .inl ⟨rfl, rfl⟩
  | proceed i =>
    unfold Link.step at h
    rcases hr : (s.sockets i).runner with _ | ⟨_ | ⟨_ | _, _⟩, ok⟩ | _ <;>
      simp only [hr, reduceCtorEq] at h
    all_goals
      cases h
      exact .inl ⟨rfl, rfl⟩
  | closed i =>
    unfold Link.step at h
    rcases hr : (s.sockets i).runner with _ | _ | _ <;> simp only [hr, reduceCtorEq] at h
    split_ifs at h
    cases h
    exact .inl ⟨rfl, rfl⟩

/-- The run of a link is one of its connection. -/
theorem exists_connectionRun (r : LinkRun H es s) :
    ∃ es', ConnectionRun es' s.connection ∧ es'.filterMap sentBy = es.filterMap submits := by
  induction r with
  | nil => exact ⟨[], .nil, rfl⟩
  | snoc r h ih =>
    obtain ⟨es', r', heq⟩ := ih
    rcases step_connection h with ⟨hc, hn⟩ | ⟨e', he', hs, -⟩
    · refine ⟨es', hc ▸ r', ?_⟩
      rw [filterMap_concat, hn, heq]
      exact (List.append_nil _).symm
    · exact ⟨es' ++ [e'], r'.snoc he', by rw [filterMap_concat, filterMap_concat, hs, heq]⟩

/-- The messages of a link are what has been submitted. -/
theorem data_of_mem (r : LinkRun H es s) {m : InnerMessage D} (hm : m ∈ s.connection.taken) :
    (es.filterMap submits)[m.cancelHandler]? = some m.data := by
  obtain ⟨es', r', heq⟩ := exists_connectionRun r
  have hdata := run_messages r'
  have hnum := (run_kept r').2.order
  obtain ⟨i, hi, hget⟩ := List.getElem_of_mem
    (List.mem_append_left s.connection.receiver hm)
  have hi' : i < s.connection.submitted := by
    have hlen := congrArg List.length hnum
    rw [List.length_map, List.length_range] at hlen
    omega
  have hmi : m.cancelHandler = i := by
    have h : ((s.connection.taken ++ s.connection.receiver).map InnerMessage.cancelHandler)[i]? =
        (List.range s.connection.submitted)[i]? := by rw [hnum]
    rw [List.getElem?_map, List.getElem?_eq_getElem hi, hget, List.getElem?_range hi'] at h
    exact Option.some.inj h
  rw [← heq, ← hdata, hmi, List.getElem?_map]
  simp [Connection.messages, List.getElem?_eq_getElem hi, hget]

/-- The invariant holds when the handler answers what is submitted. -/
theorem run_sound (r : LinkRun H es s) (hH : ∀ data ∈ es.filterMap submits, Answers H data) :
    Sound H s ∧ Delivers H s := by
  induction r with
  | nil => exact ⟨sound_new, by simp [Link.new], by simp [Link.new], fun i x hx => by cases hx⟩
  | snoc r h ih =>
    rw [filterMap_concat, List.forall_mem_append] at hH
    obtain ⟨hs, hd⟩ := ih hH.1
    have hc := step_change h
    refine ⟨sound_change hc (fun m hm => ?_) hs, delivers_change hc hs hd⟩
    exact hH.1 _ (List.mem_of_getElem? (data_of_mem r hm))

/-- **What is acknowledged has been received**, and the reply is the one that the handler of the
peer makes for the message; what the handler delivers of it is delivered, or a runner of the peer is
about to deliver it. -/
theorem acked_received (r : LinkRun H es s) (hH : ∀ data ∈ es.filterMap submits, Answers H data)
    {bytes : R} {n : ℕ} (h : .reply bytes (some n) ∈ s.connection.trace) :
    ∃ data, (es.filterMap submits)[n]? = some data ∧ repliesIn (H.dispatch data) = [bytes] ∧
      (∃ m ∈ s.received, m.cancelHandler = n ∧ m.data = data) ∧
      ∀ x ∈ deliversIn (H.dispatch data),
        x ∈ s.delivered ∨ ∃ i, x ∈ deliversIn (s.sockets i).runner.left := by
  obtain ⟨hs, hd⟩ := run_sound r hH
  obtain ⟨m, hm, rfl, hb⟩ := hs.acked bytes n h
  exact ⟨m.data, data_of_mem r (hs.taken hm), hb, ⟨m, hm, rfl, rfl⟩, hd.done m hm⟩

/-- A handler that acknowledges a message and delivers it. -/
def acknowledge : Handler ℕ ℕ ℕ := ⟨fun data => [.reply 0, .deliver data], fun _ => true⟩

/-- Two messages are written and received; the TCP connection breaks after the first reply, and the
second message is written and received again on the next one. -/
def resend : List (Event ℕ ℕ) :=
  [.sender (.send 10), .sender (.send 11), .sender (.connect true), .sender .recv,
    .sender (.write true), .sender .recv, .sender (.write true), .frame 1, .proceed 1, .proceed 1,
    .proceed 1, .frame 1, .sender (.reply 0), .sender .readFailed, .sender (.connect true),
    .sender (.write true), .frame 2, .proceed 2, .sender (.reply 0)]

/-- The second message of the run is acknowledged. -/
theorem acked_received_resend : ∃ s : Link ℕ ℕ ℕ, s.connection.acked = [0, 1] ∧
    ∃ m ∈ s.received, m.cancelHandler = 1 ∧ m.data = 11 := by
  obtain ⟨data, hdata, -, h, -⟩ := acked_received (n := 1)
    (run_of_exec (Link.step acknowledge) resend Link.new rfl)
    (by exact fun _ _ => ⟨0, rfl⟩) (List.mem_of_getElem? (i := 8) rfl)
  cases hdata
  exact ⟨_, rfl, h⟩

/-- **The peer receives the messages in order.** Without repetitions, and without what the caller
has cancelled, the messages that the peer has received on all TCP connections are the first of those
submitted; on one TCP connection there are no repetitions, and nothing is received that was not
submitted. -/
theorem received_in_order (r : LinkRun H es s)
    (hH : ∀ data ∈ es.filterMap submits, Answers H data) :
    (s.received.map InnerMessage.cancelHandler).eraseDups.filter (· ∉ s.connection.closed) <+:
      (List.range s.connection.submitted).filter (· ∉ s.connection.closed) ∧
    (∀ i, ((s.sockets i).received.map InnerMessage.cancelHandler).Pairwise (· < ·) ∧
      (s.sockets i).received ⊆ s.received) ∧
    ∀ m ∈ s.received, (es.filterMap submits)[m.cancelHandler]? = some m.data := by
  obtain ⟨hs, -⟩ := run_sound r hH
  refine ⟨?_, fun i => ⟨?_, (hs.sockets i).received⟩, fun m hm => data_of_mem r (hs.taken hm)⟩
  · refine Gapless.prefix_range (hs.gapless.mono fun n hn => not_not.mpr hn) fun n hn => ?_
    have hk := hs.connection.kept
    obtain ⟨m, hm, rfl⟩ := List.mem_map.mp hn
    have hmem : m.cancelHandler ∈
        (s.connection.taken ++ s.connection.receiver).map InnerMessage.cancelHandler :=
      List.mem_map_of_mem (List.mem_append_left _ (hs.taken hm))
    rw [hk.order] at hmem
    exact List.mem_range.mp hmem
  · have hinc := (hs.sockets i).increasing
    rw [List.map_append] at hinc
    exact (List.pairwise_append.mp hinc).1

/-- In the run the second message is received twice. -/
theorem received_in_order_resend : ∃ s : Link ℕ ℕ ℕ,
    s.received.map InnerMessage.cancelHandler = [0, 1, 1] ∧
      (s.received.map InnerMessage.cancelHandler).eraseDups.filter (· ∉ s.connection.closed) <+:
        (List.range s.connection.submitted).filter (· ∉ s.connection.closed) :=
  ⟨_, rfl, (received_in_order (run_of_exec (Link.step acknowledge) resend Link.new rfl)
    fun _ _ => ⟨0, rfl⟩).1⟩

end Runs

end Hotstuff.Network.Acknowledging
