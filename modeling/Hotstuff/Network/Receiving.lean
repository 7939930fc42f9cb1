import Hotstuff.Network.ReliableSender

/-! # The link to a peer

A `Connection` on one side, the `Receiver` of the peer on the other one, and the TCP connections
that they have had (`Socket`). On each of them the receiver has a task of its own, so that frames of
an old TCP connection can still be read when there is a new one.

The connection writes the messages in the order of their numbers (`ordered_step`), and an event of
the link is one of a few changes (`step_change`). -/

namespace Hotstuff.Network.Receiving

open Hotstuff.Lib.Transition Hotstuff.Network.ReliableSender

variable {D R X : Type}

/-- What a handler does with a message. -/
inductive Effect (R X : Type) where
  /-- A frame is written on the TCP connection that the message came from. -/
  | reply (bytes : R)
  /-- A value is put into a channel. -/
  | deliver (value : X)

/-- `MessageHandler`: what `dispatch` does, in order, and whether it returns `Ok`. -/
structure Handler (D R X : Type) where
  dispatch : D → List (Effect R X)
  ok : D → Bool

/-- Where the task spawned by `spawn_runner` is. -/
inductive Runner (R X : Type) where
  /-- In `reader.next()`. -/
  | reading
  /-- In `dispatch`, with what is left of it. -/
  | dispatching (effects : List (Effect R X)) (ok : Bool)
  | ended

/-- A TCP connection. -/
structure Socket (D R X : Type) where
  /-- The messages written and not read. -/
  frames : List (InnerMessage D)
  runner : Runner R X
  /-- The messages read. -/
  received : List (InnerMessage D)
  /-- The replies written and not read. -/
  replies : List R
  /-- The replies read. -/
  answered : List R

structure Link (D R X : Type) where
  connection : Connection D R
  sockets : ℕ → Socket D R X
  /-- The number of TCP connections so far; the last one has this number. -/
  current : ℕ
  /-- The messages received on all TCP connections. -/
  received : List (InnerMessage D)
  /-- What the handler put into its channels. -/
  delivered : List X

def Socket.new : Socket D R X := ⟨[], .reading, [], [], []⟩

inductive Event (D R : Type) where
  /-- An event at the connection; what is read is what the peer wrote. -/
  | sender (event : ReliableSender.Event D R)
  /-- `writer.send` returns an error, although the frame is on its way. -/
  | writeFailed
  /-- `reader.next()` returns a frame in the runner of a TCP connection. -/
  | frame (i : ℕ)
  /-- The runner goes on with `dispatch`, or returns from it. -/
  | proceed (i : ℕ)
  /-- `reader.next()` returns an error or the end of the stream in a runner. -/
  | closed (i : ℕ)

/-- The event is not one of the caller. -/
def Internal : Event D R → Prop
  | .sender (.send _) | .sender (.cancel _) => False
  | _ => True

instance (e : Event D R) : Decidable (Internal e) := by unfold Internal; split <;> infer_instance

namespace Link

def new : Link D R X := ⟨.new, fun _ => .new, 0, [], []⟩

/-- The TCP connection `i` becomes `k`. -/
def set (s : Link D R X) (i : ℕ) (k : Socket D R X) : Link D R X :=
  { s with sockets := Function.update s.sockets i k }

/-- The TCP connection in use. -/
def socket (s : Link D R X) : Socket D R X := s.sockets s.current

/-- The message that is being written gets on its way. -/
def push (s : Link D R X) : Link D R X :=
  s.set s.current { s.socket with frames := s.socket.frames ++ s.connection.inFlight }

/-- What an event at the connection is at the TCP connection in use. -/
def transport [DecidableEq R] (s : Link D R X) : ReliableSender.Event D R → Option (Link D R X)
  | .connect true => some { s.set (s.current + 1) .new with current := s.current + 1 }
  | .write true => some s.push
  | .reply bytes =>
    match s.socket.replies with
    | [] => none
    | reply :: replies =>
      if reply = bytes then
        some (s.set s.current
          { s.socket with replies := replies, answered := s.socket.answered ++ [bytes] })
      else none
  | _ => some s

/-- The runner of the TCP connection `i` goes on with what is left of `dispatch`. -/
def proceed (s : Link D R X) (i : ℕ) (ok : Bool) : List (Effect R X) → Link D R X
  | [] => s.set i { s.sockets i with runner := if ok then .reading else .ended }
  | .reply bytes :: effects =>
    s.set i { s.sockets i with
      runner := .dispatching effects ok
      replies := (s.sockets i).replies ++ [bytes] }
  | .deliver value :: effects =>
    { s.set i { s.sockets i with runner := .dispatching effects ok } with
      delivered := s.delivered ++ [value] }

/-- One event at a link. -/
def step [DecidableEq R] (H : Handler D R X) (s : Link D R X) : Event D R → Option (Link D R X)
  | .sender e =>
    (s.transport e).bind fun s' =>
      (s.connection.step e).map fun c => { s' with connection := c }
  | .writeFailed =>
    (s.connection.step (.write false)).map fun c => { s.push with connection := c }
  | .frame i =>
    match (s.sockets i).runner, (s.sockets i).frames with
    | .reading, m :: ms =>
      some { s.set i { s.sockets i with
        frames := ms
        runner := .dispatching (H.dispatch m.data) (H.ok m.data)
        received := (s.sockets i).received ++ [m] } with
        received := s.received ++ [m] }
    | _, _ => none
  | .proceed i =>
    match (s.sockets i).runner with
    | .dispatching effects ok => some (s.proceed i ok effects)
    | _ => none
  | .closed i =>
    match (s.sockets i).runner with
    | .reading =>
      if i ≤ s.current then some (s.set i { s.sockets i with runner := .ended }) else none
    | _ => none

end Link

/-- `LinkRun H es s`: the events `es` lead from a new link to `s`. -/
abbrev LinkRun [DecidableEq R] (H : Handler D R X) : List (Event D R) → Link D R X → Prop :=
  Run (fun s e s' => Link.step H s e = some s') .new

/-! ### The connection -/

/-- There is a TCP connection. -/
def Connected (c : Connection D R) : Prop := c.mode ≠ .connecting ∧ c.mode ≠ .waiting

/-- The messages written on the TCP connection, with those to be written on it, have increasing
numbers. -/
structure Ordered (c : Connection D R) : Prop where
  written : Connected c → ((onConnection c.trace).1 ++
    (c.inFlight ++ c.buffer).map InnerMessage.cancelHandler).Pairwise (· < ·)
  taken : Connected c → ∀ h ∈ (onConnection c.trace).1, h < c.taken.length

section Connection

variable {c c' : Connection D R} {ms : List (InnerMessage D)} {m : InnerMessage D}
  {e : ReliableSender.Event D R}

theorem numbers_taken (h : Kept c ms) :
    c.taken.map InnerMessage.cancelHandler = List.range c.taken.length := by
  have horder := h.order
  rw [List.map_append] at horder
  have hpre : c.taken.map InnerMessage.cancelHandler <+: List.range c.submitted :=
    horder ▸ List.prefix_append _ _
  have hle : c.taken.length ≤ c.submitted := by simpa using hpre.length_le
  rw [List.prefix_iff_eq_take.mp hpre, List.length_map, List.take_range, Nat.min_eq_left hle]

theorem number_receiver (h : Kept c ms) {l : List (InnerMessage D)} (hr : c.receiver = m :: l) :
    m.cancelHandler = c.taken.length := by
  have horder := h.order
  have hlt : c.taken.length < c.submitted := by
    have hlen := congrArg List.length horder
    simp only [List.length_map, List.length_append, List.length_range, hr, List.length_cons] at hlen
    omega
  have hget := congrArg (·[c.taken.length]?) horder
  simpa [hr, hlt] using hget

/-- What is held is in the order of the numbers. -/
theorem increasing_of_kept (h : Kept c ms) :
    (ms.map InnerMessage.cancelHandler).Pairwise (· < ·) := by
  rw [h.held]
  refine List.Pairwise.sublist (List.filter_sublist.map _) ?_
  rw [numbers_taken h]
  exact List.pairwise_lt_range

theorem onConnection_sendBuffer (c : Connection D R) (ms : List (InnerMessage D)) :
    onConnection (c.sendBuffer ms).trace = onConnection c.trace := by
  obtain ⟨hs, hl, -⟩ := sendBuffer_trace ms c
  rw [hl]
  exact onConnection_unrelated (List.forall_mem_map.mpr fun _ _ => trivial)

theorem taken_sendBuffer (c : Connection D R) (ms : List (InnerMessage D)) :
    (c.sendBuffer ms).taken = c.taken := by
  obtain ⟨hs, hl, -⟩ := sendBuffer_trace ms c
  have hnone : (hs.map .dropped : List (Action D R)).filterMap takenOf = [] :=
    List.filterMap_eq_nil_iff.mpr (List.forall_mem_map.mpr fun _ _ => rfl)
  unfold Connection.taken
  rw [hl, List.filterMap_append, hnone, List.append_nil]

/-- The loop over the buffer only takes messages out. -/
theorem sublist_sendBuffer : ∀ (ms : List (InnerMessage D)) (c : Connection D R),
    ((c.sendBuffer ms).inFlight ++ (c.sendBuffer ms).buffer).Sublist ms
  | [], c => by simp [Connection.sendBuffer, Connection.inFlight]
  | m :: ms, c => by
    unfold Connection.sendBuffer
    split_ifs
    · exact (sublist_sendBuffer ms _).cons m
    · exact List.Sublist.refl _

theorem length_taken_emit (c : Connection D R) (a : Action D R) :
    c.taken.length ≤ (c.emit a).taken.length := by
  unfold Connection.taken Connection.emit
  rw [List.filterMap_append, List.length_append]
  exact Nat.le_add_right _ _

theorem lt_of_held (h : Kept c c.held) {n : ℕ}
    (hn : n ∈ c.held.map InnerMessage.cancelHandler) : n < c.taken.length := by
  rw [h.held] at hn
  have hsub := (List.filter_sublist.map InnerMessage.cancelHandler).subset hn
  rw [numbers_taken h] at hsub
  exact List.mem_range.mp hsub

theorem ordered_sendBuffer {l : List ℕ} {n : ℕ} (hon : onConnection c.trace = (l, n))
    (hw : (l ++ ms.map InnerMessage.cancelHandler).Pairwise (· < ·))
    (ht : ∀ h ∈ l, h < c.taken.length) : Ordered (c.sendBuffer ms) := by
  refine ⟨fun _ => ?_, fun _ => ?_⟩
  · rw [onConnection_sendBuffer, hon]
    exact hw.sublist (((sublist_sendBuffer ms c).map _).append_left _)
  · rw [onConnection_sendBuffer, taken_sendBuffer, hon]
    exact ht

theorem ordered_of_closed (hm : c.mode = .connecting ∨ c.mode = .waiting) : Ordered c :=
  ⟨fun h => absurd hm (not_or.mpr h), fun h => absurd hm (not_or.mpr h)⟩

/-- **An event keeps the messages in order.** -/
theorem ordered_step (h : c.step e = some c') (hi : Idle c) (hk : Kept c c.held)
    (ho : Ordered c) : Ordered c' := by
  cases e with
  | send | cancel =>
    cases h
    exact ⟨ho.written, ho.taken⟩
  | connect ok =>
    unfold Connection.step at h
    rcases hm : c.mode with _ | _ | m | _ <;> simp only [hm, reduceCtorEq] at h
    split_ifs at h <;> cases h
    · have hinc := increasing_of_kept hk
      rw [held_of_idle hi (.inl hm)] at hinc
      exact ordered_sendBuffer (onConnection_established (l := c.trace)) hinc nofun
    · exact ordered_of_closed (.inr rfl)
  | timer =>
    unfold Connection.step at h
    rcases hm : c.mode with _ | _ | m | _ <;> simp only [hm, reduceCtorEq] at h
    cases h
    exact ordered_of_closed (.inl rfl)
  | recv =>
    unfold Connection.step at h
    rcases hm : c.mode with _ | _ | m | _ <;> rcases hr : c.receiver with _ | ⟨m', ms⟩ <;>
      simp only [hm, hr, reduceCtorEq] at h
    · cases h
      exact ordered_of_closed (.inr hm)
    · cases h
      have hc : Connected c := ⟨by simp [hm], by simp [hm]⟩
      have hw := ho.written hc
      have ht := ho.taken hc
      rw [show c.inFlight = [] by simp [Connection.inFlight, hm], List.nil_append] at hw
      have hon : onConnection (c.emit (.taken m')).trace = onConnection c.trace :=
        onConnection_unrelated (List.forall_mem_singleton.mpr trivial)
      refine ordered_sendBuffer hon ?_ fun h hh =>
        (ht h hh).trans_le (length_taken_emit c (.taken m'))
      -- what has a number already has a smaller one than the new message
      rw [List.map_append, ← List.append_assoc]
      refine List.pairwise_append.mpr ⟨hw, List.pairwise_singleton _ _, fun x hx y hy => ?_⟩
      rw [List.mem_singleton.mp hy, number_receiver hk hr]
      rcases List.mem_append.mp hx with hx | hx
      · exact ht x hx
      · refine lt_of_held hk ?_
        rw [Connection.held, List.map_append]
        exact List.mem_append_right _ hx
  | write ok =>
    unfold Connection.step at h
    rcases hm : c.mode with _ | _ | m | _ <;> simp only [hm, reduceCtorEq] at h
    split_ifs at h <;> cases h
    · have hc : Connected c := ⟨by simp [hm], by simp [hm]⟩
      have hw := ho.written hc
      have ht := ho.taken hc
      have hfl : c.inFlight = [m] := by simp [Connection.inFlight, hm]
      rw [hfl, List.map_append, ← List.append_assoc] at hw
      refine ordered_sendBuffer (onConnection_written (l := c.trace) _) hw fun h hh => ?_
      refine Nat.lt_of_lt_of_le ?_ (length_taken_emit c (.written m.cancelHandler))
      rcases List.mem_append.mp hh with hh | hh
      · exact ht h hh
      · rw [List.mem_singleton.mp hh]
        refine lt_of_held hk (List.mem_map_of_mem ?_)
        simp [Connection.held, hfl]
    · exact ordered_of_closed (.inl rfl)
  | reply bytes =>
    unfold Connection.step at h
    rcases hm : c.mode with _ | _ | m | _ <;> rcases hp : c.pendingReplies with _ | ⟨m', ms⟩ <;>
      simp only [hm, hp, reduceCtorEq] at h
    all_goals
      cases h
    · exact ordered_of_closed (.inl rfl)
    · have hc : Connected c := ⟨by simp [hm], by simp [hm]⟩
      have hw := ho.written hc
      rw [show c.inFlight = [] by simp [Connection.inFlight, hm], List.nil_append] at hw
      exact ordered_sendBuffer (onConnection_reply (l := c.trace) bytes _) hw fun h hh =>
        (ho.taken hc h hh).trans_le (length_taken_emit c (.reply bytes (some m'.cancelHandler)))
  | readFailed =>
    unfold Connection.step at h
    rcases hm : c.mode with _ | _ | m | _ <;> simp only [hm, reduceCtorEq] at h
    cases h
    exact ordered_of_closed (.inl rfl)

/-- What an event adds to the record, what it drops apart. -/
def actions (c : Connection D R) : ReliableSender.Event D R → List (Action D R)
  | .connect true => [.established]
  | .recv => c.receiver.head?.toList.map .taken
  | .write true => c.inFlight.map fun m => .written m.cancelHandler
  | .reply bytes => [.reply bytes (c.pendingReplies.head?.map InnerMessage.cancelHandler)]
  | _ => []

/-- The handlers that the caller drops with the event. -/
def cancelled : ReliableSender.Event D R → List ℕ
  | .cancel handler => [handler]
  | _ => []

/-- What an event changes, for the record. -/
structure Recorded (c c' : Connection D R) (e : ReliableSender.Event D R) : Prop where
  trace : ∃ hs : List ℕ, c'.trace = c.trace ++ actions c e ++ hs.map .dropped
  closed : c'.closed = cancelled e ++ c.closed
  connected : Connected c' → Connected c ∨ e = .connect true

theorem closed_sendBuffer : ∀ (ms : List (InnerMessage D)) (c : Connection D R),
    (c.sendBuffer ms).closed = c.closed
  | [], _ => rfl
  | m :: ms, c => by
    unfold Connection.sendBuffer
    split_ifs
    · exact closed_sendBuffer ms _
    · rfl

theorem recorded_sendBuffer {s : Connection D R} (ht : s.trace = c.trace ++ actions c e)
    (hc : s.closed = cancelled e ++ c.closed) (hm : Connected c ∨ e = .connect true) :
    Recorded c (s.sendBuffer ms) e := by
  obtain ⟨hs, hl, -⟩ := sendBuffer_trace ms s
  exact ⟨⟨hs, hl.trans (by rw [ht])⟩, (closed_sendBuffer ms s).trans hc, fun _ => hm⟩

theorem recorded_of_closed (ht : c'.trace = c.trace ++ actions c e)
    (hc : c'.closed = cancelled e ++ c.closed)
    (hm : c'.mode = .connecting ∨ c'.mode = .waiting) : Recorded c c' e :=
  ⟨⟨[], by rw [ht]; simp⟩, hc, fun h => absurd hm (not_or.mpr h)⟩

theorem recorded_step (h : c.step e = some c') : Recorded c c' e := by
  cases e with
  | send data =>
    cases h
    exact ⟨⟨[], by simp [actions]⟩, rfl, .inl⟩
  | cancel handler =>
    cases h
    exact ⟨⟨[], by simp [actions]⟩, rfl, .inl⟩
  | connect ok =>
    unfold Connection.step at h
    rcases hm : c.mode with _ | _ | m | _ <;> simp only [hm, reduceCtorEq] at h
    cases ok <;> cases h
    · exact recorded_of_closed (List.append_nil _).symm rfl (.inr rfl)
    · exact recorded_sendBuffer rfl rfl (.inr rfl)
  | timer =>
    unfold Connection.step at h
    rcases hm : c.mode with _ | _ | m | _ <;> simp only [hm, reduceCtorEq] at h
    cases h
    exact recorded_of_closed (List.append_nil _).symm rfl (.inl rfl)
  | recv =>
    unfold Connection.step at h
    rcases hm : c.mode with _ | _ | m | _ <;> rcases hr : c.receiver with _ | ⟨m', ms⟩ <;>
      simp only [hm, hr, reduceCtorEq] at h
    all_goals
      cases h
      have hact : actions c .recv = [.taken m'] := by simp [actions, hr]
    · refine ⟨⟨((c.buffer ++ [m']).filter fun m => c.IsClosed m).map InnerMessage.cancelHandler,
        ?_⟩, rfl, fun hc => absurd hm hc.2⟩
      rw [hact, List.map_map]
      rfl
    · exact recorded_sendBuffer (by rw [hact]; rfl) rfl (.inl ⟨by simp [hm], by simp [hm]⟩)
  | write ok =>
    unfold Connection.step at h
    rcases hm : c.mode with _ | _ | m | _ <;> simp only [hm, reduceCtorEq] at h
    cases ok <;> cases h
    · exact recorded_of_closed (List.append_nil _).symm rfl (.inl rfl)
    · refine recorded_sendBuffer ?_ rfl (.inl ⟨by simp [hm], by simp [hm]⟩)
      simp [actions, Connection.inFlight, hm, Connection.emit]
  | reply bytes =>
    unfold Connection.step at h
    rcases hm : c.mode with _ | _ | m | _ <;> rcases hp : c.pendingReplies with _ | ⟨m', ms⟩ <;>
      simp only [hm, hp, reduceCtorEq] at h
    all_goals
      cases h
    · refine recorded_of_closed ?_ rfl (.inl rfl)
      simp [actions, hp, Connection.emit, Connection.disconnect]
    · refine recorded_sendBuffer ?_ rfl (.inl ⟨by simp [hm], by simp [hm]⟩)
      simp [actions, hp, Connection.emit]
  | readFailed =>
    unfold Connection.step at h
    rcases hm : c.mode with _ | _ | m | _ <;> simp only [hm, reduceCtorEq] at h
    cases h
    exact recorded_of_closed (List.append_nil _).symm rfl (.inl rfl)

/-- What the record of a connection shows is shown later. -/
theorem Recorded.filterMap_subset {β : Type} (h : Recorded c c' e) (f : Action D R → Option β) :
    c.trace.filterMap f ⊆ c'.trace.filterMap f := by
  obtain ⟨hs, ht⟩ := h.trace
  rw [ht, List.append_assoc, List.filterMap_append]
  exact List.subset_append_left _ _

theorem Recorded.taken_subset (h : Recorded c c' e) : c.taken ⊆ c'.taken :=
  h.filterMap_subset takenOf

theorem Recorded.acked_subset (h : Recorded c c' e) : c.acked ⊆ c'.acked :=
  h.filterMap_subset ackedBy

theorem Recorded.closed_subset (h : Recorded c c' e) : c.closed ⊆ c'.closed :=
  h.closed ▸ List.subset_append_right _ _

theorem Recorded.closed_internal (h : Recorded c c' e) (he : Internal (.sender e)) :
    c'.closed = c.closed := by
  rw [h.closed]
  cases e with
  | cancel handler => cases he
  | _ => rfl

theorem Recorded.onConnection (h : Recorded c c' e) :
    onConnection c'.trace = ReliableSender.onConnection (c.trace ++ actions c e) := by
  obtain ⟨hs, ht⟩ := h.trace
  rw [ht]
  exact onConnection_unrelated (List.forall_mem_map.mpr fun _ _ => trivial)

/-- An acknowledgement is an old one, or the reply that is read. -/
theorem Recorded.acked (h : Recorded c c' e) {bytes : R} {n : ℕ}
    (hm : .reply bytes (some n) ∈ c'.trace) : .reply bytes (some n) ∈ c.trace ∨
      e = .reply bytes ∧ c.pendingReplies.head?.map InnerMessage.cancelHandler = some n := by
  obtain ⟨hs, ht⟩ := h.trace
  rw [ht, List.mem_append, List.mem_append] at hm
  rcases hm with (hm | hm) | hm
  · exact .inl hm
  · right
    cases e with
    | connect ok => cases ok <;> simp [actions] at hm
    | write ok => cases ok <;> simp [actions] at hm
    | reply bytes' =>
      rw [actions, List.mem_singleton, Action.reply.injEq] at hm
      exact ⟨by rw [hm.1], hm.2.symm⟩
    | _ => simp [actions] at hm
  · simp at hm

end Connection

/-! ### Changes -/

/-- What is left of `dispatch`. -/
def Runner.left : Runner R X → List (Effect R X)
  | .dispatching effects _ => effects
  | _ => []

/-- What one event does to a link. -/
inductive Change (H : Handler D R X) (s : Link D R X) : Link D R X → Prop
  | quiet {e : ReliableSender.Event D R} {c : Connection D R} (h : s.connection.step e = some c)
      (he : e ≠ .connect true ∧ e ≠ .write true ∧ ∀ bytes, e ≠ .reply bytes) :
      Change H s { s with connection := c }
  | connected {c : Connection D R} (h : s.connection.step (.connect true) = some c) :
      Change H s { s.set (s.current + 1) .new with current := s.current + 1, connection := c }
  | pushed {ok : Bool} {c : Connection D R} {m : InnerMessage D}
      (hm : s.connection.mode = .sending m) (h : s.connection.step (.write ok) = some c) :
      Change H s { s.set s.current { s.socket with frames := s.socket.frames ++ [m] } with
        connection := c }
  | answered {bytes : R} {replies : List R} {c : Connection D R}
      (hr : s.socket.replies = bytes :: replies) (h : s.connection.step (.reply bytes) = some c) :
      Change H s { s.set s.current { s.socket with
        replies := replies
        answered := s.socket.answered ++ [bytes] } with
        connection := c }
  | frame {i : ℕ} {m : InnerMessage D} {ms : List (InnerMessage D)}
      (hr : (s.sockets i).runner = .reading) (hf : (s.sockets i).frames = m :: ms) :
      Change H s { s.set i { s.sockets i with
        frames := ms
        runner := .dispatching (H.dispatch m.data) (H.ok m.data)
        received := (s.sockets i).received ++ [m] } with
        received := s.received ++ [m] }
  | replied {i : ℕ} {bytes : R} {effects : List (Effect R X)} {ok : Bool}
      (hr : (s.sockets i).runner = .dispatching (.reply bytes :: effects) ok) :
      Change H s (s.set i { s.sockets i with
        runner := .dispatching effects ok
        replies := (s.sockets i).replies ++ [bytes] })
  | delivered {i : ℕ} {value : X} {effects : List (Effect R X)} {ok : Bool}
      (hr : (s.sockets i).runner = .dispatching (.deliver value :: effects) ok) :
      Change H s { s.set i { s.sockets i with runner := .dispatching effects ok } with
        delivered := s.delivered ++ [value] }
  | returned {i : ℕ} {runner : Runner R X} (hr : (s.sockets i).runner.left = [])
      (hi : (s.sockets i).runner ≠ .reading ∨ i ≤ s.current)
      (hl : runner.left = []) : Change H s (s.set i { s.sockets i with runner := runner })

section Change

variable {H : Handler D R X} {s s' : Link D R X} {i : ℕ} {k : Socket D R X}

theorem set_self (s : Link D R X) (i : ℕ) (k : Socket D R X) : (s.set i k).sockets i = k :=
  Function.update_self ..

theorem set_of_ne (s : Link D R X) (k : Socket D R X) {j : ℕ} (hj : j ≠ i) :
    (s.set i k).sockets j = s.sockets j :=
  Function.update_of_ne hj ..

/-- What of a TCP connection does not change. -/
theorem view_set {β : Type} (f : Socket D R X → β) (h : f k = f (s.sockets i)) (j : ℕ) :
    f ((s.set i k).sockets j) = f (s.sockets j) := by
  by_cases hj : j = i
  · rw [hj, set_self, h]
  · rw [set_of_ne s k hj]

/-- A property of all TCP connections is one of the changed one and of the others. -/
theorem forall_set {P : Socket D R X → Prop} (hk : P k) (h : ∀ j, P (s.sockets j)) (j : ℕ) :
    P ((s.set i k).sockets j) := by
  by_cases hj : j = i
  · rw [hj, set_self]
    exact hk
  · rw [set_of_ne s k hj]
    exact h j

theorem pushed_of_write {ok : Bool} {c : Connection D R}
    (h : s.connection.step (.write ok) = some c) : Change H s { s.push with connection := c } := by
  have hstep := h
  unfold Connection.step at h
  rcases hm : s.connection.mode with _ | _ | m | _ <;> simp only [hm, reduceCtorEq] at h
  have hchange := Change.pushed (H := H) hm hstep
  have hfl : s.connection.inFlight = [m] := by simp [Connection.inFlight, hm]
  rwa [← hfl] at hchange

/-- **An event is one of the changes.** -/
theorem step_change [DecidableEq R] {e : Event D R} (h : s.step H e = some s') :
    Change H s s' := by
  cases e with
  | sender e =>
    obtain ⟨s₁, ht, hmap⟩ := Option.bind_eq_some_iff.mp h
    obtain ⟨c, hc, rfl⟩ := Option.map_eq_some_iff.mp hmap
    have hquiet : (e ≠ .connect true ∧ e ≠ .write true ∧ ∀ bytes, e ≠ .reply bytes) → s₁ = s →
        Change H s { s₁ with connection := c } := by
      rintro he rfl
      exact .quiet hc he
    cases e with
    | connect ok =>
      cases ok <;> cases ht
      · exact hquiet (by simp) rfl
      · exact .connected hc
    | write ok =>
      cases ok <;> cases ht
      · exact hquiet (by simp) rfl
      · exact pushed_of_write hc
    | reply bytes =>
      unfold Link.transport at ht
      rcases hr : s.socket.replies with _ | ⟨reply, replies⟩ <;>
        simp only [hr, reduceCtorEq] at ht
      split_ifs at ht with heq
      cases ht
      rw [heq] at hr
      exact .answered hr hc
    | _ =>
      cases ht
      exact hquiet (by simp) rfl
  | writeFailed =>
    obtain ⟨c, hc, rfl⟩ := Option.map_eq_some_iff.mp h
    exact pushed_of_write hc
  | frame i =>
    unfold Link.step at h
    rcases hr : (s.sockets i).runner with _ | _ | _ <;>
      rcases hf : (s.sockets i).frames with _ | ⟨m, ms⟩ <;>
      simp only [hr, hf, reduceCtorEq] at h
    cases h
    exact .frame hr hf
  | proceed i =>
    unfold Link.step at h
    rcases hr : (s.sockets i).runner with _ | ⟨_ | ⟨_ | _, _⟩, ok⟩ | _ <;>
      simp only [hr, reduceCtorEq] at h
    all_goals
      cases h
    · refine .returned (by rw [hr]; rfl) (.inl (by simp [hr])) ?_
      cases ok <;> rfl
    · exact .replied hr
    · exact .delivered hr
  | closed i =>
    unfold Link.step at h
    rcases hr : (s.sockets i).runner with _ | _ | _ <;> simp only [hr, reduceCtorEq] at h
    split_ifs at h with hi
    cases h
    exact .returned (by rw [hr]; rfl) (.inr hi) rfl

end Change

end Hotstuff.Network.Receiving
