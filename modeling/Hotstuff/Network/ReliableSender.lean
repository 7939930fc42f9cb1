import Hotstuff.Lib.Transition

/-! # The reliable sender

A `Connection` sends the messages of its channel to one peer, over one TCP connection after another.
Messages that are written wait in `pending_replies` for a reply, and go back to the front of
`buffer` when the TCP connection breaks. A message whose `CancelHandler` has been dropped is skipped
when it comes up in `buffer`, but is kept in `pending_replies`, where the replies are counted.

Nothing is lost, nothing is reordered, and each reply goes to the handler of its message
(`reliable`). The handler of a message is its number among the messages submitted. -/

namespace Hotstuff.Network.ReliableSender

open Hotstuff.Lib.Lists Hotstuff.Lib.Transition

variable {D R : Type}

/-- `InnerMessage`; the handler stands for the `oneshot` channel made for the message. -/
structure InnerMessage (D : Type) where
  data : D
  cancelHandler : ℕ

/-- Where the task of the connection waits. -/
inductive Mode (D : Type) where
  /-- For `TcpStream::connect`. -/
  | connecting
  /-- In the loop `'waiter`. -/
  | waiting
  /-- For `writer.send`, with the message taken from the buffer. -/
  | sending (message : InnerMessage D)
  /-- In the `select!` of `keep_alive`. -/
  | selecting

/-- What the connection does, for the record. -/
inductive Action (D R : Type) where
  /-- The message is taken from the channel. -/
  | taken (message : InnerMessage D)
  /-- A TCP connection is established. -/
  | established
  /-- The message is written. -/
  | written (handler : ℕ)
  /-- A reply frame is received, and sent to the handler. -/
  | reply (bytes : R) (handler : Option ℕ)
  /-- The handler is dropped with its message. -/
  | dropped (handler : ℕ)

structure Connection (D R : Type) where
  /-- The messages in the channel. -/
  receiver : List (InnerMessage D)
  /-- The delay before the next attempt to connect. -/
  delay : ℕ
  buffer : List (InnerMessage D)
  pendingReplies : List (InnerMessage D)
  mode : Mode D
  /-- The number of messages submitted. -/
  submitted : ℕ
  /-- The handlers whose receivers have been dropped by the callers. -/
  closed : List ℕ
  trace : List (Action D R)

namespace Connection

/-- `retry_delay`. -/
def retryDelay : ℕ := 200

def new : Connection D R := ⟨[], retryDelay, [], [], .connecting, 0, [], []⟩

def emit (s : Connection D R) (a : Action D R) : Connection D R :=
  { s with trace := s.trace ++ [a] }

/-- `handler.is_closed()`. -/
def IsClosed (s : Connection D R) (m : InnerMessage D) : Prop := m.cancelHandler ∈ s.closed

instance (s : Connection D R) (m : InnerMessage D) : Decidable (s.IsClosed m) := by
  unfold IsClosed; infer_instance

/-- The loop at the head of `keep_alive`, up to the next `writer.send` or to the `select!`. -/
def sendBuffer (s : Connection D R) : List (InnerMessage D) → Connection D R
  | [] => { s with buffer := [], mode := .selecting }
  | m :: ms =>
    if s.IsClosed m then sendBuffer (s.emit (.dropped m.cancelHandler)) ms
    else { s with buffer := ms, mode := .sending m }

/-- The end of `keep_alive`; `run` connects again. -/
def disconnect (s : Connection D R) : Connection D R :=
  { s with buffer := s.pendingReplies ++ s.buffer, pendingReplies := [], mode := .connecting }

/-- `buffer.retain(|(_, handler)| !handler.is_closed())`. -/
def retain (s : Connection D R) : Connection D R :=
  { s with
    buffer := s.buffer.filter fun m => ¬ s.IsClosed m
    trace := s.trace ++
      (s.buffer.filter fun m => s.IsClosed m).map fun m => .dropped m.cancelHandler }

end Connection

inductive Event (D R : Type) where
  /-- `ReliableSender::send` puts a message into the channel. -/
  | send (data : D)
  /-- The caller drops its `CancelHandler`. -/
  | cancel (handler : ℕ)
  | connect (ok : Bool)
  | timer
  | recv
  | write (ok : Bool)
  /-- `reader.next()` returns a frame. -/
  | reply (bytes : R)
  /-- `reader.next()` returns an error or the end of the stream. -/
  | readFailed

namespace Connection

/-- One event at a connection. -/
def step (s : Connection D R) : Event D R → Option (Connection D R)
  | .send data =>
    some { s with
      receiver := s.receiver ++ [⟨data, s.submitted⟩]
      submitted := s.submitted + 1 }
  | .cancel handler => some { s with closed := handler :: s.closed }
  | .connect ok =>
    match s.mode with
    | .connecting =>
      if ok then
        some (sendBuffer { s.emit .established with delay := retryDelay, pendingReplies := [] }
          s.buffer)
      else some { s with mode := .waiting }
    | _ => none
  | .timer =>
    match s.mode with
    | .waiting => some { s with delay := min (2 * s.delay) 60000, mode := .connecting }
    | _ => none
  | .recv =>
    match s.mode, s.receiver with
    | .waiting, m :: ms =>
      some (retain { s.emit (.taken m) with receiver := ms, buffer := s.buffer ++ [m] })
    | .selecting, m :: ms =>
      some (sendBuffer { s.emit (.taken m) with receiver := ms } (s.buffer ++ [m]))
    | _, _ => none
  | .write ok =>
    match s.mode with
    | .sending m =>
      if ok then
        some (sendBuffer { s.emit (.written m.cancelHandler) with
          pendingReplies := s.pendingReplies ++ [m] } s.buffer)
      else some (disconnect { s with buffer := m :: s.buffer })
    | _ => none
  | .reply bytes =>
    match s.mode, s.pendingReplies with
    | .selecting, [] => some (disconnect (s.emit (.reply bytes none)))
    | .selecting, m :: ms =>
      some (sendBuffer { s.emit (.reply bytes (some m.cancelHandler)) with pendingReplies := ms }
        s.buffer)
    | _, _ => none
  | .readFailed =>
    match s.mode with
    | .selecting => some (disconnect s)
    | _ => none

end Connection

/-- `ConnectionRun es s`: the events `es` lead from a new connection to `s`. -/
abbrev ConnectionRun : List (Event D R) → Connection D R → Prop :=
  Run (fun s e s' => Connection.step s e = some s') .new

/-! ### The record -/

def takenOf : Action D R → Option (InnerMessage D)
  | .taken m => some m
  | _ => none

/-- The handler that the entry acknowledges. -/
def ackedBy : Action D R → Option ℕ
  | .reply _ handler => handler
  | _ => none

def droppedBy : Action D R → Option ℕ
  | .dropped handler => some handler
  | _ => none

def sentBy : Event D R → Option D
  | .send data => some data
  | _ => none

/-- The handlers of the messages written on the last TCP connection, and the number of reply frames
received on it. -/
def onConnection (l : List (Action D R)) : List ℕ × ℕ :=
  l.foldl (fun (written, replies) => fun
    | .established => ([], 0)
    | .written handler => (written ++ [handler], replies)
    | .reply _ _ => (written, replies + 1)
    | _ => (written, replies)) ([], 0)

namespace Connection

/-- The messages taken from the channel. -/
def taken (s : Connection D R) : List (InnerMessage D) := s.trace.filterMap takenOf

def acked (s : Connection D R) : List ℕ := s.trace.filterMap ackedBy

def dropped (s : Connection D R) : List ℕ := s.trace.filterMap droppedBy

/-- The message that is being written. -/
def inFlight (s : Connection D R) : List (InnerMessage D) :=
  match s.mode with
  | .sending m => [m]
  | _ => []

/-- The messages that the connection holds, in order. -/
def held (s : Connection D R) : List (InnerMessage D) := s.pendingReplies ++ s.inFlight ++ s.buffer

end Connection

/-! ### Nothing is lost -/

/-- The messages in `l` are those taken from the channel that have been neither acknowledged nor
dropped; what was dropped had been cancelled. -/
structure Kept (s : Connection D R) (l : List (InnerMessage D)) : Prop where
  order : (s.taken ++ s.receiver).map InnerMessage.cancelHandler = List.range s.submitted
  held : l = s.taken.filter fun m => m.cancelHandler ∉ s.acked ∧ m.cancelHandler ∉ s.dropped
  gone : ∀ h, h ∈ s.acked ∨ h ∈ s.dropped → h ∈ s.taken.map InnerMessage.cancelHandler
  closed : ∀ h ∈ s.dropped, h ∈ s.closed

section Kept

variable {s : Connection D R} {l p ms : List (InnerMessage D)} {m : InnerMessage D}

theorem Kept.nodup (h : Kept s l) : (s.taken.map InnerMessage.cancelHandler).Nodup := by
  have hnd : ((s.taken ++ s.receiver).map InnerMessage.cancelHandler).Nodup :=
    h.order ▸ List.nodup_range
  rw [List.map_append] at hnd
  exact hnd.of_append_left

/-- A message that is held has a handler of its own. -/
theorem Kept.filter_ne (h : Kept s (p ++ m :: ms)) :
    (p ++ m :: ms).filter (fun x => x.cancelHandler ≠ m.cancelHandler) = p ++ ms := by
  have hnd : ((p ++ m :: ms).map InnerMessage.cancelHandler).Nodup := by
    rw [h.held]
    exact h.nodup.sublist (List.filter_sublist.map _)
  rw [List.map_append, List.map_cons, List.nodup_middle, List.nodup_cons, ← List.map_append] at hnd
  have hne : ∀ x ∈ p ++ ms, x.cancelHandler ≠ m.cancelHandler := fun x hx he =>
    hnd.1 (he ▸ List.mem_map_of_mem hx)
  rw [List.filter_append, List.filter_cons_of_neg (by simp), ← List.filter_append]
  exact List.filter_eq_self.mpr fun x hx => by simpa using hne x hx

theorem Kept.mem_taken (h : Kept s (p ++ m :: ms)) :
    m.cancelHandler ∈ s.taken.map InnerMessage.cancelHandler := by
  have hm : m ∈ p ++ m :: ms := by simp
  rw [h.held] at hm
  exact List.mem_map_of_mem (List.mem_of_mem_filter hm)

/-- The connection is done with a message that it held. -/
theorem Kept.release (h : Kept s (p ++ m :: ms)) {a : Action D R}
    (htaken : (s.emit a).taken = s.taken)
    (hgone : ∀ x, x ∈ (s.emit a).acked ∨ x ∈ (s.emit a).dropped ↔
      (x ∈ s.acked ∨ x ∈ s.dropped) ∨ x = m.cancelHandler)
    (hclosed : ∀ x ∈ (s.emit a).dropped, x ∈ s.closed) : Kept (s.emit a) (p ++ ms) := by
  refine ⟨by rw [htaken]; exact h.order, ?_, fun x hx => ?_, hclosed⟩
  · rw [← h.filter_ne, h.held, htaken, List.filter_filter]
    refine List.filter_congr fun x _ => ?_
    have hx := hgone x.cancelHandler
    simp only [decide_eq_decide, ← Bool.decide_and]
    tauto
  · rw [htaken]
    rcases (hgone x).mp hx with hx | rfl
    · exact h.gone x hx
    · exact h.mem_taken

/-- The handler of a message that is held gets a reply. -/
theorem Kept.acked (h : Kept s (p ++ m :: ms)) (bytes : R) :
    Kept (s.emit (.reply bytes (some m.cancelHandler))) (p ++ ms) := by
  have hacked : (s.emit (.reply bytes (some m.cancelHandler))).acked =
      s.acked ++ [m.cancelHandler] := by
    simp [Connection.acked, Connection.emit, ackedBy]
  have hdropped : (s.emit (.reply bytes (some m.cancelHandler))).dropped = s.dropped := by
    simp [Connection.dropped, Connection.emit, droppedBy]
  refine h.release (by simp [Connection.taken, Connection.emit, takenOf]) (fun x => ?_)
    (by rw [hdropped]; exact h.closed)
  rw [hacked, hdropped, List.mem_append, List.mem_singleton, or_right_comm]

/-- A cancelled message is dropped. -/
theorem Kept.dropped (h : Kept s (p ++ m :: ms)) (hc : s.IsClosed m) :
    Kept (s.emit (.dropped m.cancelHandler)) (p ++ ms) := by
  have hacked : (s.emit (.dropped m.cancelHandler)).acked = s.acked := by
    simp [Connection.acked, Connection.emit, ackedBy]
  have hdropped : (s.emit (.dropped m.cancelHandler)).dropped = s.dropped ++ [m.cancelHandler] := by
    simp [Connection.dropped, Connection.emit, droppedBy]
  refine h.release (by simp [Connection.taken, Connection.emit, takenOf]) (fun x => ?_) ?_
  · rw [hacked, hdropped, List.mem_append, List.mem_singleton, or_assoc]
  · rw [hdropped]
    exact List.forall_mem_append.mpr ⟨h.closed, List.forall_mem_singleton.mpr hc⟩

theorem Kept.sendBuffer : ∀ (ms : List (InnerMessage D)) {s : Connection D R},
    Kept s (s.pendingReplies ++ ms) → Kept (s.sendBuffer ms) (s.sendBuffer ms).held
  | [], s, h => by
    simpa [Connection.sendBuffer, Connection.held, Connection.inFlight] using
      (⟨h.order, h.held, h.gone, h.closed⟩ : Kept { s with buffer := [], mode := .selecting } _)
  | m :: ms, s, h => by
    unfold Connection.sendBuffer
    split_ifs with hc
    · exact Kept.sendBuffer ms (h.dropped hc)
    · simpa [Connection.held, Connection.inFlight] using
        (⟨h.order, h.held, h.gone, h.closed⟩ : Kept { s with buffer := ms, mode := .sending m } _)

/-- The cancelled messages among `ms` are dropped. -/
theorem Kept.dropAll : ∀ (ms p : List (InnerMessage D)) {s : Connection D R}, Kept s (p ++ ms) →
    Kept { s with
      trace := s.trace ++ (ms.filter fun m => s.IsClosed m).map fun m => .dropped m.cancelHandler }
      (p ++ ms.filter fun m => ¬ s.IsClosed m)
  | [], p, s, h => by simpa using h
  | m :: ms, p, s, h => by
    by_cases hc : s.IsClosed m
    · have ih := Kept.dropAll ms p (h.dropped hc)
      simp only [Connection.emit, List.append_assoc] at ih
      rw [List.filter_cons_of_pos (by simpa using hc), List.filter_cons_of_neg (by simpa using hc)]
      exact ih
    · have ih := Kept.dropAll ms (p ++ [m]) (s := s) (by simpa using h)
      rw [List.filter_cons_of_neg (by simpa using hc), List.filter_cons_of_pos (by simpa using hc)]
      simpa using ih

theorem Kept.retain (h : Kept s s.buffer) : Kept s.retain s.retain.buffer := by
  have hall := Kept.dropAll s.buffer [] h
  exact ⟨hall.order, hall.held, hall.gone, hall.closed⟩

/-- The next message of the channel is taken. -/
theorem Kept.taken (h : Kept s l) (hr : s.receiver = m :: ms) :
    Kept { s.emit (.taken m) with receiver := ms } (l ++ [m]) := by
  have htaken : (Connection.taken { s.emit (.taken m) with receiver := ms }) = s.taken ++ [m] := by
    simp [Connection.taken, Connection.emit, takenOf]
  have hacked : (Connection.acked { s.emit (.taken m) with receiver := ms }) = s.acked := by
    simp [Connection.acked, Connection.emit, ackedBy]
  have hdropped : (Connection.dropped { s.emit (.taken m) with receiver := ms }) = s.dropped := by
    simp [Connection.dropped, Connection.emit, droppedBy]
  -- the message is a new one
  have hnew : m.cancelHandler ∉ s.taken.map InnerMessage.cancelHandler := by
    have hnd : ((s.taken ++ s.receiver).map InnerMessage.cancelHandler).Nodup :=
      h.order ▸ List.nodup_range
    rw [hr, List.map_append, List.map_cons, List.nodup_middle, List.nodup_cons] at hnd
    exact fun hm => hnd.1 (List.mem_append_left _ hm)
  refine ⟨?_, ?_, ?_, by rw [hdropped]; exact h.closed⟩
  · rw [htaken, List.append_assoc]
    have horder := h.order
    rw [hr] at horder
    exact horder
  · rw [htaken, hacked, hdropped, List.filter_append, ← h.held, List.filter_cons_of_pos]
    · rfl
    · simp only [decide_eq_true_eq]
      exact ⟨fun ha => hnew (h.gone _ (.inl ha)), fun hd => hnew (h.gone _ (.inr hd))⟩
  · rw [htaken, hacked, hdropped]
    intro x hx
    rw [List.map_append]
    exact List.mem_append_left _ (h.gone x hx)

/-- An entry of the record that is about none of this. -/
theorem Kept.emit (h : Kept s l) {a : Action D R} (ht : takenOf a = none) (ha : ackedBy a = none)
    (hd : droppedBy a = none) : Kept (s.emit a) l := by
  have htaken : (s.emit a).taken = s.taken := by simp [Connection.taken, Connection.emit, ht]
  have hacked : (s.emit a).acked = s.acked := by simp [Connection.acked, Connection.emit, ha]
  have hdropped : (s.emit a).dropped = s.dropped := by
    simp [Connection.dropped, Connection.emit, hd]
  refine ⟨by rw [htaken]; exact h.order, by rw [htaken, hacked, hdropped]; exact h.held, ?_, ?_⟩
  · rw [htaken, hacked, hdropped]
    exact h.gone
  · rw [hdropped]
    exact h.closed

/-- In what waits for a TCP connection, nothing is left of the last one. -/
def Idle (s : Connection D R) : Prop :=
  s.mode = .connecting ∨ s.mode = .waiting → s.pendingReplies = []

theorem held_of_idle (hi : Idle s) (hm : s.mode = .connecting ∨ s.mode = .waiting) :
    s.held = s.buffer := by
  have hfl : s.inFlight = [] := by
    unfold Connection.inFlight
    rcases hm with hm | hm <;> rw [hm]
  rw [Connection.held, hi hm, hfl]
  rfl

theorem kept_of_idle (hp : s.pendingReplies = []) (hm : s.mode = .connecting ∨ s.mode = .waiting)
    (hk : Kept s s.buffer) : Idle s ∧ Kept s s.held := by
  refine ⟨fun _ => hp, ?_⟩
  rw [held_of_idle (fun _ => hp) hm]
  exact hk

theorem idle_sendBuffer : ∀ (ms : List (InnerMessage D)) {s : Connection D R},
    Idle (s.sendBuffer ms)
  | [], s => by simp [Connection.sendBuffer, Idle]
  | m :: ms, s => by
    unfold Connection.sendBuffer
    split_ifs
    · exact idle_sendBuffer ms
    · simp [Idle]

/-- **An event keeps what is held.** -/
theorem kept_step {s s' : Connection D R} {e : Event D R} (h : s.step e = some s') (hi : Idle s)
    (hk : Kept s s.held) : Idle s' ∧ Kept s' s'.held := by
  cases e with
  | send data =>
    cases h
    refine ⟨hi, ⟨?_, hk.held, hk.gone, hk.closed⟩⟩
    show ((s.taken ++ (s.receiver ++ [_])).map _) = List.range (s.submitted + 1)
    rw [← List.append_assoc, List.map_append, hk.order, List.range_succ]
    rfl
  | cancel handler =>
    cases h
    exact ⟨hi, ⟨hk.order, hk.held, hk.gone, fun x hx => List.mem_cons_of_mem _ (hk.closed x hx)⟩⟩
  | connect ok =>
    unfold Connection.step at h
    rcases hm : s.mode with _ | _ | m | _ <;> simp only [hm, reduceCtorEq] at h
    split_ifs at h <;> cases h
    · refine ⟨idle_sendBuffer _, Kept.sendBuffer _ ?_⟩
      have hk' := hk.emit (a := .established) rfl rfl rfl
      rw [held_of_idle hi (.inl hm)] at hk'
      exact ⟨hk'.order, hk'.held, hk'.gone, hk'.closed⟩
    · rw [held_of_idle hi (.inl hm)] at hk
      exact kept_of_idle (hi (.inl hm)) (.inr rfl) ⟨hk.order, hk.held, hk.gone, hk.closed⟩
  | timer =>
    unfold Connection.step at h
    rcases hm : s.mode with _ | _ | m | _ <;> simp only [hm, reduceCtorEq] at h
    cases h
    rw [held_of_idle hi (.inr hm)] at hk
    exact kept_of_idle (hi (.inr hm)) (.inl rfl) ⟨hk.order, hk.held, hk.gone, hk.closed⟩
  | recv =>
    unfold Connection.step at h
    rcases hm : s.mode with _ | _ | m | _ <;> rcases hr : s.receiver with _ | ⟨m', ms⟩ <;>
      simp only [hm, hr, reduceCtorEq] at h
    · cases h
      rw [held_of_idle hi (.inr hm)] at hk
      have hk' := hk.taken hr
      exact kept_of_idle (hi (.inr hm)) (.inr hm)
        (Kept.retain ⟨hk'.order, hk'.held, hk'.gone, hk'.closed⟩)
    · cases h
      refine ⟨idle_sendBuffer _, Kept.sendBuffer _ ?_⟩
      have hk' := hk.taken hr
      rw [show s.held = s.pendingReplies ++ s.buffer by
        simp [Connection.held, Connection.inFlight, hm], List.append_assoc] at hk'
      exact ⟨hk'.order, hk'.held, hk'.gone, hk'.closed⟩
  | write ok =>
    unfold Connection.step at h
    rcases hm : s.mode with _ | _ | m | _ <;> simp only [hm, reduceCtorEq] at h
    have hheld : s.held = s.pendingReplies ++ m :: s.buffer := by
      simp [Connection.held, Connection.inFlight, hm]
    rw [hheld] at hk
    split_ifs at h <;> cases h
    · refine ⟨idle_sendBuffer _, Kept.sendBuffer _ ?_⟩
      have hk' := hk.emit (a := .written m.cancelHandler) rfl rfl rfl
      refine ⟨hk'.order, ?_, hk'.gone, hk'.closed⟩
      show s.pendingReplies ++ [m] ++ s.buffer = _
      rw [List.append_assoc]
      exact hk'.held
    · exact kept_of_idle rfl (.inl rfl) ⟨hk.order, hk.held, hk.gone, hk.closed⟩
  | reply bytes =>
    unfold Connection.step at h
    rcases hm : s.mode with _ | _ | m | _ <;> rcases hp : s.pendingReplies with _ | ⟨m', ms⟩ <;>
      simp only [hm, hp, reduceCtorEq] at h
    all_goals
      cases h
      have hheld : s.held = s.pendingReplies ++ s.buffer := by
        simp [Connection.held, Connection.inFlight, hm]
      rw [hheld, hp] at hk
    · have hk' := hk.emit (a := .reply bytes none) rfl rfl rfl
      refine kept_of_idle rfl (.inl rfl) ⟨hk'.order, ?_, hk'.gone, hk'.closed⟩
      show s.pendingReplies ++ s.buffer = _
      rw [hp]
      exact hk'.held
    · refine ⟨idle_sendBuffer _, Kept.sendBuffer _ ?_⟩
      have hk' := Kept.acked (p := []) hk bytes
      rw [List.nil_append] at hk'
      exact ⟨hk'.order, hk'.held, hk'.gone, hk'.closed⟩
  | readFailed =>
    unfold Connection.step at h
    rcases hm : s.mode with _ | _ | m | _ <;> simp only [hm, reduceCtorEq] at h
    cases h
    have hheld : s.held = s.pendingReplies ++ s.buffer := by
      simp [Connection.held, Connection.inFlight, hm]
    rw [hheld] at hk
    exact kept_of_idle rfl (.inl rfl) ⟨hk.order, hk.held, hk.gone, hk.closed⟩

end Kept

/-! ### Replies go to the handlers of their messages -/

/-- The handler that the next reply frame is for. -/
def nextHandler (l : List (Action D R)) : Option ℕ := (onConnection l).1[(onConnection l).2]?

/-- Each reply frame went to the handler that it is for: the `k`-th frame of a TCP connection to the
handler of the `k`-th message written on it. -/
def Answered (l : List (Action D R)) : Prop :=
  ∀ l₁ bytes handler l₂, l = l₁ ++ .reply bytes handler :: l₂ → handler = nextHandler l₁

/-- The messages are those written on the TCP connection that no reply frame has been for. -/
structure Matches (l : List (Action D R)) (pending : List (InnerMessage D)) : Prop where
  le : (onConnection l).2 ≤ (onConnection l).1.length
  eq : pending.map InnerMessage.cancelHandler = (onConnection l).1.drop (onConnection l).2

/-- The entry is neither about a TCP connection nor about what is written or read on it. -/
def Unrelated : Action D R → Prop
  | .taken _ | .dropped _ => True
  | _ => False

section Matches

variable {l : List (Action D R)} {pending ms : List (InnerMessage D)} {m : InnerMessage D}

theorem onConnection_established : onConnection (l ++ [.established]) = ([], 0) := by
  simp [onConnection]

theorem onConnection_written (handler : ℕ) : onConnection (l ++ [.written handler]) =
    ((onConnection l).1 ++ [handler], (onConnection l).2) := by
  simp [onConnection]

theorem onConnection_reply (bytes : R) (handler : Option ℕ) :
    onConnection (l ++ [.reply bytes handler]) = ((onConnection l).1, (onConnection l).2 + 1) := by
  simp [onConnection]

theorem onConnection_unrelated {l' : List (Action D R)} (h : ∀ a ∈ l', Unrelated a) :
    onConnection (l ++ l') = onConnection l := by
  induction l' using List.reverseRecOn with
  | nil => rw [List.append_nil]
  | append_singleton l' a ih =>
    rw [← List.append_assoc, ← ih fun x hx => h x (List.mem_append_left _ hx)]
    have ha := h a (by simp)
    cases a with
    | taken | dropped => simp [onConnection]
    | _ => cases ha

theorem matches_established : Matches (l ++ [.established] : List (Action D R)) [] :=
  ⟨by simp [onConnection_established], by simp [onConnection_established]⟩

theorem Matches.written (h : Matches l pending) :
    Matches (l ++ [.written m.cancelHandler]) (pending ++ [m]) := by
  have hle := h.le
  refine ⟨?_, ?_⟩
  · rw [onConnection_written, List.length_append]
    exact Nat.le_add_right_of_le hle
  · rw [onConnection_written, List.map_append, h.eq, List.drop_append_of_le_length hle]
    rfl

theorem Matches.nextHandler (h : Matches l (m :: ms)) : nextHandler l = some m.cancelHandler := by
  unfold ReliableSender.nextHandler
  rw [← List.head?_drop, ← h.eq]
  rfl

theorem Matches.nextHandler_nil (h : Matches l []) : ReliableSender.nextHandler l = none := by
  unfold ReliableSender.nextHandler
  rw [← List.head?_drop, ← h.eq]
  rfl

theorem Matches.reply (h : Matches l (m :: ms)) (bytes : R) (handler : Option ℕ) :
    Matches (l ++ [.reply bytes handler]) ms := by
  have heq := h.eq
  have hlt : (onConnection l).2 < (onConnection l).1.length := by
    by_contra hge
    rw [List.drop_of_length_le (by omega)] at heq
    cases heq
  refine ⟨?_, ?_⟩
  · rw [onConnection_reply]
    exact hlt
  · rw [onConnection_reply, ← List.tail_drop, ← heq]
    rfl

theorem Matches.unrelated (h : Matches l pending) {l' : List (Action D R)}
    (hl : ∀ a ∈ l', Unrelated a) : Matches (l ++ l') pending := by
  have hle := h.le
  have heq := h.eq
  rw [← onConnection_unrelated (l := l) hl] at hle heq
  exact ⟨hle, heq⟩

theorem Answered.snoc (h : Answered l) {a : Action D R}
    (ha : ∀ bytes handler, a = .reply bytes handler → handler = ReliableSender.nextHandler l) :
    Answered (l ++ [a]) := by
  intro l₁ bytes handler l₂ hl
  rcases append_singleton_split hl with ⟨rfl, heq, -⟩ | ⟨l₂, -, hl'⟩
  · exact ha bytes handler heq.symm
  · exact h l₁ bytes handler l₂ hl'

theorem Answered.unrelated (h : Answered l) {l' : List (Action D R)} (hl : ∀ a ∈ l', Unrelated a) :
    Answered (l ++ l') := by
  induction l' using List.reverseRecOn with
  | nil => rwa [List.append_nil]
  | append_singleton l' a ih =>
    rw [← List.append_assoc]
    refine (ih fun x hx => hl x (List.mem_append_left _ hx)).snoc fun bytes handler ha => ?_
    have hu := hl a (by simp)
    rw [ha] at hu
    cases hu

end Matches

/-- The replies of the connection, so far and to come. -/
structure Matched (s : Connection D R) : Prop where
  answered : Answered s.trace
  established : s.mode ≠ .connecting → s.mode ≠ .waiting → Matches s.trace s.pendingReplies

section Matched

variable {s s' : Connection D R}

/-- The loop over the buffer only drops messages. -/
theorem sendBuffer_trace : ∀ (ms : List (InnerMessage D)) (s : Connection D R),
    ∃ hs : List ℕ, (s.sendBuffer ms).trace = s.trace ++ hs.map .dropped ∧
      (s.sendBuffer ms).pendingReplies = s.pendingReplies ∧
      (s.sendBuffer ms).receiver = s.receiver
  | [], s => ⟨[], by simp [Connection.sendBuffer], rfl, rfl⟩
  | m :: ms, s => by
    unfold Connection.sendBuffer
    split_ifs
    · obtain ⟨hs, hl, hp, hr⟩ := sendBuffer_trace ms (s.emit (.dropped m.cancelHandler))
      refine ⟨m.cancelHandler :: hs, ?_, hp, hr⟩
      rw [hl]
      exact List.append_assoc _ _ _
    · exact ⟨[], by simp, rfl, rfl⟩

theorem matched_sendBuffer {ms : List (InnerMessage D)} (ha : Answered s.trace)
    (hm : Matches s.trace s.pendingReplies) : Matched (s.sendBuffer ms) := by
  obtain ⟨hs, hl, hp, -⟩ := sendBuffer_trace ms s
  have hu : ∀ a ∈ (hs.map .dropped : List (Action D R)), Unrelated a :=
    List.forall_mem_map.mpr fun _ _ => trivial
  refine ⟨?_, fun _ _ => ?_⟩
  · rw [hl]
    exact ha.unrelated hu
  · rw [hl, hp]
    exact hm.unrelated hu

theorem matched_of_closed (ha : Answered s.trace) (hm : s.mode = .connecting ∨ s.mode = .waiting) :
    Matched s :=
  ⟨ha, fun h1 h2 => absurd hm (not_or.mpr ⟨h1, h2⟩)⟩

/-- **An event keeps the replies matched.** -/
theorem matched_step {e : Event D R} (h : s.step e = some s') (hs : Matched s) : Matched s' := by
  have ha := hs.answered
  cases e with
  | send | cancel =>
    cases h
    exact ⟨hs.answered, hs.established⟩
  | connect ok =>
    unfold Connection.step at h
    rcases hm : s.mode with _ | _ | m | _ <;> simp only [hm, reduceCtorEq] at h
    split_ifs at h <;> cases h
    · exact matched_sendBuffer (ha.snoc nofun) matches_established
    · exact matched_of_closed ha (.inr rfl)
  | timer =>
    unfold Connection.step at h
    rcases hm : s.mode with _ | _ | m | _ <;> simp only [hm, reduceCtorEq] at h
    cases h
    exact matched_of_closed ha (.inl rfl)
  | recv =>
    unfold Connection.step at h
    rcases hm : s.mode with _ | _ | m | _ <;> rcases hr : s.receiver with _ | ⟨m', ms⟩ <;>
      simp only [hm, hr, reduceCtorEq] at h
    · cases h
      refine matched_of_closed ?_ (.inr hm)
      refine Answered.unrelated (ha.snoc (a := .taken m') nofun) ?_
      exact List.forall_mem_map.mpr fun _ _ => trivial
    · cases h
      have hu : ∀ a ∈ ([.taken m'] : List (Action D R)), Unrelated a :=
        List.forall_mem_singleton.mpr trivial
      exact matched_sendBuffer (ha.snoc nofun)
        ((hs.established (by simp [hm]) (by simp [hm])).unrelated hu)
  | write ok =>
    unfold Connection.step at h
    rcases hm : s.mode with _ | _ | m | _ <;> simp only [hm, reduceCtorEq] at h
    split_ifs at h <;> cases h
    · exact matched_sendBuffer (ha.snoc nofun)
        (hs.established (by simp [hm]) (by simp [hm])).written
    · exact matched_of_closed ha (.inl rfl)
  | reply bytes =>
    unfold Connection.step at h
    rcases hm : s.mode with _ | _ | m | _ <;> rcases hp : s.pendingReplies with _ | ⟨m', ms⟩ <;>
      simp only [hm, hp, reduceCtorEq] at h
    all_goals
      cases h
      have hmt := hs.established (by simp [hm]) (by simp [hm])
      rw [hp] at hmt
    · refine matched_of_closed (ha.snoc fun b handler hr => ?_) (.inl rfl)
      cases hr
      exact hmt.nextHandler_nil.symm
    · refine matched_sendBuffer (ha.snoc fun b handler hr => ?_) (hmt.reply bytes _)
      cases hr
      exact hmt.nextHandler.symm
  | readFailed =>
    unfold Connection.step at h
    rcases hm : s.mode with _ | _ | m | _ <;> simp only [hm, reduceCtorEq] at h
    cases h
    exact matched_of_closed ha (.inl rfl)

end Matched

/-! ### Runs -/

/-- The messages submitted, in order. -/
def Connection.messages (s : Connection D R) : List (InnerMessage D) := s.taken ++ s.receiver

section Runs

variable {s s' : Connection D R} {es : List (Event D R)}

theorem messages_sendBuffer (ms : List (InnerMessage D)) :
    (s.sendBuffer ms).messages = s.messages := by
  obtain ⟨hs, hl, -, hr⟩ := sendBuffer_trace ms s
  have hnone : (hs.map .dropped : List (Action D R)).filterMap takenOf = [] :=
    List.filterMap_eq_nil_iff.mpr (List.forall_mem_map.mpr fun _ _ => rfl)
  unfold Connection.messages Connection.taken
  rw [hl, hr, List.filterMap_append, hnone, List.append_nil]

theorem messages_retain (s : Connection D R) : s.retain.messages = s.messages := by
  have hnone : ((s.buffer.filter fun m => s.IsClosed m).map
      fun m => (.dropped m.cancelHandler : Action D R)).filterMap takenOf = [] :=
    List.filterMap_eq_nil_iff.mpr (List.forall_mem_map.mpr fun _ _ => rfl)
  unfold Connection.messages Connection.taken Connection.retain
  rw [List.filterMap_append, hnone, List.append_nil]

/-- An event submits at most one message. -/
theorem messages_step {e : Event D R} (h : s.step e = some s') :
    s'.messages.map InnerMessage.data = s.messages.map InnerMessage.data ++ (sentBy e).toList := by
  have hemit : ∀ {a : Action D R}, takenOf a = none → (s.emit a).messages = s.messages := by
    intro a ha
    simp [Connection.messages, Connection.taken, Connection.emit, ha]
  cases e with
  | send data =>
    cases h
    simp [Connection.messages, Connection.taken, sentBy]
  | cancel =>
    cases h
    exact (List.append_nil _).symm
  | recv =>
    unfold Connection.step at h
    have htake : ∀ {m ms}, s.receiver = m :: ms →
        Connection.messages { s.emit (.taken m) with receiver := ms } = s.messages := by
      intro m ms hr
      simp [Connection.messages, Connection.taken, Connection.emit, takenOf, hr]
    rcases hm : s.mode with _ | _ | m | _ <;> rcases hr : s.receiver with _ | ⟨m', ms⟩ <;>
      simp only [hm, hr, reduceCtorEq] at h
    · cases h
      rw [messages_retain]
      exact (congrArg (List.map _) (htake hr)).trans (List.append_nil _).symm
    · cases h
      rw [messages_sendBuffer]
      exact (congrArg (List.map _) (htake hr)).trans (List.append_nil _).symm
  | connect ok =>
    unfold Connection.step at h
    rcases hm : s.mode with _ | _ | m | _ <;> simp only [hm, reduceCtorEq] at h
    split_ifs at h <;> cases h
    · rw [messages_sendBuffer]
      exact (congrArg (List.map _) (hemit rfl)).trans (List.append_nil _).symm
    · exact (List.append_nil _).symm
  | timer | readFailed =>
    unfold Connection.step at h
    rcases hm : s.mode with _ | _ | m | _ <;> simp only [hm, reduceCtorEq] at h
    cases h
    exact (List.append_nil _).symm
  | write ok =>
    unfold Connection.step at h
    rcases hm : s.mode with _ | _ | m | _ <;> simp only [hm, reduceCtorEq] at h
    split_ifs at h <;> cases h
    · rw [messages_sendBuffer]
      exact (congrArg (List.map _) (hemit rfl)).trans (List.append_nil _).symm
    · exact (List.append_nil _).symm
  | reply bytes =>
    unfold Connection.step at h
    rcases hm : s.mode with _ | _ | m | _ <;> rcases hp : s.pendingReplies with _ | ⟨m', ms⟩ <;>
      simp only [hm, hp, reduceCtorEq] at h
    · cases h
      exact (congrArg (List.map _) (hemit rfl)).trans (List.append_nil _).symm
    · cases h
      rw [messages_sendBuffer]
      exact (congrArg (List.map _) (hemit rfl)).trans (List.append_nil _).symm

theorem run_messages (r : ConnectionRun es s) :
    s.messages.map InnerMessage.data = es.filterMap sentBy := by
  induction r with
  | nil => rfl
  | snoc r h ih =>
    rw [messages_step h, ih, List.filterMap_append, List.filterMap_cons, List.filterMap_nil]
    rcases sentBy _ with _ | d <;> rfl

theorem run_kept (r : ConnectionRun es s) : Idle s ∧ Kept s s.held :=
  r.invariant ⟨fun _ => rfl, ⟨rfl, rfl,
    by simp [Connection.acked, Connection.dropped, Connection.new],
    by simp [Connection.dropped, Connection.new]⟩⟩ fun _ _ _ hs h => kept_step h hs.1 hs.2

theorem run_matched (r : ConnectionRun es s) : Matched s :=
  r.invariant ⟨by simp [Answered, Connection.new], fun h => absurd rfl h⟩
    fun _ _ _ hs h => matched_step h hs

/-- **The connection is reliable.** The messages come from the channel in the order in which they
are submitted. Those that are neither acknowledged nor cancelled are what is live of
`pending_replies`, of the message being written and of `buffer`, in this order. Each reply frame
goes to the handler of the message written on the TCP connection at the same position; there is no
handler for it only if there is no such message. A handler is dropped only after its receiver has
been. -/
theorem reliable (r : ConnectionRun es s) :
    ((s.taken ++ s.receiver).map InnerMessage.data = es.filterMap sentBy ∧
      (s.taken ++ s.receiver).map InnerMessage.cancelHandler = List.range s.submitted) ∧
    ((s.pendingReplies ++ s.inFlight ++ s.buffer).filter (fun m => ¬ s.IsClosed m) =
      s.taken.filter fun m => m.cancelHandler ∉ s.acked ∧ ¬ s.IsClosed m) ∧
    (∀ l₁ bytes handler l₂, s.trace = l₁ ++ .reply bytes handler :: l₂ →
      handler = (onConnection l₁).1[(onConnection l₁).2]?) ∧
    (∀ h ∈ s.dropped, h ∈ s.closed) ∧
    ∀ m ∈ s.taken, m.cancelHandler ∈ s.acked ∨ m.cancelHandler ∈ s.closed ∨ m ∈ s.held := by
  obtain ⟨-, hk⟩ := run_kept r
  refine ⟨⟨run_messages r, hk.order⟩, ?_, (run_matched r).answered, hk.closed, fun m hm => ?_⟩
  · show s.held.filter _ = _
    rw [hk.held, List.filter_filter]
    refine List.filter_congr fun m _ => ?_
    have hc : m.cancelHandler ∈ s.dropped → s.IsClosed m := hk.closed m.cancelHandler
    simp only [← Bool.decide_and, decide_eq_decide]
    tauto
  · rw [or_iff_not_imp_left, or_iff_not_imp_left]
    intro ha hc
    rw [hk.held, List.mem_filter]
    refine ⟨hm, ?_⟩
    rw [decide_eq_true_eq]
    exact ⟨ha, fun hd => hc (hk.closed _ hd)⟩

/-- Three messages, of which the second is cancelled when it has been written; the TCP connection
breaks after the first reply, and the third message is written and acknowledged on the next one. -/
def reconnect : List (Event ℕ ℕ) :=
  [.send 10, .send 11, .connect false, .recv, .timer, .connect true, .write true, .recv,
    .write true, .reply 0, .cancel 1, .readFailed, .send 12, .connect true, .recv, .write true,
    .reply 0]

/-- The record of the run. -/
theorem reliable_reconnect : ∃ s : Connection ℕ ℕ, s.acked = [0, 2] ∧ s.dropped = [1] ∧
    (s.pendingReplies ++ s.inFlight ++ s.buffer).filter (fun m => ¬ s.IsClosed m) =
      s.taken.filter fun m => m.cancelHandler ∉ s.acked ∧ ¬ s.IsClosed m :=
  ⟨_, rfl, rfl, (reliable (run_of_exec _ reconnect Connection.new rfl)).2.1⟩

end Runs

end Hotstuff.Network.ReliableSender
