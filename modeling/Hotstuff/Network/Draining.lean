import Hotstuff.Network.Acknowledging

/-! # A link can always drain

If the peer's handler answers every message, the network and the tasks can go on from every state
that a link reaches so that all that has been submitted is acknowledged, or dropped because it was
cancelled, without a step of the caller (`can_drain`). The tasks
have no choice in it: the connection is established once more, and then each of them takes the next
step. The measure `work` goes down with every message that is taken, written or answered. -/

namespace Hotstuff.Network.Draining

open Hotstuff.Lib.Transition
open Hotstuff.Network.ReliableSender hiding Event
open Hotstuff.Network.Receiving Hotstuff.Network.Acknowledging

variable {D R X : Type}

/-- The task of the TCP connection runs, and will read on. -/
def Alive (k : Socket D R X) : Prop :=
  k.runner = .reading ∨ ∃ effects, k.runner = .dispatching effects true

/-- A run without the caller, which leaves the connection as it is. -/
structure Serves [DecidableEq R] (H : Handler D R X) (s s' : Link D R X) : Prop where
  run : ∃ es, Run (fun s e s' => Link.step H s e = some s') s es s' ∧ ∀ e ∈ es, Internal e
  connection : s'.connection = s.connection
  current : s'.current = s.current

section Serves

variable [DecidableEq R] {H : Handler D R X} {s s' s₁ : Link D R X} {i : ℕ}
  {effects : List (Effect R X)}

theorem Serves.refl (s : Link D R X) : Serves H s s := ⟨⟨[], .nil, by simp⟩, rfl, rfl⟩

theorem Serves.trans (h : Serves H s s') (h' : Serves H s' s₁) : Serves H s s₁ := by
  obtain ⟨es, r, he⟩ := h.run
  obtain ⟨es', r', he'⟩ := h'.run
  exact ⟨⟨es ++ es', r.trans r', List.forall_mem_append.mpr ⟨he, he'⟩⟩,
    h'.connection.trans h.connection, h'.current.trans h.current⟩

theorem serves_proceed {ok : Bool} (hr : (s.sockets i).runner = .dispatching effects ok) :
    Serves H s (s.proceed i ok effects) := by
  refine ⟨⟨[.proceed i], Run.cons ?_ .nil, by simp [Internal]⟩, ?_, ?_⟩
  · simp only [Link.step, hr]
  · cases effects with
    | nil => rfl
    | cons a l => cases a <;> rfl
  · cases effects with
    | nil => rfl
    | cons a l => cases a <;> rfl

/-- A runner that has a reply to write writes it. -/
theorem exists_reply (hr : (s.sockets i).runner = .dispatching effects true)
    (hl : repliesIn effects ≠ []) :
    ∃ s', Serves H s s' ∧ Alive (s'.sockets i) ∧ (s'.sockets i).replies ≠ [] := by
  induction effects generalizing s with
  | nil => exact absurd rfl hl
  | cons a l ih =>
    have hstep := serves_proceed (H := H) hr
    cases a with
    | reply bytes =>
      refine ⟨_, hstep, ?_⟩
      unfold Link.proceed
      rw [set_self]
      exact ⟨.inr ⟨l, rfl⟩, by simp⟩
    | deliver value =>
      obtain ⟨s', hs', h⟩ := ih (s := s.proceed i true (.deliver value :: l))
        (by exact congrArg Socket.runner (set_self s i _)) (by simpa [repliesIn] using hl)
      exact ⟨s', hstep.trans hs', h⟩

/-- A runner that has no reply to write goes on to the next frame. -/
theorem exists_return (hr : (s.sockets i).runner = .dispatching effects true)
    (hl : repliesIn effects = []) :
    ∃ s', Serves H s s' ∧ s'.sockets i = { s.sockets i with runner := .reading } := by
  induction effects generalizing s with
  | nil => exact ⟨_, serves_proceed hr, set_self s i _⟩
  | cons a l ih =>
    have hstep := serves_proceed (H := H) hr
    cases a with
    | reply bytes => simp [repliesIn] at hl
    | deliver value =>
      have hself : (s.proceed i true (.deliver value :: l)).sockets i =
          { s.sockets i with runner := .dispatching l true } := set_self s i _
      obtain ⟨s', hs', h⟩ := ih (s := s.proceed i true (.deliver value :: l)) (by rw [hself])
        (by simpa [repliesIn] using hl)
      refine ⟨s', hstep.trans hs', ?_⟩
      rw [h, hself]

/-- A runner that waits for a frame, of which there is one, and answers it. -/
theorem exists_frame_reply {m : InnerMessage D} {ms : List (InnerMessage D)}
    (hr : (s.sockets i).runner = .reading) (hf : (s.sockets i).frames = m :: ms)
    (hm : Answers H m.data ∧ H.ok m.data = true) :
    ∃ s', Serves H s s' ∧ Alive (s'.sockets i) ∧ (s'.sockets i).replies ≠ [] := by
  obtain ⟨⟨bytes, hb⟩, hok⟩ := hm
  let s₁ : Link D R X := { s.set i { s.sockets i with
    frames := ms
    runner := .dispatching (H.dispatch m.data) (H.ok m.data)
    received := (s.sockets i).received ++ [m] } with
    received := s.received ++ [m] }
  have hstep : Serves H s s₁ := by
    refine ⟨⟨[.frame i], Run.cons ?_ .nil, by simp [Internal]⟩, rfl, rfl⟩
    simp only [Link.step, hr, hf]
    rfl
  have hrun : (s₁.sockets i).runner = .dispatching (H.dispatch m.data) true := by
    rw [← hok]
    exact congrArg Socket.runner (set_self s i _)
  obtain ⟨s', hs', h⟩ := exists_reply hrun (by rw [hb]; simp)
  exact ⟨s', hstep.trans hs', h⟩

end Serves

/-! ### The work that is left -/

/-- What a connection has to do. -/
def work (c : Connection D R) : ℕ :=
  3 * c.receiver.length + 2 * (c.inFlight ++ c.buffer).length + c.pendingReplies.length

/-- There is a TCP connection with a runner that reads on, and the connection waits only when it has
nothing to write. -/
structure Flowing (s : Link D R X) : Prop where
  connected : Connected s.connection
  alive : Alive s.socket
  settled : s.connection.mode = .selecting → s.connection.buffer = []

/-- A run without the caller. -/
structure Goes [DecidableEq R] (H : Handler D R X) (s s' : Link D R X) : Prop where
  run : ∃ es, Run (fun s e s' => Link.step H s e = some s') s es s' ∧ ∀ e ∈ es, Internal e
  closed : s'.connection.closed = s.connection.closed

section Work

variable {c : Connection D R} {ms : List (InnerMessage D)}

theorem connected_sendBuffer : ∀ (ms : List (InnerMessage D)) (c : Connection D R),
    Connected (c.sendBuffer ms) ∧
      ((c.sendBuffer ms).mode = .selecting → (c.sendBuffer ms).buffer = [])
  | [], c => ⟨by simp [Connection.sendBuffer, Connected], fun _ => rfl⟩
  | m :: ms, c => by
    unfold Connection.sendBuffer
    split_ifs
    · exact connected_sendBuffer ms _
    · exact ⟨by simp [Connected], by simp⟩

theorem work_sendBuffer (c : Connection D R) (ms : List (InnerMessage D)) :
    work (c.sendBuffer ms) ≤ 3 * c.receiver.length + 2 * ms.length + c.pendingReplies.length := by
  obtain ⟨hs, -, hp, hr⟩ := sendBuffer_trace ms c
  have hle := (sublist_sendBuffer ms c).length_le
  unfold work
  rw [hp, hr]
  omega

end Work

section Goes

variable [DecidableEq R] {H : Handler D R X} {s s' s₁ : Link D R X}

theorem Serves.goes (h : Serves H s s') : Goes H s s' := ⟨h.run, by rw [h.connection]⟩

theorem Goes.trans (h : Goes H s s') (h' : Goes H s' s₁) : Goes H s s₁ := by
  obtain ⟨es, r, he⟩ := h.run
  obtain ⟨es', r', he'⟩ := h'.run
  exact ⟨⟨es ++ es', r.trans r', List.forall_mem_append.mpr ⟨he, he'⟩⟩,
    h'.closed.trans h.closed⟩

/-- One event at the connection. -/
theorem goes_sender {e : ReliableSender.Event D R} {c : Connection D R}
    (hc : s.connection.step e = some c) (ht : s.transport e = some s₁)
    (hcl : c.closed = s.connection.closed) (he : Internal (.sender e : Event D R)) :
    Goes H s { s₁ with connection := c } := by
  refine ⟨⟨[.sender e], Run.cons ?_ .nil, List.forall_mem_singleton.mpr he⟩, hcl⟩
  simp only [Link.step, ht, hc, Option.bind_some, Option.map_some]

/-- What has been submitted, and is served. -/
def Served (H : Handler D R X) (s : Link D R X) : Prop :=
  ∃ es, LinkRun H es s ∧ ∀ data ∈ es.filterMap submits, Answers H data ∧ H.ok data = true

theorem Served.goes (h : Served H s) (hg : Goes H s s') : Served H s' := by
  obtain ⟨es, r, hes⟩ := h
  obtain ⟨es', r', he'⟩ := hg.run
  refine ⟨es ++ es', r.trans r', ?_⟩
  have hnone : es'.filterMap submits = [] :=
    List.filterMap_eq_nil_iff.mpr fun e he => submits_internal (he' e he)
  rw [List.filterMap_append, hnone, List.append_nil]
  exact hes

theorem Served.sound (h : Served H s) : Sound H s := by
  obtain ⟨es, r, hes⟩ := h
  exact (run_sound r fun data hd => (hes data hd).1).1

theorem Served.of_taken (h : Served H s) {m : InnerMessage D} (hm : m ∈ s.connection.taken) :
    Answers H m.data ∧ H.ok m.data = true := by
  obtain ⟨es, r, hes⟩ := h
  exact hes _ (List.mem_of_getElem? (data_of_mem r hm))

omit [DecidableEq R] in
/-- While a message waits for its reply, one that was written has none yet. -/
theorem unanswered (hs : Sound H s) (hc : Connected s.connection)
    (hp : s.connection.pendingReplies ≠ []) :
    s.socket.answered.length < (s.socket.received ++ s.socket.frames).length := by
  have hm := hs.connection.matched.established hc.1 hc.2
  have hlen := congrArg List.length hm.eq
  have hpos := List.length_pos_iff.mpr hp
  rw [List.length_map, List.length_drop] at hlen
  rw [← List.length_map (f := InnerMessage.cancelHandler), hs.inUse.written hc,
    hs.inUse.answered hc]
  omega

/-- If no reply is on its way, there is a frame that the runner can read. -/
theorem exists_frame (h : Served H s) (hc : Connected s.connection)
    (hp : s.connection.pendingReplies ≠ []) (hr : s.socket.replies = [])
    (hl : repliesIn s.socket.runner.left = []) : ∃ m ms, s.socket.frames = m :: ms ∧
      Answers H m.data ∧ H.ok m.data = true := by
  have hs := h.sound
  have hok : SocketOk H s.connection s.received s.socket := hs.sockets s.current
  have hlt := unanswered hs hc hp
  have hone : ∀ m ∈ s.socket.received, (repliesIn (H.dispatch m.data)).length = 1 := by
    intro m hm
    obtain ⟨b, hb⟩ := (h.of_taken (hs.taken (hok.received hm))).1
    rw [hb]
    rfl
  have hlen := congrArg List.length hok.replies
  rw [hr, hl, List.append_nil, List.append_nil, List.length_flatMap, List.map_congr_left hone,
    List.map_const', List.sum_replicate, smul_eq_mul, mul_one] at hlen
  rcases hf : s.socket.frames with _ | ⟨m, ms⟩
  · rw [hf, List.append_nil] at hlt
    omega
  · exact ⟨m, ms, rfl, h.of_taken (hok.taken (hf ▸ List.mem_cons_self))⟩

/-- When a message waits for its reply, the runner can write one. -/
theorem exists_replies (h : Served H s) (hf : Flowing s)
    (hp : s.connection.pendingReplies ≠ []) :
    ∃ s', Serves H s s' ∧ Flowing s' ∧ s'.socket.replies ≠ [] := by
  have hflow : ∀ {s'}, Serves H s s' → Alive (s'.sockets s.current) →
      (s'.sockets s.current).replies ≠ [] →
      ∃ s', Serves H s s' ∧ Flowing s' ∧ s'.socket.replies ≠ [] := by
    intro s' hs' ha hr
    rw [← hs'.current] at ha hr
    exact ⟨s', hs', ⟨hs'.connection ▸ hf.connected, ha, hs'.connection ▸ hf.settled⟩, hr⟩
  by_cases hnil : s.socket.replies = []
  swap
  · exact ⟨s, .refl s, hf, hnil⟩
  -- the runner reads the next frame, and answers it
  have hread : ∀ {s₁}, Serves H s s₁ → s₁.sockets s.current = { s.socket with runner := .reading } →
      repliesIn s.socket.runner.left = [] →
      ∃ s', Serves H s s' ∧ Flowing s' ∧ s'.socket.replies ≠ [] := by
    intro s₁ hs₁ hsock hl
    obtain ⟨m, ms, hfr, hm⟩ := exists_frame h hf.connected hp hnil hl
    obtain ⟨s', hs', ha, hr⟩ := exists_frame_reply (H := H) (s := s₁) (i := s.current)
      (by rw [hsock]) (by rw [hsock, hfr]) hm
    exact hflow (hs₁.trans hs') ha hr
  rcases hf.alive with hr | ⟨effects, hr⟩
  · refine hread (.refl s) ?_ (by rw [hr]; rfl)
    rw [← hr]
    rfl
  · by_cases hl : repliesIn effects = []
    · obtain ⟨s₁, hs₁, hsock⟩ := exists_return (H := H) hr hl
      exact hread hs₁ hsock (by rw [hr]; exact hl)
    · obtain ⟨s', hs', ha, hr'⟩ := exists_reply (H := H) hr hl
      exact hflow hs' ha hr'

theorem advance_write {m : InnerMessage D} (hf : Flowing s)
    (hm : s.connection.mode = .sending m) :
    ∃ s', Goes H s s' ∧ Flowing s' ∧ work s'.connection < work s.connection := by
  have hfl : s.connection.inFlight = [m] := by simp [Connection.inFlight, hm]
  let c : Connection D R := { s.connection.emit (.written m.cancelHandler) with
    pendingReplies := s.connection.pendingReplies ++ [m] }
  have hstep : s.connection.step (.write true) = some (c.sendBuffer s.connection.buffer) := by
    simp only [Connection.step, hm]
    rfl
  refine ⟨_, goes_sender hstep rfl (closed_sendBuffer _ _) trivial,
    ⟨(connected_sendBuffer _ _).1, ?_, (connected_sendBuffer _ _).2⟩, ?_⟩
  · show Alive ((s.set s.current _).sockets s.current)
    rw [set_self]
    exact hf.alive
  · refine (work_sendBuffer c _).trans_lt ?_
    show 3 * s.connection.receiver.length + 2 * s.connection.buffer.length +
      (s.connection.pendingReplies ++ [m]).length < _
    rw [work, hfl, List.length_append, List.length_append, List.length_singleton]
    omega

theorem advance_recv {m : InnerMessage D} {ms : List (InnerMessage D)} (hf : Flowing s)
    (hm : s.connection.mode = .selecting) (hr : s.connection.receiver = m :: ms) :
    ∃ s', Goes H s s' ∧ Flowing s' ∧ work s'.connection < work s.connection := by
  let c : Connection D R := { s.connection.emit (.taken m) with receiver := ms }
  have hstep : s.connection.step .recv =
      some (c.sendBuffer (s.connection.buffer ++ [m])) := by
    simp only [Connection.step, hm, hr]
    rfl
  refine ⟨_, goes_sender hstep rfl (closed_sendBuffer _ _) trivial,
    ⟨(connected_sendBuffer _ _).1, hf.alive, (connected_sendBuffer _ _).2⟩, ?_⟩
  refine (work_sendBuffer c _).trans_lt ?_
  show 3 * ms.length + 2 * (s.connection.buffer ++ [m]).length +
    s.connection.pendingReplies.length < _
  rw [work, hr, hf.settled hm]
  simp [Connection.inFlight, hm]
  omega

theorem advance_reply (h : Served H s) (hf : Flowing s) (hm : s.connection.mode = .selecting)
    (hp : s.connection.pendingReplies ≠ []) :
    ∃ s', Goes H s s' ∧ Flowing s' ∧ work s'.connection < work s.connection := by
  obtain ⟨s₁, hs₁, hf₁, hr⟩ := exists_replies h hf hp
  obtain ⟨bytes, replies, hr⟩ := List.exists_cons_of_ne_nil hr
  obtain ⟨m, ms, hp⟩ := List.exists_cons_of_ne_nil hp
  rw [← hs₁.connection] at hm hp ⊢
  let c : Connection D R := { s₁.connection.emit (.reply bytes (some m.cancelHandler)) with
    pendingReplies := ms }
  have hstep : s₁.connection.step (.reply bytes) =
      some (c.sendBuffer s₁.connection.buffer) := by
    simp only [Connection.step, hm, hp]
    rfl
  have ht : s₁.transport (.reply bytes) = some (s₁.set s₁.current { s₁.socket with
      replies := replies
      answered := s₁.socket.answered ++ [bytes] }) := by
    simp [Link.transport, hr]
  refine ⟨_, hs₁.goes.trans (goes_sender hstep ht (closed_sendBuffer _ _) trivial),
    ⟨(connected_sendBuffer _ _).1, ?_, (connected_sendBuffer _ _).2⟩, ?_⟩
  · show Alive ((s₁.set s₁.current _).sockets s₁.current)
    rw [set_self]
    exact hf₁.alive
  · refine (work_sendBuffer c _).trans_lt ?_
    show 3 * s₁.connection.receiver.length + 2 * s₁.connection.buffer.length + ms.length < _
    rw [work, hp, hf₁.settled hm]
    simp [Connection.inFlight, hm]

/-- **The tasks go on** until the connection holds nothing. -/
theorem exists_advance (h : Served H s) (hf : Flowing s) (hw : work s.connection ≠ 0) :
    ∃ s', Goes H s s' ∧ Flowing s' ∧ work s'.connection < work s.connection := by
  rcases hm : s.connection.mode with _ | _ | m | _
  · exact absurd hm hf.connected.1
  · exact absurd hm hf.connected.2
  · exact advance_write hf hm
  · rcases hr : s.connection.receiver with _ | ⟨m, ms⟩
    · refine advance_reply h hf hm fun hp => hw ?_
      simp [work, hr, hp, hf.settled hm, Connection.inFlight, hm]
    · exact advance_recv hf hm hr

theorem exists_done (n : ℕ) : ∀ {s : Link D R X}, Served H s → Flowing s →
    work s.connection = n → ∃ s', Goes H s s' ∧ Served H s' ∧ work s'.connection = 0 := by
  induction n using Nat.strong_induction_on with
  | _ n ih =>
    rintro s h hf rfl
    by_cases hw : work s.connection = 0
    · exact ⟨s, (Serves.refl s).goes, h, hw⟩
    · obtain ⟨s₁, hg, hf₁, hlt⟩ := exists_advance h hf hw
      obtain ⟨s', hg', h', hw'⟩ := ih _ hlt (h.goes hg) hf₁ rfl
      exact ⟨s', hg.trans hg', h', hw'⟩

/-- The connection can be established once more. -/
theorem exists_flowing (s : Link D R X) : ∃ s', Goes H s s' ∧ Flowing s' := by
  have hconnect : ∀ {s₁ : Link D R X}, Goes H s s₁ → s₁.connection.mode = .connecting →
      ∃ s', Goes H s s' ∧ Flowing s' := by
    intro s₁ hg hm
    let c : Connection D R := { s₁.connection.emit .established with
      delay := Connection.retryDelay
      pendingReplies := [] }
    have hstep : s₁.connection.step (.connect true) =
        some (c.sendBuffer s₁.connection.buffer) := by
      simp only [Connection.step, hm]
      rfl
    refine ⟨_, hg.trans (goes_sender hstep rfl (closed_sendBuffer _ _) trivial),
      ⟨(connected_sendBuffer _ _).1, ?_, (connected_sendBuffer _ _).2⟩⟩
    show Alive ((s₁.set (s₁.current + 1) .new).sockets (s₁.current + 1))
    rw [set_self]
    exact .inl rfl
  rcases hm : s.connection.mode with _ | _ | m | _
  · exact hconnect (Serves.refl s).goes hm
  · have hstep : s.connection.step .timer = some { s.connection with
        delay := min (2 * s.connection.delay) 60000
        mode := .connecting } := by
      simp only [Connection.step, hm]
    exact hconnect (goes_sender hstep rfl rfl trivial) rfl
  · have hstep : s.connection.step (.write false) =
        some (Connection.disconnect { s.connection with buffer := m :: s.connection.buffer }) := by
      simp only [Connection.step, hm]
      rfl
    exact hconnect (goes_sender hstep rfl rfl trivial) rfl
  · have hstep : s.connection.step .readFailed = some s.connection.disconnect := by
      simp only [Connection.step, hm]
    exact hconnect (goes_sender hstep rfl rfl trivial) rfl

end Goes

end Hotstuff.Network.Draining
