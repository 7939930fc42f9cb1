import Mathlib

/-! # The store

The task of the `store` crate takes the commands of all clients from one channel. A `NotifyRead` of
a key that is not there yet is kept in `obligations` until the key is written. Against the history
of commands, every `Read` and every `NotifyRead` is answered as it should be and nothing else is
kept (`no_lost_wakeup`).

The database is a parameter; that it behaves as a map without errors is `IsMap`. A `oneshot` channel
is made for each call and stands here for the position of its command. -/

namespace Hotstuff.Storage

variable {K V E : Type} [DecidableEq K]

/-- What the code uses of `rocksdb`. The result of `put` is ignored. -/
structure Database (K V E : Type) where
  State : Type
  empty : State
  put : State → K → V → State
  get : State → K → Except E (Option V)

/-- The database is an initially empty map, and has no errors. -/
structure IsMap (db : Database K V E) : Prop where
  get_empty : ∀ k, db.get db.empty k = .ok none
  get_put : ∀ st k v k', db.get (db.put st k v) k' = if k' = k then .ok (some v) else db.get st k'

inductive StoreCommand (K V : Type) where
  | write (key : K) (value : V)
  | read (key : K) (sender : ℕ)
  | notifyRead (key : K) (sender : ℕ)

/-- What is sent on the channel of a `Read` or of a `NotifyRead`. -/
inductive Answer (V E : Type) where
  | read (response : Except E (Option V))
  | notify (response : Except E V)
deriving DecidableEq

structure Store (db : Database K V E) where
  state : db.State
  obligations : K → Option (List ℕ)
  /-- The answers sent, oldest first. -/
  sent : List (ℕ × Answer V E)

namespace Store

variable {db : Database K V E}

def new : Store db := ⟨db.empty, fun _ => none, []⟩

/-- One turn of the loop of `Store::new`. -/
def handle (s : Store db) : StoreCommand K V → Store db
  | .write key value =>
    let s := { s with state := db.put s.state key value }
    match s.obligations key with
    | none => s
    | some senders =>
      { s with
        obligations := fun k => if k = key then none else s.obligations k
        sent := s.sent ++ senders.map fun sender => (sender, .notify (.ok value)) }
  | .read key sender => { s with sent := s.sent ++ [(sender, .read (db.get s.state key))] }
  | .notifyRead key sender =>
    match db.get s.state key with
    | .ok none =>
      { s with
        obligations := fun k =>
          if k = key then some ((s.obligations key).getD [] ++ [sender]) else s.obligations k }
    | .ok (some value) => { s with sent := s.sent ++ [(sender, .notify (.ok value))] }
    | .error e => { s with sent := s.sent ++ [(sender, .notify (.error e))] }

section Handle

variable {s : Store db} {key : K} {value : V}

theorem handle_write_none (ho : s.obligations key = none) :
    s.handle (.write key value) = { s with state := db.put s.state key value } := by
  simp [handle, ho]

theorem handle_write_some {senders : List ℕ} (ho : s.obligations key = some senders) :
    s.handle (.write key value) =
      { state := db.put s.state key value
        obligations := fun k => if k = key then none else s.obligations k
        sent := s.sent ++ senders.map fun sender => (sender, .notify (.ok value)) } := by
  simp [handle, ho]

theorem handle_notifyRead_none (sender : ℕ) (hg : db.get s.state key = .ok none) :
    s.handle (.notifyRead key sender) =
      { s with
        obligations := fun k =>
          if k = key then some ((s.obligations key).getD [] ++ [sender])
          else s.obligations k } := by
  simp [handle, hg]

theorem handle_notifyRead_some (sender : ℕ) (hg : db.get s.state key = .ok (some value)) :
    s.handle (.notifyRead key sender) =
      { s with sent := s.sent ++ [(sender, .notify (.ok value))] } := by
  simp [handle, hg]

end Handle

/-- The answers on a channel. -/
def answers (s : Store db) (sender : ℕ) : List (Answer V E) :=
  s.sent.filterMap fun a => if a.1 = sender then some a.2 else none

end Store

/-! ### Calls -/

/-- A call of `write`, `read` or `notify_read`. -/
inductive Request (K V : Type) where
  | write (key : K) (value : V)
  | read (key : K)
  | notifyRead (key : K)

/-- The command of a call; the sender is a new one. -/
def Request.command (sender : ℕ) : Request K V → StoreCommand K V
  | .write key value => .write key value
  | .read key => .read key sender
  | .notifyRead key => .notifyRead key sender

/-- The store after the calls of all clients, in the order in which it receives them. -/
def run (db : Database K V E) (rs : List (Request K V)) : Store db :=
  (rs.zipIdx.map fun x => x.1.command x.2).foldl Store.handle .new

theorem run_append (db : Database K V E) (rs : List (Request K V)) (r : Request K V) :
    run db (rs ++ [r]) = (run db rs).handle (r.command rs.length) := by
  simp [run, List.zipIdx_append]

/-! ### The history -/

/-- The value that the call writes to the key. -/
def Request.writes (k : K) : Request K V → Option V
  | .write key value => if key = k then some value else none
  | _ => none

/-- The value of the last write to the key. -/
def lastWrite (k : K) (rs : List (Request K V)) : Option V :=
  (rs.filterMap (Request.writes k)).getLast?

/-- The value of the first write to the key. -/
def firstWrite (k : K) (rs : List (Request K V)) : Option V :=
  (rs.filterMap (Request.writes k)).head?

/-- What the call at a position should be answered: a `NotifyRead` with what was written last before
it, or else with what is written first after it. -/
def expected (rs : List (Request K V)) (i : ℕ) : List (Answer V E) :=
  match rs[i]? with
  | some (.read k) => [.read (.ok (lastWrite k (rs.take i)))]
  | some (.notifyRead k) =>
    ((lastWrite k (rs.take i)).or (firstWrite k (rs.drop (i + 1)))).toList.map fun v =>
      .notify (.ok v)
  | _ => []

/-- The call is a `NotifyRead` of the key. -/
def Request.awaits (k : K) : Request K V → Bool
  | .notifyRead key => key = k
  | _ => false

/-- The positions of the `NotifyRead`s of the key. -/
def notifyReads (k : K) (rs : List (Request K V)) : List ℕ :=
  rs.zipIdx.filterMap fun x => if x.1.awaits k then some x.2 else none

section History

variable {rs : List (Request K V)} {r : Request K V} {k : K} {i : ℕ}

theorem lastWrite_append : lastWrite k (rs ++ [r]) = (r.writes k).or (lastWrite k rs) := by
  unfold lastWrite
  rw [List.filterMap_append]
  rcases h : r.writes k with _ | v <;> simp [h]

theorem firstWrite_append : firstWrite k (rs ++ [r]) = (firstWrite k rs).or (r.writes k) := by
  unfold firstWrite
  rw [List.filterMap_append, List.head?_append]
  rcases h : r.writes k with _ | v <;> simp [h]

theorem firstWrite_eq_none : firstWrite k rs = none ↔ lastWrite k rs = none := by
  simp [firstWrite, lastWrite]

variable (rs k) in
/-- A key that has not been written was neither before nor after a call. -/
theorem lastWrite_split (i : ℕ) : lastWrite k rs = none ↔
    lastWrite k (rs.take i) = none ∧ firstWrite k (rs.drop i) = none := by
  rw [firstWrite_eq_none]
  have hnone : ∀ l : List (Request K V), lastWrite k l = none ↔ ∀ x ∈ l, x.writes k = none := by
    simp [lastWrite]
  rw [hnone, hnone, hnone, ← List.forall_mem_append, List.take_append_drop]

theorem awaits_iff : r.awaits k ↔ r = .notifyRead k := by
  cases r <;> simp [Request.awaits]

theorem mem_notifyReads : i ∈ notifyReads k rs ↔ rs[i]? = some (.notifyRead k) := by
  unfold notifyReads
  rw [List.mem_filterMap]
  constructor
  · rintro ⟨⟨x, j⟩, hx, h⟩
    split_ifs at h with hk
    cases h
    rw [← awaits_iff.mp hk]
    exact List.mem_zipIdx_iff_getElem?.mp hx
  · intro h
    exact ⟨(.notifyRead k, i), List.mem_zipIdx_iff_getElem?.mpr h, if_pos (awaits_iff.mpr rfl)⟩

theorem notifyReads_append : notifyReads k (rs ++ [r]) =
    notifyReads k rs ++ if r.awaits k then [rs.length] else [] := by
  unfold notifyReads
  rw [List.zipIdx_append, List.filterMap_append]
  congr 1
  by_cases h : r.awaits k <;> simp [h]

/-- The calls that are not yet answered are the `NotifyRead`s of keys that are not written. -/
theorem expected_eq_nil (h : rs[i]? = some (.notifyRead k)) :
    (expected rs i : List (Answer V E)) = [] ↔ lastWrite k rs = none := by
  have hsplit := lastWrite_split rs k (i + 1)
  rw [List.take_add_one, h, Option.toList_some, lastWrite_append] at hsplit
  simp [expected, h, hsplit, Request.writes]

theorem notifyReads_sublist (k : K) (rs : List (Request K V)) :
    (notifyReads k rs).Sublist (List.range rs.length) := by
  induction rs using List.reverseRecOn with
  | nil => exact List.Sublist.refl _
  | append_singleton rs r ih =>
    rw [notifyReads_append, List.length_append, List.length_singleton, List.range_succ]
    refine ih.append ?_
    split_ifs
    · exact List.Sublist.refl _
    · exact List.nil_sublist _

/-- What a call is answered when it is handled. -/
def atOnce (rs : List (Request K V)) : Request K V → List (Answer V E)
  | .write _ _ => []
  | .read k => [.read (.ok (lastWrite k rs))]
  | .notifyRead k => (lastWrite k rs).toList.map fun v => .notify (.ok v)

/-- What the calls that are not yet answered are answered when the next call is handled. -/
def late (rs : List (Request K V)) (r : Request K V) (i : ℕ) : List (Answer V E) :=
  match rs[i]? with
  | some (.notifyRead k) =>
    if lastWrite k rs = none then (r.writes k).toList.map fun v => .notify (.ok v) else []
  | _ => []

theorem expected_append (r : Request K V) (i : ℕ) : (expected (rs ++ [r]) i : List (Answer V E)) =
    (expected rs i ++ late rs r i) ++ if i = rs.length then atOnce rs r else [] := by
  rcases Nat.lt_trichotomy i rs.length with hi | rfl | hi
  · rw [if_neg (by omega), List.append_nil]
    have htake : (rs ++ [r]).take i = rs.take i := List.take_append_of_le_length (by omega)
    have hdrop : (rs ++ [r]).drop (i + 1) = rs.drop (i + 1) ++ [r] :=
      List.drop_append_of_le_length (by omega)
    unfold expected late
    rw [List.getElem?_append_left hi, htake, hdrop]
    rcases hx : rs[i]? with _ | x
    · rfl
    cases x with
    | write key value => rfl
    | read k => rfl
    | notifyRead k =>
      have hnil := expected_eq_nil (E := E) hx
      simp only [expected, hx] at hnil
      simp only [firstWrite_append, ← Option.or_assoc, ← hnil]
      rcases (lastWrite k (rs.take i)).or (firstWrite k (rs.drop (i + 1))) with _ | v <;> simp
  · have hnone : rs[rs.length]? = none := List.getElem?_eq_none le_rfl
    simp only [expected, late, hnone, List.nil_append, if_true, List.getElem?_concat_length,
      List.take_left]
    cases r with
    | write | read => rfl
    | notifyRead k => simp [atOnce, firstWrite]
  · have hnone : rs[i]? = none := List.getElem?_eq_none hi.le
    have hnone' : (rs ++ [r])[i]? = none := List.getElem?_eq_none (by simpa using hi)
    simp [expected, late, hnone, hnone', hi.ne']

end History

/-! ### The loop against the history -/

/-- The store is as the history says. -/
structure Answered {db : Database K V E} (rs : List (Request K V)) (s : Store db) : Prop where
  state : ∀ k, db.get s.state k = .ok (lastWrite k rs)
  obligations : ∀ k, s.obligations k =
    if lastWrite k rs = none ∧ notifyReads k rs ≠ [] then some (notifyReads k rs) else none
  answers : ∀ i, s.answers i = expected rs i

section Loop

variable {db : Database K V E} {rs : List (Request K V)} {s : Store db}

/-- One more answer on the channels in `l`. -/
theorem filterMap_answers {l : List ℕ} (hl : l.Nodup) (a : Answer V E) (i : ℕ) :
    (l.map fun sender => (sender, a)).filterMap (fun x => if x.1 = i then some x.2 else none) =
      if i ∈ l then [a] else [] := by
  induction l with
  | nil => rfl
  | cons j l ih =>
    obtain ⟨hj, hl⟩ := List.nodup_cons.mp hl
    rw [List.map_cons, List.filterMap_cons]
    by_cases hji : j = i
    · subst hji
      simp [ih hl, hj]
    · simp [ih hl, hji, Ne.symm hji]

theorem answered_write (hdb : IsMap db) (h : Answered rs s) (key : K) (value : V) :
    Answered (rs ++ [.write key value]) (s.handle (.write key value)) := by
  have hstate : ∀ k, db.get (db.put s.state key value) k =
      .ok (lastWrite k (rs ++ [.write key value])) := by
    intro k
    rw [hdb.get_put, lastWrite_append, h.state k]
    by_cases hk : k = key
    · simp [hk, Request.writes]
    · simp [hk, Ne.symm hk, Request.writes]
  have hnotify : ∀ k, notifyReads k (rs ++ [.write key value]) = notifyReads k rs := by
    intro k
    rw [notifyReads_append]
    exact List.append_nil _
  have hother : ∀ k, k ≠ key → lastWrite k (rs ++ [.write key value]) = lastWrite k rs := by
    intro k hk
    rw [lastWrite_append]
    simp [Request.writes, Ne.symm hk]
  have hkey : lastWrite key (rs ++ [.write key value]) ≠ none := by
    rw [lastWrite_append]
    simp [Request.writes]
  -- the answers to the `NotifyRead`s of the key that have waited
  have hlate : ∀ i, (late rs (.write key value) i : List (Answer V E)) =
      if lastWrite key rs = none ∧ i ∈ notifyReads key rs then [.notify (.ok value)] else [] := by
    intro i
    unfold late
    rcases hx : rs[i]? with _ | x
    · simp [mem_notifyReads, hx]
    cases x with
    | write | read => simp [mem_notifyReads, hx]
    | notifyRead k =>
      by_cases hk : key = k
      · subst hk
        by_cases hw : lastWrite key rs = none <;> simp [mem_notifyReads, hx, hw, Request.writes]
      · simp [mem_notifyReads, hx, hk, Ne.symm hk, Request.writes]
  have hexp : ∀ i, (expected (rs ++ [.write key value]) i : List (Answer V E)) =
      expected rs i ++ late rs (.write key value) i := by
    intro i
    rw [expected_append]
    simp [atOnce]
  rcases ho : s.obligations key with _ | senders
  · rw [Store.handle_write_none ho]
    have hno : ¬ (lastWrite key rs = none ∧ notifyReads key rs ≠ []) := by
      intro hyes
      rw [h.obligations key, if_pos hyes] at ho
      cases ho
    refine ⟨hstate, fun k => ?_, fun i => ?_⟩
    · rw [hnotify]
      by_cases hk : k = key
      · subst hk
        rw [if_neg fun h => hkey h.1]
        exact ho
      · rw [hother k hk]
        exact h.obligations k
    · rw [hexp, hlate, if_neg fun h => hno ⟨h.1, List.ne_nil_of_mem h.2⟩, List.append_nil]
      exact h.answers i
  · rw [Store.handle_write_some ho]
    have hyes := h.obligations key
    rw [ho] at hyes
    split_ifs at hyes with hw
    cases hyes
    refine ⟨hstate, fun k => ?_, fun i => ?_⟩
    · rw [hnotify]
      dsimp only
      by_cases hk : k = key
      · subst hk
        rw [if_pos rfl, if_neg fun h => hkey h.1]
      · rw [if_neg hk, hother k hk]
        exact h.obligations k
    · have hnd := (notifyReads_sublist key rs).nodup List.nodup_range
      have hi := h.answers i
      unfold Store.answers at hi ⊢
      rw [List.filterMap_append, hi, filterMap_answers hnd, hexp, hlate]
      simp [hw.1]

/-- An answer sent at once is the only one on its channel. -/
theorem answers_append (h : Answered rs s) {a : Answer V E} {r : Request K V}
    (ha : atOnce rs r = [a]) (hlate : ∀ i, (late rs r i : List (Answer V E)) = []) (i : ℕ) :
    Store.answers { s with sent := s.sent ++ [(rs.length, a)] } i = expected (rs ++ [r]) i := by
  have hi := h.answers i
  unfold Store.answers at hi ⊢
  rw [List.filterMap_append, hi, expected_append, hlate, List.append_nil, ha]
  by_cases hl : i = rs.length
  · subst hl
    simp
  · simp [hl, Ne.symm hl]

variable (rs) in
theorem late_eq_nil (hr : ∀ k, r.writes k = none) (i : ℕ) :
    (late rs r i : List (Answer V E)) = [] := by
  unfold late
  rcases rs[i]? with _ | x
  · rfl
  cases x with
  | write | read => rfl
  | notifyRead k => simp [hr k]

theorem answered_read (h : Answered rs s) (key : K) :
    Answered (rs ++ [.read key]) (s.handle (.read key rs.length)) := by
  have hlast : ∀ k, lastWrite k (rs ++ [.read key]) = lastWrite k rs := by
    intro k
    rw [lastWrite_append]
    rfl
  have hnotify : ∀ k, notifyReads k (rs ++ [.read key]) = notifyReads k rs := by
    intro k
    rw [notifyReads_append]
    exact List.append_nil _
  refine ⟨fun k => ?_, fun k => ?_, fun i => ?_⟩
  · rw [hlast]
    exact h.state k
  · rw [hlast, hnotify]
    exact h.obligations k
  · refine answers_append h ?_ (late_eq_nil rs fun _ => rfl) i
    rw [h.state key]
    rfl

theorem answered_notifyRead (h : Answered rs s) (key : K) :
    Answered (rs ++ [.notifyRead key]) (s.handle (.notifyRead key rs.length)) := by
  have hlast : ∀ k, lastWrite k (rs ++ [.notifyRead key]) = lastWrite k rs := by
    intro k
    rw [lastWrite_append]
    rfl
  have hlate := late_eq_nil rs (E := E) (r := .notifyRead key) fun _ => rfl
  rcases hw : lastWrite key rs with _ | value
  · have hg : db.get s.state key = .ok none := hw ▸ h.state key
    rw [Store.handle_notifyRead_none _ hg]
    refine ⟨fun k => hlast k ▸ h.state k, fun k => ?_, fun i => ?_⟩
    · rw [hlast, notifyReads_append]
      dsimp only
      by_cases hk : k = key
      · subst hk
        -- the obligations of the key so far are its `NotifyRead`s so far
        have hold : (s.obligations k).getD [] = notifyReads k rs := by
          rw [h.obligations k]
          by_cases hnil : notifyReads k rs = [] <;> simp [hw, hnil]
        simp [hold, hw, Request.awaits]
      · rw [if_neg hk, h.obligations k]
        simp [Request.awaits, Ne.symm hk]
    · rw [expected_append, hlate, List.append_nil]
      have hnil : (atOnce rs (.notifyRead key) : List (Answer V E)) = [] := by simp [atOnce, hw]
      rw [hnil, ite_self, List.append_nil]
      exact h.answers i
  · have hg : db.get s.state key = .ok (some value) := hw ▸ h.state key
    rw [Store.handle_notifyRead_some _ hg]
    refine ⟨fun k => hlast k ▸ h.state k, fun k => ?_, fun i => ?_⟩
    · rw [hlast, notifyReads_append, h.obligations k]
      by_cases hk : k = key
      · subst hk
        simp [hw]
      · simp [Request.awaits, Ne.symm hk]
    · refine answers_append h ?_ hlate i
      simp [atOnce, hw]

/-- After any sequence of commands. -/
theorem answered_run (hdb : IsMap db) (rs : List (Request K V)) : Answered rs (run db rs) := by
  induction rs using List.reverseRecOn with
  | nil => exact ⟨hdb.get_empty, fun _ => rfl, fun _ => rfl⟩
  | append_singleton rs r ih =>
    rw [run_append]
    cases r with
    | write key value => exact answered_write hdb ih key value
    | read key => exact answered_read ih key
    | notifyRead key => exact answered_notifyRead ih key

end Loop

/-- The `NotifyRead`s of the key that have not been answered, first come first. -/
def unanswered {db : Database K V E} (k : K) (rs : List (Request K V)) (s : Store db) : List ℕ :=
  (notifyReads k rs).filter fun i => (s.answers i).isEmpty

theorem unanswered_eq {db : Database K V E} {rs : List (Request K V)} {s : Store db}
    (h : Answered rs s) (k : K) :
    unanswered k rs s = if lastWrite k rs = none then notifyReads k rs else [] := by
  have hempty : ∀ i ∈ notifyReads k rs, (s.answers i).isEmpty = decide (lastWrite k rs = none) := by
    intro i hi
    have hnil := expected_eq_nil (E := E) (mem_notifyReads.mp hi)
    rw [h.answers i, Bool.eq_iff_iff, List.isEmpty_iff, hnil, decide_eq_true_iff]
  unfold unanswered
  rw [List.filter_congr hempty]
  by_cases hw : lastWrite k rs = none <;> simp [hw]

/-- Every `Read` is answered with the last earlier write. Every `NotifyRead` is answered exactly
once: with the last earlier write or else, as soon as there is one, with the first later write. What
is kept in `obligations` are the `NotifyRead`s that are not answered, in the order in which they
came, of keys never written. -/
theorem no_lost_wakeup {db : Database K V E} (hdb : IsMap db) (rs : List (Request K V)) :
    (∀ i k, rs[i]? = some (.read k) →
      (run db rs).answers i = [.read (.ok (lastWrite k (rs.take i)))]) ∧
    (∀ i k, rs[i]? = some (.notifyRead k) →
      (run db rs).answers i =
        match lastWrite k (rs.take i), firstWrite k (rs.drop (i + 1)) with
        | some v, _ => [.notify (.ok v)]
        | none, some v => [.notify (.ok v)]
        | none, none => []) ∧
    (∀ k, (run db rs).obligations k =
      if unanswered k rs (run db rs) = [] then none else some (unanswered k rs (run db rs))) ∧
    ∀ k, (run db rs).obligations k ≠ none → lastWrite k rs = none := by
  have h := answered_run hdb rs
  refine ⟨fun i k hi => ?_, fun i k hi => ?_, fun k => ?_, fun k hk => ?_⟩
  · rw [h.answers i]
    simp [expected, hi]
  · rw [h.answers i]
    simp only [expected, hi]
    rcases lastWrite k (rs.take i) with _ | v
    · rcases firstWrite k (rs.drop (i + 1)) with _ | v <;> rfl
    · rfl
  · rw [unanswered_eq h, h.obligations k]
    by_cases hw : lastWrite k rs = none
    · by_cases hnil : notifyReads k rs = [] <;> simp [hw, hnil]
    · simp [hw]
  · by_contra hw
    refine hk ?_
    rw [h.obligations k, if_neg fun h => hw h.1]

/-- A map kept as the list of what was written, newest first. -/
def assoc : Database ℕ ℕ Empty where
  State := List (ℕ × ℕ)
  empty := []
  put st k v := (k, v) :: st
  get st k := .ok (st.lookup k)

theorem assoc_get_put (k v k' : ℕ) (st : List (ℕ × ℕ)) :
    (.ok (((k, v) :: st).lookup k') : Except Empty (Option ℕ)) =
      if k' = k then .ok (some v) else .ok (st.lookup k') := by
  by_cases hk : k' = k
  · simp [hk]
  · have hne : (k' == k) = false := by simpa using hk
    simp [List.lookup_cons, hk, hne]

theorem assoc_isMap : IsMap assoc where
  get_empty _ := rfl
  get_put st k v k' := assoc_get_put k v k' st

/-- Two `NotifyRead`s wait for one write; a third comes after it. -/
theorem no_lost_wakeup_assoc :
    let rs := [.notifyRead 1, .notifyRead 2, .notifyRead 1, .write 1 5, .write 1 6, .notifyRead 1]
    (run assoc rs).answers 2 = [.notify (.ok 5)] ∧ (run assoc rs).answers 5 = [.notify (.ok 6)] ∧
      (run assoc rs).obligations 2 = some [1] := by
  intro rs
  obtain ⟨-, hnotify, hkept, -⟩ := no_lost_wakeup assoc_isMap rs
  refine ⟨?_, ?_, ?_⟩
  · rw [hnotify 2 1 rfl]
    rfl
  · rw [hnotify 5 1 rfl]
    rfl
  · rw [hkept 2]
    rfl

end Hotstuff.Storage
