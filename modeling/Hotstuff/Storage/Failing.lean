import Hotstuff.Storage

/-! # Writes that fail

The loop of the store ignores the result of `put`, and answers the `NotifyRead`s that wait for the
key as if the value had been stored. The answers are true, which is to say that the key is bound
when they are given, exactly if no `NotifyRead` of a key waits when a write leaves the key unbound
(`truthful_iff`). -/

namespace Hotstuff.Storage.Failing

open Hotstuff.Storage

variable {K V E : Type} [DecidableEq K]

/-- The database may have errors: a `get` that has none returns what the key is bound to, and a
`put` binds the key or leaves everything as it is. -/
structure MayFail (db : Database K V E) (content : db.State → K → Option V) : Prop where
  empty : ∀ k, content db.empty k = none
  get : ∀ st k, db.get st k = .ok (content st k) ∨ ∃ e, db.get st k = .error e
  put : ∀ st k v, content (db.put st k v) = Function.update (content st) k (some v) ∨
    content (db.put st k v) = content st

variable {db : Database K V E}

/-- What is sent when a command is handled. -/
def answersTo (s : Store db) (c : StoreCommand K V) : List (ℕ × Answer V E) :=
  (s.handle c).sent.drop s.sent.length

variable (content : db.State → K → Option V)

/-- The answers given when the call `r` is handled are true: if one tells a `NotifyRead` that its
key has a value, then the key is bound, so that a `Read` would find a value unless it fails. -/
def Truthful (rs : List (Request K V)) (r : Request K V) : Prop :=
  ∀ i k v, (rs ++ [r])[i]? = some (.notifyRead k) →
    (i, .notify (.ok v)) ∈ answersTo (run db rs) (r.command rs.length) →
    ∃ w, content (run db (rs ++ [r])).state k = some w ∧
      ∀ found, db.get (run db (rs ++ [r])).state k = .ok found → found = some w

/-- The call is not a write that leaves its key unbound while a `NotifyRead` of it waits. -/
def Stored (rs : List (Request K V)) : Request K V → Prop
  | .write k v => content (db.put (run db rs).state k v) k = none →
      (run db rs).obligations k = none
  | _ => True

/-! ### Those that wait -/

/-- The senders kept for a key are those of `NotifyRead`s of it, and there is at least one. -/
def Waits (rs : List (Request K V)) (s : Store db) : Prop :=
  ∀ k senders, s.obligations k = some senders →
    senders ≠ [] ∧ ∀ i ∈ senders, rs[i]? = some (.notifyRead k)

omit [DecidableEq K] in
theorem getElem?_concat {rs : List (Request K V)} {r x : Request K V} {i : ℕ}
    (h : rs[i]? = some x) : (rs ++ [r])[i]? = some x := by
  rw [List.getElem?_append_left (List.getElem?_eq_some_iff.mp h).1, h]

omit [DecidableEq K] in
theorem Waits.concat {rs : List (Request K V)} {s : Store db} (h : Waits rs s) (r : Request K V) :
    Waits (rs ++ [r]) s := by
  intro k senders ho
  obtain ⟨hne, hw⟩ := h k senders ho
  exact ⟨hne, fun i hi => getElem?_concat (hw i hi)⟩

theorem waits_handle {rs : List (Request K V)} {s : Store db} (h : Waits rs s) (r : Request K V) :
    Waits (rs ++ [r]) (s.handle (r.command rs.length)) := by
  have h' := h.concat r
  cases r with
  | write key value =>
    rcases ho : s.obligations key with _ | senders
    · rw [Request.command, Store.handle_write_none ho]
      exact h'
    · rw [Request.command, Store.handle_write_some ho]
      intro k l hk
      dsimp only at hk
      split_ifs at hk
      exact h' k l hk
  | read key => exact h'
  | notifyRead key =>
    rcases hg : db.get s.state key with e | (_ | value)
    · simp only [Request.command, Store.handle, hg]
      exact h'
    · rw [Request.command, Store.handle_notifyRead_none _ hg]
      intro k l hk
      dsimp only at hk
      split_ifs at hk with hkey
      · cases hk
        refine ⟨by simp, fun i hi => ?_⟩
        rcases List.mem_append.mp hi with hi | hi
        · rcases hl : s.obligations key with _ | l
          · rw [hl] at hi
            cases hi
          · rw [hl] at hi
            rw [hkey]
            exact (h' key l hl).2 i hi
        · rw [List.mem_singleton.mp hi, hkey, List.getElem?_concat_length]
      · exact h' k l hk
    · rw [Request.command, Store.handle_notifyRead_some _ hg]
      exact h'

theorem waits_run (rs : List (Request K V)) : Waits rs (run db rs) := by
  induction rs using List.reverseRecOn with
  | nil => exact fun k senders h => nomatch h
  | append_singleton rs r ih =>
    rw [run_append]
    exact waits_handle ih r

/-! ### One call -/

section Call

variable {s : Store db} {key : K} {value : V} {sender i : ℕ} {v : V}

theorem state_write : (s.handle (.write key value)).state = db.put s.state key value := by
  rcases ho : s.obligations key with _ | senders
  · rw [Store.handle_write_none ho]
  · rw [Store.handle_write_some ho]

theorem state_notifyRead : (s.handle (.notifyRead key sender)).state = s.state := by
  unfold Store.handle
  dsimp only
  split <;> rfl

/-- A write answers those that wait for its key. -/
theorem mem_answersTo_write : (i, Answer.notify (.ok v)) ∈ answersTo s (.write key value) ↔
    ∃ senders, s.obligations key = some senders ∧ i ∈ senders ∧ v = value := by
  unfold answersTo
  rcases ho : s.obligations key with _ | senders
  · rw [Store.handle_write_none ho]
    simp
  · rw [Store.handle_write_some ho]
    simp [eq_comm]

theorem not_mem_answersTo_read :
    (i, Answer.notify (.ok v)) ∉ answersTo s (.read key sender) := by
  simp [answersTo, Store.handle]

/-- A `NotifyRead` is answered with the value that it finds, if there is one. -/
theorem mem_answersTo_notifyRead :
    (i, Answer.notify (.ok v)) ∈ answersTo s (.notifyRead key sender) ↔
      i = sender ∧ db.get s.state key = .ok (some v) := by
  unfold answersTo
  rcases hg : db.get s.state key with e | (_ | found) <;> simp [Store.handle, hg, eq_comm]

variable {content : db.State → K → Option V} (hdb : MayFail db content)
include hdb

theorem content_of_get {st : db.State} {found : Option V} (h : db.get st key = .ok found) :
    content st key = found := by
  rcases hdb.get st key with hg | ⟨e, hg⟩
  · rw [h] at hg
    exact (Except.ok.inj hg).symm
  · rw [h] at hg
    cases hg

/-- **The answers given to a call are true exactly if** it is not a write that fails while its key
is waited for. -/
theorem truthful_iff_stored (rs : List (Request K V)) (r : Request K V) :
    Truthful content rs r ↔ Stored content rs r := by
  cases r with
  | write key value =>
    have hstate : (run db (rs ++ [.write key value])).state =
        db.put (run db rs).state key value := by
      rw [run_append, Request.command, state_write]
    simp only [Truthful, Stored, hstate, Request.command, mem_answersTo_write]
    constructor
    · intro h hput
      rcases ho : (run db rs).obligations key with _ | senders
      · rfl
      -- one of those that wait is told of a value that is not there
      obtain ⟨hne, hw⟩ := waits_run rs key senders ho
      obtain ⟨i, hi⟩ := List.exists_mem_of_ne_nil senders hne
      obtain ⟨w, hc, -⟩ := h i key value (getElem?_concat (hw i hi)) ⟨senders, ho, hi, rfl⟩
      rw [hput] at hc
      cases hc
    · rintro h i k v hk ⟨senders, ho, hi, rfl⟩
      have hkey := getElem?_concat (r := .write key v) ((waits_run rs key senders ho).2 i hi)
      rw [hk] at hkey
      cases hkey
      rcases hc : content (db.put (run db rs).state key v) key with _ | w
      · rw [h hc] at ho
        cases ho
      · refine ⟨w, rfl, fun found hg => ?_⟩
        rw [← content_of_get hdb hg, hc]
  | read key =>
    refine iff_of_true (fun i k v _ h => ?_) trivial
    exact absurd h not_mem_answersTo_read
  | notifyRead key =>
    refine iff_of_true (fun i k v hk h => ?_) trivial
    obtain ⟨rfl, hg⟩ := mem_answersTo_notifyRead.mp h
    rw [List.getElem?_concat_length] at hk
    cases hk
    have hc := content_of_get hdb hg
    rw [run_append, Request.command, state_notifyRead]
    refine ⟨v, hc, fun found hg' => ?_⟩
    rw [← content_of_get hdb hg', hc]

end Call

/-- **A failed write is never reported as stored exactly if** no write fails, leaving its key
unbound, while a `NotifyRead` of the key waits. -/
theorem truthful_iff {content : db.State → K → Option V} (hdb : MayFail db content)
    (rs : List (Request K V)) :
    (∀ rs₁ r rs₂, rs = rs₁ ++ r :: rs₂ → Truthful content rs₁ r) ↔
      ∀ rs₁ k v rs₂, rs = rs₁ ++ .write k v :: rs₂ →
        content (db.put (run db rs₁).state k v) k = none → (run db rs₁).obligations k = none := by
  simp only [truthful_iff_stored hdb]
  constructor
  · intro h rs₁ k v rs₂ hrs
    exact h rs₁ (.write k v) rs₂ hrs
  · intro h rs₁ r rs₂ hrs
    cases r with
    | write k v => exact h rs₁ k v rs₂ hrs
    | read | notifyRead => trivial

/-! ### A disk that is full -/

/-- `put` on a disk with room for `n` values. -/
def putFull (n : ℕ) (st : List (ℕ × ℕ)) (k v : ℕ) : List (ℕ × ℕ) :=
  if st.length < n then (k, v) :: st else st

def fullDisk (n : ℕ) : Database ℕ ℕ Unit where
  State := List (ℕ × ℕ)
  empty := []
  put := putFull n
  get st k := .ok (st.lookup k)

def find (st : List (ℕ × ℕ)) (k : ℕ) : Option ℕ := st.lookup k

/-- What is on the disk. -/
def found (n : ℕ) : (fullDisk n).State → ℕ → Option ℕ := find

theorem find_putFull (n : ℕ) (st : List (ℕ × ℕ)) (k v : ℕ) :
    find (putFull n st k v) = Function.update (find st) k (some v) ∨
      find (putFull n st k v) = find st := by
  unfold putFull
  split_ifs
  · left
    funext k'
    rw [find, List.lookup_cons, Function.update_apply]
    by_cases hk : k' = k
    · simp [hk]
    · rw [beq_false_of_ne hk, if_neg hk]
      rfl
  · exact .inr rfl

theorem fullDisk_mayFail (n : ℕ) : MayFail (fullDisk n) (found n) where
  empty _ := rfl
  get _ _ := .inl rfl
  put := find_putFull n

/-- The second write fails, before a `NotifyRead` of its key waits. -/
def fullRequests : List (Request ℕ ℕ) := [.write 1 5, .write 2 6, .notifyRead 2, .notifyRead 1]

theorem truthful_full : found 1 (run (fullDisk 1) fullRequests).state 2 = none ∧
    (2, .notify (.ok 6)) ∉ (run (fullDisk 1) fullRequests).sent ∧
    (3, .notify (.ok 5)) ∈ (run (fullDisk 1) fullRequests).sent ∧
    ∀ rs₁ r rs₂, fullRequests = rs₁ ++ r :: rs₂ → Truthful (found 1) rs₁ r := by
  refine ⟨rfl, by decide, by decide, (truthful_iff (fullDisk_mayFail 1) _).mpr ?_⟩
  rintro (_ | ⟨r₁, _ | ⟨r₂, rs₁⟩⟩) k v rs₂ h -
  · cases h
    rfl
  · cases h
    rfl
  · have hw : .write k v ∈ fullRequests.drop 2 := by simp [h]
    simp [fullRequests] at hw

/-- The value is not stored, but the `NotifyRead` is answered with it and a `Read` finds nothing. -/
theorem full_disk_lies : MayFail (fullDisk 0) (found 0) ∧
    ¬ Truthful (found 0) [.notifyRead 1] (.write 1 5) ∧
    (run (fullDisk 0) [.notifyRead 1, .write 1 5, .read 1]).sent =
      [(0, .notify (.ok 5)), (2, .read (.ok none))] := by
  refine ⟨fullDisk_mayFail 0, fun h => ?_, rfl⟩
  have hbound := h 0 1 5 rfl (by decide)
  obtain ⟨w, hw, -⟩ := hbound
  cases hw

end Hotstuff.Storage.Failing
