import Mathlib

/-! # Configuration files

`Export::write` opens the file for writing without truncating it, so that the new text replaces the
beginning of the old content only. `serde_json` does not accept anything but whitespace behind a
value: what was written can be read exactly if nothing else is left of the old content
(`read_write_iff`). Opening a file may fail; what is written to an open file is taken to reach it.
-/

namespace Hotstuff.Exporting

abbrev Bytes := List UInt8

/-- What JSON skips. -/
def isWhitespace (b : UInt8) : Bool := b = 32 || b = 9 || b = 10 || b = 13

/-- `serde_json`, for values of one type. -/
structure Json (T : Type) where
  toStringPretty : T → Bytes
  /-- A value, or the message of an error. -/
  fromSlice : Bytes → Except String T

/-- Values round-trip, and characters behind a value are rejected. -/
structure Json.Lawful {T : Type} (J : Json T) : Prop where
  roundTrip : ∀ x t, (∀ b ∈ t, isWhitespace b) → J.fromSlice (J.toStringPretty x ++ t) = .ok x
  trailing : ∀ x t y, ¬ (∀ b ∈ t, isWhitespace b) →
    J.fromSlice (J.toStringPretty x ++ t) ≠ .ok y

inductive ConfigError where
  | readError (file message : String)
  | writeError (file message : String)
deriving DecidableEq

/-- The files by their paths, and the message of the error with which opening one ends, if any. -/
structure Disk where
  files : String → Option Bytes
  denied : String → Option String

/-- An open file: its content, and the position of the next write. -/
structure OpenFile where
  content : Bytes
  position : ℕ

/-- `write_all`: bytes are overwritten from the position on, and appended at the end. -/
def OpenFile.writeAll (f : OpenFile) (data : Bytes) : OpenFile where
  content := f.content.take f.position ++ data ++ f.content.drop (f.position + data.length)
  position := f.position + data.length

/-- `OpenOptions::new().create(true).write(true).open(path)`: the content is kept. -/
def Disk.openFile (d : Disk) (path : String) : Except String OpenFile :=
  match d.denied path with
  | some message => .error message
  | none => .ok ⟨(d.files path).getD [], 0⟩

def Disk.close (d : Disk) (path : String) (f : OpenFile) : Disk :=
  { d with files := fun p => if p = path then some f.content else d.files p }

variable {T : Type} (J : Json T)

/-- `Export::read`. -/
def read (path : String) (d : Disk) : Except ConfigError T :=
  match d.denied path with
  | some message => .error (.readError path message)
  | none =>
    match d.files path with
    | none => .error (.readError path "No such file or directory (os error 2)")
    | some data =>
      match J.fromSlice data with
      | .error message => .error (.readError path message)
      | .ok x => .ok x

/-- `Export::write`. -/
def write (x : T) (path : String) (d : Disk) : Except ConfigError Unit × Disk :=
  match d.openFile path with
  | .error message => (.error (.writeError path message), d)
  | .ok file =>
    let file := file.writeAll (J.toStringPretty x)
    -- the newline
    let file := file.writeAll [10]
    (.ok (), d.close path file)

/-- The text of a value, as it is written. -/
def text (x : T) : Bytes := J.toStringPretty x ++ [10]

/-- Nothing but whitespace follows the first `n` bytes of the file, if there is one. -/
def Blank (d : Disk) (path : String) (n : ℕ) : Prop :=
  ∀ old, d.files path = some old → ∀ b ∈ old.drop n, isWhitespace b

variable {J}

theorem writeAll_twice (old a b : Bytes) :
    (((OpenFile.mk old 0).writeAll a).writeAll b).content =
      a ++ b ++ old.drop (a.length + b.length) := by
  simp [OpenFile.writeAll, List.drop_append]

variable {x : T} {path : String} {d d' : Disk}

/-- A file that is opened without an error has the new text, and the rest of the old content. -/
theorem write_ok (h : write J x path d = (.ok (), d')) : d.denied path = none ∧
    d'.denied = d.denied ∧
    d'.files path = some (text J x ++ ((d.files path).getD []).drop (text J x).length) := by
  unfold write Disk.openFile at h
  rcases hd : d.denied path with _ | message
  · simp only [hd] at h
    obtain ⟨-, rfl⟩ := Prod.mk.inj h
    refine ⟨rfl, rfl, ?_⟩
    simp only [Disk.close, if_true, writeAll_twice, text, List.length_append, List.length_singleton]
  · simp only [hd] at h
    cases (Prod.mk.inj h).1

/-- A write that fails leaves all files as they are, and the error names the file. -/
theorem write_error {e : ConfigError} (h : write J x path d = (.error e, d')) :
    d' = d ∧ ∃ message, e = .writeError path message := by
  unfold write Disk.openFile at h
  rcases hd : d.denied path with _ | message
  · simp only [hd] at h
    cases (Prod.mk.inj h).1
  · simp only [hd] at h
    obtain ⟨he, rfl⟩ := Prod.mk.inj h
    cases he
    exact ⟨rfl, message, rfl⟩

theorem read_eq_ok {y : T} : read J path d = .ok y ↔ d.denied path = none ∧
    ∃ data, d.files path = some data ∧ J.fromSlice data = .ok y := by
  unfold read
  rcases d.denied path with _ | message
  · rcases d.files path with _ | data
    · simp
    · rcases hj : J.fromSlice data with message | z <;> simp [hj]
  · simp

/-- The new line and what is blank behind it do not matter. -/
theorem fromSlice_text (hJ : J.Lawful) (t : Bytes) :
    J.fromSlice (text J x ++ t) = .ok x ↔ ∀ b ∈ t, isWhitespace b := by
  have h10 : isWhitespace 10 = true := rfl
  have hws : (∀ b ∈ [10] ++ t, isWhitespace b) ↔ ∀ b ∈ t, isWhitespace b := by
    rw [List.forall_mem_append, List.forall_mem_singleton, and_iff_right h10]
  rw [text, List.append_assoc, ← hws]
  exact ⟨fun h => by_contra fun ht => hJ.trailing x _ x ht h, hJ.roundTrip x _⟩

/-- **A value that was written can be read exactly if** what the old file has behind the new text is
blank. -/
theorem read_write_iff (hJ : J.Lawful) (h : write J x path d = (.ok (), d')) :
    read J path d' = .ok x ↔ Blank d path (text J x).length := by
  obtain ⟨hdenied, hd, hfiles⟩ := write_ok h
  rw [read_eq_ok, hd, and_iff_right hdenied, hfiles]
  simp only [Option.some.injEq, exists_eq_left']
  rw [fromSlice_text hJ, Blank]
  rcases d.files path with _ | old <;> simp

/-! ### Two values -/

/-- The JSON of a delay of 500 or of 10000. -/
def delayText (long : Bool) : Bytes :=
  (if long then "\x7b\n  \"timeout_delay\": 10000\n\x7d" else
    "\x7b\n  \"timeout_delay\": 500\n\x7d").toList.map fun c => UInt8.ofNat c.toNat

/-- `serde_json`, for these two values as it writes them. -/
def delayJson : Json Bool where
  toStringPretty := delayText
  fromSlice data :=
    let value := data.rdropWhile isWhitespace
    if value = delayText false then .ok false
    else if value = delayText true then .ok true
    else .error "trailing characters"

theorem rdropWhile_append {α : Type*} (p : α → Bool) (l t : List α) :
    (l ++ t).rdropWhile p = if ∀ b ∈ t, p b then l.rdropWhile p else l ++ t.rdropWhile p := by
  induction t using List.reverseRecOn with
  | nil => simp
  | append_singleton t b ih =>
    rw [← List.append_assoc, List.rdropWhile_concat, List.rdropWhile_concat, ih]
    by_cases hb : p b
    · simp only [List.forall_mem_append, List.forall_mem_singleton, hb, and_true, if_true]
    · simp [hb]

theorem rdropWhile_delayText : ∀ long, (delayText long).rdropWhile isWhitespace = delayText long
  | true => rfl
  | false => rfl

theorem delayText_prefix : ∀ long long', delayText long <+: delayText long' → long = long' := by
  decide

theorem delayJson_lawful : delayJson.Lawful where
  roundTrip x t ht := by
    have hvalue : (delayText x ++ t).rdropWhile isWhitespace = delayText x := by
      rw [rdropWhile_append, if_pos ht, rdropWhile_delayText]
    have hne : delayText true ≠ delayText false := by decide
    simp only [delayJson, hvalue]
    cases x
    · exact if_pos rfl
    · rw [if_neg hne, if_pos rfl]
  trailing x t y ht := by
    have hvalue : (delayText x ++ t).rdropWhile isWhitespace =
        delayText x ++ t.rdropWhile isWhitespace := by
      rw [rdropWhile_append, if_neg ht]
    have hrest : t.rdropWhile isWhitespace ≠ [] := fun h => ht (List.rdropWhile_eq_nil_iff.mp h)
    have hne : ∀ z, delayText x ++ t.rdropWhile isWhitespace ≠ delayText z := by
      intro z hz
      cases delayText_prefix x z ⟨_, hz⟩
      exact hrest (List.append_right_eq_self.mp hz)
    simp only [delayJson, hvalue]
    rw [if_neg (hne false), if_neg (hne true)]
    exact nofun

def delayDisk (content : Option Bytes) : Disk := ⟨fun _ => content, fun _ => none⟩

/-- The text of the shorter value, with empty lines behind it. -/
def shortLines : Bytes := text delayJson false ++ [10, 10, 10, 10]

/-- The longer value is written over the shorter one, of which an empty line is left. -/
theorem read_write_longer : shortLines.drop (text delayJson true).length = [10, 10] ∧
    read delayJson ".parameters.json"
      (write delayJson true ".parameters.json" (delayDisk shortLines)).2 = .ok true := by
  have hrest : shortLines.drop (text delayJson true).length = [10, 10] := by decide +kernel
  refine ⟨hrest, (read_write_iff (d := delayDisk shortLines) delayJson_lawful rfl).mpr ?_⟩
  intro old hold
  obtain rfl : shortLines = old := Option.some.inj hold
  simp [hrest, isWhitespace]

/-- The shorter value is written over the longer one. -/
theorem read_write_shorter : delayJson.Lawful ∧
    (write delayJson false ".parameters.json" (delayDisk (text delayJson true))).1 = .ok () ∧
    read delayJson ".parameters.json"
      (write delayJson false ".parameters.json" (delayDisk (text delayJson true))).2 =
      .error (.readError ".parameters.json" "trailing characters") :=
  ⟨delayJson_lawful, rfl, by decide +kernel⟩

end Hotstuff.Exporting
