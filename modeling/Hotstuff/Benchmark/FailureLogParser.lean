import Mathlib.Tactic.NormNum
import Mathlib.Tactic.Ring
import Hotstuff.Lib.Means

/-! # The parser of the failure logs

`failure_log_parser.py` looks for the first timeout and for the first commit that the surviving
nodes log after the failure, and takes the commit for the end of the view change that the timeout
starts. The two are looked for apart, though: blocks that were on their way when the node was killed
are committed before any node times out. The metrics are consistent exactly if every commit after
the failure follows a timeout after the failure (`consistent_iff`). Times are exact numbers, in
seconds. -/

namespace Hotstuff.Benchmark.FailureLogParser

open Hotstuff.Lib.Means

/-- What `parse_node_log` finds in a log: the timeouts, with their rounds, and the commits. -/
structure Events where
  timeouts : List (ℚ × ℕ)
  commits : List ℚ

/-- A log file. Its name may lack the ID of a node, and it may fail to be read or parsed. -/
structure LogFile (ε : Type) where
  nodeId : Except ε ℕ
  events : Except ε Events

/-- `FailureMetrics`, as the constructor leaves it. -/
structure FailureMetrics where
  failureInjectionTime : Option ℚ := none
  firstTimeoutTime : Option ℚ := none
  viewChangeCompleteTime : Option ℚ := none
  firstCommitAfterFailure : Option ℚ := none
  detectionLatencyMs : Option ℤ := none
  viewChangeDurationMs : Option ℤ := none
  totalRecoveryTimeMs : Option ℤ := none
  timeoutsDuringRecovery : ℕ := 0

/-- The milliseconds from one time to the other. -/
def millis (start stop : ℚ) : ℚ := (stop - start) * 1000

/-- `int` of the milliseconds. The condition on the two times fails on `None`, and on 0. -/
def durationMs : Option ℚ → Option ℚ → Option ℤ
  | some start, some stop =>
    if start ≠ 0 ∧ stop ≠ 0 then some (truncate (millis start stop)) else none
  | _, _ => none

def FailureMetrics.calculateMetrics (m : FailureMetrics) : FailureMetrics :=
  { m with
    detectionLatencyMs :=
      (durationMs m.failureInjectionTime m.firstTimeoutTime).or m.detectionLatencyMs
    viewChangeDurationMs :=
      (durationMs m.firstTimeoutTime m.viewChangeCompleteTime).or m.viewChangeDurationMs
    totalRecoveryTimeMs :=
      (durationMs m.failureInjectionTime m.firstCommitAfterFailure).or m.totalRecoveryTimeMs }

/-- The dictionary that is exported. -/
structure MetricsDict where
  detectionLatencyMs : ℤ
  viewChangeDurationMs : ℤ
  totalRecoveryTimeMs : ℤ
  timeoutsDuringRecovery : ℕ

/-- `x or 0` is 0 for `None`. -/
def FailureMetrics.toDict (m : FailureMetrics) : MetricsDict :=
  ⟨m.detectionLatencyMs.getD 0, m.viewChangeDurationMs.getD 0, m.totalRecoveryTimeMs.getD 0,
    m.timeoutsDuringRecovery⟩

/-- The accumulators of `extract_failure_metrics`. -/
structure Collected where
  allTimeouts : List ℚ := []
  allCommits : List ℚ := []
  timeoutsDuringRecovery : ℕ := 0

def Collected.addTimeout (failureTime : ℚ) (a : Collected) (timeout : ℚ × ℕ) : Collected :=
  if failureTime < timeout.1 then
    { a with
      allTimeouts := a.allTimeouts ++ [timeout.1]
      timeoutsDuringRecovery := a.timeoutsDuringRecovery + 1 }
  else a

def Collected.addCommit (failureTime : ℚ) (a : Collected) (commit : ℚ) : Collected :=
  if failureTime < commit then { a with allCommits := a.allCommits ++ [commit] } else a

def Collected.addEvents (failureTime : ℚ) (a : Collected) (events : Events) : Collected :=
  events.commits.foldl (addCommit failureTime) (events.timeouts.foldl (addTimeout failureTime) a)

variable {ε : Type}

/-- The loop over the log files: that of the killed node is not opened. -/
def collect (failureTime : ℚ) (killedNodeId : ℕ) :
    List (LogFile ε) → Collected → Except ε Collected
  | [], a => .ok a
  | log :: logs, a => do
    let nodeId ← log.nodeId
    if nodeId = killedNodeId then
      collect failureTime killedNodeId logs a
    else
      let events ← log.events
      collect failureTime killedNodeId logs (a.addEvents failureTime events)

def extractFailureMetrics (logs : List (LogFile ε)) (failureTime : ℚ) (killedNodeId : ℕ) :
    Except ε FailureMetrics := do
  let a ← collect failureTime killedNodeId logs {}
  let firstCommit := a.allCommits.min?
  return FailureMetrics.calculateMetrics
    { failureInjectionTime := some failureTime
      firstTimeoutTime := a.allTimeouts.min?
      viewChangeCompleteTime := firstCommit
      firstCommitAfterFailure := firstCommit
      timeoutsDuringRecovery := a.timeoutsDuringRecovery }

theorem millis_nonneg {start stop : ℚ} : 0 ≤ millis start stop ↔ start ≤ stop := by
  unfold millis
  constructor <;> intro h <;> linarith

theorem millis_add (f t c : ℚ) : millis f t + millis t c = millis f c := by
  unfold millis
  ring

/-! ### What is collected -/

/-- The events in the logs of the surviving nodes. -/
def surviving (logs : List (LogFile ε)) (killedNodeId : ℕ) : List Events :=
  logs.filterMap fun log =>
    match log.nodeId with
    | .ok nodeId => if nodeId = killedNodeId then none else log.events.toOption
    | .error _ => none

/-- The timeouts that a surviving node logs after the failure. -/
def timeoutsAfter (logs : List (LogFile ε)) (failureTime : ℚ) (killedNodeId : ℕ) : List ℚ :=
  ((surviving logs killedNodeId).flatMap fun e => e.timeouts.map Prod.fst).filter (failureTime < ·)

/-- The commits that a surviving node logs after the failure. -/
def commitsAfter (logs : List (LogFile ε)) (failureTime : ℚ) (killedNodeId : ℕ) : List ℚ :=
  ((surviving logs killedNodeId).flatMap Events.commits).filter (failureTime < ·)

/-- All files have the ID of a node in their names, and those of the surviving nodes parse. -/
def readable (logs : List (LogFile ε)) (killedNodeId : ℕ) : Bool :=
  logs.all fun log =>
    match log.nodeId with
    | .ok nodeId => nodeId == killedNodeId || log.events.isOk
    | .error _ => false

section Collect

variable {f : ℚ} {killed : ℕ} {logs : List (LogFile ε)} {a a' : Collected}

theorem foldl_addTimeout (timeouts : List (ℚ × ℕ)) (a : Collected) :
    timeouts.foldl (.addTimeout f) a =
      { a with
        allTimeouts := a.allTimeouts ++ (timeouts.map Prod.fst).filter (f < ·)
        timeoutsDuringRecovery :=
          a.timeoutsDuringRecovery + ((timeouts.map Prod.fst).filter (f < ·)).length } := by
  induction timeouts generalizing a with
  | nil => simp
  | cons t ts ih =>
    rw [List.foldl_cons, ih, Collected.addTimeout]
    split_ifs with h
    · simp [h, add_assoc, add_comm 1]
    · simp [h]

theorem foldl_addCommit (commits : List ℚ) (a : Collected) :
    commits.foldl (.addCommit f) a =
      { a with allCommits := a.allCommits ++ commits.filter (f < ·) } := by
  induction commits generalizing a with
  | nil => simp
  | cons c cs ih =>
    rw [List.foldl_cons, ih, Collected.addCommit]
    split_ifs with h <;> simp [h]

theorem addEvents_eq (a : Collected) (e : Events) :
    a.addEvents f e =
      { allTimeouts := a.allTimeouts ++ (e.timeouts.map Prod.fst).filter (f < ·)
        allCommits := a.allCommits ++ e.commits.filter (f < ·)
        timeoutsDuringRecovery :=
          a.timeoutsDuringRecovery + ((e.timeouts.map Prod.fst).filter (f < ·)).length } := by
  rw [Collected.addEvents, foldl_addTimeout, foldl_addCommit]

/-- What the loop returns, if all files that it opens parse. -/
theorem collect_ok_iff : collect f killed logs a = .ok a' ↔ readable logs killed ∧
    a' =
      { allTimeouts := a.allTimeouts ++ timeoutsAfter logs f killed
        allCommits := a.allCommits ++ commitsAfter logs f killed
        timeoutsDuringRecovery :=
          a.timeoutsDuringRecovery + (timeoutsAfter logs f killed).length } := by
  induction logs generalizing a with
  | nil => simp [collect, readable, timeoutsAfter, commitsAfter, surviving, eq_comm]
  | cons log logs ih =>
    obtain ⟨id | nodeId, events⟩ := log
    · exact iff_of_false nofun fun h => by simp [readable] at h
    by_cases hk : nodeId = killed
    · have hc : collect f killed (⟨.ok nodeId, events⟩ :: logs) a = collect f killed logs a :=
        if_pos hk
      rw [hc, ih]
      simp [readable, timeoutsAfter, commitsAfter, surviving, hk]
    · have hc : collect f killed (⟨.ok nodeId, events⟩ :: logs) a =
          events.bind fun e => collect f killed logs (a.addEvents f e) := if_neg hk
      rw [hc]
      rcases events with x | e
      · exact iff_of_false nofun fun h => by simp [readable, hk, Except.isOk, Except.toBool] at h
      · rw [Except.bind, ih, addEvents_eq]
        simp [readable, timeoutsAfter, commitsAfter, surviving, hk, Except.isOk, Except.toBool,
          Except.toOption, add_assoc]

theorem extract_ok_iff {m : FailureMetrics} :
    extractFailureMetrics logs f killed = .ok m ↔ readable logs killed ∧
      m = FailureMetrics.calculateMetrics
        { failureInjectionTime := some f
          firstTimeoutTime := (timeoutsAfter logs f killed).min?
          viewChangeCompleteTime := (commitsAfter logs f killed).min?
          firstCommitAfterFailure := (commitsAfter logs f killed).min?
          timeoutsDuringRecovery := (timeoutsAfter logs f killed).length } := by
  unfold extractFailureMetrics
  constructor
  · intro h
    rcases hc : collect f killed logs {} with x | a
    · rw [hc] at h
      cases h
    · obtain ⟨hr, rfl⟩ := collect_ok_iff.mp hc
      rw [hc] at h
      cases h
      exact ⟨hr, by simp⟩
  · rintro ⟨hr, rfl⟩
    rw [collect_ok_iff.mpr ⟨hr, rfl⟩]
    simp [bind, Except.bind, pure, Except.pure]

theorem lt_of_mem_timeoutsAfter {t : ℚ} (h : t ∈ timeoutsAfter logs f killed) : f < t := by
  simpa using (List.mem_filter.mp h).2

end Collect

/-! ### Consistency -/

section Consistency

variable {f t c : ℚ} {killed : ℕ} {logs : List (LogFile ε)} {m : FailureMetrics}

/-- The metrics of a failure that is detected at the first time and recovered from at the second,
which are rounded from durations that add up. -/
def Consistent (m : FailureMetrics) (f t c : ℚ) : Prop :=
  t ≤ c ∧ ∃ d v r, m.detectionLatencyMs = some d ∧ m.viewChangeDurationMs = some v ∧
    m.totalRecoveryTimeMs = some r ∧ 0 ≤ d ∧ d ≤ r ∧ 0 ≤ v ∧
    d = truncate (millis f t) ∧ v = truncate (millis t c) ∧ r = truncate (millis f t + millis t c)

/-- Every commit after the failure follows a timeout after the failure. -/
def Follows (logs : List (LogFile ε)) (f : ℚ) (killed : ℕ) : Prop :=
  ∀ c ∈ commitsAfter logs f killed, ∃ t ∈ timeoutsAfter logs f killed, t ≤ c

/-- None of the times is 0, which counts as false. -/
def Truthy (logs : List (LogFile ε)) (f : ℚ) (killed : ℕ) : Prop :=
  f ≠ 0 ∧ (timeoutsAfter logs f killed).min? ≠ some 0 ∧ (commitsAfter logs f killed).min? ≠ some 0

theorem durationMs_some {a b : ℚ} {d : ℤ} :
    durationMs (some a) (some b) = some d ↔ (a ≠ 0 ∧ b ≠ 0) ∧ truncate (millis a b) = d := by
  simp only [durationMs]
  split_ifs with h <;> simp [h]

/-- The first commit follows the first timeout exactly if every commit follows one. -/
theorem follows_iff (ht : (timeoutsAfter logs f killed).min? = some t)
    (hc : (commitsAfter logs f killed).min? = some c) : Follows logs f killed ↔ t ≤ c := by
  rw [List.min?_eq_some_iff] at ht hc
  constructor
  · intro h
    obtain ⟨t', ht', hle⟩ := h c hc.1
    exact (ht.2 t' ht').trans hle
  · exact fun h c' hc' => ⟨t, ht.1, h.trans (hc.2 c' hc')⟩

/-- **When the metrics are consistent**: exactly if every commit after the failure follows a timeout
after the failure, and none of the times is 0. -/
theorem consistent_iff (h : extractFailureMetrics logs f killed = .ok m)
    (ht : m.firstTimeoutTime = some t) (hc : m.firstCommitAfterFailure = some c) :
    Consistent m f t c ↔ Truthy logs f killed ∧ Follows logs f killed := by
  obtain ⟨-, rfl⟩ := extract_ok_iff.mp h
  change (timeoutsAfter logs f killed).min? = some t at ht
  change (commitsAfter logs f killed).min? = some c at hc
  rw [follows_iff ht hc, Truthy, ht, hc]
  have hft : f < t := lt_of_mem_timeoutsAfter (List.min?_eq_some_iff.mp ht).1
  simp only [Consistent, FailureMetrics.calculateMetrics, Option.or_none, durationMs_some,
    Option.some_inj.ne]
  constructor
  · rintro ⟨htc, d, v, r, ⟨⟨hf, ht0⟩, -⟩, -, ⟨⟨-, hc0⟩, -⟩, -⟩
    exact ⟨⟨hf, ht0, hc0⟩, htc⟩
  · rintro ⟨⟨hf, ht0, hc0⟩, htc⟩
    refine ⟨htc, _, _, _, ⟨⟨hf, ht0⟩, rfl⟩, ⟨⟨ht0, hc0⟩, rfl⟩, ⟨⟨hf, hc0⟩, rfl⟩, ?_, ?_, ?_, rfl,
      rfl, ?_⟩
    · exact truncate_nonneg (millis_nonneg.mpr hft.le)
    · rw [← millis_add f t c]
      exact truncate_mono (le_add_of_nonneg_right (millis_nonneg.mpr htc))
    · exact truncate_nonneg (millis_nonneg.mpr htc)
    · rw [millis_add]

/-- Node 0 is killed at 1000 s. Node 1 times out 5 s later, and commits a block one second after
that. -/
def recovered : List (LogFile Unit) :=
  [⟨.ok 0, .ok ⟨[], [999]⟩⟩, ⟨.ok 1, .ok ⟨[(1005, 3)], [999, 1006]⟩⟩]

theorem consistent_iff_recovered : ∃ m, extractFailureMetrics recovered 1000 0 = .ok m ∧
    Consistent m 1000 1005 1006 := by
  have h := extract_ok_iff (f := 1000).mpr ⟨(by decide : readable recovered 0 = true), rfl⟩
  refine ⟨_, h, (consistent_iff h (by decide) (by decide)).mpr ⟨?_, ?_⟩⟩
  · unfold Truthy
    decide
  · unfold Follows
    decide

/-- Node 1 commits a block that was on its way 1 s after the failure, and times out 5 s after. -/
def inFlight : List (LogFile Unit) :=
  [⟨.ok 0, .ok ⟨[], [999]⟩⟩, ⟨.ok 1, .ok ⟨[(1005, 3)], [999, 1001, 1006]⟩⟩]

theorem exists_inconsistent :
    ¬ ∀ (logs : List (LogFile Unit)) (f : ℚ) (killed : ℕ) (m : FailureMetrics) (t c : ℚ),
      extractFailureMetrics logs f killed = .ok m → m.firstTimeoutTime = some t →
      m.firstCommitAfterFailure = some c → Consistent m f t c := by
  intro h
  have hm := extract_ok_iff (f := 1000).mpr ⟨(by decide : readable inFlight 0 = true), rfl⟩
  have hle : (1005 : ℚ) ≤ 1001 := (h _ 1000 0 _ _ _ hm rfl rfl).1
  norm_num at hle

end Consistency

end Hotstuff.Benchmark.FailureLogParser
