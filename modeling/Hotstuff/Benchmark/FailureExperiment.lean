import Hotstuff.Benchmark.FailureLogParser

/-! # The results of a failure experiment

`_parse_results` averages the detection latencies of all injected failures. A failure that no node
detects, or whose logs do not parse, has no latency, but it is exported as 0 and counts in the
average: such failures lower the average, unless the truncation hides it (`average_iff`). -/

namespace Hotstuff.Benchmark.FailureExperiment

open Hotstuff.Benchmark.FailureLogParser Hotstuff.Lib.Means

/-- The dictionary of results. The averages are missing if no failure is injected. -/
structure Results where
  scenario : String
  success : Bool
  failuresInjected : ℕ
  failureMetrics : List MetricsDict
  avgDetectionLatencyMs : Option ℤ
  avgRecoveryTimeMs : Option ℤ
  throughputTps : ℤ
  totalCommits : ℕ

variable {ε : Type}

/-- The metrics of an injected failure: its time and the node that is killed. They are empty if the
parser fails. -/
def failureMetric (logs : List (LogFile ε)) (failure : ℚ × ℕ) : MetricsDict :=
  match extractFailureMetrics logs failure.1 failure.2 with
  | .ok metrics => metrics.toDict
  | .error _ => ⟨0, 0, 0, 0⟩

/-- The throughput, and the blocks that are counted in the log of node 0. Both are 0 if the log is
not there, or on a division by zero. -/
def throughput (duration : ℤ) : Except ε ℕ → ℤ × ℕ
  | .ok totalCommits =>
    if 0 < totalCommits ∧ duration ≠ 0 then
      (truncate ((totalCommits : ℚ) / (duration : ℚ)), totalCommits)
    else (0, 0)
  | .error _ => (0, 0)

/-- `_parse_results`: of the scenario, the duration of the benchmark, the log files and what is
counted in that of node 0. -/
def parseResults (scenario : String) (duration : ℤ) (logs : List (LogFile ε)) (blocks : Except ε ℕ)
    (injectedFailures : List (ℚ × ℕ)) : Results :=
  let tps := throughput duration blocks
  if injectedFailures.length = 0 then
    ⟨scenario, true, injectedFailures.length, [], none, none, tps.1, tps.2⟩
  else
    let metrics := injectedFailures.map (failureMetric logs)
    let avg (get : MetricsDict → ℤ) := if metrics.length = 0 then 0 else mean (metrics.map get)
    ⟨scenario, true, injectedFailures.length, metrics, some (avg MetricsDict.detectionLatencyMs),
      some (avg MetricsDict.totalRecoveryTimeMs), tps.1, tps.2⟩

/-! ### Latencies -/

section Latency

variable (logs : List (LogFile ε))

/-- The detection latency of a failure: missing if no node detects it, or the logs do not parse. -/
def latency (failure : ℚ × ℕ) : Option ℤ :=
  if readable logs failure.2 then
    (timeoutsAfter logs failure.1 failure.2).min?.map fun t => truncate (millis failure.1 t)
  else none

/-- What the average counts for a failure: 0 if there is no latency, or if one of the times is 0. -/
def counted (failure : ℚ × ℕ) : ℤ :=
  if failure.1 = 0 ∨ (timeoutsAfter logs failure.1 failure.2).min? = some 0 then 0
  else (latency logs failure).getD 0

theorem detectionLatencyMs_failureMetric (failure : ℚ × ℕ) :
    (failureMetric logs failure).detectionLatencyMs = counted logs failure := by
  obtain ⟨f, killed⟩ := failure
  unfold failureMetric counted latency
  rcases h : extractFailureMetrics logs f killed with x | m
  · have hr : ¬ readable logs killed := fun hr => by
      rw [extract_ok_iff.mpr ⟨hr, rfl⟩] at h
      cases h
    simp [hr]
  · obtain ⟨hr, rfl⟩ := extract_ok_iff.mp h
    rw [if_pos hr]
    simp only [FailureMetrics.toDict, FailureMetrics.calculateMetrics, Option.or_none]
    rcases (timeoutsAfter logs f killed).min? with _ | t
    · simp [durationMs]
    · simp only [durationMs, Option.some.injEq, Option.map_some, ← not_or, ite_not]
      split_ifs <;> rfl

theorem latency_nonneg {failure : ℚ × ℕ} {d : ℤ} (h : latency logs failure = some d) : 0 ≤ d := by
  unfold latency at h
  split_ifs at h
  obtain ⟨t, ht, rfl⟩ := Option.map_eq_some_iff.mp h
  have hlt := lt_of_mem_timeoutsAfter (List.min?_eq_some_iff.mp ht).1
  exact truncate_nonneg (millis_nonneg.mpr hlt.le)

theorem getD_latency_nonneg (failure : ℚ × ℕ) : 0 ≤ (latency logs failure).getD 0 := by
  rcases h : latency logs failure with _ | d
  · exact le_rfl
  · exact latency_nonneg logs h

theorem counted_nonneg (failure : ℚ × ℕ) : 0 ≤ counted logs failure := by
  unfold counted
  split_ifs
  · exact le_rfl
  · exact getD_latency_nonneg logs failure

theorem counted_le (failure : ℚ × ℕ) : counted logs failure ≤ (latency logs failure).getD 0 := by
  unfold counted
  split_ifs
  · exact getD_latency_nonneg logs failure
  · exact le_rfl

theorem counted_of_none {failure : ℚ × ℕ} (h : latency logs failure = none) :
    counted logs failure = 0 := by
  simp [counted, h]

/-- The latencies of the failures that are detected. -/
def detected (failures : List (ℚ × ℕ)) : List ℤ := failures.filterMap (latency logs)

theorem sum_counted_nonneg (failures : List (ℚ × ℕ)) : 0 ≤ (failures.map (counted logs)).sum :=
  List.sum_nonneg fun d hd => by
    obtain ⟨x, -, rfl⟩ := List.mem_map.mp hd
    exact counted_nonneg logs x

theorem sum_counted_le (failures : List (ℚ × ℕ)) :
    (failures.map (counted logs)).sum ≤ (detected logs failures).sum :=
  sum_map_le_sum_filterMap (counted_le logs) failures

end Latency

/-! ### Averages -/

section Average

variable (scenario : String) (duration : ℤ) (logs : List (LogFile ε)) (blocks : Except ε ℕ)

/-- `avg_detection_latency_ms`. -/
def avgDetection (failures : List (ℚ × ℕ)) : Option ℤ :=
  (parseResults scenario duration logs blocks failures).avgDetectionLatencyMs

theorem avgDetection_eq {failures : List (ℚ × ℕ)} (h : 0 < failures.length) :
    avgDetection scenario duration logs blocks failures =
      some (mean (failures.map (counted logs))) := by
  have hlen : (failures.map (failureMetric logs)).length ≠ 0 := by
    rw [List.length_map]
    exact h.ne'
  rw [avgDetection, parseResults]
  dsimp only
  rw [if_neg h.ne']
  dsimp only
  rw [if_neg hlen, List.map_map]
  have hmap : MetricsDict.detectionLatencyMs ∘ failureMetric logs = counted logs :=
    funext (detectionLatencyMs_failureMetric logs)
  rw [hmap]

/-- The average is the mean of the detected failures exactly if the latencies that count make up for
the failures that are not detected. -/
theorem eq_mean_iff (failures : List (ℚ × ℕ)) :
    (∀ a ∈ avgDetection scenario duration logs blocks failures,
      a = mean (detected logs failures)) ↔
    failures.length * ((detected logs failures).sum / (detected logs failures).length) ≤
      (failures.map (counted logs)).sum := by
  rcases failures.length.eq_zero_or_pos with h | h
  · obtain rfl := List.length_eq_zero_iff.mp h
    exact iff_of_true nofun (zero_mul _).le
  · have hlen : (failures.map (counted logs)).length = failures.length := List.length_map _
    have hdet : (detected logs failures).length ≤ failures.length := List.length_filterMap_le _ _
    have hiff := mean_eq_mean_iff (sum_counted_nonneg logs failures) (sum_counted_le logs failures)
      (by rwa [hlen]) (by rwa [hlen])
    rw [hlen] at hiff
    rw [avgDetection_eq _ _ _ _ h, ← hiff]
    simp

/-- One more failure that counts 0 does not lower the average exactly if the remainder of the
division makes up for it. -/
theorem le_average_iff (l₁ l₂ : List (ℚ × ℕ)) {x : ℚ × ℕ} (hx : latency logs x = none) :
    (∀ a ∈ avgDetection scenario duration logs blocks (l₁ ++ l₂),
      ∀ a' ∈ avgDetection scenario duration logs blocks (l₁ ++ x :: l₂), a ≤ a') ↔
    ((l₁ ++ l₂).map (counted logs)).sum / (l₁ ++ l₂).length ≤
      ((l₁ ++ l₂).map (counted logs)).sum % (l₁ ++ l₂).length := by
  rcases (l₁ ++ l₂).length.eq_zero_or_pos with h | h
  · rw [List.length_eq_zero_iff.mp h]
    exact iff_of_true nofun le_rfl
  · have hpos : 0 < (l₁ ++ x :: l₂).length := by simp
    have hsum : 0 ≤ (l₁.map (counted logs) ++ l₂.map (counted logs)).sum := by
      rw [← List.map_append]
      exact sum_counted_nonneg logs _
    have hiff := mean_le_insert_zero_iff hsum
    rw [← counted_of_none logs hx, ← List.map_cons, ← List.map_append, ← List.map_append,
      List.length_map] at hiff
    rw [avgDetection_eq _ _ _ _ h, avgDetection_eq _ _ _ _ hpos, ← hiff]
    simp

/-- **What the average is the mean of**: the detected failures exactly if the latencies that count
make up for the others, and a failure that is not detected does not lower it exactly if the
remainder does. -/
theorem average_iff :
    (∀ failures : List (ℚ × ℕ),
      (∀ a ∈ avgDetection scenario duration logs blocks failures,
        a = mean (detected logs failures)) ↔
      failures.length * ((detected logs failures).sum / (detected logs failures).length) ≤
        (failures.map (counted logs)).sum) ∧
    ∀ (l₁ l₂ : List (ℚ × ℕ)) (x : ℚ × ℕ), latency logs x = none →
      ((∀ a ∈ avgDetection scenario duration logs blocks (l₁ ++ l₂),
        ∀ a' ∈ avgDetection scenario duration logs blocks (l₁ ++ x :: l₂), a ≤ a') ↔
      ((l₁ ++ l₂).map (counted logs)).sum / (l₁ ++ l₂).length ≤
        ((l₁ ++ l₂).map (counted logs)).sum % (l₁ ++ l₂).length) :=
  ⟨eq_mean_iff scenario duration logs blocks,
    fun l₁ l₂ _ => le_average_iff scenario duration logs blocks l₁ l₂⟩

end Average

/-! ### A failure that is detected, and one that is not -/

theorem latency_recovered : latency recovered (1000, 0) = some 5000 := by
  have hmin : (timeoutsAfter recovered 1000 0).min? = some 1005 := by decide
  rw [latency, if_pos (by decide), hmin]
  norm_num [millis, truncate]

theorem counted_recovered : counted recovered (1000, 0) = 5000 := by
  rw [counted, if_neg (by decide), latency_recovered]
  rfl

/-- Node 1 is killed after its timeout, and no other node times out. -/
theorem latency_recovered_none : latency recovered (2000, 1) = none := by
  decide

theorem average_iff_recovered :
    (∀ a ∈ avgDetection "one" 300 recovered (.ok 2 : Except Unit ℕ) [(1000, 0)],
      a = mean (detected recovered [(1000, 0)])) ∧
    ¬ ∀ a ∈ avgDetection "one" 300 recovered (.ok 2 : Except Unit ℕ) [(1000, 0)],
      ∀ a' ∈ avgDetection "one" 300 recovered (.ok 2 : Except Unit ℕ) [(1000, 0), (2000, 1)],
        a ≤ a' := by
  have h := average_iff "one" 300 recovered (.ok 2)
  refine ⟨(h.1 _).mpr ?_, (h.2 [(1000, 0)] [] _ latency_recovered_none).not.mpr ?_⟩
  · simp [detected, latency_recovered, counted_recovered]
  · simp [counted_recovered]

/-- One failure is detected after 5 s. The other one, which is not, lowers the average. -/
theorem exists_lowered :
    (¬ ∀ (logs : List (LogFile Unit)) (failures : List (ℚ × ℕ)),
      ∀ a ∈ avgDetection "two" 300 logs (.ok 2) failures, a = mean (detected logs failures)) ∧
    ¬ ∀ (logs : List (LogFile Unit)) (l₁ l₂ : List (ℚ × ℕ)) (x : ℚ × ℕ), latency logs x = none →
      ∀ a ∈ avgDetection "two" 300 logs (.ok 2) (l₁ ++ l₂),
        ∀ a' ∈ avgDetection "two" 300 logs (.ok 2) (l₁ ++ x :: l₂), a ≤ a' := by
  constructor
  · intro h
    have hle := (eq_mean_iff "two" 300 recovered (.ok 2) [(1000, 0), (2000, 1)]).mp (h _ _)
    simp [detected, latency_recovered, latency_recovered_none, counted_recovered,
      counted_of_none _ latency_recovered_none] at hle
  · intro h
    have hle := (le_average_iff "two" 300 recovered (.ok 2) [(1000, 0)] []
      latency_recovered_none).mp (h _ _ _ _ latency_recovered_none)
    simp [counted_recovered] at hle

end Hotstuff.Benchmark.FailureExperiment
