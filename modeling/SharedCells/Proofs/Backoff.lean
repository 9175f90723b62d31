import Mathlib.Data.List.DropRight
import Mathlib.Data.List.Infix
import SharedCells.Backoff

/-! How far a backoff gets.

If numbers had no end, the step would be a counter that `spin` takes up to the spin
limit and `snooze` up to one beyond the yield limit. A backoff follows this counter
while it fits in a word, and overflows when it no longer does. The snoozes since the
last reset bound the counter from both sides. So they tell whether the backoff is
completed, and only the greatest yield limit lets it overflow. -/

set_option autoImplicit false

namespace SharedCells.Backoff

/-- The step that a call leads to, if numbers have no end. -/
def Call.advance (spinLimit yieldLimit step : Nat) : Call → Nat
  | spin => if step < spinLimit then step + 1 else step
  | snooze => if step ≤ yieldLimit then step + 1 else step
  | reset => 0

/-- The step that calls lead to, if numbers have no end. -/
def climb (spinLimit yieldLimit step : Nat) (calls : List Call) : Nat :=
  calls.foldl (Call.advance spinLimit yieldLimit) step

/-- The calls since the last reset. -/
def recent (calls : List Call) : List Call := calls.rtakeWhile (· ≠ .reset)

/-- How many of them snooze. -/
def snoozes (calls : List Call) : Nat := (recent calls).count .snooze

section Climb

variable {S Y step : Nat} {call : Call} {calls : List Call}

theorem climb_concat :
    climb S Y step (calls ++ [call]) = call.advance S Y (climb S Y step calls) := by
  rw [climb, List.foldl_append]
  rfl

theorem recent_concat_reset : recent (calls ++ [.reset]) = [] :=
  List.rtakeWhile_concat_neg _ _ _ (by simp)

theorem recent_concat (other : call ≠ .reset) : recent (calls ++ [call]) = recent calls ++ [call] :=
  List.rtakeWhile_concat_pos _ _ _ (by simpa using other)

theorem snoozes_concat_reset : snoozes (calls ++ [.reset]) = 0 := by
  rw [snoozes, recent_concat_reset, List.count_nil]

theorem snoozes_concat_spin : snoozes (calls ++ [.spin]) = snoozes calls := by
  rw [snoozes, recent_concat (by simp), List.count_append]
  rfl

theorem snoozes_concat_snooze : snoozes (calls ++ [.snooze]) = snoozes calls + 1 := by
  rw [snoozes, recent_concat (by simp), List.count_append]
  rfl

theorem snoozes_replicate (n : Nat) : snoozes (.replicate n .snooze) = n := by
  have all : recent (.replicate n .snooze) = .replicate n .snooze :=
    List.rtakeWhile_eq_self_iff.mpr fun call member => by simp [List.eq_of_mem_replicate member]
  rw [snoozes, all, List.count_replicate_self]

theorem advance_le (order : S ≤ Y) (le : step ≤ Y + 1) : call.advance S Y step ≤ Y + 1 := by
  cases call with
  | spin =>
    rw [Call.advance]
    split
    · next lower => exact Nat.succ_le_succ (Nat.le_trans (Nat.le_of_lt lower) order)
    · exact le
  | snooze =>
    rw [Call.advance]
    split
    · next lower => exact Nat.succ_le_succ lower
    · exact le
  | reset => exact Nat.zero_le _

theorem climb_le (order : S ≤ Y) (le : step ≤ Y + 1) : climb S Y step calls ≤ Y + 1 := by
  induction calls generalizing step with
  | nil => exact le
  | cons call calls ih => exact ih (advance_le order le)

/-- Each snooze takes the counter one further, and spins take it to the spin limit at most. -/
theorem climb_bounds (calls : List Call) :
    min (snoozes calls) (Y + 1) ≤ climb S Y 0 calls ∧ climb S Y 0 calls ≤ S + snoozes calls := by
  -- The last call decides: both bounds follow the snoozes since the last reset.
  induction calls using List.reverseRecOn with
  | nil => exact ⟨Nat.zero_le _, Nat.zero_le _⟩
  | append_singleton calls call ih =>
    rw [climb_concat]
    cases call with
    | reset =>
      rw [snoozes_concat_reset]
      exact ⟨Nat.zero_le _, Nat.zero_le _⟩
    | spin =>
      rw [snoozes_concat_spin, Call.advance]
      split <;> omega
    | snooze =>
      rw [snoozes_concat_snooze, Call.advance]
      split <;> omega

theorem climb_of_no_spin (quiet : .spin ∉ recent calls) :
    climb S Y 0 calls = min (snoozes calls) (Y + 1) := by
  induction calls using List.reverseRecOn with
  | nil => rfl
  | append_singleton calls call ih =>
    rw [climb_concat]
    cases call with
    | reset =>
      rw [snoozes_concat_reset]
      rfl
    | spin =>
      rw [recent_concat (by simp)] at quiet
      exact absurd (List.mem_append_right _ List.mem_cons_self) quiet
    | snooze =>
      rw [recent_concat (by simp)] at quiet
      rw [ih fun member => quiet (List.mem_append_left _ member), snoozes_concat_snooze, Call.advance]
      split <;> omega

theorem climb_of_completed (order : S ≤ Y) (completed : Y < step) (on : .reset ∉ calls) :
    climb S Y step calls = step := by
  induction calls with
  | nil => rfl
  | cons call calls ih =>
    obtain ⟨first, rest⟩ := not_or.mp (List.mem_cons.not.mp on)
    have stays : call.advance S Y step = step := by
      cases call with
      | spin | snooze => exact if_neg (by omega)
      | reset => exact absurd rfl first
    rw [climb, List.foldl_cons, stays]
    exact ih rest

end Climb

/-- What `withLimits` sees to: bursts stay short, and yielding ends no earlier than spinning. -/
structure Bounded (b : Backoff) : Prop where
  spin : b.spinLimit.toNat ≤ maxSpinLimit.toNat
  yield : b.spinLimit.toNat ≤ b.yieldLimit.toNat

/-- The same limits, at a step. -/
structure Reached (b : Backoff) (step : Nat) (b' : Backoff) : Prop where
  spin : b'.spinLimit = b.spinLimit
  yield : b'.yieldLimit = b.yieldLimit
  step : b'.step.toNat = step

section Runs

variable {b : Backoff} {step : UInt32} {call : Call} {calls : List Call}

theorem successor_of_fits (fits : step.toNat + 1 < UInt32.size) :
    successor step = .ok (step + 1) ∧ (step + 1).toNat = step.toNat + 1 := by
  refine ⟨if_pos fits, ?_⟩
  rw [UInt32.toNat_add]
  exact Nat.mod_eq_of_lt fits

theorem burst_of_le (bounded : b.Bounded) (le : step.toNat ≤ b.spinLimit.toNat) :
    burst step = .ok (1 <<< step) :=
  if_pos (Nat.lt_of_le_of_lt (Nat.le_trans le bounded.spin) (by decide))

theorem successor_of_le (bounded : b.Bounded) (le : step.toNat ≤ b.spinLimit.toNat) :
    successor step = .ok (step + 1) ∧ (step + 1).toNat = step.toNat + 1 :=
  successor_of_fits
    (Nat.lt_of_le_of_lt (Nat.succ_le_succ (Nat.le_trans le bounded.spin)) (by decide))

theorem spin_reaches (bounded : b.Bounded) :
    ∃ b', b.spin = .ok b' ∧
      b.Reached (Call.spin.advance b.spinLimit.toNat b.yieldLimit.toNat b.step.toNat) b' := by
  have least : (min b.step b.spinLimit).toNat = min b.step.toNat b.spinLimit.toNat :=
    UInt32.toNat_min _ _
  have short : (min b.step b.spinLimit).toNat ≤ b.spinLimit.toNat := by omega
  unfold spin
  simp only [burst_of_le bounded short, bind, Except.bind]
  split
  · next below =>
    have below : (min b.step b.spinLimit).toNat < b.spinLimit.toNat := below
    obtain ⟨next, value⟩ := successor_of_le bounded short
    have lower : b.step.toNat < b.spinLimit.toNat := by omega
    simp only [next]
    refine ⟨_, rfl, rfl, rfl, ?_⟩
    rw [Call.advance, if_pos lower, value]
    omega
  · next above =>
    have above : ¬ (min b.step b.spinLimit).toNat < b.spinLimit.toNat := above
    have upper : ¬ b.step.toNat < b.spinLimit.toNat := by omega
    exact ⟨b, rfl, rfl, rfl, (if_neg upper).symm⟩

/-- What a snooze reports never overflows, only the step may. -/
theorem snooze_eq (bounded : b.Bounded) :
    ∃ report, b.snooze =
      if b.step ≤ b.yieldLimit then
        (successor b.step).map fun step => ({ b with step }, report)
      else .ok (b, report) := by
  by_cases spins : b.step ≤ b.spinLimit
  · -- Up to the spin limit a burst is short; beyond it the step after the limit is a word.
    refine ⟨none, ?_⟩
    simp only [snooze, if_pos spins, burst_of_le bounded spins, bind, Except.bind, pure, Except.pure]
    cases successor b.step <;> rfl
  · obtain ⟨first, -⟩ := successor_of_le bounded (Nat.le_refl b.spinLimit.toNat)
    refine ⟨if b.step = b.spinLimit + 1 then some ⟨b.spinLimit⟩ else none, ?_⟩
    simp only [snooze, if_neg spins, first, bind, Except.bind, pure, Except.pure]
    cases successor b.step <;> rfl

theorem call_reaches (bounded : b.Bounded)
    (fits : call.advance b.spinLimit.toNat b.yieldLimit.toNat b.step.toNat < UInt32.size) :
    ∃ b' report, call.run b = .ok (b', report) ∧
      b.Reached (call.advance b.spinLimit.toNat b.yieldLimit.toNat b.step.toNat) b' := by
  cases call with
  | spin =>
    obtain ⟨b', spun, reached⟩ := spin_reaches bounded
    refine ⟨b', none, ?_, reached⟩
    simp only [Call.run, spun]
    rfl
  | reset => exact ⟨b.reset, none, rfl, rfl, rfl, rfl⟩
  | snooze =>
    obtain ⟨report, snoozed⟩ := snooze_eq bounded
    simp only [Call.run, snoozed]
    by_cases le : b.step ≤ b.yieldLimit
    · have le' : b.step.toNat ≤ b.yieldLimit.toNat := le
      rw [Call.advance, if_pos le'] at fits ⊢
      obtain ⟨next, value⟩ := successor_of_fits fits
      rw [if_pos le, next]
      exact ⟨_, report, rfl, rfl, rfl, value⟩
    · have above : ¬ b.step.toNat ≤ b.yieldLimit.toNat := le
      rw [Call.advance, if_neg above, if_neg le]
      exact ⟨b, report, rfl, rfl, rfl, rfl⟩

theorem call_overflows (bounded : b.Bounded)
    (full : UInt32.size ≤ call.advance b.spinLimit.toNat b.yieldLimit.toNat b.step.toNat) :
    call.run b = .error .addition := by
  have word : b.step.toNat < UInt32.size := b.step.toNat_lt
  cases call with
  | spin =>
    -- A spin does reach the next step, which is a word then.
    obtain ⟨b', -, reached⟩ := spin_reaches bounded
    have fits : b'.step.toNat < UInt32.size := b'.step.toNat_lt
    rw [reached.step] at fits
    exact absurd full (Nat.not_le_of_lt fits)
  | reset => exact absurd full (Nat.not_succ_le_zero _)
  | snooze =>
    obtain ⟨report, snoozed⟩ := snooze_eq bounded
    by_cases le : b.step ≤ b.yieldLimit
    · have le' : b.step.toNat ≤ b.yieldLimit.toNat := le
      rw [Call.advance, if_pos le'] at full
      have overflows : successor b.step = .error .addition := if_neg (Nat.not_lt_of_le full)
      rw [Call.run, snoozed, if_pos le, overflows]
      rfl
    · have above : ¬ b.step.toNat ≤ b.yieldLimit.toNat := le
      rw [Call.advance, if_neg above] at full
      exact absurd full (Nat.not_le_of_lt word)

theorem Reached.bounded {n : Nat} {b' : Backoff} (reached : b.Reached n b') (bounded : b.Bounded) :
    b'.Bounded where
  spin := reached.spin ▸ bounded.spin
  yield := by
    rw [reached.spin, reached.yield]
    exact bounded.yield

theorem runAll_reaches (reports : List Exhausted) (bounded : b.Bounded)
    (fits : ∀ earlier, earlier <+: calls →
      climb b.spinLimit.toNat b.yieldLimit.toNat b.step.toNat earlier < UInt32.size) :
    ∃ b' reports', b.runAll reports calls = .ok (b', reports') ∧
      b.Reached (climb b.spinLimit.toNat b.yieldLimit.toNat b.step.toNat calls) b' := by
  induction calls generalizing b reports with
  | nil => exact ⟨b, reports, rfl, rfl, rfl, rfl⟩
  | cons call calls ih =>
    obtain ⟨next, report, ran, first⟩ := call_reaches bounded
      (fits [call] (List.cons_prefix_cons.mpr ⟨rfl, List.nil_prefix⟩))
    have later (earlier : List Call) (start : earlier <+: calls) :
        climb next.spinLimit.toNat next.yieldLimit.toNat next.step.toNat earlier < UInt32.size := by
      rw [first.spin, first.yield, first.step]
      exact fits (call :: earlier) (List.cons_prefix_cons.mpr ⟨rfl, start⟩)
    obtain ⟨b', reports', rest, reached⟩ := ih (report.toList ++ reports)
      (first.bounded bounded) later
    refine ⟨b', reports', ?_, reached.spin.trans first.spin, reached.yield.trans first.yield, ?_⟩
    · rw [runAll, ran]
      exact rest
    · rw [reached.step, first.spin, first.yield, first.step]
      rfl

theorem runAll_overflows (reports : List Exhausted) (bounded : b.Bounded) {earlier : List Call}
    (start : earlier <+: calls)
    (full : UInt32.size ≤ climb b.spinLimit.toNat b.yieldLimit.toNat b.step.toNat earlier) :
    b.runAll reports calls = .error .addition := by
  induction earlier generalizing b reports calls with
  | nil => exact absurd full (Nat.not_le_of_lt b.step.toNat_lt)
  | cons call earlier ih =>
    obtain ⟨rest, rfl⟩ := start
    rw [List.cons_append, runAll]
    by_cases fits : call.advance b.spinLimit.toNat b.yieldLimit.toNat b.step.toNat < UInt32.size
    · obtain ⟨next, report, ran, first⟩ := call_reaches bounded fits
      rw [ran]
      refine ih _ (first.bounded bounded) (List.prefix_append earlier rest) ?_
      rw [first.spin, first.yield, first.step]
      exact full
    · rw [call_overflows bounded (Nat.not_lt.mp fits)]

/-- A backoff overflows exactly when the counter outgrows a word. -/
theorem runAll_eq_error_iff (reports : List Exhausted) (bounded : b.Bounded) {overflow : Overflow} :
    b.runAll reports calls = .error overflow ↔ overflow = .addition ∧
      ∃ earlier, earlier <+: calls ∧
        UInt32.size ≤ climb b.spinLimit.toNat b.yieldLimit.toNat b.step.toNat earlier := by
  constructor
  · intro failed
    by_cases fits : ∀ earlier, earlier <+: calls →
        climb b.spinLimit.toNat b.yieldLimit.toNat b.step.toNat earlier < UInt32.size
    · obtain ⟨b', reports', ran, -⟩ := runAll_reaches reports bounded fits
      rw [ran] at failed
      contradiction
    · push Not at fits
      obtain ⟨earlier, start, full⟩ := fits
      have overflows := runAll_overflows reports bounded start full
      exact ⟨Except.error.inj (failed.symm.trans overflows), earlier, start, full⟩
  · rintro ⟨rfl, earlier, start, full⟩
    exact runAll_overflows reports bounded start full

theorem Reached.isCompleted_iff {n : Nat} {b' : Backoff} (reached : b.Reached n b') :
    b'.isCompleted = true ↔ b.yieldLimit.toNat < n := by
  rw [isCompleted, decide_eq_true_iff, reached.yield, ← reached.step]
  rfl

theorem spin_keeps_isCompleted (bounded : b.Bounded) :
    ∃ b', b.spin = .ok b' ∧ b'.isCompleted = b.isCompleted := by
  obtain ⟨b', spun, reached⟩ := spin_reaches bounded
  have here : b.Reached b.step.toNat b := ⟨rfl, rfl, rfl⟩
  have order := bounded.yield
  refine ⟨b', spun, Bool.eq_iff_iff.mpr ?_⟩
  rw [reached.isCompleted_iff, here.isCompleted_iff, Call.advance]
  split <;> omega

theorem runAll_of_completed (reports : List Exhausted) (bounded : b.Bounded) (completed : b.isCompleted = true)
    (on : .reset ∉ calls) :
    ∃ b' reports', b.runAll reports calls = .ok (b', reports') ∧ b'.isCompleted = true := by
  have here : b.Reached b.step.toNat b := ⟨rfl, rfl, rfl⟩
  have beyond := here.isCompleted_iff.mp completed
  have stays {earlier : List Call} (start : earlier <+: calls) :
      climb b.spinLimit.toNat b.yieldLimit.toNat b.step.toNat earlier = b.step.toNat :=
    climb_of_completed bounded.yield beyond fun member => on (start.subset member)
  obtain ⟨b', reports', ran, reached⟩ := runAll_reaches reports bounded
    fun earlier start => (stays start).trans_lt b.step.toNat_lt
  refine ⟨b', reports', ran, reached.isCompleted_iff.mpr ?_⟩
  rw [stays (List.prefix_refl calls)]
  exact beyond

end Runs

section Limits

variable (spinLimit yieldLimit : UInt32)

theorem withLimits_bounded : (withLimits spinLimit yieldLimit).Bounded where
  spin := by
    rw [withLimits, UInt32.toNat_min]
    exact Nat.min_le_right _ _
  yield := by
    rw [withLimits, UInt32.toNat_max]
    exact Nat.le_max_right _ _

theorem toNat_spinLimit : (withLimits spinLimit yieldLimit).spinLimit.toNat = min spinLimit.toNat 16 :=
  UInt32.toNat_min _ _

theorem toNat_yieldLimit :
    (withLimits spinLimit yieldLimit).yieldLimit.toNat = max yieldLimit.toNat (min spinLimit.toNat 16) := by
  rw [withLimits, UInt32.toNat_max, UInt32.toNat_min]
  rfl

theorem climb_lt {S Y : Nat} (order : S ≤ Y) (room : Y + 1 < UInt32.size) (calls : List Call) :
    climb S Y 0 calls < UInt32.size :=
  Nat.lt_of_le_of_lt (climb_le order (Nat.zero_le _)) room

/-- A backoff overflows exactly when its yield limit is the greatest word and the counter outgrows a
word. No burst is ever too long, and no other addition too great. -/
theorem overflow_iff_counter_outgrows (calls : List Call) (overflow : Overflow) :
    (withLimits spinLimit yieldLimit).runAll [] calls = .error overflow ↔
      overflow = .addition ∧ yieldLimit.toNat + 1 = UInt32.size ∧
        ∃ earlier, earlier <+: calls ∧
          UInt32.size ≤ climb (min spinLimit.toNat 16) yieldLimit.toNat 0 earlier := by
  have word : yieldLimit.toNat < 4294967296 := yieldLimit.toNat_lt
  rw [runAll_eq_error_iff [] (withLimits_bounded spinLimit yieldLimit), toNat_spinLimit, toNat_yieldLimit]
  refine and_congr_right fun _ => ?_
  -- The greatest word is its own maximum with any spin limit; below it there is room for the end of
  -- the counter, one beyond the yield limit.
  by_cases last : yieldLimit.toNat + 1 = UInt32.size
  · have above : max yieldLimit.toNat (min spinLimit.toNat 16) = yieldLimit.toNat := by
      simp only [UInt32.size] at last
      omega
    rw [above]
    exact ⟨fun full => ⟨last, full⟩, And.right⟩
  · refine ⟨fun ⟨earlier, _, full⟩ => ?_, fun full => absurd full.1 last⟩
    refine absurd full (Nat.not_le_of_lt (climb_lt (Nat.le_max_right _ _) ?_ earlier))
    simp only [UInt32.size] at last ⊢
    omega

/-- With the greatest yield limit a backoff overflows once it has snoozed as often as there are
words. -/
theorem greatest_yield_limit_overflows :
    (withLimits 0 4294967295).runAll [] (List.replicate 4294967296 .snooze) = .error .addition := by
  have least := (climb_bounds (S := min (0 : UInt32).toNat 16) (Y := (4294967295 : UInt32).toNat)
    (.replicate 4294967296 .snooze)).1
  rw [snoozes_replicate] at least
  exact (runAll_eq_error_iff [] (withLimits_bounded _ _)).mpr ⟨rfl, _, List.prefix_refl _, least⟩

/-- With any other yield limit a backoff is completed once the counter is beyond it. -/
theorem withLimits_reaches (below : yieldLimit.toNat + 1 < UInt32.size) (calls : List Call) :
    ∃ b reports, (withLimits spinLimit yieldLimit).runAll [] calls = .ok (b, reports) ∧ b.Bounded ∧
      let S := min spinLimit.toNat 16
      let Y := max yieldLimit.toNat S
      (b.isCompleted = true ↔ Y < climb S Y 0 calls) := by
  have bounded := withLimits_bounded spinLimit yieldLimit
  have order : min spinLimit.toNat 16 ≤ max yieldLimit.toNat (min spinLimit.toNat 16) :=
    Nat.le_max_right _ _
  have room : max yieldLimit.toNat (min spinLimit.toNat 16) + 1 < UInt32.size := by
    simp only [UInt32.size] at below ⊢
    omega
  have fits (earlier : List Call) (_ : earlier <+: calls) := climb_lt order room earlier
  rw [← toNat_yieldLimit, ← toNat_spinLimit spinLimit yieldLimit] at fits
  obtain ⟨b, reports, ran, reached⟩ := runAll_reaches [] bounded fits
  have completed := reached.isCompleted_iff
  rw [toNat_yieldLimit, toNat_spinLimit] at completed
  exact ⟨b, reports, ran, reached.bounded bounded, completed⟩

/-- Whether a backoff is completed follows from the snoozes since the last reset. So many as lead one
beyond the yield limit complete it, and spins do for as many of them at most as the spin limit; without
spins the number is exact. A spin changes nothing about it, and only a reset undoes it. -/
theorem completion_follows_snoozes (below : yieldLimit.toNat + 1 < UInt32.size) (calls : List Call) :
    ∃ b reports, (withLimits spinLimit yieldLimit).runAll [] calls = .ok (b, reports) ∧
      let S := min spinLimit.toNat 16
      let Y := max yieldLimit.toNat S
      (Y + 1 ≤ snoozes calls → b.isCompleted = true) ∧
      (snoozes calls < Y + 1 - S → b.isCompleted = false) ∧
      (.spin ∉ recent calls → (b.isCompleted = true ↔ Y + 1 ≤ snoozes calls)) ∧
      (∃ b', b.spin = .ok b' ∧ b'.isCompleted = b.isCompleted) ∧
      (.snooze ∉ recent calls → b.isCompleted = false) ∧
      (b.isCompleted = true → ∀ more, .reset ∉ more →
        ∃ b' reports', b.runAll reports more = .ok (b', reports') ∧ b'.isCompleted = true) := by
  obtain ⟨b, reports, ran, bounded, completed⟩ := withLimits_reaches spinLimit yieldLimit below calls
  refine ⟨b, reports, ran, ?_⟩
  intro S Y
  have completed : b.isCompleted = true ↔ Y < climb S Y 0 calls := completed
  have order : S ≤ Y := Nat.le_max_right _ _
  obtain ⟨least, most⟩ := climb_bounds (S := S) (Y := Y) calls
  have incomplete (low : climb S Y 0 calls ≤ Y) : b.isCompleted = false :=
    Bool.eq_false_iff.mpr (completed.not.mpr (Nat.not_lt_of_le low))
  refine ⟨fun many => completed.mpr ?_, fun few => incomplete ?_, fun quiet => ?_,
    spin_keeps_isCompleted bounded, fun quiet => incomplete ?_, fun done more on =>
    runAll_of_completed reports bounded done on⟩
  · exact Nat.lt_of_lt_of_le (Nat.lt_min.mpr ⟨many, Nat.lt_succ_self Y⟩) least
  · omega
  · rw [completed, climb_of_no_spin quiet]
    omega
  · have none : snoozes calls = 0 := List.count_eq_zero.mpr quiet
    omega

/-- The spins take the step to the spin limit, and three snoozes since the reset complete the
backoff. -/
theorem completion_follows_snoozes_after_reset :
    (4 : UInt32).toNat + 1 < UInt32.size ∧
      ∃ b reports, (withLimits 2 4).runAll []
          [.snooze, .reset, .spin, .spin, .snooze, .spin, .snooze, .snooze] = .ok (b, reports) ∧
        b.isCompleted = true ∧
        ∃ b' reports', b.runAll reports [.spin, .snooze] = .ok (b', reports') ∧ b'.isCompleted = true := by
  have below : (4 : UInt32).toNat + 1 < UInt32.size := by decide
  obtain ⟨b, reports, ran, -, -, -, -, -, stays⟩ := completion_follows_snoozes 2 4 below
    [.snooze, .reset, .spin, .spin, .snooze, .spin, .snooze, .snooze]
  have completed : b.isCompleted = true := by
    cases ran
    rfl
  exact ⟨below, b, reports, ran, completed, stays completed [.spin, .snooze] (by decide)⟩

end Limits

end SharedCells.Backoff
