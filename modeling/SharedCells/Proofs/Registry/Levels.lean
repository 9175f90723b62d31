import SharedCells.Proofs.Registry.Claims

/-! The activities of a thread, from its outermost level on.

A level keeps its place in the thread while others are put above it and go again. So an activity is
known by its thread and by the number of levels below it. It takes the steps of its thread if no level
is above it; a payment below others is resumed when the callback above it has returned. -/

set_option autoImplicit false

namespace SharedCells.Registry

namespace Thread

/-- The activity of the level that has so many levels below it. -/
def activity? (thread : Thread) (depth : Nat) : Option Activity :=
  thread.reverse[depth]?.bind Level.activity

variable {thread : Thread} {depth : Nat} {activity : Activity}

theorem activity?_append {below : Thread} {depth : Nat} (above : Thread) (low : depth < below.length) :
    activity? (above ++ below) depth = activity? below depth := by
  rw [activity?, List.reverse_append, List.getElem?_append_left (by simpa using low), activity?]

theorem activity?_length (level : Level) (below : Thread) :
    activity? (level :: below) below.length = level.activity := by
  simp [activity?]

theorem lt_of_activity? (busy : thread.activity? depth = some activity) : depth < thread.length := by
  obtain ⟨level, found, -⟩ := Option.bind_eq_some_iff.mp busy
  simpa using (List.getElem?_eq_some_iff.mp found).1

theorem step_activity? (ledger : Ledger) (busy : thread.activity? depth = some activity)
    (spurious : Bool) :
    let next := thread.step spurious ledger
    if thread.length = depth + 1 then
      ∃ level : Level, level.activity = some activity ∧
        next.1 = (level.advance spurious ledger activity).1 ∧
        next.2.activity? depth = (level.advance spurious ledger activity).2.1.activity
    else
      next.2.activity? depth = some activity ∨ next.1 = ledger ∧
        ∃ (level : Level) (replies : List Reply), level.activity = some activity ∧
          next.2.activity? depth = (level.resume next.1.registry replies).activity := by
  -- What happens above the levels that stay is nothing to them.
  have waits (above : Thread) {below : Thread} (low : depth < below.length)
      (busy : activity? below depth = some activity) :
      activity? (above ++ below) depth = some activity := (activity?_append above low).trans busy
  cases thread with
  | nil => exact absurd (lt_of_activity? busy) (Nat.not_lt_zero _)
  | cons level below =>
    obtain ⟨todo, acting, replies⟩ := level
    rcases Nat.lt_succ_iff_lt_or_eq.mp (lt_of_activity? busy) with low | rfl
    · have stays : activity? below depth = some activity :=
        (activity?_append [_] low).symm.trans busy
      rw [if_neg (by rw [List.length_cons]; omega)]
      cases acting with
      | some acting =>
        refine .inl ?_
        dsimp only [step]
        rw [← List.singleton_append, ← List.append_assoc]
        exact waits _ low stays
      | none =>
        cases todo with
        | cons request todo => exact .inl (waits [_] low stays)
        | nil =>
          cases below with
          | nil => exact absurd low (Nat.not_lt_zero _)
          | cons caller rest =>
            rcases Nat.lt_succ_iff_lt_or_eq.mp low with lower | rfl
            · exact .inl (waits [_] lower ((activity?_append [_] lower).symm.trans stays))
            · rw [activity?_length] at stays
              exact .inr ⟨rfl, caller, replies, stays, activity?_length _ _⟩
    · rw [if_pos (List.length_cons ..)]
      rw [activity?_length] at busy
      obtain rfl : acting = some activity := busy
      refine ⟨_, rfl, rfl, ?_⟩
      dsimp only [step]
      rw [activity?_append _ (Nat.lt_succ_self _), activity?_length]

end Thread

namespace Session

/-- The activity of thread `i` at the level that has so many levels below it. -/
def activity? (s : Session) (i depth : Nat) : Option Activity :=
  s.threads[i]?.bind fun thread => thread.activity? depth

/-- No level is above that one, so that it takes the next step of the thread. -/
def Acts (s : Session) (i depth : Nat) : Prop := s.threads[i]?.map List.length = some (depth + 1)

instance (s : Session) (i depth : Nat) : Decidable (s.Acts i depth) := inferInstanceAs (Decidable (_ = _))

variable {s : Session} {i depth : Nat} {activity : Activity}

theorem current_of_acts (busy : s.activity? i depth = some activity) (acts : s.Acts i depth) :
    s.current i = some activity := by
  obtain ⟨thread, found, there⟩ := Option.bind_eq_some_iff.mp busy
  rw [Acts, found] at acts
  rw [current, found, Option.bind_some]
  cases thread with
  | nil => contradiction
  | cons level below =>
    obtain rfl := Nat.succ.inj (Option.some.inj acts)
    exact (Thread.activity?_length level below).symm.trans there

/-- What a step of any thread does to the activity: it is the one that acts, or it stays as it is, or it
is resumed. -/
theorem step_activity? (busy : s.activity? i depth = some activity) (j : Nat) (spurious : Bool) :
    let next := s.step j spurious
    if j = i ∧ s.Acts i depth then
      ∃ level : Level, level.activity = some activity ∧
        next.ledger = (level.advance spurious s.ledger activity).1 ∧
        next.activity? i depth = (level.advance spurious s.ledger activity).2.1.activity
    else
      next.activity? i depth = some activity ∨ next.ledger = s.ledger ∧
        ∃ (level : Level) (replies : List Reply), level.activity = some activity ∧
          next.activity? i depth = (level.resume next.ledger.registry replies).activity := by
  dsimp only
  obtain ⟨thread, found, there⟩ := Option.bind_eq_some_iff.mp busy
  by_cases same : j = i
  · subst same
    obtain ⟨bound, -⟩ := List.getElem?_eq_some_iff.mp found
    have acts : s.Acts j depth ↔ thread.length = depth + 1 := by simp [Acts, found]
    have next : (s.step j spurious).activity? j depth =
        Thread.activity? (thread.step spurious s.ledger).2 depth := by
      rw [step_of_getElem? found, activity?, List.getElem?_set_self bound, Option.bind_some]
    rw [next, step_of_getElem? found]
    simp only [true_and, acts]
    exact Thread.step_activity? s.ledger there spurious
  · rw [if_neg fun acts => same acts.1]
    refine .inl ?_
    cases other : s.threads[j]? with
    | none => rw [step_of_no_thread other, busy]
    | some thread =>
      rw [step_of_getElem? other, activity?, List.getElem?_set_ne same, ← activity?, busy]

end Session

end SharedCells.Registry
