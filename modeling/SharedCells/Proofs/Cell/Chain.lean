import Mathlib.Data.List.Basic
import SharedCells.Cell.Crew
import SharedCells.Cell.Variant

/-! The jobs of many workers form one chain.

An update computes its new value from a value it has seen, and puts it in the
place of that very value. So each job that is done, whoever does it and whatever
failed before, is applied to the value that the job before it has left in the
cell. A compare-exchange tells contents apart, not values; when no two values
have one content, this is the same. -/

set_option autoImplicit false

namespace SharedCells

variable {ρ α : Type}

/-- The value that a job leaves in the place of another. -/
def Job.apply : Job α → α → α
  | .modify f | .update f => f

/-- A job that a worker has done, and the value that it returned. -/
structure Completion (α : Type) where
  worker : Nat
  job : Job α
  returned : α

namespace Completion

/-- The value left by jobs that are done one after another. -/
def outcome (v : α) (done : List (Completion α)) : α :=
  done.foldl (fun v completion => completion.job.apply v) v

/-- Each job returned the value that the jobs before it had left. -/
def Chained : α → List (Completion α) → Prop
  | _, [] => True
  | v, completion :: rest => completion.returned = v ∧ Chained (completion.job.apply v) rest

/-- The jobs that worker `i` has done. -/
def doneBy (i : Nat) (done : List (Completion α)) : List (Completion α) :=
  done.filter fun completion => completion.worker = i

variable {v : α} {i : Nat} {done more : List (Completion α)}

theorem outcome_append : outcome v (done ++ more) = outcome (outcome v done) more :=
  List.foldl_append

theorem chained_append : Chained v (done ++ more) ↔ Chained v done ∧ Chained (outcome v done) more := by
  induction done generalizing v with
  | nil => exact (true_and _).to_iff.symm
  | cons first rest ih => rw [List.cons_append, Chained, Chained, ih, and_assoc]; rfl

theorem doneBy_append : doneBy i (done ++ more) = doneBy i done ++ doneBy i more :=
  List.filter_append done more

theorem doneBy_of_own (own : ∀ completion ∈ done, completion.worker = i) : doneBy i done = done :=
  List.filter_eq_self.mpr fun completion member => decide_eq_true (own completion member)

theorem doneBy_of_others (others : ∀ completion ∈ done, completion.worker ≠ i) :
    doneBy i done = [] :=
  List.filter_eq_nil_iff.mpr fun completion member =>
    decide_eq_true_iff.not.mpr (others completion member)

end Completion

section Lawful

variable {E : Encoding ρ α} {v w : α}

theorem Encoding.Lawful.encode_inj (lawful : E.Lawful) (same : E.encode v = E.encode w) : v = w := by
  have read := lawful v
  rw [same, lawful w, Option.some.injEq] at read
  exact read.symm

theorem Cell.load_encode (lawful : E.Lawful) (v : α) : Cell.load E (E.encode v) = .ok v := by
  rw [Cell.load, lawful v]

/-- A weak compare-exchange either finds the expected value and replaces it, or leaves what it found
with its caller. -/
theorem Cell.compareExchange_cases [DecidableEq ρ] (lawful : E.Lawful) (spurious : Bool)
    (expected desired : α) (success : Order) :
    (v = expected ∧ Cell.compareExchange E .weak spurious expected desired success none
        (E.encode v) = (⟨.ok true, expected⟩, E.encode desired)) ∨
      Cell.compareExchange E .weak spurious expected desired success none (E.encode v) =
        (⟨.ok false, v⟩, E.encode v) := by
  unfold Cell.compareExchange
  rw [Order.failureOrder_none]
  dsimp only
  split
  · next found => exact .inl ⟨lawful.encode_inj found.1, rfl⟩
  · rw [Cell.load_encode lawful]
    exact .inr rfl

end Lawful

namespace Worker

/-- A worker in the middle of an update has called its function on the value that it is going to
expect; before any other job it has not begun anything. -/
def Sound (worker : Worker α) : Prop :=
  match worker.jobs, worker.progress with
  | .update f :: _, .attempt _ current desired => desired = f current
  | .update _ :: _, .call _ _ => True
  | _, .start => True
  | _, _ => False

theorem Sound.not_failed {worker : Worker α} (sound : worker.Sound) (error : CellError) :
    worker.progress ≠ .failed error := by
  obtain ⟨jobs, progress, returned⟩ := worker
  rintro rfl
  rcases jobs with _ | ⟨_ | _, _⟩ <;> exact sound

/-- What an access does to a cell that holds a value: nothing, or all of the first job. -/
inductive Step (E : Encoding ρ α) (v : α) (worker : Worker α) : Worker α × ρ → Prop where
  | waits (worker' : Worker α) : worker'.jobs = worker.jobs → worker'.returned = worker.returned →
      worker'.Sound → Step E v worker (worker', E.encode v)
  | does (job : Job α) (rest : List (Job α)) : worker.jobs = job :: rest →
      Step E v worker (⟨rest, .start, v :: worker.returned⟩, E.encode (job.apply v))

/-- The job that worker `i` has brought to its end in a step from the first state to the second. -/
def completion? (i : Nat) (worker worker' : Worker α) : Option (Completion α) :=
  match worker.jobs, worker'.returned with
  | job :: rest, value :: _ =>
    if worker'.jobs.length = rest.length then some ⟨i, job, value⟩ else none
  | _, _ => none

/-- A worker that has done the first jobs of its program. -/
structure Follows (program : List (Job α)) (own : List (Completion α)) (worker : Worker α) :
    Prop where
  sound : worker.Sound
  jobs : program = own.map (·.job) ++ worker.jobs
  returned : worker.returned.reverse = own.map (·.returned)

variable {E : Encoding ρ α} {v : α} {worker worker' : Worker α} {i : Nat}
  {program : List (Job α)} {own : List (Completion α)}

theorem step_cases [DecidableEq ρ] (lawful : E.Lawful) (sound : worker.Sound) (spurious : Bool) :
    Step E v worker (worker.step E spurious (E.encode v)) := by
  obtain ⟨jobs, progress, returned⟩ := worker
  cases jobs with
  | nil => exact .waits _ rfl rfl sound
  | cons job rest =>
    cases job with
    | modify f =>
      cases progress with
      | start =>
        simp only [step, Cell.modify, Cell.load_encode lawful]
        exact .does (.modify f) rest rfl
      | call | attempt | returned | failed => exact sound.elim
    | update f =>
      cases progress with
      | start =>
        simp only [step, Update.step, Cell.load_encode lawful]
        exact .waits _ rfl rfl trivial
      | call earlier current => exact .waits _ rfl rfl rfl
      | attempt earlier current desired =>
        have computed : desired = f current := sound
        rcases Cell.compareExchange_cases (v := v) lawful spurious current desired .acqRel with
          ⟨found, won⟩ | lost
        · -- The cell holds the very value that the function was called on.
          simp only [step, Update.step, won]
          rw [computed, ← found]
          exact .does (.update f) rest rfl
        · simp only [step, Update.step, lost]
          exact .waits _ rfl rfl trivial
      | returned | failed => exact sound.elim

theorem completion?_of_waits (jobs : worker'.jobs = worker.jobs) :
    completion? i worker worker' = none := by
  unfold completion?
  split
  · next job rest value _ same _ =>
    refine if_neg fun equal => ?_
    rw [jobs, same, List.length_cons] at equal
    exact Nat.succ_ne_self _ equal
  · rfl

theorem completion?_of_does {job : Job α} {rest : List (Job α)} {value : α} {values : List α}
    (jobs : worker.jobs = job :: rest) :
    completion? i worker ⟨rest, .start, value :: values⟩ = some ⟨i, job, value⟩ := by
  unfold completion?
  rw [jobs]
  exact if_pos rfl

/-- A step does one more job of the program, on the value that the cell holds, or none. -/
theorem Step.follows {result : Worker α × ρ} (step : Step E v worker result)
    (follows : worker.Follows program own) :
    let now := (completion? i worker result.1).toList
    result.2 = E.encode (Completion.outcome v now) ∧ Completion.Chained v now ∧
      (∀ completion ∈ now, completion.worker = i) ∧ result.1.Follows program (own ++ now) := by
  intro now
  unfold now
  cases step with
  | waits _ jobs returned sound =>
    rw [completion?_of_waits jobs, Option.toList_none, List.append_nil]
    exact ⟨rfl, trivial, nofun, sound, jobs ▸ follows.jobs, returned ▸ follows.returned⟩
  | does job rest jobs =>
    rw [completion?_of_does jobs, Option.toList_some]
    refine ⟨rfl, ⟨rfl, trivial⟩, fun _ same => List.mem_singleton.mp same ▸ rfl, ?_, ?_, ?_⟩
    · rcases rest with _ | ⟨_ | _, _⟩ <;> trivial
    · rw [follows.jobs, jobs, List.map_append, List.append_assoc]
      rfl
    · rw [List.reverse_cons, follows.returned, List.map_append]
      rfl

end Worker

namespace Crew

/-- Workers that have not begun their jobs, on a cell that holds a value. -/
def ofJobs (E : Encoding ρ α) (v : α) (programs : List (List (Job α))) : Crew ρ α :=
  ⟨E.encode v, programs.map fun jobs => { jobs }⟩

/-- What is true of a crew when certain jobs have been done. -/
structure Chains (E : Encoding ρ α) (v : α) (programs : List (List (Job α)))
    (done : List (Completion α)) (crew : Crew ρ α) : Prop where
  content : crew.content = E.encode (Completion.outcome v done)
  chained : Completion.Chained v done
  known : ∀ completion ∈ done, completion.worker < programs.length
  length : crew.workers.length = programs.length
  follows : ∀ (i : Nat) (worker : Worker α) (program : List (Job α)),
    crew.workers[i]? = some worker → programs[i]? = some program →
    worker.Follows program (Completion.doneBy i done)

variable {E : Encoding ρ α} {v : α} {programs : List (List (Job α))} {done : List (Completion α)}
  {crew : Crew ρ α} {i : Nat} {spurious : Bool} {schedule later : List (Nat × Bool)}

theorem ofJobs_chains : Chains E v programs [] (ofJobs E v programs) where
  content := rfl
  chained := trivial
  known := nofun
  length := by simp [ofJobs]
  follows i worker jobs found program := by
    simp only [ofJobs, List.getElem?_map, program, Option.map_some, Option.some.injEq] at found
    rw [← found]
    refine ⟨?_, rfl, rfl⟩
    rcases jobs with _ | ⟨_ | _, _⟩ <;> trivial

variable [DecidableEq ρ]

/-- Takes steps in the order that the schedule tells, which says whose turn it is and whether a weak
exchange fails in it. -/
def run (E : Encoding ρ α) (schedule : List (Nat × Bool)) (crew : Crew ρ α) : Crew ρ α :=
  schedule.foldl (fun crew (i, spurious) => crew.step E i spurious) crew

/-- The job that a step of worker `i` brings to its end. -/
def completion? (E : Encoding ρ α) (i : Nat) (spurious : Bool) (crew : Crew ρ α) :
    Option (Completion α) :=
  crew.workers[i]?.bind fun worker =>
    worker.completion? i (worker.step E spurious crew.content).1

/-- The jobs that are done in the course of a schedule, one after another. -/
def completions (E : Encoding ρ α) : List (Nat × Bool) → Crew ρ α → List (Completion α)
  | [], _ => []
  | (i, spurious) :: rest, crew =>
    (crew.completion? E i spurious).toList ++ completions E rest (crew.step E i spurious)

theorem completions_append :
    crew.completions E (schedule ++ later) =
      crew.completions E schedule ++ (crew.run E schedule).completions E later := by
  induction schedule generalizing crew with
  | nil => rfl
  | cons turn rest ih =>
    rw [List.cons_append, completions, completions, ih, List.append_assoc]
    rfl

theorem Chains.step (lawful : E.Lawful) (chains : Chains E v programs done crew) (i : Nat)
    (spurious : Bool) :
    Chains E v programs (done ++ (crew.completion? E i spurious).toList)
      (crew.step E i spurious) := by
  unfold Crew.step completion?
  cases found : crew.workers[i]? with
  | none => simpa using chains
  | some worker =>
    have bound : i < crew.workers.length := (List.getElem?_eq_some_iff.mp found).1
    have program : programs[i]? = some (programs.get ⟨i, chains.length ▸ bound⟩) :=
      List.getElem?_eq_getElem _
    have own := chains.follows i worker _ found program
    have step := Worker.step_cases (v := Completion.outcome v done) lawful own.sound spurious
    rw [← chains.content] at step
    rw [Option.bind_some]
    dsimp only
    generalize worker.step E spurious crew.content = result at step ⊢
    obtain ⟨content, chained, known, follows⟩ := step.follows (i := i) own
    exact {
      content := by rw [Completion.outcome_append, content]
      chained := Completion.chained_append.mpr ⟨chains.chained, chained⟩
      known := fun completion member => by
        rcases List.mem_append.mp member with before | now
        · exact chains.known completion before
        · exact known completion now ▸ chains.length ▸ bound
      length := by simpa using chains.length
      follows := fun j other jobs there wanted => by
        rw [Completion.doneBy_append]
        rcases eq_or_ne i j with rfl | apart
        · rw [List.getElem?_set_self bound, Option.some.injEq] at there
          obtain rfl := Option.some.inj (program.symm.trans wanted)
          rw [← there, Completion.doneBy_of_own known]
          exact follows
        · rw [List.getElem?_set_ne apart] at there
          have none : Completion.doneBy j (worker.completion? i result.1).toList = [] :=
            Completion.doneBy_of_others fun completion now => known completion now ▸ apart
          rw [none, List.append_nil]
          exact chains.follows j other jobs there wanted }

theorem Chains.run (lawful : E.Lawful) (chains : Chains E v programs done crew) :
    Chains E v programs (done ++ crew.completions E schedule) (crew.run E schedule) := by
  induction schedule generalizing done crew with
  | nil => simpa [completions, Crew.run] using chains
  | cons turn rest ih =>
    rw [completions, ← List.append_assoc]
    exact ih (chains.step lawful turn.1 turn.2)

/-- Whatever the schedule and the spurious failures, the jobs that are done form one chain from the
first value: each returns the value that the jobs before it have left, and at every moment the cell
holds the value left by the jobs done until then. What a worker has done and what is left to it make
up its program, in its order. In the end the cell holds the value left by all jobs of all workers. -/
theorem completions_form_chain (lawful : E.Lawful) (v : α) (programs : List (List (Job α)))
    (schedule : List (Nat × Bool)) :
    let start := ofJobs E v programs
    let done := start.completions E schedule
    Completion.Chained v done ∧
      (∀ earlier later, schedule = earlier ++ later →
        (start.run E earlier).content =
            E.encode (Completion.outcome v (start.completions E earlier)) ∧
          done = start.completions E earlier ++ (start.run E earlier).completions E later) ∧
      (∀ completion ∈ done, completion.worker < programs.length) ∧
      (∀ i program, programs[i]? = some program →
        ∃ worker, (start.run E schedule).workers[i]? = some worker ∧
          (∀ error, worker.progress ≠ .failed error) ∧
          program = (Completion.doneBy i done).map (·.job) ++ worker.jobs ∧
          worker.returned.reverse = (Completion.doneBy i done).map (·.returned)) ∧
      ((∀ worker ∈ (start.run E schedule).workers, worker.jobs = []) →
        (start.run E schedule).content = E.encode (Completion.outcome v done) ∧
          ∀ i program, programs[i]? = some program →
            (Completion.doneBy i done).map (·.job) = program) := by
  intro start done
  have chains (schedule : List (Nat × Bool)) :
      Chains E v programs (start.completions E schedule) (start.run E schedule) :=
    ofJobs_chains.run lawful
  have worker (i : Nat) (program : List (Job α)) (wanted : programs[i]? = some program) :
      ∃ worker, (start.run E schedule).workers[i]? = some worker ∧
        worker.Follows program (Completion.doneBy i done) := by
    have bound := (List.getElem?_eq_some_iff.mp wanted).1
    rw [← (chains schedule).length] at bound
    have there := List.getElem?_eq_getElem bound
    exact ⟨_, there, (chains schedule).follows i _ program there wanted⟩
  refine ⟨(chains schedule).chained, ?_, (chains schedule).known, ?_, ?_⟩
  · rintro earlier later rfl
    exact ⟨(chains earlier).content, completions_append⟩
  · intro i program wanted
    obtain ⟨worker, there, follows⟩ := worker i program wanted
    exact ⟨worker, there, follows.sound.not_failed, follows.jobs, follows.returned⟩
  · intro idle
    refine ⟨(chains schedule).content, fun i program wanted => ?_⟩
    obtain ⟨worker, there, follows⟩ := worker i program wanted
    rw [follows.jobs, idle worker (List.mem_of_getElem? there), List.append_nil]

/-- The second worker, which fails once for no reason, turns the variants around in a circle between
the first worker's call and its exchange; the first update counts all the same. -/
theorem completions_form_chain_full_circle :
    let E := Variant.encoding [⟨"A", 0, false⟩, ⟨"B", 1, false⟩, ⟨"C", (2 : Int), false⟩]
    let next : Job (Fin 3) := .update (· + 1)
    let start := ofJobs E 0 [[next], [next, next, next]]
    let schedule := [(0, false), (0, false), (1, false), (1, false), (1, true)] ++
      List.replicate 8 (1, false) ++ [(0, false)]
    E.Lawful ∧ (∀ worker ∈ (start.run E schedule).workers, worker.jobs = []) ∧
      (start.run E schedule).content = 1 ∧
      Completion.outcome (0 : Fin 3) (start.completions E schedule) = 1 := by
  intro E next start schedule
  have lawful : E.Lawful := by
    unfold Encoding.Lawful
    decide
  have empty : ((start.run E schedule).workers.all fun worker => worker.jobs.isEmpty) = true := by
    unfold schedule start next E
    decide +kernel
  have idle : ∀ worker ∈ (start.run E schedule).workers, worker.jobs = [] :=
    fun worker member => List.isEmpty_iff.mp (List.all_eq_true.mp empty worker member)
  have outcome : Completion.outcome (0 : Fin 3) (start.completions E schedule) = 1 := by
    unfold schedule start next E
    decide +kernel
  obtain ⟨-, -, -, -, composed⟩ :=
    completions_form_chain lawful 0 [[next], [next, next, next]] schedule
  refine ⟨lawful, idle, ?_, outcome⟩
  exact (composed idle).1.trans (congrArg E.encode outcome)

end Crew

end SharedCells
