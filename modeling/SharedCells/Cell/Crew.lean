import SharedCells.Cell.Update

/-! Threads that update one cell together.

A worker does its jobs in order, one access at a time; the crew's schedule says
which worker goes next and whether a weak compare-exchange fails this time. -/

set_option autoImplicit false

namespace SharedCells

inductive Job (α : Type) where
  /-- One indivisible replacement. -/
  | modify (f : α → α)
  | update (f : α → α)

/-- The first job is the one in progress; the values returned are kept newest first. -/
structure Worker (α : Type) where
  jobs : List (Job α)
  progress : Update α := .start
  returned : List α := []

structure Crew (ρ α : Type) where
  content : ρ
  workers : List (Worker α)

namespace Worker

variable {ρ α : Type} [DecidableEq ρ]

def step (E : Encoding ρ α) (spurious : Bool) (worker : Worker α) (content : ρ) : Worker α × ρ :=
  match worker.jobs with
  | [] => (worker, content)
  | .modify f :: rest =>
    match Cell.modify E f content with
    | (.ok old, content) =>
      ({ worker with jobs := rest, returned := old :: worker.returned }, content)
    | (.error error, content) => ({ worker with progress := .failed error }, content)
  | .update f :: rest =>
    match worker.progress.step E (.ofFunction f) spurious content with
    | (.returned _ old, content) =>
      (⟨rest, .start, old :: worker.returned⟩, content)
    | (progress, content) => ({ worker with progress }, content)

/-- So many accesses in a row. -/
def run (E : Encoding ρ α) : Nat → Worker α → ρ → Worker α × ρ
  | 0, worker, content => (worker, content)
  | n + 1, worker, content =>
    let (worker, content) := worker.step E false content
    run E n worker content

/-- A worker left alone needs at most three accesses for a job. -/
def finish (E : Encoding ρ α) (worker : Worker α) (content : ρ) : Worker α × ρ :=
  worker.run E (3 * worker.jobs.length) content

end Worker

namespace Crew

variable {ρ α : Type} [DecidableEq ρ]

def step (E : Encoding ρ α) (i : Nat) (spurious : Bool) (crew : Crew ρ α) : Crew ρ α :=
  match crew.workers[i]? with
  | none => crew
  | some worker =>
    let (worker, content) := worker.step E spurious crew.content
    ⟨content, crew.workers.set i worker⟩

/-- Lets the workers finish one after another. -/
def finish (E : Encoding ρ α) (crew : Crew ρ α) : Crew ρ α :=
  let (workers, content) := crew.workers.foldl
    (fun (workers, content) worker =>
      let (worker, content) := worker.finish E content
      (worker :: workers, content))
    ([], crew.content)
  ⟨content, workers.reverse⟩

end Crew

end SharedCells
