import SharedCells.Proofs.Slot.Payers
import SharedCells.Proofs.Slot.Solitude

/-! The registry between the reads of a lone thread.

A destructor or a closure is never run in the middle of a read. So when it calls the library
again, however deep, the registry is clean: each read settles its own debt before anything else
is run, and payments find nothing to pay. Whatever the thread does, one node is enough. -/

set_option autoImplicit false

namespace SharedCells

namespace Registry

/-- There is no debt. -/
def Clean (r : Registry) : Prop := ∀ p mark, r.read p = some mark → mark = .free

/-- The payment looks for debts, and has found none. -/
def Payment.Fruitless : Payment → Prop
  | .start | .test _ | .finished => True
  | .retain _ | .mark _ | .release _ => False

theorem Payment.fruitless_scan (place : Option Place) : (Payment.scan place).Fruitless := by
  cases place <;> trivial

section Lone

variable {r : Registry}

theorem Idle.clean (idle : r.Idle) : r.Clean := fun _ _ read => idle.read read

theorem length_sole : sole.nodes.length = 1 := rfl

theorem length_soleOwing (addr : Addr) : (soleOwing addr).nodes.length = 1 := length_write

theorem Idle.length_le (idle : r.Idle) : r.nodes.length ≤ 1 := by
  rcases idle with rfl | rfl
  · exact Nat.zero_le _
  · exact Nat.le_of_eq length_sole

theorem Clean.fruitless (clean : r.Clean) {payment : Payment} (fruitless : payment.Fruitless)
    (addr : Addr) : (payment.step addr r).1.Fruitless := by
  cases payment with
  | start => exact Payment.fruitless_scan _
  | test p =>
    have unowed : r.read p ≠ some (.owed addr) := fun owed => by
      have free := clean p _ owed
      contradiction
    rw [Payment.step_test, if_neg unowed]
    exact Payment.fruitless_scan _
  | finished => trivial
  | retain | mark | release => exact fruitless.elim

end Lone

end Registry

namespace Slot

/-- No payment of the call has found a debt. -/
def Call.Fruitless (call : Call) : Prop :=
  ∀ addr payment, .pay addr payment ∈ call.code → payment.Fruitless

namespace Instruction

variable {r : Registry} {i : Instruction}

theorem Meets.length_le (meets : i.Meets r) : r.nodes.length ≤ 1 := by
  by_cases pending : i.Pending
  · cases i with
    | claim purpose addr progress =>
      cases progress with
      | start => exact Registry.Idle.length_le meets
      | test p | take p => exact meets.1 ▸ Nat.le_of_eq Registry.length_sole
      | grow =>
        have fresh : r = Registry.empty := meets
        exact fresh ▸ Nat.zero_le _
      | link next => exact meets.1 ▸ Nat.zero_le _
      | recorded => exact meets.elim
    | recheck purpose debt | increment purpose debt =>
      exact meets.2 ▸ Nat.le_of_eq (Registry.length_soleOwing _)
    | settle purpose debt progress | stale purpose debt seen progress =>
      exact meets.2.1 ▸ Nat.le_of_eq (Registry.length_soleOwing _)
    | _ => exact pending.elim
  · exact (meets.idle pending).length_le

end Instruction

namespace Turn

variable {t t' : Turn} {choice : Choice} {inUse : SlotId → Bool} {i : Instruction}

theorem run_pay_fruitless {addr : Addr} {payment : Registry.Payment} (clean : t.world.registry.Clean)
    (fruitless : payment.Fruitless) (rest : t.call.Fruitless)
    (ran : t.run choice inUse (.pay addr payment) = .ok t') : t'.call.Fruitless := by
  have goesOn {w : World} {next : Registry.Payment} (fruitless : next.Fruitless) :
      (Turn.before { t with world := w } [.pay addr next]).call.Fruitless := by
    intro other p member
    rcases List.mem_cons.mp member with same | old
    · obtain ⟨-, rfl⟩ := Instruction.pay.inj same
      exact fruitless
    · exact rest other p old
  cases goes_of_run ran with
  | gives_way gives =>
    cases gives with
    | pay_finished => exact rest
    | pay_release => exact fruitless.elim
  | pay_start => exact goesOn (clean.fruitless fruitless addr)
  | pay_test => exact goesOn (clean.fruitless fruitless addr)
  | pay_retain | pay_mark => exact fruitless.elim

theorem run_fruitless (clean : (∃ addr payment, i = .pay addr payment) → t.world.registry.Clean)
    (fruitless : ∀ addr payment, i = .pay addr payment → payment.Fruitless) (rest : t.call.Fruitless)
    (ran : t.run choice inUse i = .ok t') : t'.call.Fruitless := by
  by_cases pays : ∃ addr payment, i = .pay addr payment
  · obtain ⟨addr, payment, rfl⟩ := pays
    exact run_pay_fruitless (clean ⟨addr, payment, rfl⟩) (fruitless addr payment rfl) rest ran
  · -- A payment that is new begins when a word is taken out of a slot.
    intro addr payment member
    rcases (run_deals ran).pays addr payment member with old | ⟨p, same⟩ | ⟨rfl, -⟩
    · exact rest addr payment old
    · exact absurd ⟨addr, p, same⟩ pays
    · trivial

end Turn

namespace Thread

variable {w w' : World} {thread thread' : Thread} {choice : Choice} {others : SlotId → Bool} {call : Call}

/-- What the thread carries out next; nothing if its innermost level is between two commands, or its
command is over. -/
def next? (thread : Thread) : Option Instruction :=
  (thread.head?.bind Level.call).bind fun call => call.code.head?

/-- Debts are there only while the innermost call is in the middle of a read. -/
theorem Lone.idle (lone : Lone w thread) (rests : ∀ i ∈ thread.next?, ¬ i.Pending) :
    w.registry.Idle := by
  have meets := lone.meets
  unfold Meets at meets
  unfold next? at rests
  cases top : thread.head?.bind Level.call with
  | none => rwa [top] at meets
  | some call =>
    rw [top] at meets rests
    have meets : call.Meets w.registry := meets
    unfold Call.Meets at meets
    cases head : call.code with
    | nil => rwa [head] at meets
    | cons i code =>
      rw [head] at meets
      refine Instruction.Meets.idle meets (rests i ?_)
      rw [Option.bind_some, head]
      rfl

theorem Lone.length_le (lone : Lone w thread) : w.registry.nodes.length ≤ 1 := by
  have meets := lone.meets
  unfold Meets at meets
  split at meets
  · exact meets.length_le
  · unfold Call.Meets at meets
    split at meets
    · exact Registry.Idle.length_le meets
    · exact meets.length_le

theorem Lone.next?_of_pending (lone : Lone w thread) (member : call ∈ thread.calls) {i : Instruction}
    (inside : i ∈ call.code) (pending : i.Pending) : thread.next? = some i ∧ i.Meets w.registry := by
  cases thread with
  | nil => exact absurd member List.not_mem_nil
  | cons level below =>
    cases busy : level.call with
    | none =>
      rw [calls_cons_of_none busy] at member
      exact absurd pending (lone.settled call member i inside)
    | some first =>
      have tidy := lone.tidy first (by rw [calls_cons_of_some busy]; exact List.mem_cons_self)
      rw [calls_cons_of_some busy] at member
      rcases List.mem_cons.mp member with rfl | lower
      · have meets := (meets_of_some busy).mp lone.meets
        unfold Call.Meets at meets
        cases code : call.code with
        | nil => exact absurd (code ▸ inside) List.not_mem_nil
        | cons head rest =>
          rw [code] at meets inside
          rcases List.mem_cons.mp inside with rfl | later
          · refine ⟨?_, meets⟩
            rw [next?, List.head?_cons, Option.bind_some, busy, Option.bind_some, code]
            rfl
          · exact absurd pending (tidy.pending i (by rw [code]; exact later))
      · exact absurd pending (lone.settled call lower i inside)

/-- A lone thread finds its debts as it has left them. -/
theorem Lone.settles (lone : Lone w thread) (member : call ∈ thread.calls) {debt : Registry.Debt}
    {progress : Registry.Settle}
    (inside : (∃ purpose, .settle purpose debt progress ∈ call.code) ∨
      ∃ purpose seen, .stale purpose debt seen progress ∈ call.code) :
    (progress.step debt w.registry).1 = .settled true := by
  obtain ⟨place, owes, rfl⟩ : debt.place = Registry.origin ∧
      w.registry = Registry.soleOwing debt.addr ∧ progress = .withdraw := by
    rcases inside with ⟨purpose, inside⟩ | ⟨purpose, seen, inside⟩
    · exact (lone.next?_of_pending member inside trivial).2
    · exact (lone.next?_of_pending member inside trivial).2
  rw [Turn.settle_step place owes]

theorem Lone.step_fruitless (lone : Lone w thread) (stacked : thread.Stacked)
    (fruitless : ∀ call ∈ thread.calls, call.Fruitless)
    (ran : thread.step choice others w = .ok (w', thread')) : ∀ call ∈ thread'.calls, call.Fruitless := by
  refine (step_cases stacked ran).forall_calls_of_top fruitless
    (fun call i code turn top before head ran => ?_) (fun call _ addr payment member => ?_)
    (fun command addr payment member => ?_) (fun call call' alike before addr payment member => ?_)
  · -- The innermost call acts. If it pays, it is not in the middle of a read.
    have next : thread.next? = some i := by
      rw [next?, top, Option.bind_some, head, List.head?_cons]
    have clean : (∃ addr payment, i = .pay addr payment) → w.registry.Clean := by
      rintro ⟨addr, payment, rfl⟩
      exact (lone.idle fun j there => Option.some.inj (next.symm.trans there) ▸ id).clean
    rw [Call.Fruitless, head] at before
    exact Turn.run_fruitless clean
      (fun addr payment same => before addr payment (same ▸ List.mem_cons_self))
      (fun addr payment member => before addr payment (List.mem_cons_of_mem _ member)) ran
  · obtain ⟨register, -, same⟩ := List.mem_map.mp member
    contradiction
  · exact absurd member (command.start_pays w _)
  · exact before addr payment (alike.code ▸ member)

end Thread

namespace Machine

variable {m : Machine} {w : World} {thread : Thread} {choices : List Choice}

theorem run_fruitless (sound : Machine.Sound ⟨w, [thread]⟩) (lone : thread.Lone w)
    (fruitless : ∀ call ∈ thread.calls, call.Fruitless)
    (ran : run (solo choices) ⟨w, [thread]⟩ = .ok m) :
    ∃ thread', m.threads = [thread'] ∧ thread'.Lone m.world ∧ ∀ call ∈ thread'.calls, call.Fruitless := by
  induction choices generalizing w thread with
  | nil =>
    obtain rfl := Except.ok.inj ran
    exact ⟨thread, rfl, lone, fruitless⟩
  | cons choice rest ih =>
    obtain ⟨next, stepped⟩ := step_ok sound 0 choice
    obtain ⟨w', thread', moved, rfl⟩ := step_only stepped
    have stacked := sound.stacked thread List.mem_cons_self
    exact ih (step_sound sound stepped) (lone.step stacked moved)
      (lone.step_fruitless stacked fruitless moved) (run_cons stepped ▸ ran)

end Machine

open Machine

/-- While a single thread runs, whatever its destructors and closures call, there is no debt unless its
innermost call is in the middle of a read; so there is none between two commands of a program, of a
destructor or of a closure. Each settlement finds its debt as it was recorded, payments never come to
retain anything, and there is one node at most. -/
theorem registry_clean_between_reads {program : List Command}
    (solitary : ∀ command ∈ program, command.Solitary) (choices : List Choice) :
    ∃ m thread, (ofPrograms [program]).run (solo choices) = .ok m ∧ m.threads = [thread] ∧
      ((∀ i ∈ thread.next?, ¬ i.Pending) → m.world.registry.Clean) ∧
      (∀ call ∈ Thread.calls thread.tail, ∀ i ∈ call.code, ¬ i.Pending) ∧
      (∀ call ∈ thread.calls, ∀ debt progress,
        ((∃ purpose, .settle purpose debt progress ∈ call.code) ∨
            ∃ purpose seen, .stale purpose debt seen progress ∈ call.code) →
          (progress.step debt m.world.registry).1 = .settled true) ∧
      (∀ call ∈ thread.calls, ∀ addr payment, .pay addr payment ∈ call.code → payment.Fruitless) ∧
      m.world.registry.nodes.length ≤ 1 := by
  have sound := ofPrograms_sound [program]
  obtain ⟨m, ran, -⟩ := run_sound sound (solo choices)
  obtain ⟨thread, only, lone, fruitless⟩ := run_fruitless sound (Thread.lone_ofCommands solitary)
    (fun call member => absurd member List.not_mem_nil) ran
  exact ⟨m, thread, ran, only, fun rests => (lone.idle rests).clean, lone.settled,
    fun call member debt progress => lone.settles member, fruitless, lone.length_le⟩

/-- The closure of an update clears another slot, and the destruction of what was there loads from the
first one. -/
def reentering : List Command :=
  [.mk (.create "s" (.fresh []) true) none,
    .mk (.create "t" (.fresh [.mk (.load "s" none) none]) true) none,
    .mk (.update "s" [.same] [some [.mk (.clear "t") none]] none) none]

/-- The destruction is about to load. -/
theorem registry_clean_between_reads_reentering :
    (∀ command ∈ reentering, command.Solitary) ∧
      ∃ m thread, (ofPrograms [reentering]).run (solo (.replicate 39 {})) = .ok m ∧
        m.threads = [thread] ∧ thread.length = 3 ∧ thread.next? = none ∧
        m.world.registry.Clean ∧ m.world.registry.nodes.length ≤ 1 := by
  have solitary : ∀ command ∈ reentering, command.Solitary := by
    have loads : (Command.mk (.load "s" none) none).Solitary := .mk nofun
    have clears : (Command.mk (.clear "t") none).Solitary := .mk nofun
    exact List.forall_mem_cons.mpr ⟨.mk nofun, List.forall_mem_cons.mpr
      ⟨.mk (List.forall_mem_singleton.mpr loads),
        List.forall_mem_singleton.mpr (.mk (List.forall_mem_singleton.mpr clears))⟩⟩
  obtain ⟨m, thread, ran, only, clean, -, -, -, nodes⟩ :=
    registry_clean_between_reads solitary (.replicate 39 {})
  have there : ((ofPrograms [reentering]).run (solo (.replicate 39 {}))).toOption.any (fun m =>
      m.threads.all fun thread => thread.length = 3 && thread.next?.isNone) = true := by
    decide +kernel
  rw [ran, Except.toOption, Option.any_some, only, List.all_cons, List.all_nil, Bool.and_true,
    Bool.and_eq_true, decide_eq_true_iff, Option.isNone_iff_eq_none] at there
  refine ⟨solitary, m, thread, ran, only, there.1, there.2, clean fun i next => ?_, nodes⟩
  rw [there.2] at next
  contradiction

end Slot

end SharedCells
