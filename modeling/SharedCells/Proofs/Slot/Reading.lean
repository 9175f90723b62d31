import SharedCells.Proofs.Registry.Path
import SharedCells.Proofs.Slot.Parts

/-! Reads beside stalled readers.

A read records a debt at a free mark or in a new node, so the stalled debts keep
their marks. Nobody pays the debt before it is settled, and its mark is free again
afterwards. -/

set_option autoImplicit false

namespace SharedCells.Slot.Scene

open Function (update)
open Registry (Claim Debt Settle)

variable {scene : Scene} {level : Level} {goal : World → Thread → Prop} {w : World} {call : Call}
  {c : Config} {code : List Instruction} {purpose : Purpose} {debt : Debt} {addr : Addr}

/-- The debt that a call has recorded is owed, and no stalled debt stands at its mark. -/
structure Owes (scene : Scene) (w : World) (debt : Debt) : Prop where
  owed : w.registry.read debt.place = some (.owed debt.addr)
  apart : ∀ d ∈ scene.stalled.debts, d.place ≠ debt.place

theorem settle_leads (fit : scene.Fit)
    (next : scene.Proceeds level goal (Turn.settled purpose ++ code) c)
    (shows : scene.Shows c w call) (owes : scene.Owes w debt)
    (alone : Alone scene.stalled w
      (scene.thread level { call with code := .settle purpose debt .withdraw :: code })) :
    Leads scene.stalled goal w
      (scene.thread level { call with code := .settle purpose debt .withdraw :: code }) := by
  apply advance fit alone shows.during
  intro wish turn here ran change after
  obtain rfl := Turn.eq_of_goes ran (.settle_owed purpose (Settle.step_withdraw_of_owed owes.owed))
  apply next _ call after
  apply shows.of_registry
  intro d member
  exact Registry.read_write_of_ne (owes.apart d member)

theorem increment_leads (fit : scene.Fit) (empty : c.ids .observed = none)
    (next : scene.Proceeds level goal (Turn.settled purpose ++ code)
      { c with ids := update c.ids .observed c.content })
    (shows : scene.Shows c w call) (owes : scene.Owes w debt)
    (word : call.slot.bind w.word = some debt.addr)
    (alone : Alone scene.stalled w
      (scene.thread level { call with code := .increment purpose debt :: code })) :
    Leads scene.stalled goal w
      (scene.thread level { call with code := .increment purpose debt :: code }) := by
  apply advance fit alone shows.during
  intro wish turn here ran change after
  have names : w.objectId (some debt.addr) = c.content := word ▸ shows.content
  have counts : w.Counts (some debt.addr) := word ▸ here.content call.slot
  obtain ⟨heap, retained⟩ := Heap.retain?_of_pos (counts debt.addr rfl)
  have nothing := ref_eq_none (here.register .observed) ((shows.registers .observed).trans empty)
  have run : turn = { world := { w with heap }, call := { call with
      code := .settle purpose debt .withdraw :: code
      registers := call.registers.set .observed (some debt.addr) } } := by
    rw [Turn.eq_of_goes ran (.increment (Turn.retainInto_of_retain? retained))]
    simp [Turn.before, Turn.assign, Turn.get, nothing, Turn.setRegister]
  subst run
  obtain ⟨object, live, rfl⟩ := Heap.retain?_eq_some_iff.mp retained
  have shows := shows.of_count here change rfl
  have names := (World.objectId_of_change change here.bounded counts).trans names
  exact settle_leads fit next (shows.setRegister .observed _ names) ⟨owes.owed, owes.apart⟩ after

theorem recheck_leads (fit : scene.Fit) (empty : c.ids .observed = none)
    (next : scene.Proceeds level goal (Turn.settled purpose ++ code)
      { c with ids := update c.ids .observed c.content })
    (shows : scene.Shows c w call) (owes : scene.Owes w debt)
    (word : call.slot.bind w.word = some debt.addr)
    (alone : Alone scene.stalled w
      (scene.thread level { call with code := .recheck purpose debt :: code })) :
    Leads scene.stalled goal w
      (scene.thread level { call with code := .recheck purpose debt :: code }) := by
  apply advance fit alone shows.during
  intro wish turn here ran change after
  obtain rfl := Turn.eq_of_givesWay ran (.recheck_same purpose word)
  have leads := increment_leads fit empty next shows owes word after
  exact leads

theorem claim_leads (fit : scene.Fit) (empty : c.ids .observed = none)
    (next : scene.Proceeds level goal (Turn.settled purpose ++ code)
      { c with ids := update c.ids .observed c.content })
    (shows : scene.Shows c w call) (word : call.slot.bind w.word = some addr)
    (alone : Alone scene.stalled w
      (scene.thread level { call with code := .claim purpose addr .start :: code })) :
    Leads scene.stalled goal w
      (scene.thread level { call with code := .claim purpose addr .start :: code }) := by
  have here : scene.Counted w
      ({ call with code := .claim purpose addr .start :: code } : Call).registers := counted alone rfl
  -- Whichever way the claim goes until its debt is recorded, nothing that can be seen changes.
  revert alone
  refine Claim.of_recorded (motive := fun progress =>
    Alone scene.stalled w
      (scene.thread level { call with code := .claim purpose addr progress :: code }) →
    Leads scene.stalled goal w
      (scene.thread level { call with code := .claim purpose addr progress :: code }))
    addr here.chained ?_ ?_
  · intro claim following _ pending step rest alone
    apply advance fit alone shows.during
    intro wish turn here ran change after
    have unrecorded (place : Registry.Place) (grown : Bool) : following ≠ .recorded place grown := by
      rintro rfl
      exact pending
    obtain rfl := Turn.eq_of_goes ran (.claim purpose step unrecorded)
    exact rest after
  · intro claim p grown registry _ step recorded alone
    apply advance fit alone shows.during
    intro wish turn here ran change after
    obtain rfl := Turn.eq_of_goes ran (.recorded purpose step)
    obtain ⟨own, backed⟩ := here.backed
    have shows : scene.Shows c { w with registry } call := by
      apply shows.of_registry
      intro d member
      exact recorded.read_of_mem backed (List.mem_append_right _ member)
    have apart : ∀ d ∈ scene.stalled.debts, d.place ≠ p := by
      intro d member same
      exact (recorded.backed backed).not_mem_places
        (List.mem_map.mpr ⟨d, List.mem_append_right _ member, same⟩)
    have owes : scene.Owes { w with registry } ⟨p, addr⟩ := ⟨recorded.read_self, apart⟩
    have leads := recheck_leads fit empty next shows owes word after
    exact leads

/-- A reader that sees a word gets the object that the slot holds, or nothing if it holds nothing. -/
theorem retain_leads (fit : scene.Fit) (empty : c.ids .observed = none)
    (next : scene.Proceeds level goal (Turn.settled purpose ++ code)
      { c with ids := update c.ids .observed c.content })
    (shows : scene.Shows c w call) {seen : Ref} (word : call.slot.bind w.word = seen)
    (alone : Alone scene.stalled w
      (scene.thread level { call with code := .retain purpose seen :: code })) :
    Leads scene.stalled goal w
      (scene.thread level { call with code := .retain purpose seen :: code }) := by
  apply advance fit alone shows.during
  intro wish turn here ran change after
  cases seen with
  | none =>
    obtain rfl := Turn.eq_of_goes ran (.retain_nothing purpose)
    have names : w.objectId none = c.content := word ▸ shows.content
    have shown := shows.setRegister .observed none names
    exact drops_lead fit next _ after { shown with }
  | some addr =>
    obtain rfl := Turn.eq_of_givesWay ran (.retain purpose addr)
    have leads := claim_leads fit empty next shows word after
    exact leads

theorem load_proceeds (fit : scene.Fit) (empty : c.ids .observed = none)
    (next : scene.Proceeds level goal code { c with ids := update c.ids .observed c.content }) :
    scene.Proceeds level goal (.read .load :: code) c := by
  apply proceed fit
  intro w call wish turn here shows ran change after
  obtain rfl := Turn.eq_of_givesWay ran .read_load
  exact retain_leads fit empty next shows rfl after

end SharedCells.Slot.Scene
