import Mathlib.Logic.Function.Basic
import SharedCells.Proofs.Slot.Scene

/-! The parts of commands that need no debts.

Each part turns what the world shows into what it shows next, as the variables
that the slots stand for have it. References that are dropped on the way are out
of sight. -/

set_option autoImplicit false

namespace SharedCells.Slot

open Function (update)

/-- A new object has no commands. -/
def Value.Calm : Value → Prop
  | .fresh onDrop => onDrop = []
  | _ => True

/-- What is noted. -/
def Config.noted (c : Config) : Note → Outcome
  | .object register => .object (c.ids register)
  | .compared => .compared c.exchanged (c.ids .expected)
  | .updated => .updated (c.ids .kept) c.seen.reverse
  | .described spread => .text (Turn.describeSlot spread (c.ids .observed))
  | .misordered bad => .misordered bad

/-- The call owns nothing any more and has come to this answer. -/
structure Config.Gives (c : Config) (answer : Answer) (before : List Nat) : Prop where
  expected : c.ids .expected = none
  desired : c.ids .desired = none
  observed : c.ids .observed = none
  kept : c.ids .kept = none
  cells : c.cells = answer.cells
  displaced : ∀ object, object ∈ c.displaced ↔ object ∈ answer.displaced ++ before
  outcome : c.outcome = answer.outcome
  blocks : c.blocks.reverse = answer.blocks

namespace Scene

variable {scene : Scene} {level : Level} {goal : World → Thread → Prop} {w w' : World}
  {call call' : Call} {c c' : Config} {i : Instruction} {code : List Instruction}
  {register source target : Register} {ref : Ref} {object : Option Nat}

theorem Shows.setRegister (shows : scene.Shows c w call) (register : Register) (ref : Ref)
    (names : w.objectId ref = object) :
    scene.Shows { c with ids := update c.ids register object } w
      { call with registers := call.registers.set register ref } :=
  { shows with
    registers := by
      intro other
      dsimp only
      rw [Registers.get_set, Function.update_apply]
      split
      · exact names
      · exact shows.registers other }

theorem Shows.setHandle (shows : scene.Shows c w call) (handle : String) (ref : Ref)
    (names : w.objectId ref = object) :
    scene.Shows { c with cells := c.cells.keep handle object }
      { w with handles := w.handles.assign handle ref } call :=
  { shows with
    mirrors := { shows.mirrors with
      handles := by
        intro other
        rw [Cells.keep, Table.get?_assign, Table.get?_assign]
        split
        · exact names.symm
        · exact shows.mirrors.handles other
      handleNames := Table.nodup_assign _ _ shows.mirrors.handleNames _ } }

theorem release_proceeds (fit : scene.Fit)
    (next : scene.Proceeds level goal code { c with ids := update c.ids register none }) :
    scene.Proceeds level goal (.release register :: code) c := by
  apply proceed fit
  intro w call wish turn here shows ran change after
  obtain rfl := Turn.eq_of_goes ran (.release register)
  exact drops_lead fit next _ after { shows.setRegister register none rfl with }

theorem move_proceeds (fit : scene.Fit) (next : scene.Proceeds level goal code
      { c with ids := update (update c.ids source none) target (c.ids source) }) :
    scene.Proceeds level goal (.move source target :: code) c := by
  apply proceed fit
  intro w call wish turn here shows ran change after
  obtain rfl := Turn.eq_of_goes ran (.move source target)
  have cleared := shows.setRegister source none rfl
  exact drops_lead fit next _ after { cleared.setRegister target _ (shows.registers source) with }

/-- A reference is counted and given to a register. -/
theorem retainInto_leads (fit : scene.Fit)
    (next : scene.Proceeds level goal code { c with ids := update c.ids register object })
    {turn : Turn} (here : scene.Counted w call.registers) (shows : scene.Shows c w call)
    (ran : Turn.retainInto { world := w, call := { call with code } } register ref = .ok turn)
    (names : w.objectId ref = object) (counts : w.Counts ref)
    (change : w.heap.Change turn.world.heap)
    (after : Alone scene.stalled turn.world (turn.above.toList ++ scene.thread level turn.call)) :
    Leads scene.stalled goal turn.world (turn.above.toList ++ scene.thread level turn.call) := by
  rcases Turn.retainInto_cases ran with ⟨rfl, rfl⟩ | ⟨addr, heap, rfl, retained, rfl⟩
  · exact drops_lead fit next _ after { shows.setRegister register none names with }
  · obtain ⟨held, live, rfl⟩ := Heap.retain?_eq_some_iff.mp retained
    have shows := shows.of_count here change rfl
    have names := (World.objectId_of_change change here.bounded counts).trans names
    exact drops_lead fit next _ after { shows.setRegister register (some addr) names with }

theorem copy_proceeds (fit : scene.Fit) (next : scene.Proceeds level goal code
      { c with ids := update c.ids target (c.ids source) }) :
    scene.Proceeds level goal (.copy source target :: code) c := by
  apply proceed fit
  intro w call wish turn here shows ran change after
  exact retainInto_leads fit next here shows ran (shows.registers source) (here.register source)
    change after

theorem evaluate_proceeds (fit : scene.Fit) {v : Value} (calm : v.Calm)
    (next : scene.Proceeds level goal code { c with
      cells := (c.cells.evaluate v).1, ids := update c.ids register (c.cells.evaluate v).2 }) :
    scene.Proceeds level goal (.evaluate v register :: code) c := by
  apply proceed fit
  intro w call wish turn here shows ran change after
  cases Turn.goes_of_run ran with
  | gives_way gives => cases gives
  | nothing => exact drops_lead fit next _ after { shows.setRegister register none rfl with }
  | @handle_copy handle _ _ ran =>
    exact retainInto_leads fit next here shows ran (shows.mirrors.handles handle).symm
      (here.handle handle) change after
  | handle_take handle =>
    have names := (shows.mirrors.handles handle).symm
    have erased := shows.setHandle handle none rfl
    exact drops_lead fit next _ after { erased.setRegister register _ names with }
  | fresh onDrop =>
    obtain rfl : onDrop = [] := calm
    -- The new object has the same number for the variables, as objects are counted alike.
    have created : c.cells.created = w.heap.created := shows.mirrors.created
    dsimp only [Cells.evaluate] at next
    rw [created] at next
    let now : World := { w with heap := (w.heap.create wish []).2 }
    have shows : scene.Shows { c with cells.created := w.heap.created + 1 } now call :=
      shows.of_change here now change (shows.mirrors.bare.create wish) rfl rfl rfl (fun _ _ => rfl) rfl
    have names : now.objectId (some (w.heap.create wish []).1) = some (w.heap.created + 1) := by
      rw [World.objectId, Option.bind_some, Heap.find?_create, if_pos rfl]
      rfl
    exact drops_lead fit next _ after { shows.setRegister register _ names with }

theorem note_proceeds (fit : scene.Fit) {n : Note}
    (next : scene.Proceeds level goal code { c with outcome := c.noted n }) :
    scene.Proceeds level goal (.note n :: code) c := by
  apply proceed fit
  intro w call wish turn here shows ran change after
  obtain rfl := Turn.eq_of_goes ran (.note n)
  refine next w { call with outcome := _ } after { shows with outcome := ?_ }
  cases n with
  | object register => exact congrArg Outcome.object (shows.registers register)
  | compared => exact congrArg₂ Outcome.compared shows.exchanged (shows.registers .expected)
  | updated =>
    exact congrArg₂ Outcome.updated (shows.registers .kept) (congrArg List.reverse shows.seen)
  | described spread =>
    exact congrArg (fun id => Outcome.text (Turn.describeSlot spread id)) (shows.registers .observed)
  | misordered bad => rfl

theorem putHandle_proceeds (fit : scene.Fit) {handle : String} (next : scene.Proceeds level goal code
      { c with
        cells := c.cells.keep handle (c.ids source), ids := update c.ids source none }) :
    scene.Proceeds level goal (.putHandle handle source :: code) c := by
  apply proceed fit
  intro w call wish turn here shows ran change after
  obtain rfl := Turn.eq_of_goes ran (.putHandle handle source)
  have put := shows.setHandle handle _ (shows.registers source)
  exact drops_lead fit next _ after { put.setRegister source none rfl with }

theorem deliver_proceeds (fit : scene.Fit) {into : Option String}
    (next : scene.Proceeds level goal [] { c with
      cells := c.cells.deliver into (c.ids source), ids := update c.ids source none }) :
    scene.Proceeds level goal (deliver into source) c := by
  cases into with
  | none => exact release_proceeds fit next
  | some handle => exact putHandle_proceeds fit next

theorem require_proceeds (fit : scene.Fit)
    (next : (c.ids .desired).isSome → scene.Proceeds level goal code c)
    (stop : c.ids .desired = none →
      scene.Proceeds level goal [] { c with outcome := .noValue }) :
    scene.Proceeds level goal (.require :: code) c := by
  apply proceed fit
  intro w call wish turn here shows ran change after
  have names := shows.registers .desired
  have empty := isNone_objectId (here.register .desired)
  rw [names] at empty
  cases Turn.goes_of_run ran with
  | gives_way gives =>
    cases gives with
    | required there =>
      have there := empty.trans (Option.isNone_eq_false_iff.mpr there)
      exact next (Option.isNone_eq_false_iff.mp there) w call after shows
  | refused gone =>
    have gone := empty.trans (Option.isNone_iff_eq_none.mpr gone)
    exact stop (Option.isNone_iff_eq_none.mp gone) w { call with outcome := .noValue } after
      { shows with outcome := rfl }

theorem inspect_proceeds (fit : scene.Fit)
    (next : scene.Proceeds level goal code { c with outcome := .emptiness c.content.isNone }) :
    scene.Proceeds level goal (.inspect :: code) c := by
  apply proceed fit
  intro w call wish turn here shows ran change after
  obtain rfl := Turn.eq_of_goes ran (.inspect)
  refine next w { call with outcome := _ } after { shows with outcome := ?_ }
  rw [← shows.content, isNone_objectId (here.content call.slot)]
  rfl

/-- To keep what it sees, a look counts a reference. -/
theorem peek_proceeds (fit : scene.Fit) {keep : Bool} (empty : c.ids .observed = none)
    (next : scene.Proceeds level goal code { c with
      outcome := .object c.content
      ids := if keep then update c.ids .observed c.content else c.ids }) :
    scene.Proceeds level goal (.peek keep :: code) c := by
  apply proceed fit
  intro w call wish turn here shows ran change after
  have names := shows.content
  have counts := here.content call.slot
  -- What is alive at the address of the slot is the variable's object.
  have viewed {addr : Addr} {object : Object (List Command)} (word : call.slot.bind w.word = some addr)
      (live : w.heap.live? addr = some object) : scene.Shows { c with outcome := .object c.content } w
        { call with outcome := .viewed object.id object.count } := by
    rw [word, World.objectId, Option.bind_some, (Heap.live?_eq_some_iff.mp live).1] at names
    exact { shows with outcome := by rw [← names]; rfl }
  cases Turn.goes_of_run ran with
  | gives_way gives => cases gives
  | peek_empty _ word =>
    have word : call.slot.bind w.word = none := word
    have same : update c.ids .observed none = c.ids := by rw [← empty, Function.update_eq_self]
    rw [word] at names
    rw [← names, show w.objectId none = none from rfl, same, ite_self] at next
    exact next w { call with outcome := .object none } after { shows with outcome := rfl }
  | @peek _ object word live =>
    exact next w { call with outcome := .viewed object.id object.count } after (viewed word live)
  | @peek_kept addr object _ word live retained =>
    let viewing : Call := { call with outcome := .viewed object.id object.count }
    have here : scene.Counted w viewing.registers := here
    have shown : scene.Shows _ w viewing := viewed word live
    have retained : Turn.retainInto { world := w, call := { viewing with code } } .observed
      (some addr) = .ok turn := retained
    rw [show call.slot.bind w.word = some addr from word] at names counts
    exact retainInto_leads fit next here shown retained names counts change after

/-- A call that is done and owns nothing is recorded. -/
theorem finish_proceeds {answer : Answer} {before : List Nat}
    (ends : scene.Ends level goal answer before) (gives : c.Gives answer before) :
    scene.Proceeds level goal [] c := by
  intro w call alone shows
  have here : scene.Counted w ({ call with code := [] } : Call).registers := counted alone rfl
  have nothing (register : Register) : call.registers.get register = none := by
    apply ref_eq_none (here.register register)
    rw [shows.registers]
    cases register with
    | expected => exact gives.expected
    | desired => exact gives.desired
    | observed => exact gives.observed
    | kept => exact gives.kept
  have owned : call.registers.owned = [] := by simp [Registers.owned, nothing]
  apply Leads.step
  intro wish w' thread' ran after change
  unfold Thread.step at ran
  dsimp only [Scene.thread] at ran
  rw [owned] at ran
  obtain ⟨rfl, rfl⟩ := Prod.mk.inj (Except.ok.inj ran)
  refine ends w _ ?_ ((gives.cells ▸ shows.mirrors).of_mem_iff gives.displaced) after
  rw [Record.report, shows.outcome, gives.outcome, Event.blocks_reverse, shows.blocks, gives.blocks]

end Scene

end SharedCells.Slot
