import SharedCells.Proofs.Slot.Naming

/-! Operations that run no blocks, beside stalled readers.

The code of an operation does to the slots what the operation does to variables. -/

set_option autoImplicit false

namespace SharedCells.Slot

open Function (update)

/-- What is left after the desired object was exchanged for the expected one, if the slot held that. -/
def Config.tried (c : Config) (slot : String) : Config :=
  let tried := c.cells.exchange slot (c.ids .expected) (c.ids .desired)
  { c with
    cells := tried.1
    exchanged := tried.2
    displaced := (if tried.2 then (c.cells.content slot).toList else []) ++ c.displaced
    ids := update (update c.ids .desired none) .expected (c.cells.content slot) }

theorem Config.tried_of_eq {c : Config} {slot : String} (same : c.cells.content slot = c.ids .expected) :
    c.tried slot = { c with
      cells := c.cells.put slot (c.ids .desired)
      exchanged := true
      displaced := (c.cells.content slot).toList ++ c.displaced
      ids := update (update c.ids .desired none) .expected (c.cells.content slot) } := by
  simp only [tried, Cells.exchange, if_pos same, if_true]

theorem Config.tried_of_ne {c : Config} {slot : String} (differ : c.cells.content slot ≠ c.ids .expected) :
    c.tried slot = { c with
      exchanged := false
      ids := update (update c.ids .desired none) .expected (c.cells.content slot) } := by
  simp only [tried, Cells.exchange, if_neg differ, Bool.false_eq_true, if_false, List.nil_append]

def Offer.value? : Offer → Option Value
  | .same => none
  | .value v => some v

/-- The values that an operation evaluates. -/
def Operation.values : Operation → List Value
  | .set _ v | .create _ v _ | .store _ v | .exchange _ v _ | .compareExchange _ _ _ v _ _ => [v]
  | .compareAndExchange _ _ expected desired _ _ _ => [expected, desired]
  | .update _ offers _ _ => offers.filterMap Offer.value?
  | _ => []

namespace Scene

variable {scene : Scene} {level : Level} {goal : World → Thread → Prop} {w : World} {call : Call}
  {c : Config} {code : List Instruction} {p : Cells} {before : List Nat} {name : String}
  {slot : SlotId}

/-- What is left after everything was dropped that is not in use. -/
def swept (scene : Scene) (p : Cells) : Cells :=
  { p with slots := p.slots.filter fun entry => scene.busyNames.contains entry.1, handles := [] }

theorem swept_remove (free : name ∉ scene.busyNames) :
    scene.swept (p.remove name) = scene.swept p := by
  unfold swept Cells.remove Table.erase
  dsimp only
  rw [List.filter_filter]
  congr 1
  apply List.filter_congr
  intro entry _
  by_cases same : entry.1 = name
  · simp [same, free]
  · simp [same]

/-- What a slot not in use held is displaced once the slot is dropped. -/
theorem exists_content_remove (free : name ∉ scene.busyNames) {object : Nat} :
    (p.content name = some object ∨
        ∃ other, other ∉ scene.busyNames ∧ (p.remove name).content other = some object) ↔
      ∃ other, other ∉ scene.busyNames ∧ p.content other = some object := by
  have removed (other : String) :
      (p.remove name).content other = if other = name then none else p.content other := by
    rw [Cells.content, Cells.remove, Table.get?_erase]
    split
    · rfl
    · rfl
  simp only [removed]
  constructor
  · rintro (held | ⟨other, unused, held⟩)
    · exact ⟨name, free, held⟩
    · split at held
      · contradiction
      · exact ⟨other, unused, held⟩
  · rintro ⟨other, unused, held⟩
    by_cases same : other = name
    · exact .inl (same ▸ held)
    · exact .inr ⟨other, unused, by rw [if_neg same, held]⟩

theorem Shows.discard (shows : scene.Shows c w call) (counted : scene.Counted w call.registers)
    (unnamed : c.named = none) (free : name ∉ scene.busyNames) (bound : w.slots.get? name = some slot) :
    scene.Shows
      { c with cells := c.cells.remove name, target := .loose (c.cells.content name) }
      { w with slots := w.slots.erase name } { call with slot := some slot } :=
  { shows with
    mirrors := shows.mirrors.remove free
    named := by
      have named := shows.named
      rw [unnamed] at named ⊢
      exact named
    target := shows.mirrors.loose bound (counted.slots _ (Table.mem_of_get? _ _ _ bound)) }

/-- While the call has named no slot, the slots in use are those of the calls below. -/
theorem Shows.uses_of_unnamed (shows : scene.Shows c w call) (fit : scene.Fit) (unnamed : c.named = none)
    (bound : w.slots.get? name = some slot) :
    Thread.uses (scene.thread level call) slot = true ↔ name ∈ scene.busyNames := by
  rw [shows.uses_iff fit bound, unnamed]
  exact or_iff_right (Option.some_ne_none name).symm

theorem Shows.swept (shows : scene.Shows c w call) (held : w.handles = [])
    (busy : ∀ name slot, w.slots.get? name = some slot → name ∈ scene.busyNames) :
    scene.swept c.cells = c.cells ∧ ∀ name, name ∉ scene.busyNames → c.cells.content name = none := by
  have used (name : String) (content : Option Nat) (there : c.cells.slots.get? name = some content) :
      name ∈ scene.busyNames := by
    rw [shows.mirrors.slots, Option.map_eq_some_iff] at there
    obtain ⟨slot, bound, -⟩ := there
    exact busy name slot bound
  have slots : (c.cells.slots.filter fun entry => scene.busyNames.contains entry.1) = c.cells.slots := by
    rw [List.filter_eq_self]
    intro entry inside
    rw [List.contains_iff_mem]
    exact used _ _ (Table.get?_of_mem _ _ _ shows.mirrors.slotNames inside)
  have handles : c.cells.handles = [] := by
    rw [List.eq_nil_iff_forall_not_mem]
    intro entry inside
    have there := Table.get?_of_mem _ _ _ shows.mirrors.handleNames inside
    rw [shows.mirrors.handles, held] at there
    contradiction
  constructor
  · rw [Scene.swept, slots, ← handles]
  · intro name unused
    cases there : c.cells.slots.get? name with
    | none => rw [Cells.content, there, Option.join_none]
    | some content => exact absurd (used name content there) unused

theorem discard_proceeds (fit : scene.Fit) (empty : c.ids = fun _ => none)
    (next : scene.Proceeds level goal code { c with
      cells := c.cells.remove name
      target := .loose none
      displaced := (c.cells.content name).toList ++ c.displaced }) :
    scene.Proceeds level goal (.swap :: .release .observed :: code)
      { c with cells := c.cells.remove name, target := .loose (c.cells.content name) } := by
  have ids : update (update (update c.ids .desired none) .observed (c.cells.content name))
      .observed none = c.ids := by
    rw [empty]
    funext register
    cases register <;> simp [update]
  have desired : c.ids .desired = none := congrFun empty .desired
  refine swap_proceeds fit (congrFun empty .observed) (fun nothing => nomatch nothing) ?_
  apply release_proceeds fit
  rw [← ids] at next
  nth_rewrite 1 [← desired] at next
  exact next

/-- The slots not in use are dropped, and then the handles; what the slots held is paid for. -/
theorem sweep_proceeds (fit : scene.Fit) (empty : c.ids = fun _ => none) (unnamed : c.named = none)
    (next : ∀ target displaced,
      (∀ object, object ∈ displaced ↔ object ∈ c.displaced ∨
        ∃ name, name ∉ scene.busyNames ∧ c.cells.content name = some object) →
      scene.Proceeds level goal code { c with cells := scene.swept c.cells, target, displaced }) :
    scene.Proceeds level goal (.dropNext :: code) c := by
  -- Every round takes away a slot or a handle.
  induction size : c.cells.slots.length + c.cells.handles.length using Nat.strong_induction_on
    generalizing c with
  | _ n ih =>
    apply proceed fit
    intro w call wish turn here shows ran change after
    have shown : scene.Shows c w { call with code := .dropNext :: code } := { shows with }
    cases Turn.goes_of_run ran with
    | @unbind name slot found =>
      have bound := Table.get?_of_mem _ _ _ here.slotNames (List.mem_of_find?_eq_some found)
      have free : name ∉ scene.busyNames := by
        rw [← shown.uses_of_unnamed fit unnamed bound]
        simpa using List.find?_some found
      have shorter := Table.length_erase_lt c.cells.slots name <| by
        rw [shows.mirrors.slots, bound]
        exact Option.some_ne_none _
      have dropped := shows.discard here unnamed free bound
      refine discard_proceeds fit empty ?_ _ { call with slot := some slot } after dropped
      refine ih _ ?_ empty unnamed (fun target displaced same => ?_) rfl
      · rw [← size]
        exact Nat.add_lt_add_right shorter _
      · rw [show scene.swept (c.cells.remove name) = _ from swept_remove free]
        apply next target displaced
        intro object
        rw [same, List.mem_append, Option.mem_toList, or_assoc, or_left_comm]
        exact or_congr_right (exists_content_remove free)
    | @dropHandle name addr handles found held =>
      have first : w.handles.get? name = some addr := by
        rw [held, Table.get?_cons, if_pos rfl]
      have shorter := Table.length_erase_lt c.cells.handles name <| by
        rw [shows.mirrors.handles, first]
        intro nothing
        exact Option.some_ne_none addr (ref_eq_none (first ▸ here.handle name) nothing)
      have rest : scene.Proceeds level goal (.dropNext :: code)
          { c with cells := c.cells.keep name none } := by
        refine ih _ ?_ empty unnamed (fun target displaced same => next target displaced same) rfl
        rw [← size]
        exact Nat.add_lt_add_left shorter _
      have erased : w.handles.assign name none = handles := by
        rw [held]
        exact Table.erase_cons handles (name, addr) (held ▸ here.handleNames)
      have shown := shows.setHandle name none rfl
      rw [erased] at shown
      have leads := drop_leads fit shown
        (fun heap events shows after => rest _ { call with events } after shows) after
      exact leads
    | gives_way gives =>
      cases gives with
      | swept found held =>
        obtain ⟨done, empty⟩ := shown.swept held fun name slot bound => by
          rw [← shown.uses_of_unnamed fit unnamed bound]
          simpa using List.find?_eq_none.mp found _ (Table.mem_of_get? _ _ _ bound)
        rw [done] at next
        refine next c.target c.displaced (fun object => ?_) w call after shows
        refine (or_iff_left ?_).symm
        rintro ⟨name, unused, holds⟩
        rw [empty name unused] at holds
        contradiction

theorem replace_proceeds (fit : scene.Fit) (empty : c.ids .observed = none)
    (free : name ∉ scene.busyNames) (other : c.named ≠ some name)
    (next : ∀ target, scene.Proceeds level goal code { c with
      cells := c.cells.put name (c.ids .desired)
      displaced := (c.cells.content name).toList ++ c.displaced
      target
      ids := update (update c.ids .desired none) .observed none }) :
    scene.Proceeds level goal (.createSlot name :: .swap :: .release .observed :: code) c := by
  have emptied : (c.createSlot name).ids .observed = none := empty
  apply createSlot_proceeds fit free other
  apply swap_proceeds fit emptied (fun _ => rfl)
  apply release_proceeds fit
  cases held : c.cells.slots.get? name with
  | none =>
    have content : c.cells.content name = none := by rw [Cells.content, held]; rfl
    have ids : update (update c.ids .desired none) .observed none = update c.ids .desired none := by
      funext register
      cases register <;> simp [update, empty]
    have nothing : (c.createSlot name).target = .nothing := by simp only [Config.createSlot, held]
    have next := next .nothing
    rw [content, ids] at next
    rw [Config.swap_of_nothing nothing rfl emptied, Config.createSlot, held]
    dsimp only
    rw [ids]
    exact next
  | some object =>
    have content : c.cells.content name = object := by rw [Cells.content, held]; rfl
    have ids : update (update (update (update c.ids .desired none) .desired none) .observed object)
        .observed none = update (update c.ids .desired none) .observed none := by
      funext register
      cases register <;> simp [update]
    have next := next (.loose none)
    rw [content, ← ids] at next
    unfold Config.createSlot
    rw [held]
    exact next

theorem exchange_proceeds (fit : scene.Fit) (strength : Strength) (bound : c.target = .bound name)
    (empty : c.ids .observed = none) (untried : c.exchanged = false)
    (next : scene.Proceeds level goal code (c.tried name)) :
    scene.Proceeds level goal (.read (purposeOf strength) :: code) c := by
  have content : c.content = c.cells.content name := by
    unfold Config.content
    rw [bound]
  have win (same : c.content = c.ids .expected) : scene.Proceeds level goal code c.won := by
    have ids : update (update (update c.ids .desired none) .observed c.content) .observed none =
        update (update c.ids .desired none) .expected c.content := by
      funext register
      cases register <;> simp [update, empty, same]
    rw [content] at same ids
    rw [Config.tried_of_eq same] at next
    simpa only [Config.won, Config.swap, Config.write, Config.content, bound, ids] using next
  have lose (differ : c.content ≠ c.ids .expected) : scene.Proceeds level goal code c.lost := by
    rw [content] at differ
    rw [Config.tried_of_ne differ, ← untried] at next
    simpa only [Config.lost, content] using next
  have slot : c.target ≠ .nothing := bound ▸ Target.bound_ne
  cases strength with
  | strong => exact strong_proceeds fit empty slot win lose
  | weak => exact weak_proceeds fit empty slot win lose

theorem exchangeCode_proceeds (fit : scene.Fit) {strength : Strength} {success : Order}
    {failure : Option LoadOrder} {accepted refused : List Instruction}
    (bound : c.target = .bound name) (empty : c.ids .observed = none) (untried : c.exchanged = false)
    (accept : ∀ order, Order.failureOrder success failure = .ok order →
      scene.Proceeds level goal accepted (c.tried name))
    (refuse : ∀ bad, Order.failureOrder success failure = .error bad →
      scene.Proceeds level goal refused
        { c with outcome := .misordered bad, ids := update c.ids .desired none }) :
    scene.Proceeds level goal (exchangeCode strength success failure accepted refused) c := by
  unfold exchangeCode
  cases admitted : Order.failureOrder success failure with
  | ok order => exact exchange_proceeds fit strength bound empty untried (accept order admitted)
  | error bad => exact note_proceeds fit (release_proceeds fit (refuse bad admitted))

section Operations

theorem compareExchange_proceeds (fit : scene.Fit) {strength : Strength} {slot handle : String}
    {desired : Value} {success : Order} {failure : Option LoadOrder} (calm : desired.Calm)
    (ends : scene.Ends level goal
      (p.carryOut scene.busyNames (.compareExchange strength slot handle desired success failure)) before) :
    scene.Proceeds level goal
      (Operation.compareExchange strength slot handle desired success failure).code
      ((Operation.compareExchange strength slot handle desired success failure).begin p before) := by
  have content := (p.evaluate (.take handle)).1.content_evaluate desired slot
  rw [p.content_evaluate] at content
  dsimp only [Cells.carryOut] at ends
  apply evaluate_proceeds (v := .take handle) fit trivial
  apply evaluate_proceeds fit calm
  apply exchangeCode_proceeds fit rfl rfl rfl
  · intro order admitted
    rw [admitted, ← content] at ends
    apply note_proceeds fit
    apply putHandle_proceeds fit
    exact finish_proceeds ends (by constructor <;> intros <;> rfl)
  · intro bad inadmissible
    rw [inadmissible] at ends
    apply putHandle_proceeds fit
    exact finish_proceeds ends (by constructor <;> intros <;> rfl)

theorem compareAndExchange_proceeds (fit : scene.Fit) {strength : Strength} {slot : String}
    {expected desired : Value} {success : Order} {failure : Option LoadOrder} {into : Option String}
    (calm : expected.Calm) (calm' : desired.Calm)
    (ends : scene.Ends level goal (p.carryOut scene.busyNames
      (.compareAndExchange strength slot expected desired success failure into)) before) :
    scene.Proceeds level goal
      (Operation.compareAndExchange strength slot expected desired success failure into).code
      ((Operation.compareAndExchange strength slot expected desired success failure into).begin p
        before) := by
  have content := (p.evaluate expected).1.content_evaluate desired slot
  rw [p.content_evaluate] at content
  dsimp only [Cells.carryOut] at ends
  apply evaluate_proceeds fit calm
  apply evaluate_proceeds fit calm'
  apply exchangeCode_proceeds fit rfl rfl rfl
  · intro order admitted
    rw [admitted, ← content] at ends
    apply note_proceeds fit
    apply deliver_proceeds fit
    exact finish_proceeds ends (by constructor <;> intros <;> rfl)
  · intro bad inadmissible
    rw [inadmissible] at ends
    apply release_proceeds fit
    exact finish_proceeds ends (by constructor <;> intros <;> rfl)

theorem create_proceeds (fit : scene.Fit) {slot : String} {v : Value} {required : Bool} (calm : v.Calm)
    (free : slot ∉ scene.busyNames)
    (ends : scene.Ends level goal (p.carryOut scene.busyNames (.create slot v required)) before) :
    scene.Proceeds level goal (Operation.create slot v required).code
      ((Operation.create slot v required).begin p before) := by
  have content := p.content_evaluate v slot
  dsimp only [Cells.carryOut] at ends
  rw [← content] at ends
  apply evaluate_proceeds fit calm
  have replaces (stands : (required && (p.evaluate v).2.isNone) = false) :
      scene.Proceeds level goal [.createSlot slot, .swap, .release .observed]
        { cells := (p.evaluate v).1
          displaced := before
          ids := update (fun _ => none) .desired (p.evaluate v).2 } := by
    rw [stands] at ends
    apply replace_proceeds fit rfl free (Option.some_ne_none slot).symm
    intro target
    exact finish_proceeds ends (by constructor <;> intros <;> rfl)
  cases required with
  | false => exact replaces rfl
  | true =>
    apply require_proceeds fit
    · intro stands
      exact replaces (Option.isNone_eq_false_iff.mpr stands)
    · intro nothing
      have nothing : (p.evaluate v).2 = none := nothing
      rw [nothing] at ends
      exact finish_proceeds ends ⟨rfl, nothing, rfl, rfl, rfl, fun _ => .rfl, rfl, rfl⟩

theorem dropAll_proceeds (fit : scene.Fit)
    (ends : scene.Ends level goal (p.carryOut scene.busyNames .dropAll) before) :
    scene.Proceeds level goal Operation.dropAll.code (Operation.dropAll.begin p before) := by
  intro w call alone shows
  have nodup : p.slots.names.Nodup := shows.mirrors.slotNames
  refine sweep_proceeds fit rfl rfl (fun target displaced same => ?_) w call alone shows
  refine finish_proceeds ends ⟨rfl, rfl, rfl, rfl, rfl, fun object => ?_, rfl, rfl⟩
  have found : object ∈ (p.slots.filter fun entry => !scene.busyNames.contains entry.1).filterMap
      Prod.snd ↔ ∃ name, name ∉ scene.busyNames ∧ p.content name = some object := by
    simp only [List.mem_filterMap, List.mem_filter, Bool.not_eq_true', Cells.content,
      Option.join_eq_some_iff]
    constructor
    · rintro ⟨⟨name, content⟩, ⟨inside, unused⟩, rfl⟩
      refine ⟨name, by simpa using unused, Table.get?_of_mem _ _ _ nodup inside⟩
    · rintro ⟨name, unused, held⟩
      exact ⟨(name, some object), ⟨Table.mem_of_get? _ _ _ held, by simpa using unused⟩, rfl⟩
  rw [List.mem_append, same]
  exact or_comm.trans (or_congr_left found.symm)

/-- What an operation may come to that finds its slot and may remove what it removes. -/
theorem operation_proceeds (fit : scene.Fit) {operation : Operation}
    (calm : ∀ v ∈ operation.values, v.Calm) (plain : ∀ slot offers meanwhile into, operation ≠ .update slot offers meanwhile into)
    (free : ∀ name, operation.removes? = some name →
      name ∉ scene.busyNames ∧ (operation.unbinds = false → operation.slot? ≠ some name))
    (ends : scene.Ends level goal (p.carryOut scene.busyNames operation) before) :
    scene.Proceeds level goal operation.code (operation.begin p before) := by
  cases operation with
  | set handle v =>
    apply evaluate_proceeds fit (calm v List.mem_cons_self)
    apply note_proceeds fit
    apply putHandle_proceeds fit
    exact finish_proceeds ends (by constructor <;> intros <;> rfl)
  | create slot v required =>
    exact create_proceeds fit (calm v List.mem_cons_self) (free slot rfl).1 ends
  | drop slot =>
    apply swap_proceeds fit rfl (fun _ => rfl)
    apply release_proceeds fit
    exact finish_proceeds ends (by constructor <;> intros <;> rfl)
  | intoInner slot into =>
    apply swap_proceeds fit rfl (fun _ => rfl)
    apply note_proceeds fit
    apply deliver_proceeds fit
    exact finish_proceeds ends (by constructor <;> intros <;> rfl)
  | load slot into =>
    apply load_proceeds fit rfl
    apply note_proceeds fit
    apply deliver_proceeds fit
    exact finish_proceeds ends (by constructor <;> intros <;> rfl)
  | store slot v =>
    -- The evaluation changes no slot.
    have content := p.content_evaluate v slot
    dsimp only [Cells.carryOut] at ends
    rw [← content] at ends
    apply evaluate_proceeds fit (calm v List.mem_cons_self)
    apply swap_proceeds fit rfl (fun nothing => absurd nothing Target.bound_ne)
    apply release_proceeds fit
    exact finish_proceeds ends (by constructor <;> intros <;> rfl)
  | exchange slot v into =>
    have content := p.content_evaluate v slot
    dsimp only [Cells.carryOut] at ends
    rw [← content] at ends
    apply evaluate_proceeds fit (calm v List.mem_cons_self)
    apply swap_proceeds fit rfl (fun nothing => absurd nothing Target.bound_ne)
    apply note_proceeds fit
    apply deliver_proceeds fit
    exact finish_proceeds ends (by constructor <;> intros <;> rfl)
  | take slot into =>
    apply swap_proceeds fit rfl (fun _ => rfl)
    apply note_proceeds fit
    apply deliver_proceeds fit
    exact finish_proceeds ends (by constructor <;> intros <;> rfl)
  | clear slot =>
    apply swap_proceeds fit rfl (fun _ => rfl)
    apply release_proceeds fit
    exact finish_proceeds ends (by constructor <;> intros <;> rfl)
  | isEmpty slot =>
    apply inspect_proceeds fit
    exact finish_proceeds ends (by constructor <;> intros <;> rfl)
  | compareExchange strength slot handle desired success failure =>
    exact compareExchange_proceeds fit (calm desired List.mem_cons_self) ends
  | compareAndExchange strength slot expected desired success failure into =>
    exact compareAndExchange_proceeds fit (calm expected List.mem_cons_self)
      (calm desired (List.mem_cons_of_mem _ List.mem_cons_self)) ends
  | update slot offers meanwhile into => exact absurd rfl (plain slot offers meanwhile into)
  | clone slot target =>
    apply load_proceeds fit rfl
    apply move_proceeds fit
    apply replace_proceeds fit rfl (free target rfl).1 ((free target rfl).2 rfl)
    intro acts
    exact finish_proceeds ends (by constructor <;> intros <;> rfl)
  | describe slot spread =>
    apply load_proceeds fit rfl
    apply note_proceeds fit
    apply release_proceeds fit
    exact finish_proceeds ends (by constructor <;> intros <;> rfl)
  | peek slot into =>
    apply peek_proceeds fit rfl
    cases into with
    | none => exact finish_proceeds ends (by constructor <;> intros <;> rfl)
    | some handle =>
      apply putHandle_proceeds fit
      exact finish_proceeds ends (by constructor <;> intros <;> rfl)
  | dropAll => exact dropAll_proceeds fit ends

end Operations

end Scene

end SharedCells.Slot
