import SharedCells.Proofs.Slot.Operations

/-! Commands beside stalled readers.

An updating function may run commands, on a level above that of its update. These
leave the registers of the update alone, and its slot keeps its name while it is in
use; so the update finds again what it left, but for what the slot holds. -/

set_option autoImplicit false

namespace SharedCells.Slot

open Function (update)

/-- The blocks that an operation runs. -/
def Operation.blocks : Operation → List (List Command)
  | .update _ _ meanwhile _ => meanwhile.filterMap id
  | _ => []

theorem Updating.calm_answer (u : Updating)
    (calm : ∀ offer ∈ u.offers, ∀ v, offer.value? = some v → v.Calm) (n : Nat) :
    ∀ v, (u.answer n).value? = some v → v.Calm := by
  unfold answer
  cases found : u.offers[n]? with
  | some offer => exact calm offer (List.mem_of_getElem? found)
  | none =>
    cases last : u.offers.getLast? with
    | some offer => exact calm offer (List.mem_of_getLast? last)
    | none =>
      rintro v same
      obtain rfl := Option.some.inj same
      trivial

/-- A command without a block in a read that creates no objects that have commands; nor do the
commands in its blocks. -/
inductive Command.Calm : Command → Prop where
  | mk {operation : Operation} : (∀ v ∈ operation.values, v.Calm) →
      (∀ block ∈ operation.blocks, ∀ command ∈ block, Command.Calm command) →
      Command.Calm (.mk operation none)

/-- The command does what it does to variables, wherever it is carried out. -/
def Command.Performs (command : Command) : Prop :=
  ∀ (scene : Scene) (level : Level) (goal : World → Thread → Prop) (p : Cells) (before : List Nat)
    (todo : List Command) (w : World), scene.Fit →
    scene.Ends { level with todo } goal (command.act scene.busyNames p) before →
    scene.Mirrors p before w →
    Alone scene.stalled w ({ level with call := none, todo := command :: todo } :: scene.below) →
    Leads scene.stalled goal w ({ level with call := none, todo := command :: todo } :: scene.below)

/-- What a call shows that is about to call the updating function. -/
def Config.consulting (p : Cells) (displaced : List Nat) (name : String) (current : Option Nat)
    (seen : List (Option Nat)) (blocks : List (List Report)) : Config where
  cells := p
  displaced := displaced
  named := some name
  target := .bound name
  ids := update (fun _ => none) .expected current
  seen := seen
  blocks := blocks

namespace Scene

variable {scene : Scene} {level : Level} {goal : World → Thread → Prop} {w w' : World} {call : Call}
  {c : Config} {code : List Instruction} {p : Cells} {before : List Nat} {name : String}
  {slot : SlotId}

theorem acts_lead (fit : scene.Fit) {role : Role} {done : List Record} {commands rest : List Command}
    (performs : ∀ command ∈ commands, command.Performs)
    (next : ∀ w records,
      Record.reports records.reverse = (Command.acts scene.busyNames p commands).reports →
      scene.Mirrors (Command.acts scene.busyNames p commands).cells
        ((Command.acts scene.busyNames p commands).displaced ++ before) w →
      Alone scene.stalled w ({ role, todo := rest, records := records ++ done } :: scene.below) →
      Leads scene.stalled goal w ({ role, todo := rest, records := records ++ done } :: scene.below))
    (mirrors : scene.Mirrors p before w)
    (alone : Alone scene.stalled w ({ role, todo := commands ++ rest, records := done } :: scene.below)) :
    Leads scene.stalled goal w ({ role, todo := commands ++ rest, records := done } :: scene.below) := by
  induction commands generalizing p before w done with
  | nil => exact next w [] rfl mirrors alone
  | cons command commands ih =>
    have later (following : Command) (inside : following ∈ commands) : following.Performs :=
      performs following (List.mem_cons_of_mem _ inside)
    refine performs command List.mem_cons_self scene { role, todo := [], records := done } goal p
      before (commands ++ rest) w fit (fun w record report mirrors alone => ?_) mirrors alone
    refine ih later (fun w records reports mirrors alone => ?_) mirrors alone
    have all : Record.reports (records ++ [record]).reverse =
        (Command.acts scene.busyNames p (command :: commands)).reports := by
      rw [List.reverse_append, List.reverse_singleton, List.singleton_append, Record.reports, report,
        reports]
      rfl
    rw [← List.append_assoc] at mirrors
    -- Records are kept newest first.
    have same : records ++ record :: done = (records ++ [record]) ++ done := by
      rw [List.append_assoc, List.singleton_append]
    dsimp only at alone ⊢
    rw [same] at alone ⊢
    exact next w (records ++ [record]) all mirrors alone

/-- The scene of commands that run on a level above a call, which uses a slot. -/
def within (scene : Scene) (level : Level) (call : Call) (name : String) (slot : SlotId) (w : World) :
    Scene :=
  { scene with
    below := scene.thread level call
    busy := (name, slot) :: scene.busy
    held := w.objectId }

theorem Fit.within (fit : scene.Fit) (during : call.during = none) (named : call.named = some slot) :
    (scene.within level call name slot w).Fit where
  quiet other inside := by
    rcases List.mem_cons.mp inside with rfl | inside
    · exact during
    · exact fit.quiet other inside
  uses s := by
    have used : (scene.within level call name slot w).below.uses s = true ↔
        call.named = some s ∨ scene.below.uses s = true := by
      rw [Scene.within, uses_thread, Bool.or_eq_true, beq_iff_eq]
    rw [used, fit.uses, named, Option.some.injEq]
    constructor
    · rintro (rfl | ⟨other, inside⟩)
      · exact ⟨name, List.mem_cons_self⟩
      · exact ⟨other, List.mem_cons_of_mem _ inside⟩
    · rintro ⟨other, inside⟩
      rcases List.mem_cons.mp inside with same | inside
      · exact .inl (Prod.mk.inj same).2.symm
      · exact .inr ⟨other, inside⟩

theorem Mirrors.within (mirrors : scene.Mirrors p before w) (bound : w.slots.get? name = some slot) :
    (scene.within level call name slot w).Mirrors p before w :=
  { mirrors with
    busy := by
      intro entry inside
      rcases List.mem_cons.mp inside with rfl | inside
      · exact bound
      · exact mirrors.busy entry inside
    held := fun _ _ _ => rfl }

/-- Commands on a level above leave what the call refers to. -/
theorem Shows.of_within (shows : scene.Shows c w call) (named : c.named = some name)
    (target : c.target = .bound name) (acts : call.slot = some slot) {displaced : List Nat}
    (mirrors : (scene.within level call name slot w).Mirrors p displaced w') :
    scene.Shows { c with cells := p, displaced } w' call := by
  have bound := mirrors.busy (name, slot) List.mem_cons_self
  have before := shows.target
  rw [target, acts] at before
  have own : call.named = some slot := by
    rw [shows.named, named]
    exact before.2
  refine { shows with
    mirrors := { mirrors with
      busy := fun entry inside => mirrors.busy entry (List.mem_cons_of_mem _ inside)
      held := fun other inside register => ?_ }
    named := ?_
    target := ?_
    registers := fun register => ?_ }
  · rw [← shows.mirrors.held other inside register]
    exact mirrors.held other (List.mem_cons_of_mem _ inside) register
  · rw [own, named]
    exact bound.symm
  · rw [target, acts]
    exact ⟨rfl, bound⟩
  · rw [← shows.registers register]
    exact mirrors.held call List.mem_cons_self register

theorem block_leads (fit : scene.Fit) {block : List Command}
    (performs : ∀ command ∈ block, command.Performs) (named : c.named = some name)
    (target : c.target = .bound name)
    (next : scene.Proceeds level goal code { c with
      cells := (Command.acts (name :: scene.busyNames) c.cells block).cells
      displaced := (Command.acts (name :: scene.busyNames) c.cells block).displaced ++ c.displaced
      blocks := (Command.acts (name :: scene.busyNames) c.cells block).reports :: c.blocks })
    (shows : scene.Shows c w call)
    (alone : Alone scene.stalled w
      ({ role := .meanwhile, todo := block } :: scene.thread level { call with code })) :
    Leads scene.stalled goal w
      ({ role := .meanwhile, todo := block } :: scene.thread level { call with code }) := by
  have bound := shows.target
  rw [target] at bound
  obtain ⟨slot, acts⟩ := Option.isSome_iff_exists.mp bound.1
  have found : w.slots.get? name = some slot := bound.2.trans acts
  have own : ({ call with code } : Call).named = some slot := by
    rw [shows.named, named]
    exact found
  have shows : scene.Shows c w { call with code } := { shows with }
  have inside : (scene.within level { call with code } name slot w).Fit := fit.within shows.during own
  rw [← List.append_nil block] at alone ⊢
  refine acts_lead inside performs ?_ (shows.mirrors.within found) alone
  intro w' records reports mirrors alone
  have after := shows.of_within named target acts mirrors
  -- The level of the block is done and tells the call of the update.
  show Leads scene.stalled goal w' ({ role := .meanwhile, todo := [], records := records ++ [] } ::
    scene.thread level { call with code })
  apply close_leads
  intro w'' call' closed change alone
  obtain ⟨rfl, rfl⟩ := Prod.mk.inj closed
  refine next _ { call with events := _ } alone { after with blocks := ?_ }
  rw [List.append_nil, Event.blocks, shows.blocks]
  exact congrArg (· :: c.blocks) reports

section Rounds

variable {u : Updating} {n : Nat}

theorem consult_proceeds (fit : scene.Fit) (quiet : u.meanwhile[n]?.join = none)
    (next : scene.Proceeds level goal (.offer u n :: code)
      { c with seen := c.ids .expected :: c.seen }) :
    scene.Proceeds level goal (.consult u n :: code) c := by
  apply proceed fit
  intro w call wish turn here shows ran change after
  obtain rfl := Turn.eq_of_goes ran (.consult u n)
  rw [quiet] at after ⊢
  have seen : w.objectId (call.registers.get .expected) :: call.seen = c.ids .expected :: c.seen := by
    rw [shows.registers, shows.seen]
  exact next w { call with seen := _ } after { shows with seen }

theorem consult_block_proceeds (fit : scene.Fit) {block : List Command}
    (runs : u.meanwhile[n]?.join = some block) (performs : ∀ command ∈ block, command.Performs)
    (named : c.named = some name) (target : c.target = .bound name)
    (next : scene.Proceeds level goal (.offer u n :: code) { c with
      seen := c.ids .expected :: c.seen
      cells := (Command.acts (name :: scene.busyNames) c.cells block).cells
      displaced := (Command.acts (name :: scene.busyNames) c.cells block).displaced ++ c.displaced
      blocks := (Command.acts (name :: scene.busyNames) c.cells block).reports :: c.blocks }) :
    scene.Proceeds level goal (.consult u n :: code) c := by
  apply proceed fit
  intro w call wish turn here shows ran change after
  obtain rfl := Turn.eq_of_goes ran (.consult u n)
  rw [runs] at after ⊢
  have seen : w.objectId (call.registers.get .expected) :: call.seen = c.ids .expected :: c.seen := by
    rw [shows.registers, shows.seen]
  let asked : Config := { c with seen := c.ids .expected :: c.seen }
  have shown : scene.Shows asked w
      { call with seen := w.objectId (call.registers.get .expected) :: call.seen } :=
    { shows with seen }
  have named : asked.named = some name := named
  have target : asked.target = .bound name := target
  have leads := block_leads fit performs named target next shown after
  exact leads

theorem offer_proceeds (fit : scene.Fit) (calm : ∀ v, (u.answer n).value? = some v → v.Calm)
    (next : scene.Proceeds level goal
      (.copy .expected .kept :: .read .weak :: .verdict u n :: code) { c with
        cells := (c.cells.offer (c.ids .expected) (u.answer n)).1
        ids := update c.ids .desired (c.cells.offer (c.ids .expected) (u.answer n)).2 }) :
    scene.Proceeds level goal (.offer u n :: code) c := by
  apply proceed fit
  intro w call wish turn here shows ran change after
  cases answer : u.answer n with
  | same =>
    rw [answer] at next
    obtain rfl := Turn.eq_of_givesWay ran (.offer_same answer)
    exact copy_proceeds fit next w call after shows
  | value v =>
    rw [answer] at next
    obtain rfl := Turn.eq_of_givesWay ran (.offer_value answer)
    exact evaluate_proceeds fit (calm v (answer ▸ rfl)) next w call after shows

theorem verdict_proceeds (fit : scene.Fit)
    (win : c.exchanged = true →
      scene.Proceeds level goal (.release .expected :: .note .updated :: deliver u.into .kept ++ code) c)
    (lose : c.exchanged = false →
      scene.Proceeds level goal (.release .kept :: .consult u (n + 1) :: code) c) :
    scene.Proceeds level goal (.verdict u n :: code) c := by
  apply proceed fit
  intro w call wish turn here shows ran change after
  cases exchanged : call.exchanged with
  | true =>
    obtain rfl := Turn.eq_of_givesWay ran (.verdict_won u n exchanged)
    exact win (shows.exchanged ▸ exchanged) w call after shows
  | false =>
    obtain rfl := Turn.eq_of_givesWay ran (.verdict_lost u n exchanged)
    exact lose (shows.exchanged ▸ exchanged) w call after shows

/-- What is offered is exchanged for what the slot was seen to hold, if it still holds that; if not,
the function is called again. -/
theorem round_proceeds (fit : scene.Fit) (calm : ∀ v, (u.answer n).value? = some v → v.Calm)
    {displaced : List Nat} {current : Option Nat} {seen : List (Option Nat)}
    {blocks : List (List Report)}
    (win : p.content name = current → scene.Ends level goal
      { cells := ((p.offer current (u.answer n)).1.put name (p.offer current (u.answer n)).2).deliver
          u.into current
        outcome := .updated current seen.reverse
        blocks := blocks.reverse
        displaced := current.toList } displaced)
    (lose : p.content name ≠ current → scene.Proceeds level goal [.consult u (n + 1)]
      (.consulting (p.offer current (u.answer n)).1 displaced name (p.content name) seen blocks)) :
    scene.Proceeds level goal [.offer u n] (.consulting p displaced name current seen blocks) := by
  have content := p.content_offer current (u.answer n) name
  apply offer_proceeds fit calm
  apply copy_proceeds fit
  apply exchange_proceeds fit .weak rfl rfl rfl
  by_cases same : p.content name = current
  · rw [Config.tried_of_eq (content.trans same)]
    refine verdict_proceeds fit (fun _ => ?_) (fun kept => nomatch kept)
    apply release_proceeds fit
    apply note_proceeds fit
    rw [show (deliver u.into .kept).append [] = deliver u.into .kept from List.append_nil _]
    apply deliver_proceeds fit
    refine finish_proceeds (win same) ⟨rfl, rfl, rfl, rfl, rfl, fun object => ?_, rfl, rfl⟩
    show object ∈ ((p.offer current (u.answer n)).1.content name).toList ++ displaced ↔ _
    rw [content, same]
  · rw [Config.tried_of_ne (content ▸ same)]
    refine verdict_proceeds fit (fun won => nomatch won) (fun _ => ?_)
    apply release_proceeds fit
    have ids : update (update (update (update (update (update (fun _ => none) Register.expected current)
        .desired (p.offer current (u.answer n)).2) .kept current) .desired none) .expected
        ((p.offer current (u.answer n)).1.content name)) .kept none =
        update (fun _ => none) .expected (p.content name) := by
      funext register
      cases register <;> simp [update, content]
    have again := lose same
    rw [Config.consulting, ← ids] at again
    exact again

theorem last_round (fit : scene.Fit) (calm : ∀ v, (u.answer n).value? = some v → v.Calm)
    (quiet : u.meanwhile[n]?.join = none) {displaced : List Nat} {seen : List (Option Nat)}
    {blocks : List (List Report)}
    (ends : scene.Ends level goal
      { cells := ((p.offer (p.content name) (u.answer n)).1.put name
          (p.offer (p.content name) (u.answer n)).2).deliver u.into (p.content name)
        outcome := .updated (p.content name) (p.content name :: seen).reverse
        blocks := blocks.reverse ++ []
        displaced := (p.content name).toList } displaced) :
    scene.Proceeds level goal [.consult u n]
      (.consulting p displaced name (p.content name) seen blocks) := by
  rw [List.append_nil] at ends
  apply consult_proceeds fit quiet
  apply round_proceeds fit calm
  · intro _
    exact ends
  · intro differ
    exact absurd rfl differ

/-- An update does to its slot what it does to the variable, however often it calls its function. -/
theorem rounds_proceed (fit : scene.Fit) (calm : ∀ offer ∈ u.offers, ∀ v, offer.value? = some v → v.Calm)
    (later : List (Option (List Command))) (left : u.meanwhile.drop n = later)
    (performs : ∀ block, some block ∈ later → ∀ command ∈ block, command.Performs)
    {displaced : List Nat} {seen : List (Option Nat)} {blocks : List (List Report)}
    (ends : scene.Ends level goal
      { Command.rounds scene.busyNames name u p n seen later with
        blocks := blocks.reverse ++ (Command.rounds scene.busyNames name u p n seen later).blocks }
      displaced) :
    scene.Proceeds level goal [.consult u n]
      (.consulting p displaced name (p.content name) seen blocks) := by
  have answers : ∀ v, (u.answer n).value? = some v → v.Calm := u.calm_answer calm n
  -- A further round needs a block that has changed the slot, and each round uses up one block.
  induction later generalizing n p displaced seen blocks with
  | nil =>
    rw [Command.rounds] at ends
    refine last_round fit answers ?_ ends
    rw [List.getElem?_eq_none (List.drop_eq_nil_iff.mp left)]
    rfl
  | cons block later ih =>
    have head : u.meanwhile[n]? = some block := by
      rw [← List.head?_drop, left, List.head?_cons]
    have rest : u.meanwhile.drop (n + 1) = later := by
      rw [← List.tail_drop, left, List.tail_cons]
    cases block with
    | none =>
      rw [Command.rounds] at ends
      refine last_round fit answers ?_ ends
      rw [head]
      rfl
    | some block =>
      have runs : u.meanwhile[n]?.join = some block := by rw [head]; rfl
      have further (other : List Command) (inside : some other ∈ later) :=
        performs other (List.mem_cons_of_mem _ inside)
      let ran := Command.acts (name :: scene.busyNames) p block
      have round : scene.Proceeds level goal [.offer u n] (.consulting ran.cells
          (ran.displaced ++ displaced) name (p.content name) (p.content name :: seen)
          (ran.reports :: blocks)) := by
        rw [Command.rounds] at ends
        dsimp only at ends
        have last : (ran.reports :: blocks).reverse = blocks.reverse ++ [ran.reports] := List.reverse_cons
        apply round_proceeds fit answers
        · intro same
          rw [if_pos same] at ends
          rw [last]
          have ended := ends.assoc rfl
          exact ended
        · intro differ
          rw [if_neg differ] at ends
          have ended := ends.assoc rfl
          rw [← ran.cells.content_offer (p.content name) (u.answer n) name]
          apply ih rest further
          · rw [last, List.append_assoc]
            exact ended
          · exact u.calm_answer calm (n + 1)
      exact consult_block_proceeds fit runs (performs block List.mem_cons_self) rfl rfl round

theorem update_proceeds (fit : scene.Fit) {slot : String} {offers : List Offer}
    {meanwhile : List (Option (List Command))} {into : Option String}
    (calm : ∀ offer ∈ offers, ∀ v, offer.value? = some v → v.Calm)
    (performs : ∀ block, some block ∈ meanwhile → ∀ command ∈ block, command.Performs)
    (ends : scene.Ends level goal
      (Command.rounds scene.busyNames slot ⟨offers, meanwhile, into⟩ p 0 [] meanwhile) before) :
    scene.Proceeds level goal (Operation.update slot offers meanwhile into).code
      ((Operation.update slot offers meanwhile into).begin p before) := by
  have rounds : scene.Proceeds level goal [.consult ⟨offers, meanwhile, into⟩ 0]
      (.consulting p before slot (p.content slot) [] []) :=
    rounds_proceed fit calm meanwhile rfl performs ends
  have ids : update (update (update (fun _ => none) .observed (p.content slot)) .observed none)
      .expected (p.content slot) = update (fun _ => none) Register.expected (p.content slot) := by
    funext register
    cases register <;> simp [update]
  rw [Config.consulting, ← ids] at rounds
  apply load_proceeds fit rfl
  apply move_proceeds fit
  exact rounds

end Rounds

end Scene

theorem Command.act_of_refused {p : Cells} {busy : List String} {operation : Operation}
    {outcome : Outcome} (refused : p.refusal busy operation = some outcome) :
    (Command.mk operation none).act busy p = { cells := p, outcome } := by
  by_cases plain : ∀ slot offers meanwhile into, operation ≠ .update slot offers meanwhile into
  · rw [act, refused]
    exact plain
  · push Not at plain
    obtain ⟨slot, offers, meanwhile, into, rfl⟩ := plain
    rw [act, refused]

theorem Command.act_of_accepted {p : Cells} {busy : List String} {operation : Operation}
    (plain : ∀ slot offers meanwhile into, operation ≠ .update slot offers meanwhile into)
    (accepted : p.refusal busy operation = none) :
    (Command.mk operation none).act busy p = p.carryOut busy operation := by
  rw [act, accepted]
  exact plain

/-- Beside stalled readers every command does what it does to variables. -/
theorem Command.Calm.performs {command : Command} (calm : command.Calm) : command.Performs := by
  induction calm with
  | @mk operation calm _ performs =>
    intro scene level goal p before todo w fit ends mirrors alone
    refine Scene.start_leads fit (fun outcome refused => ?_) (fun accepted => ?_) mirrors alone
    · rw [act_of_refused refused] at ends
      exact ends
    · by_cases plain : ∀ slot offers meanwhile into, operation ≠ .update slot offers meanwhile into
      · rw [act_of_accepted plain accepted] at ends
        have free (name : String) (removes : operation.removes? = some name) :=
          mirrors.free_of_accepted accepted removes
        exact Scene.operation_proceeds fit calm plain free ends
      · push Not at plain
        obtain ⟨slot, offers, meanwhile, into, rfl⟩ := plain
        rw [act, accepted] at ends
        apply Scene.update_proceeds fit _ _ ends
        · intro offer inside v same
          exact calm v (List.mem_filterMap.mpr ⟨offer, inside, same⟩)
        · intro block inside
          exact performs block (List.mem_filterMap.mpr ⟨some block, inside, rfl⟩)

end SharedCells.Slot
