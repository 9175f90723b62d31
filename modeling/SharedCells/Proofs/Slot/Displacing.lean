import SharedCells.Proofs.Slot.Reading

/-! What is taken out of a slot beside stalled readers.

Before a call gives up what it took out of a slot, it pays the stalled debts on its
address. The payment comes to every mark once and changes nothing that can be seen. -/

set_option autoImplicit false

namespace SharedCells.Slot

open Registry (Debt Payment)

theorem World.word_setWord {w : World} {slot : SlotId} (there : slot < w.words.length) (ref : Ref)
    (other : SlotId) : (w.setWord slot ref).word other = if other = slot then ref else w.word other := by
  unfold word setWord
  rw [List.getElem?_set]
  by_cases same : slot = other
  · simp [same, same ▸ there]
  · simp [same, Ne.symm same]

open Function (update)

theorem Target.bound_ne {name : String} : Target.bound name ≠ .nothing := nofun

/-- Something else is put into the slot that instructions act on. -/
def Config.write (c : Config) (object : Option Nat) : Config :=
  match c.target with
  | .nothing => c
  | .bound slot => { c with cells := c.cells.put slot object }
  | .loose _ => { c with target := .loose object }

/-- The desired object takes the place of what is in the slot. -/
def Config.swap (c : Config) : Config :=
  let written := c.write (c.ids .desired)
  { written with
    displaced := c.content.toList ++ written.displaced
    ids := update (update written.ids .desired none) .observed c.content }

theorem Config.swap_of_nothing {c : Config} (idle : c.target = .nothing)
    (desired : c.ids .desired = none) (observed : c.ids .observed = none) : c.swap = c := by
  have first : update c.ids .desired none = c.ids := by rw [← desired, Function.update_eq_self]
  have second : update c.ids .observed none = c.ids := by rw [← observed, Function.update_eq_self]
  cases c
  simp_all only [swap, write, content, Option.toList_none, List.nil_append]

/-- What is left after the desired object was exchanged for the expected one. -/
def Config.won (c : Config) : Config :=
  let swapped := ({ c with exchanged := true } : Config).swap
  { swapped with ids := update swapped.ids .observed none }

/-- What is left after the slot was seen to hold something else. -/
def Config.lost (c : Config) : Config :=
  { c with ids := update (update c.ids .desired none) .expected c.content }

namespace Scene

variable {scene : Scene} {level : Level} {goal : World → Thread → Prop} {w w' : World} {call : Call}
  {c : Config} {code : List Instruction} {addr : Addr} {object : Nat} {slot : SlotId} {ref : Ref}
  {p : Cells} {displaced : List Nat} {content : Option Nat}

/-- The worlds differ only in what is counted and which debts are paid. -/
structure Paying (w w' : World) : Prop where
  words : w'.words = w.words
  slots : w'.slots = w.slots
  handles : w'.handles = w.handles
  created : w'.heap.created = w.heap.created
  bare : w'.heap.Bare
  ids : ∀ ref, w'.objectId ref = w.objectId ref

namespace Paying

theorem retain (paying : Paying w w') {heap : Heap (List Command)}
    (retained : w'.heap.retain? addr = some heap) : Paying w { w' with heap } where
  words := paying.words
  slots := paying.slots
  handles := paying.handles
  created := by
    obtain ⟨object, live, rfl⟩ := Heap.retain?_eq_some_iff.mp retained
    exact paying.created
  bare := by
    apply paying.bare.of_change (.retained retained)
    obtain ⟨object, live, rfl⟩ := Heap.retain?_eq_some_iff.mp retained
    rfl
  ids ref := by
    obtain ⟨object, live, rfl⟩ := Heap.retain?_eq_some_iff.mp retained
    rw [← paying.ids ref]
    cases ref with
    | none => rfl
    | some other =>
      simp only [World.objectId, Option.bind_some, Heap.find?_set]
      split
      · next same => rw [same, (Heap.live?_eq_some_iff.mp live).1]; rfl
      · rfl

/-- What the world shows in the end: the debts on the object are paid. -/
theorem shows (paying : Paying w w') (counted : scene.Counted w call.registers)
    (shows : scene.Shows c w call) {ps : List Registry.Place} (all : ps.Perm w.registry.places)
    (registry : w'.registry = w.registry.payAt addr ps) (names : w.objectId (some addr) = some object) :
    scene.Shows { c with displaced := object :: c.displaced } w' call := by
  have mirrors := shows.mirrors
  have beside : Beside w w' := { paying with
    ids := fun ref _ => paying.ids ref
    created := Nat.le_of_eq paying.created.symm
    older := fun other _ _ now => (paying.ids (some other)).symm.trans now }
  obtain ⟨own, backed⟩ := counted.backed
  have unique (other : Addr) : w.objectId (some other) = some object → other = addr := by
    intro same
    simp only [World.objectId, Option.bind_some, Option.map_eq_some_iff] at same names
    obtain ⟨left, found, rfl⟩ := same
    obtain ⟨right, there, same⟩ := names
    exact counted.numbered.unique _ _ left right found there same.symm
  apply shows.of_beside counted beside _ _ _ (mirrors.created.trans paying.created.symm)
  · intro d member
    have inside : d ∈ own ++ scene.stalled.debts := List.mem_append_right _ member
    rw [registry, backed.read_payAt_places inside all, mirrors.marks d member]
    by_cases same : d.addr = addr
    · have here : w'.objectId (some d.addr) = some object := by rw [paying.ids, same, names]
      rw [if_pos same, if_pos ⟨object, List.mem_cons_self, here⟩]
    · have others : (∃ other ∈ object :: c.displaced, w'.objectId (some d.addr) = some other) ↔
          ∃ other ∈ c.displaced, w.objectId (some d.addr) = some other := by
        simp only [List.mem_cons, or_and_right, exists_or, exists_eq_left, paying.ids]
        exact or_iff_right fun this => same (unique d.addr this)
      rw [if_neg same]
      simp only [others]
  · intro other member
    rw [paying.created]
    rcases List.mem_cons.mp member with rfl | member
    · simp only [World.objectId, Option.bind_some, Option.map_eq_some_iff] at names
      obtain ⟨there, found, rfl⟩ := names
      exact counted.numbered.le _ _ found
    · exact mirrors.past other member
  · intro d member other inside stood
    rw [paying.ids]
    rcases List.mem_cons.mp inside with rfl | inside
    · rw [← (mirrors.origin d member _ stood).2 addr names]
      exact names
    · exact mirrors.kept d member other inside stood

end Paying

theorem mark_leads (fit : scene.Fit) (during : call.during = none) {registry : Registry}
    {p : Registry.Place} (owed : registry.read p = some (.owed addr))
    (next : Alone scene.stalled { w with registry := registry.write p .paid } (scene.thread level
        { call with code := .pay addr (.scan ((registry.write p .paid).after p)) :: code }) →
      Leads scene.stalled goal { w with registry := registry.write p .paid } (scene.thread level
        { call with code := .pay addr (.scan ((registry.write p .paid).after p)) :: code }))
    (alone : Alone scene.stalled { w with registry }
      (scene.thread level { call with code := .pay addr (.mark p) :: code })) :
    Leads scene.stalled goal { w with registry }
      (scene.thread level { call with code := .pay addr (.mark p) :: code }) := by
  apply advance fit alone during
  intro wish turn _ ran change after
  obtain rfl := Turn.eq_of_goes ran (.pay_mark addr p)
  rw [Payment.step_mark_of_owed owed] at after ⊢
  exact next after

/-- The debts on an object that was taken out of a slot are paid. -/
theorem pay_leads (fit : scene.Fit)
    (next : scene.Proceeds level goal code { c with displaced := object :: c.displaced })
    (shows : scene.Shows c w call) (names : w.objectId (some addr) = some object)
    (alone : Alone scene.stalled w (scene.thread level { call with code := .pay addr .start :: code })) :
    Leads scene.stalled goal w (scene.thread level { call with code := .pay addr .start :: code }) := by
  have here : scene.Counted w ({ call with code := .pay addr .start :: code } : Call).registers :=
    counted alone rfl
  have unpaid : Paying w w := ⟨rfl, rfl, rfl, rfl, shows.mirrors.bare, fun _ => rfl⟩
  -- Up to the last mark the world differs from the first one in counts and paid debts only.
  refine Payment.of_finished (motive := fun registry _ payment => ∀ w', Paying w w' →
    Alone scene.stalled { w' with registry }
      (scene.thread level { call with code := .pay addr payment :: code }) →
    Leads scene.stalled goal { w' with registry }
      (scene.thread level { call with code := .pay addr payment :: code }))
    addr here.chained ?_ ?_ ?_ ?_ w unpaid alone
  · intro rest w' paying alone
    apply advance fit alone shows.during
    intro wish turn _ ran change after
    obtain rfl := Turn.eq_of_goes ran (.pay_start addr)
    exact rest w' paying after
  · intro registry _ p other rest w' paying alone
    apply advance fit alone shows.during
    intro wish turn _ ran change after
    obtain rfl := Turn.eq_of_goes ran (.pay_test addr p)
    rw [Payment.step_test, if_neg other] at after ⊢
    exact rest w' paying after
  · intro registry _ p owed rest w' paying alone
    apply advance fit alone shows.during
    intro wish turn _ ran change after
    obtain rfl := Turn.eq_of_goes ran (.pay_test addr p)
    rw [Payment.step_test, if_pos owed] at after ⊢
    -- The reader's reference is counted before its debt is marked as paid.
    apply advance fit after shows.during
    intro wish turn _ ran change after
    cases Turn.goes_of_run ran with
    | gives_way gives => cases gives
    | @pay_retain _ _ heap retained =>
      have leads := mark_leads fit shows.during owed (rest { w' with heap } (paying.retain retained)) after
      exact leads
  · intro ps all w' paying alone
    apply advance fit alone shows.during
    intro wish turn _ ran change after
    obtain rfl := Turn.eq_of_givesWay ran (.pay_finished addr)
    have paid : Paying w { w' with registry := w.registry.payAt addr ps } := { paying with }
    exact next _ call after (paid.shows here shows all rfl names)

theorem Mirrors.setWord (mirrors : scene.Mirrors p displaced w) {name : String}
    (bound : w.slots.get? name = some slot) (there : slot < w.words.length)
    (names : w.objectId ref = content) :
    scene.Mirrors (p.put name content) displaced (w.setWord slot ref) :=
  { mirrors with
    slots := by
      intro other
      have slots : (w.setWord slot ref).slots.get? other = w.slots.get? other := rfl
      rw [Cells.put, Table.get?_put, slots]
      by_cases same : other = name
      · rw [if_pos same, same, bound, Option.map_some, World.word_setWord there, if_pos rfl]
        exact congrArg some names.symm
      · rw [if_neg same, mirrors.slots]
        apply Option.map_congr
        intro s found
        have apart : s ≠ slot := by
          rintro rfl
          exact same (mirrors.apart other name s found bound)
        rw [World.word_setWord there, if_neg apart]
        rfl
    slotNames := Table.nodup_put _ _ _ mirrors.slotNames }

theorem Mirrors.setWord_unbound (mirrors : scene.Mirrors p displaced w)
    (unbound : ∀ name, w.slots.get? name ≠ some slot) (there : slot < w.words.length) :
    scene.Mirrors p displaced (w.setWord slot ref) :=
  { mirrors with
    slots := by
      intro other
      rw [mirrors.slots]
      apply Option.map_congr
      intro s found
      have apart : s ≠ slot := by
        rintro rfl
        exact unbound other found
      rw [World.word_setWord there, if_neg apart]
      rfl }

theorem Shows.write (shows : scene.Shows c w call) (counted : scene.Counted w call.registers)
    (acts : call.slot = some slot) (names : w.objectId ref = content) :
    scene.Shows (c.write content) (w.setWord slot ref) call := by
  have target := shows.target
  rw [acts] at target
  unfold Config.write
  cases kind : c.target with
  | nothing =>
    rw [kind] at target
    contradiction
  | bound name =>
    rw [kind] at target
    have there := counted.slots _ (Table.mem_of_get? _ _ _ target.2)
    exact { shows with
      mirrors := shows.mirrors.setWord target.2 there names
      target := acts ▸ target }
  | loose held =>
    rw [kind] at target
    obtain ⟨s, same, there, unbound, -⟩ := target
    obtain rfl := Option.some.inj same
    have lengthened : slot < (w.setWord slot ref).words.length := by
      rw [World.setWord, List.length_set]
      exact there
    refine { shows with
      mirrors := shows.mirrors.setWord_unbound unbound there
      target := ⟨slot, acts, lengthened, unbound, ?_⟩ }
    rw [World.word_setWord there, if_pos rfl]
    exact names

theorem Shows.target_eq_nothing (shows : scene.Shows c w call) (acts : call.slot = none) :
    c.target = .nothing := by
  have target := shows.target
  rw [acts] at target
  cases kind : c.target with
  | nothing => rfl
  | bound name =>
    rw [kind] at target
    exact absurd target.1 Bool.false_ne_true
  | loose object =>
    rw [kind] at target
    obtain ⟨s, same, -⟩ := target
    contradiction

theorem publish_eq (empty : call.registers.get .observed = none) (old : Ref) :
    Turn.publish { world := w, call := { call with code } } slot old =
      { world := w.setWord slot (call.registers.get .desired)
        call := { call with
          code := old.toList.map (.pay · .start) ++ code
          registers := (call.registers.set .desired none).set .observed old } } := by
  have none : (call.registers.set .desired none).get .observed = none := by
    rw [Registers.get_set, if_neg (by decide), empty]
  simp only [Turn.publish, Turn.assign, Turn.setRegister, Turn.get, Turn.before, none,
    Option.toList_none, List.map_nil, List.nil_append]

/-- The slot gets the desired object, and what it held is paid for. -/
theorem publish_leads (fit : scene.Fit) (next : scene.Proceeds level goal code c.swap)
    (shows : scene.Shows c w call) (counted : scene.Counted w call.registers)
    (acts : call.slot = some slot)
    (alone : Alone scene.stalled (w.setWord slot (call.registers.get .desired))
      (scene.thread level { call with
        code := (w.word slot).toList.map (.pay · .start) ++ code
        registers := (call.registers.set .desired none).set .observed (w.word slot) })) :
    Leads scene.stalled goal (w.setWord slot (call.registers.get .desired))
      (scene.thread level { call with
        code := (w.word slot).toList.map (.pay · .start) ++ code
        registers := (call.registers.set .desired none).set .observed (w.word slot) }) := by
  have names : w.objectId (w.word slot) = c.content := by
    rw [← shows.content, acts]
    rfl
  have written := shows.write counted acts (shows.registers .desired)
  have emptied := written.setRegister .desired none rfl
  have taken := emptied.setRegister .observed (w.word slot) names
  unfold Config.swap at next
  cases holds : w.word slot with
  | none =>
    rw [holds] at names alone taken
    rw [show c.content = none from names.symm] at next taken
    exact next _ _ alone taken
  | some addr =>
    have counts : w.Counts (some addr) := holds ▸ counted.word slot
    obtain ⟨object, -, id⟩ := World.objectId_of_counts counts
    rw [holds] at names alone taken
    rw [show c.content = some object.id from names.symm.trans id] at next taken
    exact pay_leads fit next taken id alone

theorem swap_proceeds (fit : scene.Fit) (empty : c.ids .observed = none)
    (idle : c.target = .nothing → c.ids .desired = none)
    (next : scene.Proceeds level goal code c.swap) :
    scene.Proceeds level goal (.swap :: code) c := by
  apply proceed fit
  intro w call wish turn here shows ran change after
  have nothing := ref_eq_none (here.register .observed) ((shows.registers .observed).trans empty)
  cases Turn.goes_of_run ran with
  | gives_way gives =>
    cases gives with
    | swap_idle acts =>
      have none := shows.target_eq_nothing acts
      rw [Config.swap_of_nothing none (idle none) empty] at next
      exact next w call after shows
  | swap acts =>
    rw [publish_eq nothing] at after ⊢
    exact publish_leads fit next shows here acts after

/-- An exchange takes place if the slot holds the expected object. -/
theorem exchange_leads (fit : scene.Fit) {turn : Turn} (empty : c.ids .observed = none)
    (next : scene.Proceeds level goal code c.won) (shows : scene.Shows c w call)
    (counted : scene.Counted w call.registers) (acts : call.slot = some slot)
    (same : w.word slot = call.registers.get .expected)
    (ran : turn = Turn.publish { world := w, call := { call with
      code := .release .observed :: code, exchanged := true } } slot (call.registers.get .expected))
    (after : Alone scene.stalled turn.world (turn.above.toList ++ scene.thread level turn.call)) :
    Leads scene.stalled goal turn.world (turn.above.toList ++ scene.thread level turn.call) := by
  let winner : Call := { call with exchanged := true }
  have nothing : winner.registers.get .observed = none :=
    ref_eq_none (counted.register .observed) ((shows.registers .observed).trans empty)
  have published : turn = Turn.publish
      { world := w, call := { winner with code := .release .observed :: code } } slot (w.word slot) :=
    same ▸ ran
  rw [publish_eq nothing] at published
  obtain rfl := published
  have won : scene.Shows { c with exchanged := true } w winner := { shows with exchanged := rfl }
  have released : scene.Proceeds level goal (.release .observed :: code)
      ({ c with exchanged := true } : Config).swap := release_proceeds fit next
  exact publish_leads fit released won counted acts after

theorem Shows.word_eq_iff (shows : scene.Shows c w call) (counted : scene.Counted w call.registers) :
    call.slot.bind w.word = call.registers.get .expected ↔ c.content = c.ids .expected := by
  rw [← shows.content, ← shows.registers]
  constructor
  · exact congrArg w.objectId
  · exact World.objectId_inj counted.numbered (counted.content call.slot) (counted.register .expected)

theorem yield_proceeds (fit : scene.Fit) (empty : c.ids .observed = none)
    (lose : scene.Proceeds level goal code c.lost) :
    scene.Proceeds level goal (Turn.settled .strong ++ code)
      { c with ids := update c.ids .observed c.content } := by
  have ids : update (update (update (update c.ids .observed c.content) .desired none) .observed none)
      .expected c.content = update (update c.ids .desired none) .expected c.content := by
    funext register
    cases register <;> simp [update, empty]
  unfold Config.lost at lose
  rw [← ids] at lose
  apply release_proceeds fit
  exact move_proceeds fit lose

theorem attempt_leads (fit : scene.Fit) (empty : c.ids .observed = none)
    (bound : c.target ≠ .nothing)
    (win : c.content = c.ids .expected → scene.Proceeds level goal code c.won)
    (lose : c.content ≠ c.ids .expected → scene.Proceeds level goal code c.lost)
    (shows : scene.Shows c w call) {seen : Ref} (word : call.slot.bind w.word = seen)
    (alone : Alone scene.stalled w (scene.thread level { call with code := .attempt seen :: code })) :
    Leads scene.stalled goal w (scene.thread level { call with code := .attempt seen :: code }) := by
  apply advance fit alone shows.during
  intro wish turn here ran change after
  have decides := shows.word_eq_iff here
  rw [word] at decides
  have holds {slot : SlotId} (acts : call.slot = some slot) : w.word slot = seen := by
    rw [← word, acts, Option.bind_some]
  cases Turn.goes_of_run ran with
  | gives_way gives =>
    cases gives with
    | attempt_idle _ acts => exact absurd (shows.target_eq_nothing acts) bound
    | attempt_lost acts same lost => exact absurd ((holds acts).trans same) lost
    | attempt_differs _ differ =>
      have yields := yield_proceeds fit empty (lose (mt decides.mpr differ))
      have leads := retain_leads fit empty yields shows word after
      exact leads
  | attempt_won acts same won =>
    exact exchange_leads fit empty (win (decides.mp same)) shows here acts won rfl after

theorem strong_proceeds (fit : scene.Fit) (empty : c.ids .observed = none)
    (bound : c.target ≠ .nothing)
    (win : c.content = c.ids .expected → scene.Proceeds level goal code c.won)
    (lose : c.content ≠ c.ids .expected → scene.Proceeds level goal code c.lost) :
    scene.Proceeds level goal (.read .strong :: code) c := by
  apply proceed fit
  intro w call wish turn here shows ran change after
  obtain rfl := Turn.eq_of_givesWay ran .read_strong
  have leads := attempt_leads fit empty bound win lose shows rfl after
  exact leads

/-- A weak exchange that has failed looks again. -/
theorem revisit_leads (fit : scene.Fit) (empty : c.ids .observed = none)
    (differ : c.content ≠ c.ids .expected)
    (lose : scene.Proceeds level goal code { c with ids := update c.ids .expected c.content })
    (shows : scene.Shows c w call) {seen : Ref} (word : call.slot.bind w.word = seen)
    (alone : Alone scene.stalled w (scene.thread level { call with code := .revisit seen :: code })) :
    Leads scene.stalled goal w (scene.thread level { call with code := .revisit seen :: code }) := by
  apply advance fit alone shows.during
  intro wish turn here ran change after
  have other : seen ≠ call.registers.get .expected := by
    rw [← word]
    exact mt (shows.word_eq_iff here).mp differ
  have ids : update (update (update c.ids .observed c.content) .observed none) .expected c.content =
      update c.ids .expected c.content := by
    funext register
    cases register <;> simp [update, empty]
  rw [← ids] at lose
  obtain rfl := Turn.eq_of_givesWay ran (.revisit_differs other)
  have moved : scene.Proceeds level goal (Turn.settled .weak ++ code)
      { c with ids := update c.ids .observed c.content } := move_proceeds fit lose
  have leads := retain_leads fit empty moved shows word after
  exact leads

theorem once_leads (fit : scene.Fit) (empty : c.ids .observed = none)
    (bound : c.target ≠ .nothing)
    (win : c.content = c.ids .expected → scene.Proceeds level goal code c.won)
    (lose : c.content ≠ c.ids .expected → scene.Proceeds level goal code c.lost)
    (shows : scene.Shows c w call) {seen : Ref} (word : call.slot.bind w.word = seen)
    (alone : Alone scene.stalled w (scene.thread level { call with code := .once seen :: code })) :
    Leads scene.stalled goal w (scene.thread level { call with code := .once seen :: code }) := by
  apply advance fit alone shows.during
  intro wish turn here ran change after
  have decides := shows.word_eq_iff here
  rw [word] at decides
  have holds {slot : SlotId} (acts : call.slot = some slot) : w.word slot = seen := by
    rw [← word, acts, Option.bind_some]
  cases Turn.goes_of_run ran with
  | gives_way gives =>
    cases gives with
    | once_idle _ acts => exact absurd (shows.target_eq_nothing acts) bound
    | once_lost acts same lost => exact absurd ⟨(holds acts).trans same, rfl⟩ lost
    | once_differs _ differ =>
      have differ := mt decides.mpr differ
      apply advance fit after shows.during
      intro wish turn here ran change after
      obtain rfl := Turn.eq_of_goes ran (.release .desired)
      let released : Config := { c with ids := update c.ids .desired none }
      have empty : released.ids .observed = none := empty
      have lose : scene.Proceeds level goal code
        { released with ids := update released.ids .expected released.content } := lose differ
      have differ : released.content ≠ released.ids .expected := differ
      have emptied : scene.Shows released w _ := shows.setRegister .desired none rfl
      -- The desired object may be destroyed here, but the word that was seen stays.
      refine discard_leads fit _ { emptied with } (fun heap events shows after => ?_) after
      have leads := revisit_leads fit empty differ lose shows word after
      exact leads
  | once_won acts same won =>
    exact exchange_leads fit empty (win (decides.mp same)) shows here acts won rfl after

theorem weak_proceeds (fit : scene.Fit) (empty : c.ids .observed = none)
    (bound : c.target ≠ .nothing)
    (win : c.content = c.ids .expected → scene.Proceeds level goal code c.won)
    (lose : c.content ≠ c.ids .expected → scene.Proceeds level goal code c.lost) :
    scene.Proceeds level goal (.read .weak :: code) c := by
  apply proceed fit
  intro w call wish turn here shows ran change after
  obtain rfl := Turn.eq_of_givesWay ran .read_weak
  have leads := once_leads fit empty bound win lose shows rfl after
  exact leads

end Scene

end SharedCells.Slot
