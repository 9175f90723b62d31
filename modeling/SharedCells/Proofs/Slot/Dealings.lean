import SharedCells.Proofs.Slot.Publications
import SharedCells.Proofs.Slot.Solitude
import SharedCells.Proofs.Slot.Verdict

/-! What a call itself does to references.

Objects are told by their numbers. What the levels above a call do, such as the
destruction of an object that the call has released, is not the call's own. -/

set_option autoImplicit false

namespace SharedCells.Slot

/-- What a call does in one of its own steps. -/
inductive Dealing where
  /-- Counts a reference to an object that its slot holds at that moment. -/
  | loaded (id : Nat)
  /-- Counts a reference to an object that is not sure to be in its slot. -/
  | retained (id : Nat)
  | released (id : Nat)
  /-- Is given a value: one that the command passes, or that the updating function returns. -/
  | received (object : Option Nat)
  /-- Calls the updating function. -/
  | called (current : Option Nat)
  /-- Exchanges the word of its slot. -/
  | exchanged (old new : Option Nat)
  /-- Compares once more what its slot held with the expected object. -/
  | looked
  deriving DecidableEq, Repr

namespace Dealing

def loads (object : Option Nat) : List Dealing := object.toList.map loaded

def retains (object : Option Nat) : List Dealing := object.toList.map retained

def releases (object : Option Nat) : List Dealing := object.toList.map released

/-- The object to which one more reference is counted. -/
def counted? : Dealing → Option Nat
  | loaded id | retained id => some id
  | received object => object
  | _ => none

def released? : Dealing → Option Nat
  | released id => some id
  | _ => none

def isExchange : Dealing → Bool
  | exchanged _ _ => true
  | _ => false

variable (object : Option Nat)

@[simp] theorem countP_loads : (loads object).countP isExchange = 0 := by cases object <;> rfl

@[simp] theorem countP_retains : (retains object).countP isExchange = 0 := by cases object <;> rfl

@[simp] theorem countP_releases : (releases object).countP isExchange = 0 := by cases object <;> rfl

end Dealing

/-- What a value is, before it is taken from where it is. -/
def Value.object (w : World) : Value → Option Nat
  | .nothing => none
  | .copy handle | .take handle => w.objectId (w.handles.get? handle)
  | .fresh _ => some (w.heap.created + 1)

open Dealing in
/-- What a call does by an instruction. -/
def Instruction.dealings (choice : Choice) (t : Turn) (i : Instruction) : List Dealing :=
  match i with
  | .evaluate v _ => [received (v.object t.world)]
  | .copy source target =>
    if target = .desired then [received (t.world.objectId (t.get source))]
    else retains (t.world.objectId (t.get source))
  | .drop addr => releases (t.world.objectId (some addr))
  | .pay addr (.retain _) => retains (t.world.objectId (some addr))
  | .increment _ debt =>
    if t.word = some debt.addr then loads (t.world.objectId (some debt.addr))
    else retains (t.world.objectId (some debt.addr))
  | .peek keep => if keep then loads (t.world.objectId t.word) else []
  | .revisit _ => [looked]
  | .consult _ _ => [called (t.world.objectId (t.get .expected))]
  | i => (i.stores choice t).toList.map fun slot =>
      exchanged (t.world.objectId (t.world.word slot)) (t.world.objectId (t.get .desired))

theorem Instruction.dealings_of_stores {choice : Choice} {t : Turn} {i : Instruction} {slot : SlotId}
    (stores : i.stores choice t = some slot) : i.dealings choice t =
      [.exchanged (t.world.objectId (t.world.word slot)) (t.world.objectId (t.get .desired))] := by
  have told (found : i.dealings choice t = (i.stores choice t).toList.map fun slot =>
      .exchanged (t.world.objectId (t.world.word slot)) (t.world.objectId (t.get .desired))) :
      i.dealings choice t =
        [.exchanged (t.world.objectId (t.world.word slot)) (t.world.objectId (t.get .desired))] := by
    rw [found, stores]
    rfl
  cases i with
  | swap | attempt | once => exact told rfl
  | _ => contradiction

open Dealing in
theorem Instruction.countP_dealings {choice : Choice} {t : Turn} {i : Instruction} :
    (i.dealings choice t).countP Dealing.isExchange = (i.stores choice t).toList.length := by
  have stored (found : i.dealings choice t = (i.stores choice t).toList.map fun slot =>
      .exchanged (t.world.objectId (t.world.word slot)) (t.world.objectId (t.get .desired))) :
      (i.dealings choice t).countP Dealing.isExchange = (i.stores choice t).toList.length := by
    rw [found, List.countP_map]
    exact List.countP_eq_length.mpr fun _ _ => rfl
  cases i with
  | copy source target =>
    unfold dealings
    dsimp only
    split
    · rfl
    · exact countP_retains _
  | drop addr => exact countP_releases _
  | pay addr payment =>
    cases payment with
    | retain p => exact countP_retains _
    | _ => exact stored rfl
  | increment purpose debt =>
    unfold dealings
    dsimp only
    split
    · exact countP_loads _
    · exact countP_retains _
  | peek keep =>
    unfold dealings
    dsimp only
    split
    · exact countP_loads _
    · rfl
  | evaluate | revisit | consult => rfl
  | _ => exact stored rfl

/-- The counts have changed as the dealings say. -/
def Accounts (dealings : List Dealing) (h h' : Heap (List Command)) : Prop :=
  ∀ addr object, h.find? addr = some object → ∃ object', h'.find? addr = some object' ∧
    object'.id = object.id ∧ object'.count + (dealings.filterMap Dealing.released?).count object.id =
      object.count + (dealings.filterMap Dealing.counted?).count object.id

namespace Accounts

open Dealing Heap

variable {dealings : List Dealing} {h h' : Heap (List Command)} {addr : Addr}

theorem refl (gone : dealings.filterMap released? = []) (new : dealings.filterMap counted? = []) :
    Accounts dealings h h := fun addr object found => ⟨object, found, rfl, by rw [gone, new]⟩

theorem trans {more : List Dealing} {h₁ : Heap (List Command)} (first : Accounts dealings h h₁)
    (second : Accounts more h₁ h') : Accounts (dealings ++ more) h h' := by
  intro addr object found
  obtain ⟨object₁, found₁, same₁, count₁⟩ := first addr object found
  obtain ⟨object', found', same', count'⟩ := second addr object₁ found₁
  refine ⟨object', found', same'.trans same₁, ?_⟩
  rw [same₁] at count'
  rw [List.filterMap_append, List.filterMap_append, List.count_append, List.count_append]
  omega

theorem count_singleton {other : Addr} {object object' : Object (List Command)}
    (numbered : h.Numbered) (found : h.find? addr = some object)
    (found' : h.find? other = some object') :
    [object.id].count object'.id = if other = addr then 1 else 0 := by
  rw [List.count_singleton]
  by_cases same : other = addr
  · subst same
    obtain rfl := Option.some.inj (found.symm.trans found')
    simp
  · have differ : object.id ≠ object'.id := fun equal =>
      same (numbered.unique other addr object' object found' found equal.symm)
    simp [same, differ]

theorem retain (numbered : h.Numbered) (retained : h.retain? addr = some h')
    (gone : dealings.filterMap released? = [])
    (new : dealings.filterMap counted? = ((h.find? addr).map (·.id)).toList) :
    Accounts dealings h h' := by
  obtain ⟨object, live, rfl⟩ := retain?_eq_some_iff.mp retained
  obtain ⟨there, -⟩ := live?_eq_some_iff.mp live
  intro other object' found
  rw [gone, new, there, Option.map_some, Option.toList_some, count_singleton numbered there found,
    find?_set]
  by_cases same : other = addr
  · subst same
    obtain rfl := Option.some.inj (there.symm.trans found)
    refine ⟨{ object with count := object.count + 1 }, ?_, rfl, ?_⟩
    · rw [if_pos rfl, there, Option.map_some]
    · rw [if_pos rfl]
      rfl
  · exact ⟨object', by rw [if_neg same, found], rfl, by rw [if_neg same]; rfl⟩

theorem release {left : Object (List Command)} (numbered : h.Numbered)
    (released : h.release? addr = some (left, h'))
    (gone : dealings.filterMap released? = ((h.find? addr).map (·.id)).toList)
    (new : dealings.filterMap counted? = []) : Accounts dealings h h' := by
  obtain ⟨object, live, rfl, rfl⟩ := release?_eq_some_iff.mp released
  obtain ⟨there, positive⟩ := live?_eq_some_iff.mp live
  intro other object' found
  rw [gone, new, there, Option.map_some, Option.toList_some, count_singleton numbered there found,
    find?_set]
  by_cases same : other = addr
  · subst same
    obtain rfl := Option.some.inj (there.symm.trans found)
    refine ⟨{ object with count := object.count - 1 }, ?_, rfl, ?_⟩
    · rw [if_pos rfl, there, Option.map_some]
    · rw [if_pos rfl]
      exact Nat.sub_add_cancel positive
  · exact ⟨object', by rw [if_neg same, found], rfl, by rw [if_neg same]; rfl⟩

theorem create (numbered : h.Numbered) (bounded : h.Bounded) (wish : Option Addr)
    (onDrop : List Command) (gone : dealings.filterMap released? = [])
    (new : dealings.filterMap counted? = [h.created + 1]) :
    Accounts dealings h (h.create wish onDrop).2 := by
  intro other object found
  have older : h.created + 1 ≠ object.id := by
    have le := numbered.le other object found
    omega
  have elsewhere : other ≠ (h.create wish onDrop).1 := by
    rintro rfl
    rw [find?_create_address h bounded wish onDrop] at found
    contradiction
  refine ⟨object, by rw [find?_create, if_neg elsewhere, found], rfl, ?_⟩
  rw [gone, new, List.count_singleton, if_neg (by simpa using older)]
  rfl

end Accounts

namespace Turn

open Dealing

variable {t t' : Turn} {choice : Choice} {inUse : SlotId → Bool} {i : Instruction}
  {dealings : List Dealing}

theorem retainInto_accounts {s : Turn} {register : Register} {ref : Ref}
    (numbered : t.world.heap.Numbered) (ran : s.retainInto register ref = .ok t')
    (same : s.world.heap = t.world.heap) (gone : dealings.filterMap released? = [])
    (new : dealings.filterMap counted? = (t.world.objectId ref).toList) :
    Accounts dealings t.world.heap t'.world.heap := by
  rcases retainInto_cases ran with ⟨rfl, rfl⟩ | ⟨addr, heap, rfl, retained, rfl⟩
  · rw [show (s.assign register none).world.heap = t.world.heap from same]
    exact .refl gone new
  · rw [same] at retained
    exact .retain numbered retained gone new

theorem live_of_retainInto {register : Register} {addr : Addr}
    (ran : t.retainInto register (some addr) = .ok t') :
    ∃ object, t.world.heap.live? addr = some object := by
  rcases retainInto_cases ran with ⟨none, -⟩ | ⟨addr, heap, same, retained, -⟩
  · contradiction
  · obtain rfl := Option.some.inj same
    obtain ⟨object, live, -⟩ := Heap.retain?_eq_some_iff.mp retained
    exact ⟨object, live⟩

/-- The dealings tell how the counts change in a step. A value that is taken out of a handle is
received as it is counted there. -/
theorem run_accounts (numbered : t.world.heap.Numbered) (bounded : t.world.heap.Bounded)
    (counted : ∀ handle into, i ≠ .evaluate (.take handle) into)
    (ran : t.run choice inUse i = .ok t') :
    Accounts (i.dealings choice t) t.world.heap t'.world.heap := by
  have toList (object : Option Nat) : (object.toList.filterMap some) = object.toList := by
    cases object <;> rfl
  have stored {slot : Option SlotId} {old new : SlotId → Option Nat} :
      ((slot.toList.map fun slot => exchanged (old slot) (new slot)).filterMap released? = [] ∧
        (slot.toList.map fun slot => exchanged (old slot) (new slot)).filterMap counted? = []) := by
    cases slot <;> exact ⟨rfl, rfl⟩
  have counts (object : Option Nat) : (loads object).filterMap released? = [] ∧
      (retains object).filterMap released? = [] ∧
      (loads object).filterMap counted? = object.toList ∧
      (retains object).filterMap counted? = object.toList := by
    cases object <;> exact ⟨rfl, rfl, rfl, rfl⟩
  cases goes_of_run ran with
  | gives_way gives =>
    cases gives with
    | swap_idle | attempt_idle | attempt_lost | attempt_differs | once_idle | once_lost | once_differs =>
      exact .refl stored.1 stored.2
    | _ => exact .refl rfl rfl
  | swap | attempt_won | once_won => exact .refl stored.1 stored.2
  | handle_take handle into => exact absurd rfl (counted handle into)
  | fresh onDrop => exact .create numbered bounded choice.addr onDrop rfl rfl
  | handle_copy ran =>
    refine retainInto_accounts numbered ran rfl rfl ?_
    rw [Instruction.dealings, Value.object]
    cases t.world.objectId (t.world.handles.get? _) <;> rfl
  | copy ran =>
    refine retainInto_accounts numbered ran rfl ?_ ?_ <;> rw [Instruction.dealings] <;> split
    · rfl
    · exact (counts _).2.1
    · cases t.world.objectId (t.get _) <;> rfl
    · exact (counts _).2.2.2
  | increment ran =>
    refine retainInto_accounts numbered ran rfl ?_ ?_ <;> rw [Instruction.dealings] <;> split
    · exact (counts _).1
    · exact (counts _).2.1
    · exact (counts _).2.2.1
    · exact (counts _).2.2.2
  | peek_empty keep empty =>
    rw [Instruction.dealings, empty]
    cases keep <;> exact .refl rfl rfl
  | peek_kept word _ ran =>
    rw [Instruction.dealings, if_pos rfl, word]
    exact retainInto_accounts numbered ran rfl (counts _).1 (counts _).2.2.1
  | @drop addr _ _ released =>
    refine .release numbered released ?_ ?_ <;> rw [Instruction.dealings, releases, World.objectId,
      Option.bind_some] <;> cases (t.world.heap.find? addr).map (·.id) <;> rfl
  | pay_retain _ retained => exact .retain numbered retained (counts _).2.1 (counts _).2.2.2
  | _ => exact .refl rfl rfl

end Turn

namespace Moment

/-- What the call on a level of thread `i` does in the step, if the step is its own. -/
def dealings (moment : Moment) (i depth : Nat) : List Dealing :=
  match moment.call? i depth with
  | none => []
  | some call =>
    match call.code with
    | [] => []
    | instruction :: code =>
      instruction.dealings moment.choice { world := moment.before.world, call := { call with code } }

variable {moment : Moment} {i depth : Nat}

theorem dealings_of_waits (waits : moment.call? i depth = none) : moment.dealings i depth = [] := by
  rw [dealings, waits]

theorem dealings_of_acts {call : Call} {instruction : Instruction} {code : List Instruction}
    (acts : moment.call? i depth = some call) (head : call.code = instruction :: code) :
    moment.dealings i depth = instruction.dealings moment.choice
      { world := moment.before.world, call := { call with code } } := by
  rw [dealings, acts]
  dsimp only
  rw [head]

/-- A step in which the call exchanges the word of a slot is told. -/
theorem dealings_of_stores {slot : SlotId} (stores : moment.stores i depth = some slot) :
    ∃ old new, moment.dealings i depth = [.exchanged old new] := by
  obtain ⟨call, acts, stores⟩ := Option.bind_eq_some_iff.mp stores
  cases head : call.code with
  | nil =>
    rw [head] at stores
    contradiction
  | cons instruction code =>
    rw [head] at stores
    exact ⟨_, _, (dealings_of_acts acts head).trans (Instruction.dealings_of_stores stores)⟩

theorem countP_dealings :
    (moment.dealings i depth).countP Dealing.isExchange = (moment.stores i depth).toList.length := by
  unfold dealings stores
  cases moment.call? i depth with
  | none => rfl
  | some call =>
    dsimp only [Option.bind_some]
    cases call.code with
    | nil => rfl
    | cons instruction code => exact Instruction.countP_dealings

end Moment

namespace Machine

/-- What the call on a level of thread `i` does in the course of a schedule. -/
def dealings (m : Machine) (schedule : List (Nat × Choice)) (i depth : Nat) : List Dealing :=
  (m.moments schedule).flatMap (·.dealings i depth)

variable {m m' : Machine} {i depth : Nat} {schedule later : List (Nat × Choice)}

theorem dealings_append (ran : m.run schedule = .ok m') :
    m.dealings (schedule ++ later) i depth =
      m.dealings schedule i depth ++ m'.dealings later i depth := by
  rw [dealings, moments_append ran, List.flatMap_append]
  rfl

theorem length_writes :
    (m.writes schedule i depth).length = (m.dealings schedule i depth).countP Dealing.isExchange := by
  rw [writes, dealings]
  induction m.moments schedule with
  | nil => rfl
  | cons moment moments ih =>
    rw [List.flatMap_cons, List.countP_append, Moment.countP_dealings, List.filter_cons, ← ih]
    cases moment.stores i depth with
    | none => exact (Nat.zero_add _).symm
    | some slot => exact Nat.add_comm _ _

/-- A call that exchanges no word leaves all slots as they are. -/
theorem words_of_dealings (sound : m.Sound)
    (quiet : ∀ old new, .exchanged old new ∉ m.dealings schedule i depth) {moment : Moment}
    (member : moment ∈ m.moments schedule) (own : (moment.call? i depth).isSome) {slot : SlotId}
    (there : slot < moment.before.world.words.length) :
    moment.after.world.word slot = moment.before.world.word slot := by
  obtain ⟨sound, stepped⟩ := mem_moments sound member
  obtain ⟨call, acts⟩ := Option.isSome_iff_exists.mp own
  refine step_words sound stepped acts ?_ there
  refine Option.eq_none_iff_forall_ne_some.mpr fun slot stores => ?_
  obtain ⟨old, new, dealt⟩ := Moment.dealings_of_stores stores
  exact quiet old new (List.mem_flatMap.mpr ⟨moment, member, dealt ▸ List.mem_cons_self⟩)

/-- A call that is not told to retain anything else counts references to what its slot holds at that
moment. -/
theorem holds_of_dealings (sound : m.Sound)
    (quiet : ∀ id, .retained id ∉ m.dealings schedule i depth) {moment : Moment}
    (member : moment ∈ m.moments schedule) {call : Call} {purpose : Purpose} {debt : Registry.Debt}
    {code : List Instruction} (acts : moment.call? i depth = some call)
    (head : call.code = .increment purpose debt :: code) :
    call.slot.bind moment.before.world.word = some debt.addr := by
  by_contra differs
  obtain ⟨sound, stepped⟩ := mem_moments sound member
  rcases step_callAt sound stepped (callAt_of_acts acts) with ⟨-, -, goes⟩ | ⟨waits, -⟩
  · obtain ⟨inUse, turn, -, ran, -⟩ := goes _ code head
    have ran : (Turn.before { world := moment.before.world, call := { call with code } }
      [.settle purpose debt .withdraw]).retainInto .observed (some debt.addr) = .ok turn := ran
    obtain ⟨object, live⟩ : ∃ object, moment.before.world.heap.live? debt.addr = some object :=
      Turn.live_of_retainInto ran
    have names : moment.before.world.objectId (some debt.addr) = some object.id := by
      rw [World.objectId, Option.bind_some, (Heap.live?_eq_some_iff.mp live).1]
      rfl
    have dealt : moment.dealings i depth = Dealing.retains (moment.before.world.objectId (some debt.addr)) :=
      (Moment.dealings_of_acts acts head).trans (if_neg differs)
    rw [names] at dealt
    exact quiet object.id (List.mem_flatMap.mpr ⟨moment, member, dealt ▸ List.mem_cons_self⟩)
  · rw [waits] at acts
    contradiction

end Machine

end SharedCells.Slot
