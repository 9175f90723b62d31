import Mathlib.Data.List.Forall2
import Mathlib.Data.Set.Function
import SharedCells.Proofs.Cell.Typed

/-! Programs on images of values.

A cell does nothing with its values but compare them and hand them to functions. So if values are
replaced by their images under a map that keeps apart those that may occur, and every function by one
that does the same to the images, then everything in the run is replaced by its image. -/

set_option autoImplicit false

namespace SharedCells

variable {α β : Type}

def Answer.map (f : α → β) : Answer α → Answer β
  | done => done
  | value v => value (f v)
  | compared exchanged expected => compared exchanged (f expected)
  | updated old seen => updated (f old) (seen.map f)
  | unfinished => unfinished
  | text s => text s

def Answer.values : Answer α → List α
  | done | unfinished | text _ => []
  | value v | compared _ v => [v]
  | updated old seen => old :: seen

namespace Action.Line

def map (f : α → β) (line : Line α) : Line β := ⟨line.answer.map (Answer.map f), line.value.map f⟩

/-- The values in the answer, and the value that the cell then holds. -/
def values (line : Line α) : List α :=
  (line.answer.toOption.map Answer.values).getD [] ++ line.value.toOption.toList

end Action.Line

variable (f : α → β) (S : Set α)

/-- The function of the second closure does to images of values in the set what that of the first does
to the values. -/
def Closure.Carried (closure : Closure α) (closure' : Closure β) : Prop :=
  ∀ earlier v, (∀ w ∈ earlier, w ∈ S) → v ∈ S →
    closure' (earlier.map f) (f v) = ((closure earlier v).1.map f, f (closure earlier v).2) ∧
      (∀ w ∈ (closure earlier v).1, w ∈ S) ∧ (closure earlier v).2 ∈ S

/-- The second action is the image of the first, whose values are in the set. -/
inductive Action.Carried : Action α → Action β → Prop where
  | load : Carried .load .load
  | store {v : α} : v ∈ S → Carried (.store v) (.store (f v))
  | exchange {v : α} : v ∈ S → Carried (.exchange v) (.exchange (f v))
  | compareExchange {strength : Strength} {expected desired : α} {success : Order}
      {failure : Option LoadOrder} : expected ∈ S → desired ∈ S →
      Carried (.compareExchange strength expected desired success failure)
        (.compareExchange strength (f expected) (f desired) success failure)
  | compareAndExchange {strength : Strength} {expected desired : α} {success : Order}
      {failure : Option LoadOrder} : expected ∈ S → desired ∈ S →
      Carried (.compareAndExchange strength expected desired success failure)
        (.compareAndExchange strength (f expected) (f desired) success failure)
  | modify {g : α → α} {g' : β → β} : (∀ v ∈ S, g v ∈ S ∧ g' (f v) = f (g v)) →
      Carried (.modify g) (.modify g')
  | update {closure : Closure α} {closure' : Closure β} {rounds : Nat} :
      Closure.Carried f S closure closure' → Carried (.update closure rounds) (.update closure' rounds)

/-- The tries fail alike. -/
def Trial.Carried (trial : Trial α) (trial' : Trial β) : Prop :=
  Action.Carried f S trial.action trial'.action ∧ trial'.spurious = trial.spurious

variable {f S}

theorem Closure.carried_interfering {g : α → α} {g' : β → β} {stores : List α}
    (calls : ∀ v ∈ S, g v ∈ S ∧ g' (f v) = f (g v)) (stored : ∀ v ∈ stores, v ∈ S) :
    Carried f S (.interfering g stores) (.interfering g' (stores.map f)) := by
  intro earlier v _ inside
  refine ⟨?_, fun w found => stored w (List.mem_of_getElem? found), (calls v inside).1⟩
  simp only [interfering, List.length_map, List.getElem?_map, (calls v inside).2]

namespace Variable

/-- An outcome whose values are in the set, and its image. -/
structure Carried (f : α → β) (S : Set α) (outcome : Except Order.Misorder (Answer α) × α)
    (outcome' : Except Order.Misorder (Answer β) × β) : Prop where
  image : outcome' = (outcome.1.map (Answer.map f), f outcome.2)
  answered : ∀ answer, outcome.1 = .ok answer → ∀ v ∈ answer.values, v ∈ S
  held : outcome.2 ∈ S

variable [DecidableEq α] [DecidableEq β] {v expected desired : α}

theorem compareExchange_image (inj : S.InjOn f) (inside : v ∈ S) (wanted : expected ∈ S)
    (strength : Strength) (spurious : Bool) (success : Order) (failure : Option LoadOrder) :
    let outcome := compareExchange strength spurious expected desired success failure v
    compareExchange strength spurious (f expected) (f desired) success failure (f v) =
      (outcome.1.map (Prod.map id f), f outcome.2) := by
  unfold compareExchange
  cases Order.failureOrder success failure with
  | error bad => rfl
  | ok order =>
    simp only [inj.eq_iff inside wanted]
    split <;> rfl

theorem compareExchange_inside (inside : v ∈ S) (wanted : expected ∈ S) (given : desired ∈ S)
    (strength : Strength) (spurious : Bool) (success : Order) (failure : Option LoadOrder) :
    let outcome := compareExchange strength spurious expected desired success failure v
    (∀ result, outcome.1 = .ok result → result.2 ∈ S) ∧ outcome.2 ∈ S := by
  unfold compareExchange
  cases Order.failureOrder success failure with
  | error bad => exact ⟨nofun, inside⟩
  | ok order =>
    dsimp only
    split
    · refine ⟨?_, given⟩
      rintro result ⟨⟩
      exact wanted
    · refine ⟨?_, inside⟩
      rintro result ⟨⟩
      exact inside

theorem update_carried (inj : S.InjOn f) {closure : Closure α} {closure' : Closure β}
    (calls : Closure.Carried f S closure closure') (spurious : Nat → Bool) (rounds : Nat)
    (earlier : List α) (before : ∀ w ∈ earlier, w ∈ S) (inside : v ∈ S) :
    let outcome := update closure spurious rounds earlier v
    update closure' spurious rounds (earlier.map f) (f v) = (outcome.1.map f, f outcome.2) ∧
      (∀ w ∈ outcome.1.values, w ∈ S) ∧ outcome.2 ∈ S := by
  induction rounds generalizing earlier v with
  | zero => exact ⟨rfl, nofun, inside⟩
  | succ rounds ih =>
    obtain ⟨called, stored, desired⟩ := calls earlier v before inside
    have seen : ∀ w ∈ earlier ++ [v], w ∈ S := by
      intro w member
      rcases List.mem_append.mp member with old | new
      · exact before w old
      · exact List.mem_singleton.mp new ▸ inside
    have now : (closure earlier v).1.getD v ∈ S := by
      cases found : (closure earlier v).1 with
      | none => exact inside
      | some w => exact stored w found
    have getD : ((closure earlier v).1.map f).getD (f v) = f ((closure earlier v).1.getD v) := by
      cases (closure earlier v).1 <;> rfl
    have next := ih (earlier ++ [v]) seen now
    simp only [update, called, getD, inj.eq_iff now inside, List.length_map]
    split
    · refine ⟨by simp [Answer.map], ?_, desired⟩
      exact List.forall_mem_cons.mpr ⟨inside, seen⟩
    · simpa only [List.map_append, List.map_singleton] using next

omit [DecidableEq α] [DecidableEq β] in
theorem Carried.of_ok (answer : Answer α) (answered : ∀ w ∈ answer.values, w ∈ S) (held : v ∈ S) :
    Carried f S (.ok answer, v) (.ok (answer.map f), f v) :=
  ⟨rfl, fun _ same => Except.ok.inj same ▸ answered, held⟩

theorem compareExchange_carried (inj : S.InjOn f) (inside : v ∈ S) (wanted : expected ∈ S)
    (given : desired ∈ S) (strength : Strength) (spurious : Bool) (success : Order)
    (failure : Option LoadOrder) {answer : Bool × α → Answer α} {answer' : Bool × β → Answer β}
    (image : ∀ result, answer' (Prod.map id f result) = (answer result).map f)
    (values : ∀ result, (answer result).values = [result.2]) :
    let outcome := compareExchange strength spurious expected desired success failure v
    let outcome' := compareExchange strength spurious (f expected) (f desired) success failure (f v)
    Carried f S (outcome.1.map answer, outcome.2) (outcome'.1.map answer', outcome'.2) := by
  obtain ⟨result, held⟩ :=
    compareExchange_inside inside wanted given strength spurious success failure
  dsimp only
  rw [compareExchange_image inj inside wanted]
  generalize compareExchange strength spurious expected desired success failure v = outcome
    at result held
  obtain ⟨verdict, now⟩ := outcome
  cases verdict with
  | error bad => exact ⟨rfl, nofun, held⟩
  | ok found =>
    have kept : Carried f S (.ok (answer found), now) (.ok ((answer found).map f), f now) :=
      .of_ok _ (by simpa only [values, List.mem_singleton, forall_eq] using result found rfl) held
    rwa [← image] at kept

theorem act_carried (inj : S.InjOn f) (inside : v ∈ S) {trial : Trial α} {trial' : Trial β}
    (carried : Trial.Carried f S trial trial') : Carried f S (act v trial) (act (f v) trial') := by
  obtain ⟨action, spurious⟩ := trial
  obtain ⟨action', spurious'⟩ := trial'
  obtain ⟨carried, same⟩ := carried
  dsimp only at carried same
  subst same
  have one : ∀ w ∈ [v], w ∈ S := fun w member => List.mem_singleton.mp member ▸ inside
  cases carried with
  | load => exact .of_ok (.value v) one inside
  | store given => exact .of_ok .done nofun given
  | exchange given => exact .of_ok (.value v) one given
  | compareExchange wanted given =>
    exact compareExchange_carried inj inside wanted given _ _ _ _ (fun _ => rfl) (fun _ => rfl)
  | compareAndExchange wanted given =>
    exact compareExchange_carried inj inside wanted given _ _ _ _ (fun _ => rfl) (fun _ => rfl)
  | @modify g g' calls =>
    obtain ⟨kept, same⟩ := calls v inside
    have outcome : Carried f S (.ok (.value v), g v) (.ok (.value (f v)), f (g v)) :=
      .of_ok (.value v) one kept
    rwa [← same] at outcome
  | @update closure closure' rounds calls =>
    obtain ⟨image, values, held⟩ := update_carried inj calls spurious' rounds [] nofun inside
    have outcome := Carried.of_ok (f := f) _ values held
    simp only [act]
    rw [List.map_nil] at image
    rwa [image]

/-- The answers of a run and the values that it keeps are in the set, and the run of the images gives
their images. -/
theorem acts_carried (inj : S.InjOn f) (inside : v ∈ S) {trials : List (Trial α)}
    {trials' : List (Trial β)} (carried : List.Forall₂ (Trial.Carried f S) trials trials') :
    List.Forall₂ (Carried f S) (acts v trials).1 (acts (f v) trials').1 ∧
      (acts (f v) trials').2 = f (acts v trials).2 ∧ (acts v trials).2 ∈ S := by
  induction carried generalizing v with
  | nil => exact ⟨.nil, rfl, inside⟩
  | @cons trial trial' rest rest' first _ ih =>
    have head := act_carried inj inside first
    obtain ⟨lines, final, kept⟩ := ih head.held
    simp only [acts, head.image]
    exact ⟨.cons ⟨rfl, head.answered, head.held⟩ lines, final, kept⟩

end Variable

theorem Variable.Carried.line {outcome : Except Order.Misorder (Answer α) × α}
    {outcome' : Except Order.Misorder (Answer β) × β} (carried : Carried f S outcome outcome') :
    Action.Line.ofVariable outcome' = (Action.Line.ofVariable outcome).map f ∧
      ∀ v ∈ (Action.Line.ofVariable outcome).values, v ∈ S := by
  obtain ⟨rfl, answered, held⟩ := carried
  obtain ⟨answer, now⟩ := outcome
  cases answer with
  | error bad =>
    refine ⟨rfl, fun v member => ?_⟩
    rw [List.mem_singleton.mp member]
    exact held
  | ok answer =>
    refine ⟨rfl, fun v member => ?_⟩
    rcases List.mem_append.mp member with inside | last
    · exact answered answer rfl v inside
    · rw [List.mem_singleton.mp last]
      exact held

theorem Variable.lines_carried {lines : List (Except Order.Misorder (Answer α) × α)}
    {lines' : List (Except Order.Misorder (Answer β) × β)}
    (carried : List.Forall₂ (Carried f S) lines lines') :
    lines'.map Action.Line.ofVariable = (lines.map Action.Line.ofVariable).map (Action.Line.map f) ∧
      ∀ line ∈ lines.map Action.Line.ofVariable, ∀ v ∈ line.values, v ∈ S := by
  induction carried with
  | nil => exact ⟨rfl, nofun⟩
  | cons first _ ih =>
    obtain ⟨image, values⟩ := first.line
    simp only [List.map_cons, image, ih.1, List.forall_mem_cons]
    exact ⟨trivial, values, ih.2⟩

/-- A plain cell, and one that is used in the same way with images for values. -/
theorem Trial.runAll_carried [DecidableEq α] [DecidableEq β] (inj : S.InjOn f) {v : α} (inside : v ∈ S)
    {trials : List (Trial α)} {trials' : List (Trial β)}
    (carried : List.Forall₂ (Trial.Carried f S) trials trials') :
    let run := runAll (.plain α) v trials
    runAll (.plain β) (f v) trials' = (run.1.map (Action.Line.map f), f run.2) ∧
      (∀ line ∈ run.1, ∀ w ∈ line.values, w ∈ S) ∧ run.2 ∈ S := by
  obtain ⟨lines, final, kept⟩ := Variable.acts_carried inj inside carried
  obtain ⟨images, values⟩ := Variable.lines_carried lines
  have one : runAll (.plain α) v trials = _ := runAll_encode (Encoding.plain_lawful α) v trials
  have two : runAll (.plain β) (f v) trials' = _ :=
    runAll_encode (Encoding.plain_lawful β) (f v) trials'
  rw [one, two, images, final]
  exact ⟨rfl, values, kept⟩

end SharedCells
