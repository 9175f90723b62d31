import SharedCells.Proofs.Slot.Moves
import SharedCells.Proofs.Slot.Stores
import SharedCells.Proofs.Table

/-! No slot is forgotten while it holds something.

A slot that holds a reference either has a name or is in the hands of a call
that has just taken its name away and will exchange its word for nothing. A call
writes to a slot only in that case or while the slot is in use by it, so nothing
is put into a slot that nobody can reach. -/

set_option autoImplicit false

namespace SharedCells.Slot

/-- The code writes to no slot. -/
def Still (code : List Instruction) : Prop := ∀ i ∈ code, ¬ i.Writes

/-- The slot that a new one displaces is emptied at once. -/
def Prepared : List Instruction → Prop
  | [] => True
  | i :: code =>
    (∀ name, i = .createSlot name → ∃ rest, code = .swap :: rest ∧ Still rest) ∧ Prepared code

/-- The call is about to take out what the slot holds. -/
def Call.Clears (call : Call) (slot : SlotId) : Prop :=
  call.slot = some slot ∧ call.registers.desired = none ∧ ∃ rest, call.code = .swap :: rest

/-- A call writes to the slot that it has named, or puts nothing into another and is done. -/
structure Call.Moored (call : Call) : Prop where
  writes : call.slot = call.named ∨ Still call.code ∨
    call.registers.desired = none ∧ ∃ rest, call.code = .swap :: rest ∧ Still rest
  prepared : Prepared call.code
  sweeps : .dropNext ∈ call.code →
    call.registers.desired = none ∧ Still call.code.tail ∧ ∀ i ∈ call.code, i.Sweeps

/-- All calls and slots together. -/
structure Moored (w : World) (calls : List Call) : Prop where
  names : w.slots.names.Nodup
  named : ∀ call ∈ calls, ∀ slot, call.named = some slot → ∃ name, (name, slot) ∈ w.slots
  held : ∀ slot addr, w.word slot = some addr →
    (∃ name, (name, slot) ∈ w.slots) ∨ ∃ call ∈ calls, call.Clears slot
  calls : ∀ call ∈ calls, call.Moored

theorem Still.append {new code : List Instruction} (still : Still new) (still' : Still code) :
    Still (new ++ code) := fun i member =>
  (List.mem_append.mp member).elim (still i) (still' i)

theorem Prepared.append {new code : List Instruction} (prepared : Prepared code)
    (creates : ∀ name, .createSlot name ∉ new) : Prepared (new ++ code) := by
  induction new with
  | nil => exact prepared
  | cons i rest ih =>
    refine ⟨fun name same => ?_, ih fun name member => creates name (List.mem_cons_of_mem _ member)⟩
    exact absurd (same ▸ List.mem_cons_self) (creates name)

section Follows

variable {i : Instruction} {new code : List Instruction}

theorem Instruction.Follows.still (follows : i.Follows new) (rests : ¬ i.Writes) : Still new :=
  fun j member writes => rests (follows.writes j member writes).1

theorem Instruction.Follows.still_of_sweeps (follows : i.Follows new) (sweeps : i.Sweeps) :
    Still new := fun j member writes => (follows.writes j member writes).2 sweeps

theorem Instruction.Follows.not_creates (follows : i.Follows new) (name : String) :
    .createSlot name ∉ new := fun member => by
  obtain ⟨rfl, same⟩ := follows.given _ member trivial
  contradiction

end Follows

namespace Turn.Passes

variable {choice : Choice} {i : Instruction} {w : World} {call : Call} {code new : List Instruction}
  {t' : Turn}

/-- A call stays moored when an instruction displaces no slot. -/
theorem moored (passes : Passes choice i { world := w, call := { call with code } } t' new)
    (head : call.code = i :: code) (moored : call.Moored) : t'.call.Moored where
  writes := by
    rcases moored.writes with own | still | ⟨empty, rest, swaps, still⟩
    · exact .inl (passes.slot.trans (own.trans passes.named.symm))
    · rw [head] at still
      refine .inr (.inl ?_)
      rw [passes.code]
      exact (passes.follows.still (still i List.mem_cons_self)).append
        fun j member => still j (List.mem_cons_of_mem _ member)
    · rw [head, List.cons.injEq] at swaps
      obtain ⟨rfl, rfl⟩ := swaps
      refine .inr (.inl ?_)
      rw [passes.code]
      exact (passes.follows.still_of_sweeps trivial).append still
  prepared := by
    have prepared := moored.prepared
    rw [head] at prepared
    rw [passes.code]
    exact prepared.2.append passes.follows.not_creates
  sweeps member := by
    have inside : .dropNext ∈ call.code := by
      rw [head]
      rw [passes.code] at member
      rcases List.mem_append.mp member with fresh | old
      · rw [(passes.follows.given _ fresh trivial).1]
        exact List.mem_cons_self
      · exact List.mem_cons_of_mem _ old
    obtain ⟨empty, still, sweeps⟩ := moored.sweeps inside
    rw [head] at still sweeps
    have sweep := sweeps i List.mem_cons_self
    refine ⟨passes.desired sweep empty, fun j inside => ?_, fun j inside => ?_⟩
    · exact (passes.follows.still_of_sweeps sweep).append still j
        (passes.code ▸ List.mem_of_mem_tail inside)
    · rw [passes.code] at inside
      exact (List.mem_append.mp inside).elim (passes.follows.sweeps sweep j)
        fun old => sweeps j (List.mem_cons_of_mem _ old)

end Turn.Passes

namespace Moored

variable {w : World} {call : Call} {calls rest : List Call} {inUse : SlotId → Bool}
  {choice : Choice} {i : Instruction} {code new : List Instruction} {turn : Turn} {name : String}

/-- Every slot that a call has named is in use. -/
def Covers (inUse : SlotId → Bool) (calls : List Call) : Prop :=
  ∀ call ∈ calls, ∀ slot, call.named = some slot → inUse slot = true

theorem named_elsewhere (moored : Moored w calls) (covers : Covers inUse calls) {name : String}
    (unused : ∀ slot, (name, slot) ∈ w.slots → inUse slot = false) :
    ∀ call ∈ calls, ∀ slot, call.named = some slot → ∃ other, other ≠ name ∧ (other, slot) ∈ w.slots := by
  intro call member slot named
  obtain ⟨other, there⟩ := moored.named call member slot named
  refine ⟨other, ?_, there⟩
  rintro rfl
  exact absurd ((covers call member slot named).symm.trans (unused slot there)) nofun

theorem passed (moored : Moored w (call :: rest)) (head : call.code = i :: code)
    (passes : Turn.Passes choice i { world := w, call := { call with code } } turn new) :
    Moored turn.world (turn.call :: rest) where
  names := passes.slots ▸ moored.names
  named other member slot named := by
    rw [passes.slots]
    rcases List.mem_cons.mp member with rfl | member
    · exact moored.named call List.mem_cons_self slot (passes.named ▸ named)
    · exact moored.named other (List.mem_cons_of_mem _ member) slot named
  held slot addr word := by
    rw [passes.slots]
    -- A call that clears a slot does so with its next instruction.
    have others (still : w.word slot = some addr)
        (differs : i = .swap → call.slot ≠ some slot) :
        (∃ name, (name, slot) ∈ w.slots) ∨ ∃ c ∈ turn.call :: rest, c.Clears slot := by
      rcases moored.held slot addr still with found | ⟨c, member, clears⟩
      · exact .inl found
      · rcases List.mem_cons.mp member with rfl | member
        · obtain ⟨acts, -, code', swaps⟩ := clears
          rw [head, List.cons.injEq] at swaps
          exact absurd acts (differs swaps.1)
        · exact .inr ⟨c, List.mem_cons_of_mem _ member, clears⟩
    have words := passes.words
    unfold World.word at word
    cases stores : i.stores choice { world := w, call := { call with code } } with
    | none =>
      rw [stores] at words
      rw [words] at word
      refine others word ?_
      rintro rfl acts
      exact absurd (stores.symm.trans acts) nofun
    | some target =>
      rw [stores] at words
      rw [words] at word
      obtain ⟨acts, writes⟩ := Instruction.stores_eq_some stores
      by_cases same : target = slot
      · subst same
        have desired : call.registers.desired ≠ none := by
          intro none
          have empty : ({ world := w, call := { call with code } } : Turn).get .desired = .none := none
          rw [empty, List.getElem?_set_self'] at word
          cases there : w.words[target]? <;> simp [there] at word
        refine .inl (moored.named call List.mem_cons_self target ?_)
        rcases (moored.calls call List.mem_cons_self).writes with own | still | ⟨empty, -⟩
        · exact own ▸ acts
        · exact absurd writes (still i (head ▸ List.mem_cons_self))
        · exact absurd empty desired
      · rw [List.getElem?_set_ne same] at word
        refine others word fun _ acts' => same ?_
        exact Option.some.inj (acts.symm.trans acts')
  calls other member := by
    rcases List.mem_cons.mp member with rfl | member
    · exact passes.moored head (moored.calls call List.mem_cons_self)
    · exact moored.calls other (List.mem_cons_of_mem _ member)

/-- A name is taken away from a slot by a call that clears the slot next. -/
theorem displace {w' : World} (moored : Moored w calls)
    (elsewhere : ∀ call ∈ calls, ∀ slot, call.named = some slot →
      ∃ other, other ≠ name ∧ (other, slot) ∈ w.slots)
    (within : ∀ other ∈ rest, other ∈ calls)
    (clearing : ∀ other ∈ calls, ∀ slot, other.Clears slot → other ∈ rest)
    (names : w'.slots.names.Nodup)
    (stays : ∀ other slot, other ≠ name → (other, slot) ∈ w.slots → (other, slot) ∈ w'.slots)
    (words : ∀ slot addr, w'.word slot = some addr →
      w.word slot = some addr ∨ ∃ name, (name, slot) ∈ w'.slots)
    (named : ∀ slot, call.named = some slot → ∃ other ∈ calls, other.named = some slot)
    (clears : ∀ slot, (name, slot) ∈ w.slots → call.Clears slot) (sane : call.Moored) :
    Moored w' (call :: rest) where
  names := names
  named other member slot is_named := by
    obtain ⟨old, inside, same⟩ : ∃ old ∈ calls, old.named = some slot := by
      rcases List.mem_cons.mp member with rfl | member
      · exact named slot is_named
      · exact ⟨other, within other member, is_named⟩
    obtain ⟨other, ne, there⟩ := elsewhere old inside slot same
    exact ⟨other, stays other slot ne there⟩
  held slot addr word := by
    rcases words slot addr word with still | found
    · rcases moored.held slot addr still with ⟨other, there⟩ | ⟨other, member, clear⟩
      · by_cases same : other = name
        · exact .inr ⟨call, List.mem_cons_self, clears slot (same ▸ there)⟩
        · exact .inl ⟨other, stays other slot same there⟩
      · exact .inr ⟨other, List.mem_cons_of_mem _ (clearing other member slot clear), clear⟩
    · exact .inl found
  calls other member := by
    rcases List.mem_cons.mp member with rfl | member
    · exact sane
    · exact moored.calls other (within other member)

/-- Only a call whose next instruction is an exchange clears a slot. -/
theorem clearing_of_head (head : call.code = i :: code) (differs : i ≠ .swap) :
    ∀ other ∈ call :: rest, ∀ slot, other.Clears slot → other ∈ rest := by
  intro other member slot clears
  rcases List.mem_cons.mp member with rfl | member
  · obtain ⟨-, -, code', swaps⟩ := clears
    rw [head, List.cons.injEq] at swaps
    exact absurd swaps.1 differs
  · exact member

theorem ended {call' : Call} (moored : Moored w (call :: rest)) (head : call.code = i :: code)
    (differs : i ≠ .swap) (named : call'.named = call.named) (ended : call'.code = []) :
    Moored w (call' :: rest) where
  names := moored.names
  named other member slot named' := by
    rcases List.mem_cons.mp member with rfl | member
    · exact moored.named call List.mem_cons_self slot (named ▸ named')
    · exact moored.named other (List.mem_cons_of_mem _ member) slot named'
  held slot addr word := by
    refine (moored.held slot addr word).imp_right fun ⟨other, member, clears⟩ => ?_
    exact ⟨other, List.mem_cons_of_mem _ (clearing_of_head head differs other member slot clears), clears⟩
  calls other member := by
    rcases List.mem_cons.mp member with rfl | member
    · refine ⟨.inr (.inl ?_), ?_, fun drops => ?_⟩
      · rw [ended]
        exact fun j member => absurd member List.not_mem_nil
      · rw [ended]
        trivial
      · rw [ended] at drops
        exact absurd drops List.not_mem_nil
    · exact moored.calls other (List.mem_cons_of_mem _ member)

/-- The slot that has had the name of a new one is cleared by the exchange that comes next. -/
theorem created {w' : World} {call' : Call} {ref : Ref} (moored : Moored w (call :: rest))
    (covers : Covers inUse (call :: rest)) (head : call.code = .createSlot name :: code)
    (unused : (w.slots.get? name).any inUse = false) (words : w'.words = w.words ++ [ref])
    (slots : w'.slots = w.slots.put name w.words.length) (slot : call'.slot = w.slots.get? name)
    (named : call'.named = call.named) (codes : call'.code = code)
    (empty : call'.registers.desired = none) : Moored w' (call' :: rest) := by
  have sane := moored.calls call List.mem_cons_self
  have prepared := sane.prepared
  rw [head] at prepared
  obtain ⟨rest', swaps, still⟩ := prepared.1 name rfl
  have swaps' : call'.code = .swap :: rest' := codes.trans swaps
  have elsewhere := moored.named_elsewhere covers fun slot there => by
    rw [Table.get?_of_mem _ _ _ moored.names there] at unused
    exact unused
  refine moored.displace elsewhere (fun _ => List.mem_cons_of_mem _)
    (clearing_of_head head (by simp)) (slots ▸ Table.nodup_put _ _ _ moored.names) ?_ ?_ ?_ ?_ ?_
  · intro other slot ne there
    rw [slots, (Table.perm_put _ _ _).mem_iff]
    exact List.mem_cons_of_mem _ ((Table.mem_erase _ _).mpr ⟨there, ne⟩)
  · intro slot addr word
    rw [World.word_append words] at word
    split at word
    · next last =>
      refine .inr ⟨name, ?_⟩
      rw [slots, (Table.perm_put _ _ _).mem_iff, last]
      exact List.mem_cons_self
    · exact .inl word
  · exact fun slot named' => ⟨call, List.mem_cons_self, named ▸ named'⟩
  · intro old there
    have found := Table.get?_of_mem _ _ _ moored.names there
    exact ⟨slot.trans found, empty, rest', swaps'⟩
  · refine ⟨.inr (.inr ⟨empty, rest', swaps', still⟩), codes ▸ prepared.2, fun drops => ?_⟩
    rw [codes] at drops
    have sweeps := (sane.sweeps (head ▸ List.mem_cons_of_mem _ drops)).2.2
    rw [head] at sweeps
    exact (sweeps _ List.mem_cons_self).elim

/-- A call that drops everything has no desired value, so its exchange clears the slot. -/
theorem unbound {w' : World} {call' : Call} {slot : SlotId} (moored : Moored w (call :: rest))
    (covers : Covers inUse (call :: rest)) (head : call.code = .dropNext :: code)
    (there : (name, slot) ∈ w.slots) (unused : inUse slot = false) (words : w'.words = w.words)
    (slots : w'.slots = w.slots.erase name) (acts : call'.slot = some slot)
    (named : call'.named = call.named)
    (codes : call'.code = [.swap, .release .observed, .dropNext] ++ code)
    (desired : call'.registers.desired = call.registers.desired) : Moored w' (call' :: rest) := by
  have sane := moored.calls call List.mem_cons_self
  have prepared := sane.prepared
  obtain ⟨empty, still, sweeps⟩ := sane.sweeps (head ▸ List.mem_cons_self)
  rw [head] at prepared still sweeps
  have elsewhere : ∀ call' ∈ call :: rest, ∀ slot, call'.named = some slot →
      ∃ other, other ≠ name ∧ (other, slot) ∈ w.slots :=
    moored.named_elsewhere covers fun other there' => by
      rw [Table.unique_of_mem _ _ _ moored.names there there']
      exact unused
  have after : Still ([.release .observed, .dropNext] ++ code) :=
    Still.append (by simp [Still, Instruction.Writes]) still
  refine moored.displace elsewhere (fun _ => List.mem_cons_of_mem _)
    (clearing_of_head head (by simp)) (slots ▸ Table.nodup_erase _ _ moored.names) ?_ ?_ ?_ ?_ ?_
  · intro other slot ne inside
    rw [slots]
    exact (Table.mem_erase _ _).mpr ⟨inside, ne⟩
  · intro slot addr word
    unfold World.word at word
    rw [words] at word
    exact .inl word
  · exact fun slot named' => ⟨call, List.mem_cons_self, named ▸ named'⟩
  · -- The slot without a name is the one that the call clears next.
    intro old there'
    rw [Table.unique_of_mem _ _ _ moored.names there there']
    exact ⟨acts, desired.trans empty, _, codes⟩
  · refine ⟨.inr (.inr ⟨desired.trans empty, _, codes, after⟩), ?_,
      fun _ => ⟨desired.trans empty, ?_, ?_⟩⟩
    · rw [codes]
      exact prepared.2.append (by simp)
    · rw [codes]
      exact after
    · intro j member
      rw [codes] at member
      rcases List.mem_append.mp member with member | member
      · simp only [List.mem_cons, List.not_mem_nil, or_false] at member
        rcases member with rfl | rfl | rfl <;> trivial
      · exact sweeps j (List.mem_cons_of_mem _ member)

theorem run (moored : Moored w (call :: rest)) (covers : Covers inUse (call :: rest))
    (head : call.code = i :: code)
    (ran : Turn.run choice inUse { world := w, call := { call with code } } i = .ok turn) :
    Moored turn.world (turn.call :: rest) := by
  cases Turn.run_course ran with
  | passed new passes => exact moored.passed head passes
  | ended differs _ world slot named ended => exact world ▸ moored.ended head differs named ended
  | created name same unused words slots slot named codes empty =>
    subst same
    exact moored.created covers head unused words slots slot named codes empty
  | unbound name slot same there unused words slots acts named codes desired =>
    subst same
    exact moored.unbound covers head there unused words slots acts named codes desired

theorem perm {calls' : List Call} (moored : Moored w calls) (perm : calls.Perm calls') :
    Moored w calls' where
  names := moored.names
  named call member := moored.named call (perm.mem_iff.mpr member)
  held slot addr word := (moored.held slot addr word).imp_right fun ⟨call, member, clears⟩ =>
    ⟨call, perm.mem_iff.mp member, clears⟩
  calls call member := moored.calls call (perm.mem_iff.mpr member)

theorem of_world {w' : World} (moored : Moored w calls) (words : w'.words = w.words)
    (slots : w'.slots = w.slots) : Moored w' calls where
  names := slots ▸ moored.names
  named call member slot named := slots ▸ moored.named call member slot named
  held slot addr word := by
    unfold World.word at word
    rw [words] at word
    rw [slots]
    exact moored.held slot addr word
  calls := moored.calls

theorem replace {call' : Call} (moored : Moored w (call :: rest)) (named : call'.named = call.named)
    (clears : ∀ slot, call.Clears slot → call'.Clears slot) (sane : call'.Moored) :
    Moored w (call' :: rest) where
  names := moored.names
  named other member slot same := by
    rcases List.mem_cons.mp member with rfl | member
    · exact moored.named call List.mem_cons_self slot (named ▸ same)
    · exact moored.named other (List.mem_cons_of_mem _ member) slot same
  held slot addr word := by
    refine (moored.held slot addr word).imp_right fun ⟨other, member, clear⟩ => ?_
    rcases List.mem_cons.mp member with rfl | member
    · exact ⟨call', List.mem_cons_self, clears slot clear⟩
    · exact ⟨other, List.mem_cons_of_mem _ member, clear⟩
  calls other member := by
    rcases List.mem_cons.mp member with rfl | member
    · exact sane
    · exact moored.calls other (List.mem_cons_of_mem _ member)

theorem map {f : Call → Call} (moored : Moored w (calls ++ rest))
    (code : ∀ call, (f call).code = call.code)
    (registers : ∀ call, (f call).registers = call.registers)
    (slot : ∀ call, (f call).slot = call.slot) (named : ∀ call, (f call).named = call.named) :
    Moored w (calls.map f ++ rest) := by
  induction calls generalizing rest with
  | nil => exact moored
  | cons call calls ih =>
    obtain ⟨writes, prepared, sweeps⟩ := moored.calls call List.mem_cons_self
    have head : Moored w (f call :: (calls ++ rest)) := by
      refine moored.replace (named call) (fun s clears => ?_) ⟨?_, ?_, ?_⟩
      · rwa [Call.Clears, code, registers, slot]
      · rwa [code, registers, slot, named]
      · rwa [code]
      · rwa [code, registers]
    have behind : Moored w (calls ++ (f call :: rest)) := head.perm List.perm_middle.symm
    exact (ih behind).perm List.perm_middle

theorem clearing_of_ended (ended : call.code = []) (slot : SlotId) : ¬ call.Clears slot := by
  rintro ⟨-, -, code, swaps⟩
  rw [ended] at swaps
  contradiction

theorem scope (moored : Moored w (call :: rest)) (ended : call.code = []) :
    Moored w ({ call with code := call.registers.owned.map .release } :: rest) := by
  refine moored.replace rfl (fun slot clears => absurd clears (clearing_of_ended ended slot))
    ⟨.inr (.inl fun i member => ?_), ?_, fun drops => ?_⟩
  · obtain ⟨register, -, rfl⟩ := List.mem_map.mp member
    exact id
  · have none : Prepared [] := trivial
    exact List.append_nil (call.registers.owned.map Instruction.release) ▸ none.append (by simp)
  · simp at drops

theorem finish (moored : Moored w (call :: rest)) (ended : call.code = []) : Moored w rest where
  names := moored.names
  named other member := moored.named other (List.mem_cons_of_mem _ member)
  held slot addr word := by
    refine (moored.held slot addr word).imp_right fun ⟨other, member, clears⟩ => ?_
    rcases List.mem_cons.mp member with rfl | member
    · exact absurd clears (clearing_of_ended ended slot)
    · exact ⟨other, member, clears⟩
  calls other member := moored.calls other (List.mem_cons_of_mem _ member)

theorem enter (moored : Moored w calls) (sane : call.Moored)
    (named : ∀ slot, call.named = some slot → ∃ name, (name, slot) ∈ w.slots) :
    Moored w (call :: calls) where
  names := moored.names
  named other member := by
    rcases List.mem_cons.mp member with rfl | member
    · exact named
    · exact moored.named other member
  held slot addr word := (moored.held slot addr word).imp_right fun ⟨other, member, clears⟩ =>
    ⟨other, List.mem_cons_of_mem _ member, clears⟩
  calls other member := by
    rcases List.mem_cons.mp member with rfl | member
    · exact sane
    · exact moored.calls other member

theorem close {level : Level} (moored : Moored w (call :: rest)) :
    Moored (level.close w call).1 ((level.close w call).2 :: rest) := by
  obtain ⟨writes, prepared, sweeps⟩ := moored.calls call List.mem_cons_self
  have told (event : Event) : Moored w ({ call with events := event :: call.events } :: rest) :=
    moored.replace rfl (fun _ => id) ⟨writes, prepared, sweeps⟩
  unfold Level.close
  dsimp only
  split
  · exact moored
  · exact (told _).of_world rfl rfl
  · exact told _
  · exact told _

end Moored

theorem Prepared.of_rests {code : List Instruction} (creates : ∀ name, .createSlot name ∉ code) :
    Prepared code := by
  have none : Prepared [] := trivial
  exact List.append_nil code ▸ none.append creates

theorem Operation.code_prepared (operation : Operation) : Prepared operation.code := by
  have emptied (name : String) : Prepared [.createSlot name, .swap, .release .observed] :=
    ⟨fun _ _ => ⟨_, rfl, by simp [Still, Instruction.Writes]⟩, .of_rests (by simp)⟩
  unfold Operation.code
  cases operation with
  | create slot v required =>
    dsimp only
    exact (emptied slot).append (by cases required <;> simp)
  | clone slot target =>
    have reads : ∀ name, .createSlot name ∉ [Instruction.read .load, .move .observed .desired] := by
      simp
    exact (emptied target).append reads
  | compareExchange strength slot expected desired success failure =>
    refine .of_rests fun name => ?_
    dsimp only
    rcases exchangeCode_cases strength success failure _ _ with same | ⟨bad, same⟩ <;> rw [same] <;>
      simp
  | compareAndExchange strength slot expected desired success failure into =>
    refine .of_rests fun name => ?_
    dsimp only
    rcases exchangeCode_cases strength success failure _ _ with same | ⟨bad, same⟩ <;> rw [same] <;>
      cases into <;> simp [deliver]
  | intoInner slot into | take slot into | load slot into | exchange slot v into =>
    exact .of_rests (by cases into <;> simp [deliver])
  | peek slot into => exact .of_rests (by cases into <;> simp)
  | _ => exact .of_rests (by simp)

theorem Operation.eq_dropAll {operation : Operation} (drops : .dropNext ∈ operation.code) :
    operation = .dropAll := by
  unfold Operation.code at drops
  cases operation with
  | dropAll => rfl
  | create slot v required => cases required <;> simp at drops
  | compareExchange strength slot expected desired success failure =>
    dsimp only at drops
    rcases exchangeCode_cases strength success failure _ _ with same | ⟨bad, same⟩ <;>
      rw [same] at drops <;> simp at drops
  | compareAndExchange strength slot expected desired success failure into =>
    dsimp only at drops
    rcases exchangeCode_cases strength success failure _ _ with same | ⟨bad, same⟩ <;>
      rw [same] at drops <;> cases into <;> simp [deliver] at drops
  | intoInner slot into | take slot into | load slot into | exchange slot v into =>
    cases into <;> simp [deliver] at drops
  | peek slot into => cases into <;> simp at drops
  | _ => simp at drops

/-- An operation that takes a slot's name away clears the slot first. -/
theorem Operation.code_of_unbinds {operation : Operation} (unbinds : operation.unbinds = true) :
    (∃ rest, operation.code = .swap :: rest ∧ Still rest) ∧
      operation.removes? = operation.slot? := by
  cases operation with
  | drop slot => exact ⟨⟨_, rfl, by simp [Still, Instruction.Writes]⟩, rfl⟩
  | intoInner slot into =>
    exact ⟨⟨_, rfl, by cases into <;> simp [Still, Instruction.Writes, deliver]⟩, rfl⟩
  | _ => contradiction

namespace Moored

variable {w : World} {calls : List Call} {inUse : SlotId → Bool}

theorem start (moored : Moored w calls) (covers : Covers inUse calls) (command : Command) :
    Moored (command.start w inUse).1 ((command.start w inUse).2 :: calls) := by
  obtain ⟨operation, during⟩ := command
  have refused (outcome : Outcome) : Moored w ({ code := [], outcome } :: calls) :=
    moored.enter ⟨.inl rfl, trivial, nofun⟩ nofun
  unfold Command.start
  dsimp only
  split
  · exact refused _
  · split
    · exact refused _
    · next free =>
      split
      · next name unbinds slot =>
        obtain ⟨⟨rest, swaps, still⟩, removes⟩ := operation.code_of_unbinds unbinds
        have unused (target : SlotId) (there : (name, target) ∈ w.slots) : inUse target = false := by
          have found := Table.get?_of_mem _ _ _ moored.names there
          simpa [removes, slot, unbinds, found] using free
        have found (target : SlotId) (there : (name, target) ∈ w.slots) :
            operation.slot?.bind w.slots.get? = some target := by
          rw [slot]
          exact Table.get?_of_mem _ _ _ moored.names there
        refine moored.displace (moored.named_elsewhere covers unused) (fun _ => id)
          (fun other member _ _ => member) (Table.nodup_erase _ _ moored.names) ?_ ?_ nofun ?_ ?_
        · exact fun other target ne there => (Table.mem_erase _ _).mpr ⟨there, ne⟩
        · exact fun target addr word => .inl word
        · exact fun target there => ⟨found target there, rfl, rest, swaps⟩
        · refine ⟨.inr (.inr ⟨rfl, rest, swaps, still⟩), operation.code_prepared, fun drops => ?_⟩
          rw [Operation.eq_dropAll drops] at unbinds
          contradiction
      · refine moored.enter ⟨.inl rfl, operation.code_prepared, fun drops => ?_⟩ fun slot named => ?_
        · obtain rfl := Operation.eq_dropAll drops
          exact ⟨rfl, by simp [Operation.code, Still], by simp [Operation.code, Instruction.Sweeps]⟩
        · obtain ⟨name, -, found⟩ := Option.bind_eq_some_iff.mp named
          exact ⟨name, Table.mem_of_get? _ _ _ found⟩

end Moored

/-- A step of a thread forgets no slot. -/
theorem Thread.Move.moored {choice : Choice} {inUse : SlotId → Bool} {w w' : World}
    {thread thread' : Thread} {rest : List Call} (move : Thread.Move choice inUse w thread w' thread')
    (moored : Moored w (thread.calls ++ rest)) (covers : Moored.Covers inUse (thread.calls ++ rest)) :
    Moored w' (thread'.calls ++ rest) := by
  cases move with
  | rest => exact moored
  | @instruction level below call i code turn busy head ran =>
    rw [calls_cons_of_some busy] at moored covers
    rw [calls_of_run ran rfl]
    exact Moored.run moored covers head ran
  | @block level below call i code turn todo busy head ran recorded =>
    rw [calls_cons_of_some busy] at moored covers
    rw [calls_cons_of_none rfl, calls_unwait]
    have inside : Moored turn.world (calls ({ level with call := some turn.call } :: below) ++ rest) :=
      Moored.run moored covers head ran
    exact inside.map (fun _ => rfl) (fun _ => rfl) (fun _ => rfl) fun _ => rfl
  | @scope level below call busy ended owns =>
    rw [calls_cons_of_some busy] at moored
    rw [calls_cons_of_some rfl]
    exact Moored.scope moored ended
  | @finish level below call record busy ended owned =>
    rw [calls_cons_of_some busy] at moored
    rw [calls_cons_of_none rfl]
    exact Moored.finish moored ended
  | @start level below command todo idle more =>
    rw [calls_cons_of_none idle] at moored covers
    rw [calls_cons_of_some rfl]
    exact Moored.start moored covers command
  | @close level caller below call idle ended waits =>
    rw [calls_cons_of_none idle, calls_cons_of_some waits] at moored
    rw [calls_cons_of_some rfl]
    exact Moored.close moored

end SharedCells.Slot
