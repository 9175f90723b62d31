import Mathlib.Algebra.GroupWithZero.Nat
import Mathlib.Algebra.Order.BigOperators.Group.List
import Mathlib.Algebra.Order.Group.Nat
import SharedCells.Proofs.Heap
import SharedCells.Proofs.Table
import SharedCells.Proofs.Slot.Handshake

/-! The ledger of references.

Every reference that an object counts has one owner: a slot, a handle, a paid
debt, a register of a call in progress, or an instruction that is about to give
it up. In the middle of an instruction a reference may be loose, on its way from
one owner to the next; the laws here say how each part of an instruction hands
references on. -/

set_option autoImplicit false

namespace SharedCells.Slot

open Registry (Debt Payment)

/-- How many registers hold the address. -/
def Registers.count (r : Registers) (addr : Addr) : Nat :=
  (if r.expected = some addr then 1 else 0) + (if r.desired = some addr then 1 else 0) +
    (if r.observed = some addr then 1 else 0) + if r.kept = some addr then 1 else 0

/-- How many slots hold the address. -/
def World.slotCount (w : World) (addr : Addr) : Nat := w.words.count (some addr)

/-- How many handles hold the address. -/
def World.handleCount (w : World) (addr : Addr) : Nat :=
  w.handles.countP fun entry => entry.2 = addr

/-- All instructions that calls still have to carry out. -/
def poolOf (calls : List Call) : List Instruction := calls.flatMap Call.code

/-- How many references to the address the calls in progress own: those in their registers, and
those that their instructions are about to give up or have counted for a reader. -/
def transitCount (calls : List Call) (addr : Addr) : Nat :=
  (calls.map fun call => call.registers.count addr).sum +
    (poolOf calls).countP fun i => i.owned? = some addr

/-- How many debts on the address are paid and not settled. -/
def paidCount (w : World) (calls : List Call) (addr : Addr) : Nat :=
  w.registry.paid (debts (poolOf calls)) addr

section Counts

variable {call : Call} {calls : List Call} {addr : Addr} {ref : Ref}

theorem count_toList : ref.toList.count addr = if ref = some addr then 1 else 0 := by
  cases ref with
  | none => rfl
  | some other => simp [List.count_singleton]

theorem any_eq_iff : (ref.any fun other => other = addr) = true ↔ ref = some addr := by
  cases ref <;> simp

theorem Registers.count_set (r : Registers) (register : Register) :
    (r.set register ref).count addr + (if r.get register = some addr then 1 else 0) =
      r.count addr + if ref = some addr then 1 else 0 := by
  unfold Registers.count Registers.set Registers.get
  cases register <;> dsimp only <;> omega

theorem Registers.count_pos {r : Registers} {register : Register}
    (holds : r.get register = some addr) : 0 < r.count addr := by
  unfold Registers.count
  cases register <;> rw [Registers.get] at holds <;> rw [if_pos holds] <;> omega

theorem Registers.count_eq_zero {r : Registers} (empty : ∀ register, r.get register ≠ some addr) :
    r.count addr = 0 := by
  have expected : r.expected ≠ some addr := empty .expected
  have desired : r.desired ≠ some addr := empty .desired
  have observed : r.observed ≠ some addr := empty .observed
  have kept : r.kept ≠ some addr := empty .kept
  simp [count, expected, desired, observed, kept]

theorem World.slotCount_setWord (w : World) {slot : SlotId} (there : slot < w.words.length)
    (ref : Ref) (addr : Addr) :
    (w.setWord slot ref).slotCount addr + (if w.word slot = some addr then 1 else 0) =
      w.slotCount addr + if ref = some addr then 1 else 0 := by
  have word : w.word slot = w.words[slot] := by simp [World.word, there]
  have positive : w.words[slot] = some addr → 0 < w.words.count (some addr) :=
    fun holds => List.count_pos_iff.mpr (holds ▸ List.getElem_mem there)
  simp only [World.slotCount, World.setWord, List.count_set there, word, beq_iff_eq]
  split <;> split <;> simp_all

theorem poolOf_cons : poolOf (call :: calls) = call.code ++ poolOf calls := rfl

theorem transitCount_cons :
    transitCount (call :: calls) addr =
      call.registers.count addr + call.code.countP (·.owned? = some addr) +
        transitCount calls addr := by
  simp only [transitCount, poolOf_cons, List.map_cons, List.sum_cons, List.countP_append]
  omega

end Counts

/-- An instruction may end its call before the code is done. -/
def Instruction.Abandons : Instruction → Prop
  | .require | .createSlot _ => True
  | _ => False

/-- Only references to be dropped stand before an instruction that needs the registry, and no
reference is behind an instruction that may end the call. -/
def Instruction.Precedes (i j : Instruction) : Prop :=
  (j.Plain ∨ ∃ addr, i = .drop addr) ∧ (i.Abandons → j.owned? = none)

/-- How the code of a call is arranged, and that its payer owns what it pays for. -/
structure Call.Sane (slots : Nat) (call : Call) : Prop where
  order : call.code.Pairwise Instruction.Precedes
  payer : ∀ addr payment, .pay addr payment ∈ call.code → call.registers.observed = some addr
  slot : ∀ s, call.slot = some s → s < slots

/-- The state of all calls in progress. `graves` are the addresses whose objects are being
destroyed, and `loose` are references that have no owner for the moment. -/
structure Sound (w : World) (calls : List Call) (graves loose : List Addr) : Prop where
  agreed : Agreed w (poolOf calls)
  ledger : ∀ addr, w.heap.count addr = w.slotCount addr + w.handleCount addr +
    paidCount w calls addr + transitCount calls addr + loose.count addr
  buried : ∀ addr, graves.count addr = w.heap.remains addr
  bounded : w.heap.Bounded
  handles : w.handles.names.Nodup
  slots : ∀ entry ∈ w.slots, entry.2 < w.words.length
  sane : ∀ call ∈ calls, call.Sane w.words.length

namespace Sound

variable {w : World} {calls calls' : List Call} {graves graves' loose : List Addr} {addr : Addr}

theorem perm (sound : Sound w calls graves loose) (permCalls : calls.Perm calls')
    (permGraves : graves.Perm graves') : Sound w calls' graves' loose where
  agreed := sound.agreed.perm (permCalls.flatMap_right _)
  ledger addr := by
    have pool : (poolOf calls).Perm (poolOf calls') := permCalls.flatMap_right _
    have paid : paidCount w calls addr = paidCount w calls' addr :=
      Registry.paid_perm (pool.filterMap _)
    have transit : transitCount calls addr = transitCount calls' addr := by
      rw [transitCount, transitCount, (permCalls.map _).sum_eq, pool.countP_eq]
    rw [← paid, ← transit]
    exact sound.ledger addr
  buried addr := by rw [← sound.buried addr, permGraves.count_eq]
  bounded := sound.bounded
  handles := sound.handles
  slots := sound.slots
  sane call member := sound.sane call (permCalls.mem_iff.mpr member)

/-- A loose reference refers to a live object. -/
theorem counted_of_loose (sound : Sound w calls graves loose) (member : addr ∈ loose) :
    0 < w.heap.count addr := by
  have positive := List.count_pos_iff.mpr member
  rw [sound.ledger addr]
  omega

theorem counted_of_register (sound : Sound w calls graves loose) {call : Call}
    (member : call ∈ calls) (register : Register)
    (holds : call.registers.get register = some addr) : 0 < w.heap.count addr := by
  have positive := Registers.count_pos holds
  have le : call.registers.count addr ≤ (calls.map fun call => call.registers.count addr).sum :=
    List.le_sum_of_mem (List.mem_map_of_mem member)
  rw [sound.ledger addr, transitCount]
  omega

/-- A reference that is about to be given up still counts. -/
theorem counted_of_drop (sound : Sound w calls graves loose) (member : .drop addr ∈ poolOf calls) :
    0 < w.heap.count addr := by
  have positive : 0 < (poolOf calls).countP fun i => i.owned? = some addr :=
    List.countP_pos_iff.mpr ⟨_, member, decide_eq_true rfl⟩
  rw [sound.ledger addr, transitCount]
  omega

theorem counted_of_handle (sound : Sound w calls graves loose) {name : String}
    (holds : w.handles.get? name = some addr) : 0 < w.heap.count addr := by
  have positive : 0 < w.handleCount addr :=
    List.countP_pos_iff.mpr ⟨_, Table.mem_of_get? _ _ _ holds, by simp⟩
  rw [sound.ledger addr]
  omega

theorem counted_of_word (sound : Sound w calls graves loose) (member : some addr ∈ w.words) :
    0 < w.heap.count addr := by
  have positive : 0 < w.slotCount addr := List.count_pos_iff.mpr member
  rw [sound.ledger addr]
  omega

theorem counted_of_paid (sound : Sound w calls graves loose) {debt : Debt}
    (member : debt ∈ debts (poolOf calls)) (paid : w.registry.read debt.place = some .paid) :
    0 < w.heap.count debt.addr := by
  have positive : 0 < paidCount w calls debt.addr := Registry.paid_pos member paid
  rw [sound.ledger debt.addr]
  omega

/-- What the handshake is for: the reader may count its reference. -/
theorem counted_of_increment (sound : Sound w calls graves loose) {purpose : Purpose} {debt : Debt}
    (member : .increment purpose debt ∈ poolOf calls) : 0 < w.heap.count debt.addr := by
  -- The slot still counts the address, or the paid debt does, or the payer that has it in hand.
  rcases sound.agreed.covered purpose debt member with word | paid | ⟨payment, pays, -⟩
  · exact sound.counted_of_word word
  · exact sound.counted_of_paid (mem_debts member rfl) paid
  · obtain ⟨call, inside, code⟩ := List.mem_flatMap.mp pays
    exact sound.counted_of_register inside .observed
      ((sound.sane call inside).payer _ _ code)

end Sound

end SharedCells.Slot
