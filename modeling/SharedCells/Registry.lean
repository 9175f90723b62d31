/-! The registry of debts: readers record addresses, writers pay for them.

A reader that is about to retain the object at an address first records the
address in a free mark. Marks stand in nodes of eight, linked from the newest
node to the oldest; nodes are added at the head and never taken out. Nodes are
numbered in the order of their publication. -/

set_option autoImplicit false

namespace SharedCells

/-- The address of an object. -/
abbrev Addr := Nat

/-- Marks are kept in words, of which 0 stands for a free mark and 1 for a paid one; so these two
are no addresses to owe. -/
def Addr.reserved (addr : Addr) : Bool := addr == 0 || addr == 1

namespace Registry

inductive Mark where
  | free
  | owed (addr : Addr)
  | paid
  deriving DecidableEq, Repr

/-- Marks per node. -/
abbrev breadth : Nat := 8

structure Node where
  marks : Vector Mark breadth
  next : Option Nat
  deriving DecidableEq, Repr

/-- One mark of one published node. -/
structure Place where
  node : Nat
  index : Fin breadth
  deriving DecidableEq, Repr

end Registry

open Registry in
/-- The published nodes in the order of publication, and the node a scan starts from. -/
structure Registry where
  nodes : List Node
  head : Option Nat
  deriving DecidableEq, Repr

namespace Registry

def empty : Registry := ⟨[], none⟩

def read (r : Registry) (p : Place) : Option Mark :=
  r.nodes[p.node]?.map fun node => node.marks[p.index]

def write (r : Registry) (p : Place) (mark : Mark) : Registry :=
  { r with nodes := r.nodes.modify p.node fun node =>
      { node with marks := node.marks.set p.index mark } }

/-- Writes `new` if the mark is `old`; answers whether it was. -/
def replace (r : Registry) (p : Place) (old new : Mark) : Bool × Registry :=
  if r.read p = some old then (true, r.write p new) else (false, r)

/-- Where a scan begins that reads the head now. -/
def first (r : Registry) : Option Place := r.head.map fun node => ⟨node, 0⟩

/-- Where a scan goes on after a place: through the node, then to the node behind it. -/
def after (r : Registry) (p : Place) : Option Place :=
  if h : p.index.val + 1 < breadth then some ⟨p.node, ⟨p.index.val + 1, h⟩⟩
  else (r.nodes[p.node]?.bind Node.next).map fun node => ⟨node, 0⟩

section Marks

variable {r : Registry} {p q : Place} {mark old new : Mark}

@[simp] theorem length_write : (r.write p mark).nodes.length = r.nodes.length := by
  simp [write]

@[simp] theorem head_write : (r.write p mark).head = r.head := rfl

theorem read_eq_none_iff : r.read p = none ↔ r.nodes.length ≤ p.node := by
  simp [read]

theorem read_write_self (published : p.node < r.nodes.length) :
    (r.write p mark).read p = some mark := by
  simp [read, write, published]

theorem read_write_of_ne (ne : q ≠ p) : (r.write p mark).read q = r.read q := by
  obtain ⟨pNode, pIndex⟩ := p
  obtain ⟨qNode, qIndex⟩ := q
  by_cases same : pNode = qNode
  · subst same
    have apart : pIndex ≠ qIndex := fun equal => ne (by rw [equal])
    simp [read, write, Function.comp_def, Fin.val_ne_of_ne apart]
  · simp [read, write, same]

/-- Marks come and go, but the way through the nodes stays. -/
theorem after_write : (r.write p mark).after q = r.after q := by
  unfold after write
  split
  · rfl
  · by_cases same : p.node = q.node <;> simp [same]
    cases r.nodes[q.node]? <;> rfl

end Marks

/-- Publishes a node whose first mark owes `addr`. -/
def publish (r : Registry) (next : Option Nat) (addr : Addr) : Registry :=
  ⟨r.nodes ++ [⟨(Vector.replicate breadth .free).set 0 (.owed addr), next⟩], some r.nodes.length⟩

/-- A recorded debt: its mark, and the address written there. -/
structure Debt where
  place : Place
  addr : Addr
  deriving DecidableEq, Repr

/-- Recording a debt. Each step but a private one is one access. -/
inductive Claim where
  /-- About to read the head. -/
  | start
  /-- About to see whether the mark is free. -/
  | test (p : Place)
  /-- About to take a mark that was free. -/
  | take (p : Place)
  /-- No mark was free: about to read the head that the new node will be put before. -/
  | grow
  /-- About to put the new node before `next`. -/
  | link (next : Option Nat)
  | recorded (p : Place) (grown : Bool)
  deriving DecidableEq, Repr

namespace Claim

def scan : Option Place → Claim
  | some p => test p
  | none => grow

/-- `spurious` says that the exchange of the head fails this time, whatever the head is. -/
def step (addr : Addr) (spurious : Bool) : Claim → Registry → Claim × Registry
  | start, r => (scan r.first, r)
  | test p, r => (if r.read p = some .free then take p else scan (r.after p), r)
  | take p, r =>
    match r.replace p .free (.owed addr) with
    | (true, r) => (recorded p false, r)
    | (false, r) => (scan (r.after p), r)
  | grow, r => (link r.head, r)
  | link next, r =>
    if r.head = next ∧ spurious = false then
      (recorded ⟨r.nodes.length, 0⟩ true, r.publish next addr)
    else (link r.head, r)
  | recorded p grown, r => (recorded p grown, r)

end Claim

/-- Giving a debt up. -/
inductive Settle where
  /-- About to free the mark if it still owes the address. -/
  | withdraw
  /-- About to free the mark, which was paid. -/
  | clear
  | settled (outstanding : Bool)
  /-- The mark was neither owed nor paid. -/
  | corrupted
  deriving DecidableEq, Repr

namespace Settle

def step (debt : Debt) : Settle → Registry → Settle × Registry
  | withdraw, r =>
    match r.replace debt.place (.owed debt.addr) .free with
    | (true, r) => (settled true, r)
    | (false, r) => (if r.read debt.place = some .paid then clear else corrupted, r)
  | clear, r => (settled false, r.write debt.place .free)
  | settled outstanding, r => (settled outstanding, r)
  | corrupted, r => (corrupted, r)

end Settle

/-- Paying all debts on an address. The payer retains the object once before it marks a debt as
paid, and releases it again if the debt was gone by then; both are done for it by its caller, who
then resumes the payment. -/
inductive Payment where
  /-- About to read the head. -/
  | start
  /-- About to see whether the mark owes the address. -/
  | test (p : Place)
  /-- The caller is to retain. -/
  | retain (p : Place)
  /-- About to mark the debt as paid. -/
  | mark (p : Place)
  /-- The caller is to release. -/
  | release (p : Place)
  | finished
  deriving DecidableEq, Repr

namespace Payment

def scan : Option Place → Payment
  | some p => test p
  | none => finished

def step (addr : Addr) : Payment → Registry → Payment × Registry
  | start, r => (scan r.first, r)
  | test p, r => (if r.read p = some (.owed addr) then retain p else scan (r.after p), r)
  | mark p, r =>
    match r.replace p (.owed addr) .paid with
    | (true, r) => (scan (r.after p), r)
    | (false, r) => (release p, r)
  | payment, r => (payment, r)

/-- Goes on after the caller has retained or released. -/
def resume (r : Registry) : Payment → Payment
  | retain p => mark p
  | release p => scan (r.after p)
  | payment => payment

end Payment

end Registry

end SharedCells
