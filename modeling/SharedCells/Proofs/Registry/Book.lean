import Mathlib.Logic.Relation
import SharedCells.Proofs.Registry.Deeds
import SharedCells.Proofs.Registry.Path

/-! The registry as a list of debts.

To a thread that is alone the registry is a list of entries, each with an address
and whether it is paid. Marks, nodes and links only show in the number of nodes,
which is that of the most debts there were at a time, in eights. -/

set_option autoImplicit false

namespace SharedCells.Registry

/-- A recorded debt as its owner sees it. -/
structure Entry where
  name : String
  addr : Addr
  isPaid : Bool
  deriving DecidableEq

/-- The entries, newest first, and the largest number of entries so far. -/
structure Book where
  entries : List Entry := []
  peak : Nat := 0

namespace Book

/-- Eight entries need a node. -/
def nodes (b : Book) : Nat := (b.peak + 7) / 8

def unpaid (b : Book) (addr : Addr) : Nat :=
  b.entries.countP fun e => e.addr = addr ∧ e.isPaid = false

/-- What a request does to the book, and what it is answered. Callbacks are not carried out. -/
def answer (b : Book) : Request → Book × Reply
  | .claim name addr =>
    if addr.reserved then (b, .refused)
    else
      (⟨⟨name, addr, false⟩ :: b.entries, max b.peak (b.entries.length + 1)⟩,
        .claimed (b.entries.length = 8 * b.nodes))
  | .settle name =>
    match b.entries.find? fun e => e.name = name with
    | none => (b, .unnamed)
    | some e =>
      ({ b with entries := b.entries.eraseP fun e => e.name = name }, .settled (!e.isPaid))
  | .pay addr _ _ =>
    ({ b with entries := b.entries.map fun e => { e with isPaid := e.isPaid || e.addr = addr } },
      .paid (b.unpaid addr) (List.replicate (b.unpaid addr) (.retain, [])))

def answers : Book → List Request → Book × List Reply
  | b, [] => (b, [])
  | b, request :: requests =>
    let (next, reply) := b.answer request
    let (last, replies) := next.answers requests
    (last, reply :: replies)

end Book

/-- The callbacks of a payment request nothing. -/
def Request.Inert : Request → Prop
  | .pay _ onRetain onRelease =>
    (∀ script ∈ onRetain, script = []) ∧ ∀ script ∈ onRelease, script = []
  | _ => True

/-- The entry of a debt with a name. -/
def entry (r : Registry) (named : String × Debt) : Entry where
  name := named.1
  addr := named.2.addr
  isPaid := r.read named.2.place = some .paid

def Ledger.entries (ledger : Ledger) : List Entry := ledger.debts.map ledger.registry.entry

/-- The book is what the ledger amounts to. -/
structure Ledger.Mirrors (ledger : Ledger) (b : Book) : Prop where
  chained : ledger.registry.Chained
  backed : ledger.registry.Backed (ledger.debts.map Prod.snd)
  entries : ledger.entries = b.entries
  nodes : ledger.registry.nodes.length = b.nodes
  low : b.entries.length ≤ b.peak

/-- The entries stay if the marks of the recorded debts do. -/
theorem Ledger.entries_congr {r r' : Registry} {debts : List (String × Debt)}
    (same : ∀ d ∈ debts.map Prod.snd, r'.read d.place = r.read d.place) :
    Ledger.entries ⟨r', debts⟩ = Ledger.entries ⟨r, debts⟩ := by
  apply List.map_congr_left
  intro named member
  rw [entry, entry, same named.2 (List.mem_map_of_mem member)]

namespace Ledger.Mirrors

variable {ledger : Ledger} {b : Book} {name : String} {addr : Addr} {d : Debt}

theorem empty : Mirrors {} {} := ⟨.empty, .empty, rfl, rfl, Nat.le_refl _⟩

theorem length (mirrors : ledger.Mirrors b) : b.entries.length = ledger.debts.length := by
  rw [← mirrors.entries, Ledger.entries, List.length_map]

theorem owing (mirrors : ledger.Mirrors b) (addr : Addr) :
    ledger.registry.owing addr = b.unpaid addr := by
  rw [mirrors.backed.owing_eq, Book.unpaid, ← mirrors.entries, Ledger.entries, List.countP_map,
    List.countP_map]
  apply List.countP_congr
  intro named _
  rw [Function.comp_apply, Function.comp_apply, decide_eq_true_iff, decide_eq_true_iff, entry,
    decide_eq_false_iff_not]

/-- A claim adds an unpaid entry, and a node only if there are eight entries for each node. -/
theorem claim {p : Place} {grown : Bool} {r : Registry} (mirrors : ledger.Mirrors b) (name : String)
    (genuine : addr.reserved = false) (recorded : Recorded ledger.registry addr p grown r) :
    (b.answer (.claim name addr)).2 = .claimed grown ∧
      Mirrors ⟨r, (name, ⟨p, addr⟩) :: ledger.debts⟩ (b.answer (.claim name addr)).1 := by
  have count := mirrors.length
  have low := mirrors.low
  have nodes := mirrors.nodes
  have grows : grown = decide (b.entries.length = 8 * b.nodes) ∧
      r.nodes.length = (max b.peak (b.entries.length + 1) + 7) / 8 := by
    unfold Book.nodes at *
    cases recorded with
    | taken free =>
      have room := mirrors.backed.length_lt free
      rw [List.length_map, breadth] at room
      rw [length_write, eq_comm, decide_eq_false_iff_not]
      omega
    | grown full =>
      have filled := mirrors.backed.length_eq full
      rw [List.length_map, breadth] at filled
      simp only [publish, List.length_append, List.length_singleton]
      rw [eq_comm, decide_eq_true_iff]
      omega
  have answer : b.answer (.claim name addr) =
      (⟨⟨name, addr, false⟩ :: b.entries, max b.peak (b.entries.length + 1)⟩, .claimed grown) := by
    simp [Book.answer, genuine, grows.1]
  have same : Ledger.entries ⟨r, ledger.debts⟩ = b.entries :=
    (entries_congr fun _ => recorded.read_of_mem mirrors.backed).trans mirrors.entries
  rw [answer]
  refine ⟨rfl, recorded.chained mirrors.chained, recorded.backed mirrors.backed, ?_, grows.2, ?_⟩
  · rw [← same]
    simp [Ledger.entries, entry, recorded.read_self]
  · rw [List.length_cons]
    exact Nat.le_max_right _ _

theorem settle (mirrors : ledger.Mirrors b) (found : ledger.debts.lookup name = some d) :
    (b.answer (.settle name)).2 =
        .settled (!decide (ledger.registry.read d.place = some .paid)) ∧
      Mirrors ⟨ledger.registry.write d.place .free, ledger.debts.erase (name, d)⟩
        (b.answer (.settle name)).1 := by
  obtain ⟨newer, older, debts, others⟩ := List.lookup_eq_some_iff.mp found
  have erased : ledger.debts.erase (name, d) = newer ++ older := by
    rw [debts, List.erase_append_right, List.erase_cons_head]
    intro member
    simpa using others _ member
  have backed := mirrors.backed.perm (perm_of_lookup found)
  rw [erased] at backed
  -- The book finds the entry of the debt where the ledger finds the debt.
  have passes : ∀ e ∈ Ledger.entries ⟨ledger.registry, newer⟩, e.name ≠ name := by
    intro e member same
    obtain ⟨named, inside, rfl⟩ := List.mem_map.mp member
    have differ : name ≠ named.1 := by simpa using others named inside
    exact differ same.symm
  have split : b.entries = Ledger.entries ⟨ledger.registry, newer⟩ ++
      ⟨name, d.addr, ledger.registry.read d.place = some .paid⟩ ::
        Ledger.entries ⟨ledger.registry, older⟩ := by
    rw [← mirrors.entries, Ledger.entries, debts, List.map_append, List.map_cons]
    rfl
  have first : b.entries.find? (fun e => e.name = name) =
      some ⟨name, d.addr, ledger.registry.read d.place = some .paid⟩ := by
    rw [split, List.find?_append, List.find?_eq_none.mpr (by simpa using passes)]
    simp
  have rest : b.entries.eraseP (fun e => e.name = name) =
      Ledger.entries ⟨ledger.registry, newer ++ older⟩ := by
    rw [split, List.eraseP_append_right _ (by simpa using passes), List.eraseP_cons_of_pos (by simp),
      Ledger.entries, Ledger.entries, Ledger.entries, List.map_append]
  have answer : b.answer (.settle name) =
      ({ b with entries := Ledger.entries ⟨ledger.registry, newer ++ older⟩ },
        .settled (!decide (ledger.registry.read d.place = some .paid))) := by
    simp only [Book.answer, first, rest]
  have fewer : (Ledger.entries ⟨ledger.registry, newer ++ older⟩).length ≤ b.peak := by
    have low := mirrors.low
    rw [mirrors.length, debts] at low
    rw [Ledger.entries, List.length_map]
    simp only [List.length_append, List.length_cons] at low ⊢
    omega
  rw [answer, erased]
  refine ⟨rfl, mirrors.chained.write, backed.settle, ?_, length_write.trans mirrors.nodes, fewer⟩
  exact entries_congr fun _ => Backed.read_write_other backed.not_mem_places

theorem answer_unnamed (mirrors : ledger.Mirrors b) (found : ledger.debts.lookup name = none) :
    b.answer (.settle name) = (b, .unnamed) := by
  have none : b.entries.find? (fun e => e.name = name) = none := by
    rw [List.find?_eq_none, ← mirrors.entries]
    intro e member same
    obtain ⟨named, inside, rfl⟩ := List.mem_map.mp member
    have differ : name ≠ named.1 := by simpa using List.lookup_eq_none_iff.mp found named inside
    exact differ (of_decide_eq_true same).symm
  simp only [Book.answer, none]

theorem pay {ps : List Place} (mirrors : ledger.Mirrors b) (all : ps.Perm ledger.registry.places)
    (onRetain onRelease : List (List Request)) :
    Mirrors ⟨ledger.registry.payAt addr ps, ledger.debts⟩
      (b.answer (.pay addr onRetain onRelease)).1 where
  chained := mirrors.chained.payAt
  backed := mirrors.backed.payAt
  entries := by
    change _ = b.entries.map fun e => { e with isPaid := e.isPaid || decide (e.addr = addr) }
    rw [← mirrors.entries, Ledger.entries, Ledger.entries, List.map_map]
    apply List.map_congr_left
    intro named member
    have mark : (ledger.registry.payAt addr ps).read named.2.place = _ :=
      mirrors.backed.read_payAt_places (List.mem_map_of_mem member) all
    unfold entry
    rw [Function.comp_apply, mark]
    by_cases same : named.2.addr = addr <;> simp [same]
  nodes := length_payAt.trans mirrors.nodes
  low := Nat.le_trans (Nat.le_of_eq (List.length_map _)) mirrors.low

end Ledger.Mirrors

end SharedCells.Registry
