/-! Tables from names to values, in the order of their names. -/

set_option autoImplicit false

namespace SharedCells

/-- At most one entry per name, sorted. -/
abbrev Table (β : Type) := List (String × β)

namespace Table

variable {β : Type}

def get? (t : Table β) (name : String) : Option β := t.lookup name

def erase (t : Table β) (name : String) : Table β := t.filter fun entry => entry.1 != name

def insert (name : String) (value : β) : Table β → Table β
  | [] => [(name, value)]
  | entry :: rest =>
    if name < entry.1 then (name, value) :: entry :: rest else entry :: insert name value rest

/-- Replaces what the name stood for. -/
def put (t : Table β) (name : String) (value : β) : Table β := insert name value (t.erase name)

/-- Puts a value or, if there is none, erases the name. -/
def assign (t : Table β) (name : String) : Option β → Table β
  | some value => t.put name value
  | none => t.erase name

section Lookup

variable (t : Table β) (name other : String) (value : β)

theorem get?_cons (entry : String × β) :
    get? (entry :: t) name = if name = entry.1 then some entry.2 else get? t name := by
  obtain ⟨key, v⟩ := entry
  by_cases h : name = key
  · simp [get?, h]
  · have h' : (name == key) = false := by simpa using h
    simp [get?, List.lookup_cons, h, h']

theorem get?_erase : get? (t.erase name) other = if other = name then none else get? t other := by
  induction t with
  | nil => simp [erase, get?]
  | cons entry rest ih =>
    unfold erase at ih ⊢
    rw [List.filter_cons, get?_cons]
    by_cases h : entry.1 = name
    · rw [if_neg (by simpa using h), ih]
      split <;> simp_all
    · rw [if_pos (by simpa using h), get?_cons, ih]
      split <;> simp_all

theorem get?_insert (fresh : get? t name = none) :
    get? (insert name value t) other = if other = name then some value else get? t other := by
  induction t with
  | nil => rw [insert, get?_cons]
  | cons entry rest ih =>
    rw [get?_cons] at fresh
    have ne : name ≠ entry.1 := fun same => by simp [same] at fresh
    rw [if_neg ne] at fresh
    unfold insert
    split
    · rw [get?_cons]
    · rw [get?_cons, get?_cons, ih fresh]
      split <;> simp_all [Ne.symm]

theorem get?_put :
    get? (t.put name value) other = if other = name then some value else get? t other := by
  unfold put
  rw [get?_insert _ _ _ _ (by simp [get?_erase]), get?_erase]
  split <;> simp_all

theorem get?_assign (v : Option β) :
    get? (t.assign name v) other = if other = name then v else get? t other := by
  cases v with
  | none => rw [assign, get?_erase]
  | some v => rw [assign, get?_put]

end Lookup

end Table

end SharedCells
