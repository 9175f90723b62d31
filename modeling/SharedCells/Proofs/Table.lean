import Mathlib.Data.List.Nodup
import Mathlib.Data.List.Perm.Basic
import SharedCells.Table

/-! Counting in tables.

In a table in which every name stands for one value, a change of a name takes
away what it stood for and puts one value in its place. -/

set_option autoImplicit false

namespace SharedCells

namespace Table

variable {β : Type} (t : Table β) (name : String) (value : β) (test : β → Bool)

/-- The names of a table, each of which should stand for one value. -/
def names (t : Table β) : List String := t.map Prod.fst

theorem mem_names_erase {other : String} : other ∈ (t.erase name).names ↔ other ∈ t.names ∧ other ≠ name := by
  simp [names, erase]

theorem mem_erase {entry : String × β} : entry ∈ t.erase name ↔ entry ∈ t ∧ entry.1 ≠ name := by
  simp [erase]

theorem nodup_erase (nodup : t.names.Nodup) : (t.erase name).names.Nodup :=
  List.Nodup.sublist (List.Sublist.map _ List.filter_sublist) nodup

theorem perm_insert : (t.insert name value).Perm ((name, value) :: t) := by
  induction t with
  | nil => exact .refl _
  | cons entry rest ih =>
    unfold insert
    split
    · exact .refl _
    · exact (ih.cons entry).trans (.swap _ _ _)

theorem perm_put : (t.put name value).Perm ((name, value) :: t.erase name) := perm_insert _ _ _

theorem nodup_put (nodup : t.names.Nodup) : (t.put name value).names.Nodup := by
  have perm : (t.put name value).names.Perm (name :: (t.erase name).names) := (perm_put t name value).map _
  rw [perm.nodup_iff, List.nodup_cons]
  exact ⟨fun inside => ((mem_names_erase t name).mp inside).2 rfl, nodup_erase t name nodup⟩

theorem nodup_assign (nodup : t.names.Nodup) (v : Option β) : (t.assign name v).names.Nodup := by
  cases v with
  | none => exact nodup_erase t name nodup
  | some value => exact nodup_put t name value nodup

theorem mem_of_get? (found : t.get? name = some value) : (name, value) ∈ t := by
  induction t with
  | nil => simp [get?] at found
  | cons entry rest ih =>
    rw [get?_cons] at found
    split at found
    · next same =>
      rw [Option.some.injEq] at found
      rw [same, ← found]
      exact List.mem_cons_self
    · exact List.mem_cons_of_mem _ (ih found)

theorem get?_of_mem (nodup : t.names.Nodup) (member : (name, value) ∈ t) :
    t.get? name = some value := by
  induction t with
  | nil => exact absurd member List.not_mem_nil
  | cons entry rest ih =>
    rw [names, List.map_cons, List.nodup_cons] at nodup
    rw [get?_cons]
    rcases List.mem_cons.mp member with rfl | member
    · rw [if_pos rfl]
    · have ne : name ≠ entry.1 := by
        rintro rfl
        exact nodup.1 (List.mem_map.mpr ⟨_, member, rfl⟩)
      rw [if_neg ne]
      exact ih nodup.2 member

theorem unique_of_mem {other : β} (nodup : t.names.Nodup) (member : (name, value) ∈ t)
    (member' : (name, other) ∈ t) : other = value := by
  have found := get?_of_mem t name value nodup member
  rw [get?_of_mem t name other nodup member', Option.some.injEq] at found
  exact found

theorem length_erase_lt (there : t.get? name ≠ none) : (t.erase name).length < t.length := by
  obtain ⟨value, found⟩ := Option.ne_none_iff_exists'.mp there
  have inside := mem_of_get? t name value found
  have shorter : (t.erase name).length ≤ t.length := List.length_filter_le _ _
  refine Nat.lt_of_le_of_ne shorter fun same => ?_
  have kept := List.length_filter_eq_length_iff.mp same _ inside
  simp at kept

/-- The first name stands for nothing in the rest. -/
theorem erase_cons (entry : String × β) (nodup : names (entry :: t) |>.Nodup) :
    erase (entry :: t) entry.1 = t := by
  have new : entry.1 ∉ names t := (List.nodup_cons.mp nodup).1
  rw [erase, List.filter_cons_of_neg (by simp), List.filter_eq_self]
  intro other member
  simp only [bne_iff_ne, ne_eq]
  intro equal
  exact new (equal ▸ List.mem_map_of_mem member)

/-- Erasing a name takes away the one value it stood for. -/
theorem countP_erase (nodup : t.names.Nodup) :
    (t.erase name).countP (fun entry => test entry.2) + (if (t.get? name).any test then 1 else 0) =
      t.countP fun entry => test entry.2 := by
  induction t with
  | nil => simp [erase, get?]
  | cons entry rest ih =>
    have rest_eq := ih (List.nodup_cons.mp nodup).2
    rw [get?_cons, List.countP_cons]
    by_cases same : name = entry.1
    · subst same
      rw [erase_cons rest entry nodup, if_pos rfl]
      simp
    · have stays : erase (entry :: rest) name = entry :: erase rest name :=
        List.filter_cons_of_pos (by simpa using Ne.symm same)
      rw [stays, List.countP_cons, if_neg same]
      omega

theorem countP_put (nodup : t.names.Nodup) :
    (t.put name value).countP (fun entry => test entry.2) + (if (t.get? name).any test then 1 else 0) =
      (t.countP fun entry => test entry.2) + if test value then 1 else 0 := by
  have erased := countP_erase t name test nodup
  rw [(perm_put t name value).countP_eq, List.countP_cons]
  dsimp only
  omega

theorem countP_assign (nodup : t.names.Nodup) (v : Option β) :
    (t.assign name v).countP (fun entry => test entry.2) + (if (t.get? name).any test then 1 else 0) =
      (t.countP fun entry => test entry.2) + if v.any test then 1 else 0 := by
  cases v with
  | none => simpa [assign] using countP_erase t name test nodup
  | some value => simpa [assign] using countP_put t name value test nodup

section Images

variable {γ : Type} {f : β → γ} {image : Table γ}

/-- Two tables have the same entries if they are looked up alike. -/
theorem perm_map (nodup : t.names.Nodup) (nodup' : image.names.Nodup)
    (same : ∀ name, image.get? name = (t.get? name).map f) :
    image.Perm (t.map fun entry => (entry.1, f entry.2)) := by
  have names : names (t.map fun entry => (entry.1, f entry.2)) = t.names := by simp [Table.names]
  refine (List.perm_ext_iff_of_nodup (.of_map _ nodup') (.of_map _ (names ▸ nodup))).mpr ?_
  rintro ⟨name, value⟩
  rw [List.mem_map]
  constructor
  · intro inside
    have found := get?_of_mem image name value nodup' inside
    rw [same, Option.map_eq_some_iff] at found
    obtain ⟨origin, found, rfl⟩ := found
    exact ⟨(name, origin), mem_of_get? t name origin found, rfl⟩
  · rintro ⟨⟨other, origin⟩, inside, equal⟩
    obtain ⟨rfl, rfl⟩ := Prod.mk.inj equal
    apply mem_of_get?
    rw [same, get?_of_mem t other origin nodup inside, Option.map_some]

theorem countP_map (nodup : t.names.Nodup) (nodup' : image.names.Nodup)
    (same : ∀ name, image.get? name = (t.get? name).map f) (test : γ → Bool) :
    (image.countP fun entry => test entry.2) = t.countP fun entry => test (f entry.2) := by
  rw [(perm_map t nodup nodup' same).countP_eq, List.countP_map]
  rfl

end Images

end Table

end SharedCells
