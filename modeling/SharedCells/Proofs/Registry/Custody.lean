import SharedCells.Proofs.Registry.Deeds

/-! Whose the marks are.

A claim takes a mark in two steps, a settlement frees a paid mark without
looking at it again, and payers write marks that are not theirs. Still every mark
that is not free is the mark of one unsettled debt, which was recorded there, and
only the settlement of this debt frees it. -/

set_option autoImplicit false

namespace SharedCells.Registry

/-- How the mark of a place moves in a step that does a deed; a place that is on no node yet has no
mark. -/
inductive Mark.Moves (p : Place) : Option Deed → Option Mark → Option Mark → Prop where
  | stays {deed : Option Deed} {mark : Option Mark} :
      (∀ d ∈ deed.bind Deed.debt?, d.place ≠ p) → Moves p deed mark mark
  /-- A debt is recorded in another mark of a new node. -/
  | added {d : Debt} :
      d.place.node = p.node → d.place ≠ p → Moves p (some (.recorded d)) none (some .free)
  /-- A debt is recorded in this mark of a new node. -/
  | opened {addr : Addr} : Moves p (some (.recorded ⟨p, addr⟩)) none (some (.owed addr))
  | recorded {addr : Addr} : Moves p (some (.recorded ⟨p, addr⟩)) (some .free) (some (.owed addr))
  | withdrawn {addr : Addr} :
      Moves p (some (.settled ⟨p, addr⟩ true)) (some (.owed addr)) (some .free)
  | paid {addr : Addr} : Moves p (some (.paid ⟨p, addr⟩)) (some (.owed addr)) (some .paid)
  | cleared {addr : Addr} : Moves p (some (.settled ⟨p, addr⟩ false)) (some .paid) (some .free)

/-- A debt is unsettled from its recording to its settlement. -/
def Deed.Leaves (before after : List Debt) : Option Deed → Prop
  | some (.recorded d) => after.Perm (d :: before)
  | some (.settled d _) => before.Perm (d :: after)
  | _ => after.Perm before

theorem Mark.Moves.write {r : Registry} {deed : Deed} {d : Debt} {old new : Mark}
    (about : deed.debt? = some d) (read : r.read d.place = some old)
    (own : Moves d.place (some deed) (some old) (some new)) (p : Place) :
    Moves p (some deed) (r.read p) ((r.write d.place new).read p) := by
  by_cases same : p = d.place
  · subst same
    rw [read, read_write_self (Place.Published.of_read read)]
    exact own
  · rw [read_write_of_ne same]
    apply stays
    rw [Option.bind_some, about]
    rintro d ⟨⟩
    exact Ne.symm same

theorem Mark.Moves.publish (r : Registry) (addr : Addr) (p : Place) :
    Moves p (some (.recorded ⟨⟨r.nodes.length, 0⟩, addr⟩)) (r.read p)
      ((r.publish r.head addr).read p) := by
  by_cases old : p.Published r
  · rw [read_publish_of_published old]
    apply stays
    rintro d ⟨⟩ rfl
    exact absurd old (Nat.lt_irrefl _)
  · have unread : r.read p = none := read_eq_none_iff.mpr (Nat.not_lt.mp old)
    rw [unread]
    by_cases first : p = ⟨r.nodes.length, 0⟩
    · subst first
      rw [read_publish_self]
      exact opened
    · rcases read_publish_new r.head addr old first with none | free
      · rw [none]
        apply stays
        rintro d ⟨⟩
        exact Ne.symm first
      · have there : p.node < r.nodes.length + 1 := by
          simpa [Place.Published, Registry.publish] using Place.Published.of_read free
        rw [free]
        exact added (Nat.le_antisymm (Nat.not_lt.mp old) (Nat.lt_succ_iff.mp there))
          (Ne.symm first)

namespace Account.Step

variable {A B : Account} {deed : Option Deed}

theorem leaves (step : Step A deed B) : Deed.Leaves A.debts B.debts deed := by
  cases step with
  | quiet debts | retained debts | released debts | paid _ debts => exact debts
  | taken _ _ debts | grown _ debts => exact debts
  | withdrawn _ debts | cleared _ debts => exact debts

/-- If no debt is recorded, the debts stay, or one of them is settled. -/
theorem quiet_leaves (step : Step A deed B) (quiet : ∀ d, deed ≠ some (.recorded d)) :
    B.debts.Perm A.debts ∨ ∃ d, A.debts.Perm (d :: B.debts) := by
  cases step with
  | quiet debts | retained debts | released debts | paid _ debts => exact .inl debts
  | taken | grown => exact absurd rfl (quiet _)
  | withdrawn _ debts | cleared _ debts => exact .inr ⟨_, debts⟩

theorem moves (step : Step A deed B) (p : Place) :
    Mark.Moves p deed (A.registry.read p) (B.registry.read p) := by
  cases step with
  | quiet | retained | released => exact .stays (by simp [Deed.debt?])
  | taken free => exact .write (d := ⟨_, _⟩) rfl free .recorded p
  | grown => exact .publish _ _ p
  | withdrawn owed => exact .write rfl owed .withdrawn p
  | cleared isPaid => exact .write rfl isPaid .cleared p
  | paid owed => exact .write (d := ⟨_, _⟩) rfl owed .paid p

end Account.Step

namespace Session

/-- The debts whose marks are at a place. -/
def owners (s : Session) (p : Place) : List Debt := s.unsettled.filter fun d => d.place = p

theorem owners_eq_singleton {s : Session} (sound : Sound s.ledger s.activities) {d : Debt}
    (member : d ∈ s.unsettled) : s.owners d.place = [d] := by
  have order := List.perm_cons_erase member
  have foreign := (sound.backed.perm order).not_mem_places
  have none : (s.unsettled.erase d).filter (fun other => other.place = d.place) = [] := by
    rw [List.filter_eq_nil_iff]
    intro other inside same
    exact foreign (List.mem_map.mpr ⟨other, inside, of_decide_eq_true same⟩)
  have all := order.filter fun other => other.place = d.place
  rw [List.filter_cons_of_pos (by simp), none] at all
  exact List.perm_singleton.mp all

/-- The mark of a debt that is being settled is owed, or paid and about to be freed. -/
theorem settle_ne_corrupted {s : Session} (sound : Sound s.ledger s.activities) {d : Debt}
    {progress : Settle} (member : .settling d progress ∈ s.activities) :
    (progress.step d s.ledger.registry).1 ≠ .corrupted := by
  rcases sound.fit _ member with rfl | ⟨rfl, -⟩
  · rcases sound.backed.marked d (mem_debts member rfl _) with owed | isPaid
    · rw [Settle.step_withdraw_of_owed owed]
      nofun
    · rw [Settle.step_withdraw_of_paid isPaid]
      nofun
  · rw [Settle.step_clear]
    nofun

/-- In a run of any threads, unsettled debts have marks of their own, which owe their address or are
paid, and all other marks are free. No settlement finds its mark corrupted. Marks move from free to
owed, from owed to free or paid, and from paid to free only, each time by a deed of the one debt that
is recorded there. -/
theorem run_debts_own_marks (programs : List (List Request)) (schedule : List (Nat × Bool)) :
    let s := (ofPrograms programs).run schedule
    (s.unsettled.map Debt.place).Nodup ∧
      (∀ d ∈ s.unsettled, d.addr.reserved = false ∧
        (s.ledger.registry.read d.place = some (.owed d.addr) ∨
          s.ledger.registry.read d.place = some .paid)) ∧
      (∀ p mark, s.ledger.registry.read p = some mark →
        if mark = .free then s.owners p = [] else ∃ d, s.owners p = [d]) ∧
      (∀ d progress, .settling d progress ∈ s.activities →
        (progress.step d s.ledger.registry).1 ≠ .corrupted) ∧
      ∀ i spurious,
        Deed.Leaves s.unsettled (s.step i spurious).unsettled (s.deed i spurious) ∧
          ∀ p, Mark.Moves p (s.deed i spurious) (s.ledger.registry.read p)
            ((s.step i spurious).ledger.registry.read p) := by
  intro s
  have sound : Sound s.ledger s.activities := run_sound schedule _ (ofPrograms_sound programs)
  refine ⟨sound.backed.apart, fun d member => ⟨sound.genuine d member, sound.backed.marked d member⟩,
    ?_, fun d progress => settle_ne_corrupted sound, ?_⟩
  · intro p mark read
    split
    · next free =>
      subst free
      rw [owners, List.filter_eq_nil_iff]
      intro d member same
      exact sound.backed.free_not_mem read
        (List.mem_map.mpr ⟨d, member, of_decide_eq_true same⟩)
    · next taken =>
      obtain ⟨d, member, rfl⟩ := sound.backed.claimed p mark read taken
      exact ⟨d, owners_eq_singleton sound member⟩
  · intro i spurious
    have step := (step_does s sound i spurious).1
    exact ⟨step.leaves, step.moves⟩

end Session

end SharedCells.Registry
