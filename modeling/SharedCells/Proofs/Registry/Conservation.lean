import SharedCells.Proofs.Registry.Deeds

/-! What payers give and what readers take.

A payer retains the object before it marks a debt as paid. From then on the
reference belongs to the debt, until the reader settles it and is told that the
debt was paid. So what payers have retained and not released again is in their
hands, on a paid mark, or with a reader. -/

set_option autoImplicit false

namespace SharedCells.Registry

/-- A settlement leaves the reader with a reference to the object at the address. -/
def Deed.handsOver (addr : Addr) : Deed → Bool
  | .settled debt outstanding => decide (debt.addr = addr) && !outstanding
  | _ => false

def Activity.isPaying : Activity → Bool
  | .paying _ => true
  | _ => false

/-- The references to the object at an address that payers have in hand or have given to debts. -/
def Account.worth (A : Account) (addr : Addr) : Nat :=
  A.registry.paid A.debts addr + A.inHand.count addr

/-- What has been done since a debt was recorded that is not settled yet. -/
structure Since (deeds : List Deed) (d : Debt) (since : List Deed) : Prop where
  recorded : ∃ earlier, deeds = earlier ++ .recorded d :: since
  once : .recorded d ∉ since
  unsettled : ∀ outstanding, .settled d outstanding ∉ since

/-- Every unsettled debt was recorded, and it has been paid once or never since, as its mark says. -/
def Remembered (deeds : List Deed) (A : Account) : Prop :=
  ∀ d ∈ A.debts, ∃ since, Since deeds d since ∧
    since.count (.paid d) = if A.registry.read d.place = some .paid then 1 else 0

section Steps

variable {A B : Account} {deed : Option Deed} {deeds since : List Deed} {d : Debt}

theorem Account.Step.worth (step : Step A deed B) (backed : A.registry.Backed A.debts)
    (addr : Addr) :
    B.worth addr + deed.toList.count (.called .release addr) +
        deed.toList.countP (Deed.handsOver addr) =
      A.worth addr + deed.toList.count (.called .retain addr) := by
  unfold Account.worth
  cases step with
  | quiet debts hand =>
    simp [paid_perm debts, hand.count_eq]
  | taken free _ debts hand =>
    simp [paid_perm debts, hand.count_eq, backed.paid_take free, Deed.handsOver]
  | grown _ debts hand =>
    simp [paid_perm debts, hand.count_eq, backed.paid_publish, Deed.handsOver]
  | withdrawn owed debts hand =>
    simp [paid_perm debts, hand.count_eq, (backed.perm debts).paid_settle, paid_cons, owed,
      Deed.handsOver]
  | cleared isPaid debts hand =>
    simp [paid_perm debts, hand.count_eq, (backed.perm debts).paid_settle, paid_cons, isPaid,
      Deed.handsOver]
    split <;> omega
  | paid owed debts hand =>
    simp [paid_perm debts, hand.count_eq, backed.paid_pay owed, List.count_cons, Deed.handsOver]
    omega
  | retained debts hand =>
    simp [paid_perm debts, hand.count_eq, List.count_cons, Deed.handsOver]
    omega
  | released debts hand =>
    simp [paid_perm debts, hand.count_eq, List.count_cons, Deed.handsOver]
    omega

theorem Since.append (known : Since deeds d since) (deed : Option Deed)
    (other : ∀ done ∈ deed, done ≠ .recorded d ∧ ∀ outstanding, done ≠ .settled d outstanding) :
    Since (deeds ++ deed.toList) d (since ++ deed.toList) where
  recorded := by
    obtain ⟨earlier, rfl⟩ := known.recorded
    exact ⟨earlier, by rw [List.append_assoc, List.cons_append]⟩
  once member := by
    rcases List.mem_append.mp member with old | new
    · exact known.once old
    · exact (other _ (Option.mem_toList.mp new)).1 rfl
  unsettled outstanding member := by
    rcases List.mem_append.mp member with old | new
    · exact known.unsettled outstanding old
    · exact (other _ (Option.mem_toList.mp new)).2 outstanding rfl

theorem Remembered.step (remembered : Remembered deeds A) (step : Account.Step A deed B)
    (backed : A.registry.Backed A.debts) : Remembered (deeds ++ deed.toList) B := by
  intro d after
  rcases step.fate backed after with ⟨rfl, -, owed⟩ | ⟨rfl, before, owed, isPaid⟩ |
    ⟨before, other, same⟩
  · exact ⟨[], ⟨⟨deeds, rfl⟩, by simp, by simp⟩, by simp [owed]⟩
  · obtain ⟨since, known, count⟩ := remembered d before
    refine ⟨_, known.append _ ?_, ?_⟩
    · rintro done ⟨⟩
      exact ⟨nofun, nofun⟩
    · simp [count, owed, isPaid]
  · obtain ⟨since, known, count⟩ := remembered d before
    refine ⟨_, known.append deed ?_, ?_⟩
    · rintro done rfl
      exact ⟨fun own => other d (by rw [own]; rfl) rfl,
        fun outstanding own => other d (by rw [own]; rfl) rfl⟩
    · have none : deed.toList.count (.paid d) = 0 := by
        rw [List.count_eq_zero]
        intro own
        exact other d (by rw [Option.mem_toList.mp own]; rfl) rfl
      rw [List.count_append, count, none, same, Nat.add_zero]

theorem Account.Step.owed_of_paid (step : Account.Step A (some (.paid d)) B) :
    A.registry.read d.place = some (.owed d.addr) := by
  cases step with
  | paid owed => exact owed

/-- A settlement answers for the mark that it finds. -/
theorem Account.Step.mark_of_settled {outstanding : Bool}
    (step : Account.Step A (some (.settled d outstanding)) B) :
    d ∈ A.debts ∧ (outstanding = false ↔ A.registry.read d.place = some .paid) := by
  cases step with
  | withdrawn owed debts => exact ⟨debts.mem_iff.mpr List.mem_cons_self, by simp [owed]⟩
  | cleared isPaid debts => exact ⟨debts.mem_iff.mpr List.mem_cons_self, by simp [isPaid]⟩

end Steps

namespace Session

theorem run_worth (schedule : List (Nat × Bool)) (s : Session) (sound : Sound s.ledger s.activities)
    (addr : Addr) :
    (s.run schedule).account.worth addr + (s.deeds schedule).count (.called .release addr) +
        (s.deeds schedule).countP (Deed.handsOver addr) =
      s.account.worth addr + (s.deeds schedule).count (.called .retain addr) := by
  induction schedule generalizing s with
  | nil => rfl
  | cons turn schedule ih =>
    obtain ⟨i, spurious⟩ := turn
    obtain ⟨step, next⟩ := step_does s sound i spurious
    have first := step.worth sound.backed addr
    have rest := ih _ next
    rw [run_cons, deeds, List.count_append, List.countP_append, List.count_append]
    omega

theorem run_remembered (schedule : List (Nat × Bool)) (s : Session)
    (sound : Sound s.ledger s.activities) (earlier : List Deed)
    (remembered : Remembered earlier s.account) :
    Remembered (earlier ++ s.deeds schedule) (s.run schedule).account := by
  induction schedule generalizing s earlier with
  | nil =>
    rw [deeds, List.append_nil]
    exact remembered
  | cons turn schedule ih =>
    obtain ⟨i, spurious⟩ := turn
    obtain ⟨step, next⟩ := step_does s sound i spurious
    rw [run_cons, deeds, ← List.append_assoc]
    exact ih _ next _ (remembered.step step sound.backed)

theorem inHand_eq_nil {s : Session} (quiet : ∀ a ∈ s.activities, a.isPaying = false) :
    s.account.inHand = [] := by
  refine List.filterMap_eq_nil_iff.mpr fun a member => ?_
  have idle := quiet a member
  cases a with
  | claiming | settling => rfl
  | paying payment => contradiction

/-- In a run of any threads, payments keep no references: while none is in progress, all that they
have retained and not released again is with readers, or on the paid marks of unsettled debts. A
debt is paid once at most, and its settlement answers `false` if and only if it was paid. -/
theorem run_conserves_references (programs : List (List Request)) (schedule : List (Nat × Bool)) :
    let s := (ofPrograms programs).run schedule
    let deeds := (ofPrograms programs).deeds schedule
    ((∀ a ∈ s.activities, a.isPaying = false) → ∀ addr,
        (deeds.count (.called .retain addr) : Int) - deeds.count (.called .release addr) =
          deeds.countP (Deed.handsOver addr) + s.ledger.registry.paid s.unsettled addr) ∧
      (∀ before d after, deeds = before ++ .paid d :: after →
        ∃ since, Since before d since ∧ .paid d ∉ since) ∧
      (∀ before d outstanding after, deeds = before ++ .settled d outstanding :: after →
        ∃ since, Since before d since ∧ (outstanding = false ↔ since.count (.paid d) = 1)) ∧
      ∀ d ∈ s.unsettled, ∃ since, Since deeds d since ∧
        since.count (.paid d) = if s.ledger.registry.read d.place = some .paid then 1 else 0 := by
  intro s deeds
  have sound := ofPrograms_sound programs
  have remembered (schedule : List (Nat × Bool)) : Remembered
      ((ofPrograms programs).deeds schedule) ((ofPrograms programs).run schedule).account := by
    have empty : Remembered [] (ofPrograms programs).account := by
      rw [account_ofPrograms]
      exact nofun
    exact run_remembered schedule _ sound [] empty
  refine ⟨?_, ?_, ?_, remembered schedule⟩
  · intro quiet addr
    have total : s.account.worth addr + deeds.count (.called .release addr) +
        deeds.countP (Deed.handsOver addr) =
          (ofPrograms programs).account.worth addr + deeds.count (.called .retain addr) :=
      run_worth schedule _ sound addr
    have start : (ofPrograms programs).account.worth addr = 0 := by
      rw [account_ofPrograms]
      rfl
    have hands : s.account.worth addr = s.ledger.registry.paid s.unsettled addr := by
      rw [Account.worth, inHand_eq_nil quiet]
      rfl
    omega
  · intro before d after split
    -- The deed is that of one step, before which the payments of the debt are remembered.
    obtain ⟨earlier, i, spurious, rfl, done⟩ := exists_step_of_deeds split
    have sound := run_sound earlier _ sound
    have step := (step_does _ sound i spurious).1
    rw [done] at step
    obtain ⟨since, known, count⟩ := remembered earlier d (sound.backed.debtor step.owed_of_paid)
    refine ⟨since, known, ?_⟩
    rw [if_neg (by simp [step.owed_of_paid]), List.count_eq_zero] at count
    exact count
  · intro before d outstanding after split
    obtain ⟨earlier, i, spurious, rfl, done⟩ := exists_step_of_deeds split
    have step := (step_does _ (run_sound earlier _ sound) i spurious).1
    rw [done] at step
    obtain ⟨member, mark⟩ := step.mark_of_settled
    obtain ⟨since, known, count⟩ := remembered earlier d member
    refine ⟨since, known, mark.trans ?_⟩
    rw [count]
    split <;> simp_all

/-- One of two debts is given up inside the second retain of their payment, so that the payer has to
release again; the other debt is left paid. -/
theorem run_conserves_references_reentrant :
    let start := ofPrograms [[.claim "a" 16, .claim "b" 16], [.pay 16 [[], [.settle "b"]] []]]
    let schedule := List.replicate 9 (0, false) ++ List.replicate 22 (1, false)
    let s := start.run schedule
    let deeds := start.deeds schedule
    (∀ a ∈ s.activities, a.isPaying = false) ∧
      deeds.count (.called .retain 16) = 2 ∧ deeds.count (.called .release 16) = 1 ∧
      s.unsettled = [⟨⟨0, 0⟩, 16⟩] ∧
      (deeds.count (.called .retain 16) : Int) - deeds.count (.called .release 16) =
        deeds.countP (Deed.handsOver 16) + s.ledger.registry.paid s.unsettled 16 :=
  ⟨by decide, by decide, by decide, by decide,
    (run_conserves_references _ _).1 (by decide) 16⟩

end Session

end SharedCells.Registry
