import SharedCells.Proofs.Cell.Typed

/-! An update whose function stores into the cell while it is called.

A call goes without a retry if it leaves in the cell the value that it was made on,
whether it has stored nothing or has stored that value again. Otherwise the next call
is made on what it has stored. So the calls are made on the first value and on the
stores in their order, up to the first store that changes nothing. -/

set_option autoImplicit false

namespace SharedCells

variable {ρ α : Type} [DecidableEq α]

/-- How many calls are followed by another one: those that store a value other than the one they are
made on, up to the first that does not. -/
def retries : α → List α → Nat
  | _, [] => 0
  | v, w :: stores => if w = v then 0 else retries w stores + 1

section Retries

variable {v w : α} {stores : List α}

theorem retries_le (v : α) (stores : List α) : retries v stores ≤ stores.length := by
  induction stores generalizing v with
  | nil => exact Nat.le_refl 0
  | cons w stores ih =>
    rw [retries, List.length_cons]
    split
    · exact Nat.zero_le _
    · exact Nat.succ_le_succ (ih w)

theorem exists_last (v : α) (stores : List α) : ∃ old, (v :: stores)[retries v stores]? = some old := by
  have bound : retries v stores < (v :: stores).length := by
    rw [List.length_cons]
    exact Nat.lt_succ_of_le (retries_le v stores)
  exact ⟨_, List.getElem?_eq_getElem bound⟩

theorem stores_of_lt_retries {n : Nat} (before : n < retries v stores) :
    ∃ w, stores[n]? = some w ∧ (v :: stores)[n]? ≠ some w := by
  induction stores generalizing v n with
  | nil => exact absurd before (Nat.not_lt_zero n)
  | cons w stores ih =>
    rw [retries] at before
    split at before
    · exact absurd before (Nat.not_lt_zero n)
    · next differs =>
      cases n with
      | zero => exact ⟨w, rfl, fun same => differs (Option.some.inj same).symm⟩
      | succ n => exact ih (Nat.lt_of_succ_lt_succ before)

theorem stores_retries (v : α) (stores : List α) :
    stores[retries v stores]? = none ∨ stores[retries v stores]? = (v :: stores)[retries v stores]? := by
  induction stores generalizing v with
  | nil => exact .inl rfl
  | cons w stores ih =>
    by_cases same : w = v
    · rw [retries, if_pos same]
      exact .inr (congrArg some same)
    · rw [retries, if_neg same]
      exact ih w

end Retries

namespace Variable

variable {f : α → α} {stores : List α} {spurious : Nat → Bool} {old : α}

/-- The calls of an update from one of them on. The induction is on the stores that are still to come;
what the earlier calls were made on only counts them. -/
theorem update_interfering {rounds : Nat} {earlier rest : List α} {v : α}
    (left : stores.drop earlier.length = rest) (last : (v :: rest)[retries v rest]? = some old)
    (steady : spurious (earlier.length + retries v rest) = false) (enough : retries v rest < rounds) :
    update (.interfering f stores) spurious rounds earlier v =
      (.updated old (earlier ++ (v :: rest).take (retries v rest + 1)), f old) := by
  induction rest generalizing rounds earlier v with
  | nil =>
    obtain ⟨rounds, rfl⟩ := Nat.exists_eq_add_of_lt enough
    obtain rfl := Option.some.inj last
    have nothing : stores[earlier.length]? = none :=
      List.getElem?_eq_none (List.drop_eq_nil_iff.mp left)
    simp only [update, Closure.interfering, nothing, Option.getD_none, true_and]
    exact if_pos steady
  | cons w rest ih =>
    have stored : stores[earlier.length]? = some w := by
      rw [← Nat.add_zero earlier.length, ← List.getElem?_drop, left]
      rfl
    obtain ⟨rounds, rfl⟩ : ∃ more, rounds = more + 1 :=
      Nat.exists_eq_succ_of_ne_zero (Nat.ne_of_gt (Nat.zero_lt_of_lt enough))
    simp only [update, Closure.interfering, stored, Option.getD_some]
    -- A store of what is there already does not make the exchange fail.
    by_cases same : w = v
    · have none : retries v (w :: rest) = 0 := if_pos same
      rw [none] at last steady ⊢
      obtain rfl := Option.some.inj last
      rw [if_pos ⟨same, steady⟩, same]
      rfl
    · have more : retries v (w :: rest) = retries w rest + 1 := if_neg same
      rw [more] at last steady enough ⊢
      rw [if_neg fun kept => same kept.1]
      have next : (earlier ++ [v]).length = earlier.length + 1 := List.length_append
      have left' : stores.drop (earlier ++ [v]).length = rest := by
        rw [next, ← List.drop_drop, left]
        rfl
      rw [ih left' last (by rw [next]; exact Nat.add_right_comm _ _ _ ▸ steady) (by omega),
        List.append_assoc]
      rfl

end Variable

namespace Trial

variable {ρ α : Type} [DecidableEq ρ] [DecidableEq α] {E : Encoding ρ α}

/-- An update whose `n`th call stores `stores[n]` makes its calls on the first value and on the stores
in their order, up to the first call that stores nothing or the value it was made on: it replaces that
value, by the image of that value, and answers it. It makes at most one call more than there are
stores, however many it may make, and no other try has a say in whether it ends. -/
theorem interfered_update_trace (lawful : E.Lawful) (f : α → α) (v : α) (stores : List α) :
    let last := retries v stores
    let seen := (v :: stores).take (last + 1)
    last ≤ stores.length ∧
      (∀ n < last, ∃ w, stores[n]? = some w ∧ (v :: stores)[n]? ≠ some w) ∧
      (stores[last]? = none ∨ stores[last]? = (v :: stores)[last]?) ∧
      ∃ old, (v :: stores)[last]? = some old ∧ seen.length = last + 1 ∧
        (∀ (rounds : Nat) (spurious : Nat → Bool), last < rounds → spurious last = false →
          run E (E.encode v) ⟨.update (.interfering f stores) rounds, spurious⟩ =
            (.ok (.updated old seen), E.encode (f old))) ∧
        (Action.interferedUpdate f stores).run E (E.encode v) =
          (.ok (.updated old seen), E.encode (f old)) := by
  intro last seen
  have bound : last ≤ stores.length := retries_le v stores
  obtain ⟨old, at_last⟩ := exists_last v stores
  have returns (rounds : Nat) (spurious : Nat → Bool) (enough : last < rounds)
      (steady : spurious last = false) :
      run E (E.encode v) ⟨.update (.interfering f stores) rounds, spurious⟩ =
        (.ok (.updated old seen), E.encode (f old)) := by
    have updated : Variable.update (.interfering f stores) spurious rounds [] v =
        (.updated old ([] ++ seen), f old) := by
      refine Variable.update_interfering rfl at_last ?_ enough
      rwa [List.length_nil, Nat.zero_add]
    have acted : Variable.act v ⟨.update (.interfering f stores) rounds, spurious⟩ =
        (.ok (.updated old seen), f old) := by
      simp only [Variable.act, updated, List.nil_append]
    rw [run_encode lawful, acted]
    rfl
  refine ⟨bound, fun _ => stores_of_lt_retries, stores_retries v stores, old, at_last, ?_, returns, ?_⟩
  · rw [List.length_take, List.length_cons]
    exact Nat.min_eq_left (Nat.succ_le_succ bound)
  · rw [← run_steady]
    exact returns _ _ (Nat.lt_succ_of_le bound) rfl

/-- The second call stores the first value again, which the first had replaced, and the third stores it
once more, so the last store is not reached. -/
theorem interfered_update_trace_restored :
    let E := Variant.encoding [⟨"A", 7, false⟩, ⟨"B", 3, false⟩, ⟨"C", (5 : Int), false⟩]
    E.Lawful ∧ retries (0 : Fin 3) [1, 0, 0, 2] = 2 ∧
      (Action.interferedUpdate (· + 1) [1, 0, 0, 2]).run E (E.encode 0) =
        (.ok (.updated 0 [0, 1, 0]), E.encode 1) := by
  intro E
  have lawful : E.Lawful := by
    unfold Encoding.Lawful
    decide
  have twice : retries (0 : Fin 3) [1, 0, 0, 2] = 2 := by decide
  obtain ⟨-, -, -, old, at_last, -, -, trace⟩ :=
    interfered_update_trace lawful (· + 1) (0 : Fin 3) [1, 0, 0, 2]
  rw [twice] at at_last trace
  obtain rfl := Option.some.inj at_last
  exact ⟨lawful, twice, trace⟩

end Trial

end SharedCells
