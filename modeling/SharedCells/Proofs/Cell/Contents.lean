import SharedCells.Proofs.Cell.Typed

/-! What is done to the content of a cell, whether or not it decodes.

An encoding may be unlawful: two values may share a content, and a content may
decode to no value. A cell then still does to its content what a plain cell of
contents does; only what is handed back to the caller has to decode. An exchange
has written when that fails, a failed compare-exchange has not, and a successful
one hands nothing back. -/

set_option autoImplicit false

namespace SharedCells

/-- What reads or replaces the value of a cell once, whatever the value is. -/
inductive Access (α : Type) where
  | load
  | store (v : α)
  | exchange (v : α)
  | compareExchange (strength : Strength) (expected desired : α) (success : Order)
      (failure : Option LoadOrder)
  | compareAndExchange (strength : Strength) (expected desired : α) (success : Order)
      (failure : Option LoadOrder)

namespace Order

/-- The orders of a compare-exchange are refused if a failure order is given that outranks the success
order. -/
def Refuses (success : Order) (failure : Option LoadOrder) : Prop :=
  ∃ order, failure = some order ∧ success.rank < order.toOrder.rank

variable {success : Order} {failure : Option LoadOrder}

theorem refuses_iff : success.Refuses failure ↔ ∃ bad, failureOrder success failure = .error bad := by
  cases failure with
  | none => simp [Refuses, failureOrder_none]
  | some order =>
    refine ⟨fun ⟨_, same, outranks⟩ => ?_, fun ⟨bad, refused⟩ => ⟨order, rfl, ?_⟩⟩
    · obtain rfl := Option.some.inj same
      exact ⟨_, failureOrder_some_eq_error_iff.mpr outranks⟩
    · by_contra fits
      rw [failureOrder, Option.getD_some, if_pos (Nat.le_of_not_lt fits)] at refused
      contradiction

theorem not_refuses_iff :
    ¬ success.Refuses failure ↔ ∃ order, failureOrder success failure = .ok order := by
  rw [refuses_iff]
  cases failureOrder success failure <;> simp

theorem rank_publishing (success : Order) : success.rank ≤ success.publishing.rank := by
  cases success <;> decide

theorem failureOrder_publishing {order : LoadOrder} (admitted : failureOrder success failure = .ok order) :
    ¬ success.publishing.Refuses (some order) := by
  rintro ⟨_, same, outranks⟩
  obtain rfl := Option.some.inj same
  unfold failureOrder at admitted
  dsimp only at admitted
  split at admitted
  · next fits =>
    obtain rfl := Except.ok.inj admitted
    exact absurd (Nat.le_trans fits (rank_publishing success)) (Nat.not_le_of_lt outranks)
  · contradiction

end Order

variable {ρ α β : Type}

/-- The value that a failed compare-exchange has found. -/
def Attempt.found? (attempt : Attempt α) : Option α :=
  match attempt.verdict with
  | .ok false => some attempt.expected
  | _ => none

/-- A compare-exchange of values, made of one of contents: what it has found has to decode, and
otherwise its caller keeps the value given. -/
def Attempt.decoded (E : Encoding ρ α) (given : α) (attempt : Attempt ρ) : Attempt α :=
  match attempt.verdict with
  | .ok false =>
    match E.decode attempt.expected with
    | some actual => ⟨.ok false, actual⟩
    | none => ⟨.error .undecodable, given⟩
  | verdict => ⟨verdict, given⟩

namespace Cell

variable [DecidableEq ρ] (E : Encoding ρ α) (strength : Strength) (spurious : Bool)
  (success : Order) (failure : Option LoadOrder) (content : ρ)

theorem compareExchange_decoded (expected desired : α) :
    compareExchange E strength spurious expected desired success failure content =
      let raw := compareExchange (.plain ρ) strength spurious (E.encode expected) (E.encode desired)
        success failure content
      (raw.1.decoded E expected, raw.2) := by
  unfold compareExchange
  cases Order.failureOrder success failure with
  | error bad => rfl
  | ok order =>
    have compared : (Encoding.plain ρ).encode (E.encode expected) = E.encode expected := rfl
    by_cases won : content = E.encode expected ∧ ¬(strength = .weak ∧ spurious = true)
    · simp only [compared, if_pos won]
      rfl
    · have found : load (.plain ρ) content = .ok content := rfl
      simp only [compared, if_neg won, found, Attempt.decoded]
      rw [load]
      cases E.decode content <;> rfl

theorem compareExchange_plain (expected desired : ρ) :
    let raw := compareExchange (.plain ρ) strength spurious expected desired success failure content
    (∃ bad, Order.failureOrder success failure = .error bad ∧
        raw = (⟨.error (.misordered bad), expected⟩, content)) ∨
      (∃ order, Order.failureOrder success failure = .ok order ∧
        (raw = (⟨.ok true, expected⟩, desired) ∨ raw = (⟨.ok false, content⟩, content))) := by
  unfold compareExchange
  cases Order.failureOrder success failure with
  | error bad => exact .inl ⟨bad, rfl, rfl⟩
  | ok order =>
    refine .inr ⟨order, rfl, ?_⟩
    dsimp only
    split
    · exact .inl rfl
    · exact .inr rfl

/-- The orders only decide whether the exchange is tried at all. Whatever is reported instead of a
result, nothing has happened. -/
theorem compareExchange_orders (expected desired : α) :
    let tried := compareExchange E strength spurious expected desired success failure content
    ((∃ bad, tried.1.verdict = .error (.misordered bad)) ↔ success.Refuses failure) ∧
      (tried.1.verdict = .error .undecodable ↔ ¬ success.Refuses failure ∧
        ¬(content = E.encode expected ∧ ¬(strength = .weak ∧ spurious = true)) ∧
        E.decode content = none) ∧
      (∀ error, tried.1.verdict = .error error → tried = (⟨.error error, expected⟩, content)) ∧
      ∀ success' failure', ¬ success.Refuses failure → ¬ success'.Refuses failure' →
        compareExchange E strength spurious expected desired success' failure' content = tried := by
  dsimp only
  rw [Order.refuses_iff]
  simp only [Order.not_refuses_iff]
  unfold compareExchange
  cases Order.failureOrder success failure with
  | error bad => simp
  | ok order =>
    refine ⟨?_, ?_, ?_, fun success' failure' _ ⟨order', admitted⟩ => by rw [admitted]⟩
    all_goals
      dsimp only [load]
      split
      · simp_all
      · cases decodes : E.decode content <;> simp_all

end Cell

namespace Access

def map (f : α → β) : Access α → Access β
  | load => load
  | store v => store (f v)
  | exchange v => exchange (f v)
  | compareExchange strength expected desired success failure =>
    compareExchange strength (f expected) (f desired) success failure
  | compareAndExchange strength expected desired success failure =>
    compareAndExchange strength (f expected) (f desired) success failure

def action : Access α → Action α
  | load => .load
  | store v => .store v
  | exchange v => .exchange v
  | compareExchange strength expected desired success failure =>
    .compareExchange strength expected desired success failure
  | compareAndExchange strength expected desired success failure =>
    .compareAndExchange strength expected desired success failure

/-- Why its orders are refused. -/
def refusal? : Access α → Option Order.Misorder
  | compareExchange _ _ _ success failure | compareAndExchange _ _ _ success failure =>
    match Order.failureOrder success failure with
    | .error bad => some bad
    | .ok _ => none
  | _ => none

/-- The variable that the caller lends to a compare-exchange. -/
def lent? : Access α → Option α
  | compareExchange _ expected _ _ _ => some expected
  | _ => none

section Run

variable [DecidableEq ρ] {E : Encoding ρ α} {content : ρ} {spurious : Bool} {access : Access α}

/-- The answer, and the content then in the cell. A weak compare-exchange may fail for no reason. -/
def run (E : Encoding ρ α) (spurious : Bool) (content : ρ) (access : Access α) :
    Except CellError (Answer α) × ρ :=
  Trial.run E content ⟨access.action, fun _ => spurious⟩

/-- What the lent variable holds in the end. -/
def left? (E : Encoding ρ α) (spurious : Bool) (content : ρ) : Access α → Option α
  | compareExchange strength expected desired success failure =>
    some (Cell.compareExchange E strength spurious expected desired success failure content).1.expected
  | _ => none

/-- The content that is handed back to the caller: the current one of a load, the previous one of an
exchange, the one found by a compare-exchange that fails. -/
def handed? (spurious : Bool) (content : ρ) : Access ρ → Option ρ
  | load | exchange _ => some content
  | store _ => none
  | compareExchange strength expected desired success failure
  | compareAndExchange strength expected desired success failure =>
    (Cell.compareExchange (.plain ρ) strength spurious expected desired success failure
      content).1.found?

/-- The contents after each of some accesses, which go on after one that has failed. -/
def contents (E : Encoding ρ α) : ρ → List (Access α × Bool) → List ρ
  | _, [] => []
  | content, (access, spurious) :: rest =>
    let now := (access.run E spurious content).2
    now :: contents E now rest

theorem run_content :
    (access.run E spurious content).2 =
      ((access.map E.encode).run (.plain ρ) spurious content).2 := by
  cases access with
  | load | store | exchange => rfl
  | compareExchange | compareAndExchange =>
    simp only [run, Trial.run, action, map, Cell.compareExchange_decoded E]

theorem contents_plain (E : Encoding ρ α) (content : ρ) (accesses : List (Access α × Bool)) :
    contents E content accesses =
      contents (.plain ρ) content (accesses.map fun (access, spurious) =>
        (access.map E.encode, spurious)) := by
  induction accesses generalizing content with
  | nil => rfl
  | cons head rest ih =>
    obtain ⟨access, spurious⟩ := head
    rw [List.map_cons, contents, contents, ← run_content, ih]

/-- A cell does to its content what a plain cell of contents does, also after accesses that failed,
whether or not the encoding is lawful. An access fails exactly if its orders are refused, or if the
content that it hands back does not decode. The lent variable then keeps what it held, as it does
after an exchange that took place; after one that did not, it holds what the content decodes to. -/
theorem drives_contents (E : Encoding ρ α) :
    (∀ (content : ρ) (accesses : List (Access α × Bool)),
      contents E content accesses =
        contents (.plain ρ) content (accesses.map fun (access, spurious) =>
          (access.map E.encode, spurious))) ∧
      ∀ (content : ρ) (spurious : Bool) (access : Access α),
        let answer := (access.run E spurious content).1
        let now := (access.run E spurious content).2
        let left := access.left? E spurious content
        (∀ bad, answer = .error (.misordered bad) ↔ access.refusal? = some bad) ∧
          (answer = .error .undecodable ↔ ∃ raw,
            (access.map E.encode).handed? spurious content = some raw ∧ E.decode raw = none) ∧
          (∀ bad, answer = .error (.misordered bad) → now = content) ∧
          (∀ error, answer = .error error → left = access.lent?) ∧
          (∀ expected, answer = .ok (.compared true expected) → left = access.lent?) ∧
          (∀ expected, answer = .ok (.compared false expected) →
            E.decode content = some expected ∧ left = some expected ∧ now = content) := by
  refine ⟨contents_plain E, fun content spurious access => ?_⟩
  cases access with
  | load | exchange =>
    simp only [run, Trial.run, action, Action.run, Cell.load, map, handed?, refusal?, left?, lent?]
    cases decodes : E.decode content <;> simp [decodes, Except.map]
  | store =>
    simp [run, Trial.run, action, Action.run, map, handed?, refusal?, left?, lent?]
  | compareExchange strength expected desired success failure
  | compareAndExchange strength expected desired success failure =>
    simp only [run, Trial.run, action, map, handed?, refusal?, left?, lent?,
      Cell.compareExchange_decoded E, Attempt.observed]
    obtain ⟨bad, refused, raw⟩ | ⟨order, admitted, raw | raw⟩ := Cell.compareExchange_plain strength
      spurious success failure content (E.encode expected) (E.encode desired)
    · simp [raw, refused, Attempt.decoded, Attempt.found?, Except.map]
    · simp [raw, admitted, Attempt.decoded, Attempt.found?, Except.map]
    · simp only [raw, admitted, Attempt.decoded, Attempt.found?]
      cases decodes : E.decode content <;> simp [decodes, Except.map]

/-- Both contents of this table decode, and yet a compare-exchange fails, for its orders. -/
theorem refused_although_decodable :
    let E := Variant.encoding [⟨"A", 0, false⟩, ⟨"B", (1 : Int), false⟩]
    let access : Access (Fin 2) := .compareExchange .strong 1 1 .relaxed (some .seqCst)
    E.Lawful ∧ ¬((∃ error, (access.run E false (E.encode 0)).1 = .error error) ↔
      ∃ raw, (access.map E.encode).handed? false (E.encode 0) = some raw ∧ E.decode raw = none) := by
  intro E access
  have lawful : E.Lawful := by
    unfold Encoding.Lawful
    decide
  refine ⟨lawful, fun agree => ?_⟩
  obtain ⟨raw, handed, -⟩ := agree.mp ⟨.misordered ⟨.relaxed, .seqCst⟩, rfl⟩
  exact absurd handed (Option.some_ne_none raw).symm

end Run

end Access

end SharedCells
