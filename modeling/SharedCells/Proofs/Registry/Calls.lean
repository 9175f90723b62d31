import SharedCells.Proofs.Registry.Book

/-! Whole calls of a thread that is alone.

A call answers as the book does and leaves the registry as the book says. Weak
exchanges that fail for no reason only delay it. -/

set_option autoImplicit false

namespace SharedCells.Registry

namespace Session

/-- The next step of the only thread leads from one session to the other, unless a weak exchange
fails for no reason and the session stays. -/
def Next (s t : Session) : Prop :=
  s.step 0 false = t ∧ (s.step 0 true = t ∨ s.step 0 true = s)

abbrev Leads : Session → Session → Prop := Relation.ReflTransGen Next

/-- What a session leads to comes about once enough steps were taken in which no weak exchange
failed for no reason. -/
theorem Leads.exists_turn {s t : Session} (leads : Leads s t) :
    ∃ enough, ∀ turns : List Bool, enough ≤ turns.count false →
      ∃ n ≤ turns.length, s.run ((turns.take n).map fun spurious => (0, spurious)) = t := by
  induction leads using Relation.ReflTransGen.head_induction_on with
  | refl => exact ⟨0, fun turns _ => ⟨0, Nat.zero_le _, rfl⟩⟩
  | head next _ ih =>
    obtain ⟨enough, reaches⟩ := ih
    refine ⟨enough + 1, fun turns => ?_⟩
    -- A step can take several turns, since an exchange can fail for no reason.
    induction turns with
    | nil => intro many; simp at many
    | cons spurious turns ih =>
      intro many
      rw [List.count_cons] at many
      cases spurious with
      | false =>
        obtain ⟨n, le, run⟩ := reaches turns (by simpa using many)
        refine ⟨n + 1, Nat.succ_le_succ le, ?_⟩
        rw [List.take_succ_cons, List.map_cons, run_cons, next.1]
        exact run
      | true =>
        rcases next.2 with moves | stays
        · obtain ⟨n, le, run⟩ := reaches turns (by simp at many; omega)
          refine ⟨n + 1, Nat.succ_le_succ le, ?_⟩
          rw [List.take_succ_cons, List.map_cons, run_cons, moves]
          exact run
        · obtain ⟨n, le, run⟩ := ih (by simpa using many)
          refine ⟨n + 1, Nat.succ_le_succ le, ?_⟩
          rw [List.take_succ_cons, List.map_cons, run_cons, stays]
          exact run

theorem Next.of_step {s t : Session} (step : ∀ spurious, s.step 0 spurious = t) : Next s t :=
  ⟨step false, .inl (step true)⟩

section Calls

variable {r : Registry} {debts : List (String × Debt)} {todo : List Request} {replies : List Reply}
  {name : String} {addr : Addr} {d : Debt} {rest : List Debt}

/-- The session after a step of a claim of its only thread. -/
def claiming (name : String) (addr : Addr) (debts : List (String × Debt)) (todo : List Request)
    (replies : List Reply) : Claim × Registry → Session
  | (.recorded place grown, r) =>
    ⟨⟨r, (name, ⟨place, addr⟩) :: debts⟩, [[⟨todo, none, .claimed grown :: replies⟩]]⟩
  | (claim, r) => ⟨⟨r, debts⟩, [[⟨todo, some (.claiming name addr claim), replies⟩]]⟩

theorem claiming_of_pending {claim : Claim} (pending : claim.Pending) :
    claiming name addr debts todo replies (claim, r) =
      ⟨⟨r, debts⟩, [[⟨todo, some (.claiming name addr claim), replies⟩]]⟩ := by
  cases claim with
  | recorded => exact pending.elim
  | start | test | take | grow | link => rfl

theorem step_claiming {claim : Claim} (pending : claim.Pending) (spurious : Bool) :
    (claiming name addr debts todo replies (claim, r)).step 0 spurious =
      claiming name addr debts todo replies (claim.step addr spurious r) := by
  rw [claiming_of_pending pending]
  rcases next : claim.step addr spurious r with ⟨progress, r'⟩
  cases progress <;> simp [step, Thread.step, Level.advance, Level.answer, claiming, next]

theorem next_claiming (name : String) (addr : Addr) (debts : List (String × Debt))
    (todo : List Request) (replies : List Reply) {claim : Claim} (pending : claim.Pending) :
    Next (claiming name addr debts todo replies (claim, r))
      (claiming name addr debts todo replies (claim.step addr false r)) := by
  refine ⟨step_claiming pending false, ?_⟩
  rw [step_claiming pending]
  rcases claim.step_spurious addr r with same | stays
  · exact .inl (by rw [same])
  · exact .inr (by rw [stays])

theorem claim_leads (chained : r.Chained) (name : String) (addr : Addr)
    (debts : List (String × Debt)) (todo : List Request) (replies : List Reply) :
    ∃ p grown r', Recorded r addr p grown r' ∧
      Leads ⟨⟨r, debts⟩, [[⟨todo, some (.claiming name addr .start), replies⟩]]⟩
        ⟨⟨r', (name, ⟨p, addr⟩) :: debts⟩, [[⟨todo, none, .claimed grown :: replies⟩]]⟩ := by
  apply Claim.of_recorded addr chained (motive := fun claim => ∃ p grown r',
    Recorded r addr p grown r' ∧ Leads (claiming name addr debts todo replies (claim, r))
      (claiming name addr debts todo replies (.recorded p grown, r')))
  · rintro claim next pending - step ⟨p, grown, r', recorded, leads⟩
    have first := next_claiming (r := r) name addr debts todo replies pending
    rw [step] at first
    exact ⟨p, grown, r', recorded, .head first leads⟩
  · intro claim p grown r' pending step recorded
    have last := next_claiming (r := r) name addr debts todo replies pending
    rw [step] at last
    exact ⟨p, grown, r', recorded, .single last⟩

theorem settle_leads (backed : r.Backed (d :: rest)) (debts : List (String × Debt))
    (todo : List Request) (replies : List Reply) :
    Leads ⟨⟨r, debts⟩, [[⟨todo, some (.settling d .withdraw), replies⟩]]⟩
      ⟨⟨r.write d.place .free, debts⟩,
        [[⟨todo, none, .settled (!decide (r.read d.place = some .paid)) :: replies⟩]]⟩ := by
  rcases backed.marked d List.mem_cons_self with owed | isPaid
  · apply Relation.ReflTransGen.single
    apply Next.of_step
    intro spurious
    simp [step, Thread.step, Level.advance, Level.answer, Settle.step_withdraw_of_owed owed, owed]
  · apply Relation.ReflTransGen.head (b := ⟨⟨r, debts⟩, [[⟨todo, some (.settling d .clear), replies⟩]]⟩)
    · apply Next.of_step
      intro spurious
      simp [step, Thread.step, Level.advance, Settle.step_withdraw_of_paid isPaid]
    · apply Relation.ReflTransGen.single
      apply Next.of_step
      intro spurious
      simp [step, Thread.step, Level.advance, Level.answer, Settle.step_clear, isPaid]

/-- The session of a payment that has retained for so many debts. -/
def paying (addr : Addr) (debts : List (String × Debt)) (onRetain onRelease : List (List Request))
    (todo : List Request) (replies : List Reply) (r : Registry) (paid : Nat) (progress : Payment) :
    Session :=
  ⟨⟨r, debts⟩, [[⟨todo,
    some (.paying ⟨addr, progress, onRetain, onRelease, List.replicate paid (.retain, [])⟩), replies⟩]]⟩

theorem script_of_inert {payment : Paying} (inert : ∀ script ∈ payment.onRetain, script = []) :
    payment.script .retain = [] := by
  unfold Paying.script
  cases found : payment.onRetain[payment.count .retain]? with
  | none => rfl
  | some script => exact inert script (List.mem_of_getElem? found)

theorem retain_leads {paid : Nat} {p : Place} {onRelease : List (List Request)}
    (onRetain : List (List Request)) (inert : ∀ script ∈ onRetain, script = [])
    (owed : r.read p = some (.owed addr)) :
    Leads (paying addr debts onRetain onRelease todo replies r paid (.test p))
      (paying addr debts onRetain onRelease todo replies (r.write p .paid) (paid + 1)
        (.scan ((r.write p .paid).after p))) := by
  have sees : Next (paying addr debts onRetain onRelease todo replies r paid (.test p))
      (paying addr debts onRetain onRelease todo replies r paid (.retain p)) := by
    apply Next.of_step
    intro spurious
    simp [paying, step, Thread.step, Level.advance, Paying.due, Payment.step_test, owed]
  let payment : Paying :=
    ⟨addr, .retain p, onRetain, onRelease, List.replicate paid (.retain, [])⟩
  let caller : Level := ⟨todo, some (.paying payment), replies⟩
  have calls : Next (paying addr debts onRetain onRelease todo replies r paid (.retain p))
      ⟨⟨r, debts⟩, [[{ todo := [] }, caller]]⟩ := by
    apply Next.of_step
    intro spurious
    have nothing : payment.script .retain = [] := script_of_inert inert
    simp [paying, caller, payment, step, Thread.step, Level.advance, Paying.due] at nothing ⊢
    exact nothing
  have returns : Next ⟨⟨r, debts⟩, [[{ todo := [] }, caller]]⟩
      (paying addr debts onRetain onRelease todo replies r (paid + 1) (.mark p)) := by
    apply Next.of_step
    intro spurious
    rfl
  have marks : Next (paying addr debts onRetain onRelease todo replies r (paid + 1) (.mark p))
      (paying addr debts onRetain onRelease todo replies (r.write p .paid) (paid + 1)
        (.scan ((r.write p .paid).after p))) := by
    apply Next.of_step
    intro spurious
    simp [paying, step, Thread.step, Level.advance, Paying.due, Payment.step_mark_of_owed owed]
  exact .head sees (.head calls (.head returns (.single marks)))

theorem pay_leads (chained : r.Chained) (addr : Addr) (debts : List (String × Debt))
    (onRetain onRelease : List (List Request)) (inert : ∀ script ∈ onRetain, script = [])
    (todo : List Request) (replies : List Reply) :
    ∃ ps, ps.Perm r.places ∧
      Leads (paying addr debts onRetain onRelease todo replies r 0 .start)
        ⟨⟨r.payAt addr ps, debts⟩, [[⟨todo, none,
          .paid (r.owing addr) (List.replicate (r.owing addr) (.retain, [])) :: replies⟩]]⟩ := by
  apply Payment.of_finished addr chained (motive := fun now paid progress => ∃ ps,
    ps.Perm r.places ∧ Leads (paying addr debts onRetain onRelease todo replies now paid progress)
      ⟨⟨r.payAt addr ps, debts⟩, [[⟨todo, none,
        .paid (r.owing addr) (List.replicate (r.owing addr) (.retain, [])) :: replies⟩]]⟩)
  · rintro ⟨ps, all, leads⟩
    refine ⟨ps, all, .head (Next.of_step fun spurious => ?_) leads⟩
    rfl
  · rintro now paid p gone ⟨ps, all, leads⟩
    refine ⟨ps, all, .head (Next.of_step fun spurious => ?_) leads⟩
    simp [paying, step, Thread.step, Level.advance, Paying.due, Payment.step_test, gone]
  · rintro now paid p owed ⟨ps, all, leads⟩
    exact ⟨ps, all, (retain_leads onRetain inert owed).trans leads⟩
  · intro ps all
    refine ⟨ps, all, .single (Next.of_step fun spurious => ?_)⟩
    simp [paying, step, Thread.step, Level.advance, Level.answer, Paying.due, Paying.retained,
      Paying.count]

end Calls

theorem call_leads {ledger : Ledger} {b : Book} (mirrors : ledger.Mirrors b) (request : Request)
    (inert : request.Inert) (todo : List Request) (replies : List Reply) :
    ∃ ledger', ledger'.Mirrors (b.answer request).1 ∧
      Leads ⟨ledger, [[⟨request :: todo, none, replies⟩]]⟩
        ⟨ledger', [[⟨todo, none, (b.answer request).2 :: replies⟩]]⟩ := by
  cases request with
  | claim name addr =>
    cases reserved : addr.reserved with
    | true =>
      have refuses : b.answer (.claim name addr) = (b, .refused) := by simp [Book.answer, reserved]
      rw [refuses]
      refine ⟨ledger, mirrors, .single (Next.of_step fun spurious => ?_)⟩
      simp [step, Thread.step, Level.start, Level.answer, reserved]
    | false =>
      obtain ⟨p, grown, r, recorded, leads⟩ :=
        claim_leads mirrors.chained name addr ledger.debts todo replies
      obtain ⟨reply, next⟩ := mirrors.claim name reserved recorded
      rw [reply]
      refine ⟨_, next, .head (Next.of_step fun spurious => ?_) leads⟩
      simp [step, Thread.step, Level.start, reserved]
  | settle name =>
    cases found : ledger.debts.lookup name with
    | none =>
      rw [mirrors.answer_unnamed found]
      refine ⟨ledger, mirrors, .single (Next.of_step fun spurious => ?_)⟩
      simp [step, Thread.step, Level.start, Level.answer, found]
    | some d =>
      obtain ⟨reply, next⟩ := mirrors.settle found
      rw [reply]
      refine ⟨_, next, .head (Next.of_step fun spurious => ?_)
        (settle_leads (mirrors.backed.perm (perm_of_lookup found)) _ todo replies)⟩
      simp [step, Thread.step, Level.start, found]
  | pay addr onRetain onRelease =>
    obtain ⟨ps, all, leads⟩ :=
      pay_leads mirrors.chained addr ledger.debts onRetain onRelease inert.1 todo replies
    rw [mirrors.owing] at leads
    refine ⟨_, mirrors.pay all onRetain onRelease, .head (Next.of_step fun spurious => ?_) leads⟩
    rfl

/-- Calls answer as the book does, one after another. -/
theorem calls_lead (requests : List Request) (inert : ∀ request ∈ requests, request.Inert)
    {ledger : Ledger} {b : Book} (mirrors : ledger.Mirrors b) (todo : List Request)
    (replies : List Reply) :
    ∃ ledger', ledger'.Mirrors (b.answers requests).1 ∧
      Leads ⟨ledger, [[⟨requests ++ todo, none, replies⟩]]⟩
        ⟨ledger', [[⟨todo, none, (b.answers requests).2.reverse ++ replies⟩]]⟩ := by
  induction requests generalizing ledger b replies with
  | nil => exact ⟨ledger, mirrors, .refl⟩
  | cons request requests ih =>
    obtain ⟨hinert, tinert⟩ := List.forall_mem_cons.mp inert
    obtain ⟨middle, next, first⟩ := call_leads mirrors request hinert (requests ++ todo) replies
    obtain ⟨last, final, rest⟩ := ih tinert next ((b.answer request).2 :: replies)
    refine ⟨last, final, ?_⟩
    have whole := first.trans rest
    simp only [Book.answers, List.reverse_cons, List.append_assoc, List.singleton_append]
    exact whole

/-- The registry is a list of debts to a thread that makes whole calls, whatever requests follow
them: after them the replies are those of the book, the recorded debts are its entries, as many marks
owe an address as entries on it are unpaid, and there are as many nodes as the most entries so far
need. Nodes are never taken away. -/
theorem run_refines_book (requests rest : List Request)
    (inert : ∀ request ∈ requests, request.Inert) :
    let start := ofPrograms [requests ++ rest]
    let book := (Book.answers {} requests).1
    (∃ enough, ∀ turns : List Bool, enough ≤ turns.count false → ∃ n ≤ turns.length,
        let s := start.run ((turns.take n).map fun spurious => (0, spurious))
        s.threads = [[⟨rest, none, (Book.answers {} requests).2.reverse⟩]] ∧
          s.ledger.entries = book.entries ∧
          (∀ addr, s.ledger.registry.owing addr = book.unpaid addr) ∧
          s.ledger.registry.nodes.length = book.nodes) ∧
      ∀ earlier later : List (Nat × Bool), (start.run earlier).ledger.registry.nodes.length ≤
        (start.run (earlier ++ later)).ledger.registry.nodes.length := by
  intro start book
  constructor
  · obtain ⟨ledger, mirrors, leads⟩ := calls_lead requests inert .empty rest []
    obtain ⟨enough, reaches⟩ := Leads.exists_turn leads
    refine ⟨enough, fun turns many => ?_⟩
    obtain ⟨n, le, run⟩ := reaches turns many
    refine ⟨n, le, ?_⟩
    intro s
    have there : s = ⟨ledger, [[⟨rest, none, (Book.answers {} requests).2.reverse ++ []⟩]]⟩ := run
    rw [there, List.append_nil]
    exact ⟨rfl, mirrors.entries, mirrors.owing, mirrors.nodes⟩
  · intro earlier later
    rw [run_append]
    exact run_nodes_le later _ (run_sound earlier _ (ofPrograms_sound _))

/-- Nine debts need two nodes, and keep them when one of the debts is settled and the others are
paid. -/
theorem run_refines_book_nine_debts :
    let claims : List Request := (List.range 9).map fun i => .claim (toString i) 16
    let requests := claims ++ [.settle "3", .pay 16 [] []]
    (∀ request ∈ requests, request.Inert) ∧
      ∃ enough, ∀ turns : List Bool, enough ≤ turns.count false → ∃ n ≤ turns.length,
        let s := (ofPrograms [requests]).run ((turns.take n).map fun spurious => (0, spurious))
        s.ledger.registry.owing 16 = 0 ∧ s.ledger.registry.nodes.length = 2 := by
  intro claims requests
  have inert : ∀ request ∈ requests, request.Inert := by
    intro request member
    rcases List.mem_append.mp member with claim | other
    · obtain ⟨i, -, rfl⟩ := List.mem_map.mp claim
      trivial
    · rcases List.mem_pair.mp other with rfl | rfl
      · trivial
      · exact ⟨nofun, nofun⟩
  refine ⟨inert, ?_⟩
  obtain ⟨enough, reaches⟩ := (run_refines_book requests [] inert).1
  refine ⟨enough, fun turns many => ?_⟩
  obtain ⟨n, le, -, -, owing, nodes⟩ := reaches turns many
  rw [List.append_nil] at owing nodes
  refine ⟨n, le, (owing 16).trans ?_, nodes.trans ?_⟩
  · decide
  · decide

end Session

end SharedCells.Registry
