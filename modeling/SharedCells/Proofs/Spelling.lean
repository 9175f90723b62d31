import Mathlib.Data.List.Forall2
import Mathlib.Data.List.TakeWhile
import SharedCells.Order.Name

/-! The grammar of order names.

A text names an order if it is a name of the order, in capitals and small letters as one likes,
between blanks. Letters are those of ASCII here: a letter of another alphabet is not taken for the
one that it looks like. Each reader reads this grammar; those for loads and for stores then refuse
what their kind has no order for. -/

set_option autoImplicit false

namespace SharedCells

namespace Text

/-- An ASCII capital and its small letter, which comes 32 after it. -/
def IsCapitalOf (capital small : Char) : Prop :=
  'A'.toNat ≤ capital.toNat ∧ capital.toNat ≤ 'Z'.toNat ∧ small.toNat = capital.toNat + 32

/-- The same character, but for the case of an ASCII letter. -/
def SameLetter (a b : Char) : Prop := a = b ∨ IsCapitalOf a b ∨ IsCapitalOf b a

/-- The same text, but for the case of ASCII letters. -/
def SameLetters (text other : String) : Prop := List.Forall₂ SameLetter text.toList other.toList

def AllBlank (text : String) : Prop := ∀ c ∈ text.toList, isBlank c = true

instance (text : String) : Decidable (AllBlank text) :=
  decidable_of_iff (text.toList.all isBlank = true) List.all_eq_true

/-- The word in any case, between any blanks. -/
def Pads (word text : String) : Prop :=
  ∃ before middle after, text = before ++ middle ++ after ∧ AllBlank before ∧ AllBlank after ∧
    SameLetters middle word

section Letters

variable {a b c : Char}

theorem toNat_toLower (c : Char) :
    c.toLower.toNat =
      if 'A'.toNat ≤ c.toNat ∧ c.toNat ≤ 'Z'.toNat then c.toNat + 32 else c.toNat := by
  unfold Char.toLower
  split
  · next capital =>
    have range : 'A'.toNat ≤ c.toNat ∧ c.toNat ≤ 'Z'.toNat := capital
    have below : c.val.toNat ≤ 90 := range.2
    have small : c.val.toNat + 32 < 2 ^ 32 := by omega
    rw [if_pos range]
    simp only [Char.toNat]
    rw [UInt32.toNat_add]
    exact Nat.mod_eq_of_lt small
  · next other =>
    exact (if_neg other).symm

theorem toLower_eq_toLower_iff : a.toLower = b.toLower ↔ SameLetter a b := by
  rw [SameLetter, ← Char.toNat_inj, ← Char.toNat_inj, toNat_toLower, toNat_toLower, IsCapitalOf,
    IsCapitalOf]
  simp only [Char.reduceToNat]
  split <;> split <;> omega

theorem SameLetter.eq_of_blank (same : SameLetter a b) (blank : isBlank a = true) : a = b := by
  simp only [SameLetter, IsCapitalOf, Char.reduceToNat] at same
  simp [isBlank, blankRanges] at blank
  rcases same with same | same | same
  · exact same
  · omega
  · omega

theorem sameLetters_iff {text other : String} :
    SameLetters text other ↔ text.toList.map Char.toLower = other.toList.map Char.toLower := by
  rw [← List.forall₂_eq_eq_eq, List.forall₂_map_left_iff, List.forall₂_map_right_iff, SameLetters]
  simp only [toLower_eq_toLower_iff]

end Letters

section Trim

variable {before word after text : List Char}

theorem dropWhile_isBlank (blank : ∀ c ∈ before, isBlank c = true)
    (printed : ∀ c ∈ word, ¬ isBlank c = true) (nonempty : word ≠ []) : (before ++ (word ++ after)).dropWhile isBlank = word ++ after := by
  rw [List.dropWhile_append_of_pos blank]
  obtain ⟨first, rest, rfl⟩ := List.exists_cons_of_ne_nil nonempty
  exact List.dropWhile_cons_of_neg (printed first List.mem_cons_self)

theorem trim_of_blanks (front : ∀ c ∈ before, isBlank c = true) (back : ∀ c ∈ after, isBlank c = true)
    (printed : ∀ c ∈ word, ¬ isBlank c = true) (nonempty : word ≠ []) :
    trim (before ++ (word ++ after)) = word := by
  have turned : (after.reverse ++ (word.reverse ++ [])).dropWhile isBlank = word.reverse ++ [] :=
    dropWhile_isBlank (fun c member => back c (List.mem_reverse.mp member))
      (fun c member => printed c (List.mem_reverse.mp member)) (List.reverse_ne_nil_iff.mpr nonempty)
  rw [List.append_nil] at turned
  rw [trim, dropWhile_isBlank front printed nonempty, List.reverse_append, turned,
    List.reverse_reverse]

/-- Nothing but blanks is taken away. -/
theorem exists_blanks_trim (text : List Char) :
    ∃ before after, text = before ++ (trim text ++ after) ∧ (∀ c ∈ before, isBlank c = true) ∧
      ∀ c ∈ after, isBlank c = true := by
  refine ⟨text.takeWhile isBlank, ((text.dropWhile isBlank).reverse.takeWhile isBlank).reverse, ?_,
    fun c => List.mem_takeWhile_imp,
    fun c member => List.mem_takeWhile_imp (List.mem_reverse.mp member)⟩
  rw [trim, ← List.reverse_append, List.takeWhile_append_dropWhile, List.reverse_reverse,
    List.takeWhile_append_dropWhile]

end Trim

/-- A word without blanks pads a text if it is what is left of the text without the blanks around. -/
theorem pads_iff {word text : String} (printed : ∀ c ∈ word.toList, ¬ isBlank c = true)
    (nonempty : word.toList ≠ []) :
    Pads word text ↔ SameLetters (String.ofList (trim text.toList)) word := by
  constructor
  · rintro ⟨before, middle, after, rfl, front, back, same⟩
    have lower := sameLetters_iff.mp same
    -- The letters between the blanks are not blank, since those of the word are not.
    have inner : ∀ c ∈ middle.toList, ¬ isBlank c = true := by
      intro c member blank
      obtain ⟨other, inside, equal⟩ := List.mem_map.mp (lower ▸ List.mem_map_of_mem member)
      have same := toLower_eq_toLower_iff.mp equal.symm
      exact printed other inside (same.eq_of_blank blank ▸ blank)
    have some : middle.toList ≠ [] := fun none => nonempty (by
      rw [none, List.map_nil] at lower
      exact List.map_eq_nil_iff.mp lower.symm)
    rw [String.toList_append, String.toList_append, List.append_assoc,
      trim_of_blanks front back inner some, String.ofList_toList]
    exact same
  · intro same
    obtain ⟨before, after, split, front, back⟩ := exists_blanks_trim text.toList
    refine ⟨.ofList before, .ofList (trim text.toList), .ofList after, ?_, ?_, ?_, same⟩
    · apply String.toList_injective
      simpa only [String.toList_append, String.toList_ofList, List.append_assoc] using split
    · rwa [AllBlank, String.toList_ofList]
    · rwa [AllBlank, String.toList_ofList]

end Text

namespace Order

/-- The names of an order in small letters. -/
def names : Order → List String
  | relaxed => ["relaxed"]
  | consume => ["consume"]
  | acquire => ["acquire"]
  | release => ["release"]
  | acqRel => ["acqrel", "acq_rel"]
  | seqCst => ["seqcst", "seq_cst"]

/-- The text names the order. -/
def Spells (text : String) (order : Order) : Prop := ∃ name ∈ order.names, Text.Pads name text

variable {text : String} {order : Order} {name : String} {error : ReadError}

theorem name_mem_names (order : Order) : order.name ∈ order.names := by
  cases order <;> decide

theorem plain_of_mem_names (member : name ∈ order.names) :
    name.toList.map Char.toLower = name.toList ∧ (∀ c ∈ name.toList, ¬ Text.isBlank c = true) ∧
      name.toList ≠ [] := by
  have plain : order.names.all fun name =>
      name.toList.map Char.toLower = name.toList ∧ name.toList.all (! Text.isBlank ·) ∧
        name.toList ≠ [] := by cases order <;> decide +kernel
  simpa using List.all_eq_true.mp plain name member

theorem mem_spellings_iff : (name, order) ∈ spellings ↔ name ∈ order.names := by
  cases order <;> simp [spellings, names]

theorem lookup_spellings_iff : spellings.lookup name = some order ↔ name ∈ order.names := by
  rw [← mem_spellings_iff]
  constructor
  · intro found
    obtain ⟨before, after, all, -⟩ := List.lookup_eq_some_iff.mp found
    exact all ▸ List.mem_append_right before List.mem_cons_self
  · have each : ∀ entry ∈ spellings, spellings.lookup entry.1 = some entry.2 := by decide
    exact each (name, order)

/-- What a reader looks up is a name exactly if that name pads the text. -/
theorem pads_iff_of_mem_names (member : name ∈ order.names) :
    Text.Pads name text ↔ String.ofList ((Text.trim text.toList).map Char.toLower) = name := by
  obtain ⟨small, printed, nonempty⟩ := plain_of_mem_names member
  rw [Text.pads_iff printed nonempty, Text.sameLetters_iff, small, String.toList_ofList,
    ← String.toList_inj, String.toList_ofList]

theorem lookup_iff_spells :
    spellings.lookup (String.ofList ((Text.trim text.toList).map Char.toLower)) = some order ↔
      Spells text order := by
  rw [lookup_spellings_iff]
  constructor
  · intro member
    exact ⟨_, member, (pads_iff_of_mem_names member).mpr rfl⟩
  · rintro ⟨name, member, pads⟩
    rwa [(pads_iff_of_mem_names member).mp pads]

theorem read_eq_ok_iff : read text = .ok order ↔ Spells text order := by
  rw [← lookup_iff_spells, read]
  split
  · next found => simp [found]
  · next unknown => simp [unknown]

theorem read_eq_error_iff :
    read text = .error error ↔ error = .unknown text ∧ ∀ order, ¬ Spells text order := by
  simp only [← lookup_iff_spells]
  rw [read]
  split
  · next found => simp [found]
  · next unknown => simp [unknown, eq_comm]

/-- A reader of orders of some kind reads the full grammar, and then refuses the orders that the kind
does not have. -/
structure Narrows {κ : Type} (reader : String → Except ReadError κ) (widen : κ → Order)
    (refusal : Order → ReadError) : Prop where
  accepts : ∀ text kept, reader text = .ok kept ↔ read text = .ok (widen kept)
  refuses : ∀ text order, reader text = .error (refusal order) ↔
    read text = .ok order ∧ ∀ kept, widen kept ≠ order
  unknown : ∀ text other, reader text = .error (.unknown other) ↔ read text = .error (.unknown other)

section Narrowing

variable {κ : Type} {narrow? : Order → Option κ} {narrow : Order → Except ReadError κ}
  {widen : κ → Order} {refusal : Order → ReadError}

theorem Narrows.of_bind (kept : ∀ {order k}, narrow? order = some k ↔ order = widen k)
    (narrows : ∀ order, narrow order = (narrow? order).elim (.error (refusal order)) .ok)
    (injective : refusal.Injective) (known : ∀ order text, refusal order ≠ .unknown text) :
    Narrows (fun text => do narrow (← read text)) widen refusal := by
  have takes (order : Order) (k : κ) : narrow order = .ok k ↔ order = widen k := by
    rw [← kept, narrows]
    cases narrow? order <;> simp
  have drops (order : Order) (error : ReadError) :
      narrow order = .error error ↔ error = refusal order ∧ ∀ k, widen k ≠ order := by
    have none_iff : narrow? order = none ↔ ∀ k, widen k ≠ order := by
      simp only [Option.eq_none_iff_forall_ne_some, ne_eq, kept, eq_comm]
    rw [← none_iff, narrows]
    cases narrow? order <;> simp [eq_comm]
  refine ⟨fun text k => ?_, fun text order => ?_, fun text other => ?_⟩
  · cases read text with
    | ok order => exact (takes order k).trans (by simp)
    | error error => exact iff_of_false nofun nofun
  · cases found : read text with
    | ok other =>
      refine (drops other _).trans ?_
      rw [injective.eq_iff, Except.ok.injEq]
      constructor
      · rintro ⟨rfl, none⟩
        exact ⟨rfl, none⟩
      · rintro ⟨rfl, none⟩
        exact ⟨rfl, none⟩
    | error error =>
      obtain ⟨rfl, -⟩ := read_eq_error_iff.mp found
      refine iff_of_false (fun same => ?_) nofun
      exact known order text (Except.error.inj same).symm
  · cases read text with
    | ok order =>
      refine iff_of_false (fun same => ?_) nofun
      exact known order other ((drops order _).mp same).1.symm
    | error error =>
      exact ⟨fun same => congrArg _ (Except.error.inj same),
        fun same => congrArg _ (Except.error.inj same)⟩

end Narrowing

theorem read_of_pads (pads : Text.Pads order.name text) : read text = .ok order :=
  read_eq_ok_iff.mpr ⟨order.name, name_mem_names order, pads⟩

end Order

theorem LoadOrder.read_narrows : Order.Narrows read toOrder .notForLoads :=
  .of_bind ofOrder?_eq_some_iff
    (fun order => by
      unfold ofOrder
      cases ofOrder? order <;> rfl)
    (fun _ _ => Order.ReadError.notForLoads.inj) (fun _ _ => nofun)

theorem StoreOrder.read_narrows : Order.Narrows read toOrder .notForStores :=
  .of_bind ofOrder?_eq_some_iff
    (fun order => by
      unfold ofOrder
      cases ofOrder? order <;> rfl)
    (fun _ _ => Order.ReadError.notForStores.inj) (fun _ _ => nofun)

namespace Order

/-- A text is read as the order that it names, and as no order if it names none; it is then handed back
as it was. The readers of load and of store orders read the same texts, and refuse the orders that
are none of theirs. So the name of an order, in any case and between any blanks, is read as that
order. -/
theorem readers_share_grammar (text : String) :
    (∀ order, read text = .ok order ↔ Spells text order) ∧
      (∀ error, read text = .error error ↔ error = .unknown text ∧ ∀ order, ¬ Spells text order) ∧
      Narrows LoadOrder.read LoadOrder.toOrder .notForLoads ∧
      Narrows StoreOrder.read StoreOrder.toOrder .notForStores ∧
      (∀ order : Order, Text.Pads order.name text → read text = .ok order) ∧
      (∀ order : LoadOrder, Text.Pads order.name text → LoadOrder.read text = .ok order) ∧
      ∀ order : StoreOrder, Text.Pads order.name text → StoreOrder.read text = .ok order :=
  ⟨fun _ => read_eq_ok_iff, fun _ => read_eq_error_iff, LoadOrder.read_narrows,
    StoreOrder.read_narrows, fun _ => read_of_pads,
    fun order pads => (LoadOrder.read_narrows.accepts text order).mpr (read_of_pads pads),
    fun order pads => (StoreOrder.read_narrows.accepts text order).mpr (read_of_pads pads)⟩

/-- An ideographic space stands before the name, and a line separator after it. -/
theorem readers_share_grammar_padded :
    let text := "\u3000sEqCSt\u2028"
    Text.Pads seqCst.name text ∧ read text = .ok seqCst ∧ LoadOrder.read text = .ok .seqCst ∧
      StoreOrder.read text = .ok .seqCst := by
  intro text
  have pads : Text.Pads seqCst.name text :=
    ⟨"\u3000", "sEqCSt", "\u2028", by decide, by decide, by decide,
      Text.sameLetters_iff.mpr (by decide)⟩
  obtain ⟨-, -, -, -, full, loads, stores⟩ := readers_share_grammar text
  exact ⟨pads, full seqCst pads, loads .seqCst pads, stores .seqCst pads⟩

/-- A long s is not a small s, although its capital is a capital S. -/
example : read " \u017feqcst" = .error (.unknown " \u017feqcst") := by decide +kernel

end Order

end SharedCells
