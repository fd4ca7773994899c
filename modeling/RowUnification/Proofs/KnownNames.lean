import RowUnification.Proofs.Tails

/-!
# Names below an index

The store of an engine and the equations at hand name finitely many variables, so
some index is above all of them. A move keeps to it, except for the tails that it
makes: these are below the supply as it is afterwards. Once the supply has passed the
index, whatever it makes is new, and the variables of the resolved equations are names
that a run may keep to.
-/

namespace RowUnification

/-- A list of names has an index above all of them. -/
theorem Name.exists_isBelow (names : List Name) :
    ∃ bound, ∀ name ∈ names, name.IsBelow bound := by
  induction names with
  | nil => exact ⟨0, nofun⟩
  | cons name rest inductionHypothesis =>
    obtain ⟨bound, below⟩ := inductionHypothesis
    have headBelow : ∃ own, name.IsBelow own := by
      cases name with
      | symbol text => exact ⟨0, trivial⟩
      | fresh index => exact ⟨index + 1, Nat.lt_succ_self index⟩
    obtain ⟨own, headBelow⟩ := headBelow
    exact ⟨max own bound, List.forall_mem_cons.mpr ⟨headBelow.mono (Nat.le_max_left _ _),
      fun other member => (below other member).mono (Nat.le_max_right _ _)⟩⟩

namespace FreshSupply

/-- The indices that a supply hands out until it has become the later one. Only handing out
an index changes a supply, and it moves on by one each time. -/
def drawnUntil (supply later : FreshSupply) : List Nat :=
  List.range' supply.next (later.next - supply.next)

/-- The indices handed out are those between the two supplies. -/
theorem mem_drawnUntil_iff {supply later : FreshSupply} {index : Nat} :
    index ∈ supply.drawnUntil later ↔ supply.next ≤ index ∧ index < later.next := by
  rw [drawnUntil, List.mem_range'_1]
  omega

/-- A supply that has not changed has handed out nothing. -/
theorem drawnUntil_self (supply : FreshSupply) : supply.drawnUntil supply = [] := by
  rw [drawnUntil, Nat.sub_self]
  rfl

/-- A supply that has moved on has drawn its next index first. -/
theorem drawnUntil_of_lt {supply later : FreshSupply} (less : supply.next < later.next) :
    supply.drawnUntil later = supply.draw.1 :: supply.draw.2.drawnUntil later := by
  obtain ⟨count, drawn⟩ : ∃ count, later.next - supply.next = count + 1 :=
    ⟨later.next - (supply.next + 1), by omega⟩
  have remaining : later.next - (supply.next + 1) = count := by omega
  simp only [drawnUntil, draw, drawn, remaining, List.range'_succ]

/-- What is handed out until a supply further on is what is handed out on the way to a supply in
between and from there on. -/
theorem drawnUntil_append {supply middle later : FreshSupply} (near : supply.next ≤ middle.next)
    (far : middle.next ≤ later.next) :
    supply.drawnUntil middle ++ middle.drawnUntil later = supply.drawnUntil later := by
  have start : middle.next = supply.next + (middle.next - supply.next) := by omega
  have length : later.next - supply.next =
      (middle.next - supply.next) + (later.next - middle.next) := by omega
  rw [drawnUntil, drawnUntil, drawnUntil, length, ← List.range'_append_1, ← start]

end FreshSupply

/-- The variable is bound or occurs in a bound term. -/
def Store.Mentions (store : Store) (name : Name) : Prop :=
  name ∈ store.keys ∨ ∃ entry ∈ store.entries, name ∈ entry.2.occurrences

/-- Every name that the store binds or uses in a bound term is below the index. -/
def Store.KnownTo (store : Store) (bound : Nat) : Prop :=
  ∀ name, store.Mentions name → name.IsBelow bound

namespace Store

variable {store : Store} {bound : Nat}

/-- What a store mentions are the variables that it finds terms for, and those of the terms. -/
theorem Indexed.mentions_iff (indexed : store.Indexed) (name : Name) :
    store.Mentions name ↔ ∃ key term, store.lookup? key = some term ∧
      (name = key ∨ name ∈ term.occurrences) := by
  simp only [indexed.lookup?_eq_some_iff, Mentions, keys, List.mem_map, Prod.exists,
    exists_and_right, exists_eq_right]
  constructor
  · rintro (⟨term, entry⟩ | ⟨key, term, entry, inside⟩)
    · exact ⟨name, term, entry, Or.inl rfl⟩
    · exact ⟨key, term, entry, Or.inr inside⟩
  · rintro ⟨key, term, entry, rfl | inside⟩
    · exact Or.inl ⟨term, entry⟩
    · exact Or.inr ⟨key, term, entry, inside⟩

/-- Resolving a term brings in variables of the store only. -/
theorem Indexed.mentions_apply (indexed : store.Indexed) (term : Term) (name : Name)
    (inside : name ∈ (store.apply term).occurrences) :
    name ∈ term.occurrences ∨ store.Mentions name := by
  rcases mem_occurrences_apply store term name inside with
    ⟨present, -⟩ | ⟨source, -, value, found, image⟩
  · exact Or.inl present
  · exact Or.inr ((indexed.mentions_iff name).mpr ⟨source, value, found, Or.inr image⟩)

/-- A binding brings in the bound variable and the variables of its term, also where the
variable was bound already. -/
theorem Normal.mentions_bind {later : Store} {name : Name} {term : Term} (normal : store.Normal)
    (success : store.bind name term = .ok later) (other : Name) (inside : later.Mentions other) :
    store.Mentions other ∨ other = name ∨ other ∈ term.occurrences := by
  have inResolved (occurs : other ∈ (store.apply term).occurrences) :
      store.Mentions other ∨ other = name ∨ other ∈ term.occurrences :=
    (normal.indexed.mentions_apply term other occurs).symm.imp_right Or.inr
  obtain ⟨key, value, found, here⟩ :=
    ((normal.bind success).indexed.mentions_iff other).mp inside
  rw [lookup?_bind normal success] at found
  split at found
  · next same =>
    cases found
    rcases here with rfl | occurs
    · exact Or.inr (Or.inl same)
    · exact inResolved occurs
  · obtain ⟨old, oldFound, rfl⟩ := Option.map_eq_some_iff.mp found
    have kept (mentioned : other = key ∨ other ∈ old.occurrences) : store.Mentions other :=
      (normal.indexed.mentions_iff other).mpr ⟨key, old, oldFound, mentioned⟩
    rcases here with isKey | occurs
    · exact Or.inl (kept (Or.inl isKey))
    · rcases mem_occurrences_subst_single _ _ old other occurs with ⟨-, inOld⟩ | ⟨-, image⟩
      · exact Or.inl (kept (Or.inr inOld))
      · exact inResolved image

/-- The cycle of a refused binding has the variable to be bound, those of the term and those of
the store. -/
theorem Indexed.mentions_cycle {key : Name} {term : Term} {cycle : Cycle}
    (indexed : store.Indexed) (refused : store.bind key term = .error cycle) (name : Name)
    (shown : name = cycle.name ∨ name ∈ cycle.term.occurrences) :
    store.Mentions name ∨ name = key ∨ name ∈ term.occurrences := by
  obtain ⟨rfl, -, given | resolved⟩ := store.bind_eq_error key term cycle refused
  · exact Or.inr (given ▸ shown)
  · rcases shown with isKey | inside
    · exact Or.inr (Or.inl isKey)
    · exact (indexed.mentions_apply term name (resolved ▸ inside)).symm.imp_right Or.inr

/-- Every store has an index above all of its names. -/
theorem exists_knownTo (store : Store) : ∃ bound, store.KnownTo bound := by
  obtain ⟨bound, below⟩ :=
    Name.exists_isBelow (store.keys ++ store.entries.flatMap fun entry => entry.2.occurrences)
  refine ⟨bound, fun name mentioned => below name ?_⟩
  rcases mentioned with key | inTerm
  · exact List.mem_append_left _ key
  · exact List.mem_append_right _ (List.mem_flatMap.mpr inTerm)

/-- An index above another one does as well. -/
theorem KnownTo.mono {larger : Nat} (known : store.KnownTo bound) (least : bound ≤ larger) :
    store.KnownTo larger := fun name mentioned => (known name mentioned).mono least

/-- A term below the index resolves to one below it. -/
theorem KnownTo.apply (known : store.KnownTo bound) (indexed : store.Indexed) (term : Term)
    (below : ∀ name ∈ term.occurrences, name.IsBelow bound) :
    ∀ name ∈ (store.apply term).occurrences, name.IsBelow bound := fun name inside =>
  (indexed.mentions_apply term name inside).elim (below name) (known name)

/-- Binding a name below the index to a term below it keeps the store below it. -/
theorem KnownTo.bind {later : Store} {name : Name} {term : Term} (known : store.KnownTo bound)
    (normal : store.Normal) (success : store.bind name term = .ok later)
    (nameBelow : name.IsBelow bound) (below : ∀ inner ∈ term.occurrences, inner.IsBelow bound) :
    later.KnownTo bound := by
  intro other inside
  rcases normal.mentions_bind success other inside with before | rfl | inTerm
  · exact known other before
  · exact nameBelow
  · exact below other inTerm

end Store

namespace Application

/-- The variables of the equations that extend two rows are those of the two records and the
two tails. -/
theorem mentions_of_mem_extensionEquations {first second : Application Term}
    {firstRow secondRow : Term} {supply : FreshSupply} (firstOpen : first.row = some firstRow)
    (secondOpen : second.row = some secondRow) (equation : Equation)
    (member : equation ∈ first.extensionEquations second firstRow secondRow supply.tail) (name : Name)
    (inside : equation.Mentions name) :
    Equation.Mentions ⟨.app first, .app second⟩ name ∨ ∃ drawn < 2, name = supply.name drawn := by
  have inRow (record : Application Term) (row : Term) (opened : record.row = some row)
      (occurs : name ∈ row.occurrences) : name ∈ (Term.app record).occurrences := by
    refine Term.occurrences_of_child record row ?_ name occurs
    exact (mem_children_iff record row).mpr (Or.inr (Or.inr opened))
  have inTail (drawn : Nat) (made : drawn < 2) (occurs : name ∈ (supply.tail drawn).occurrences) :
      ∃ drawn < 2, name = supply.name drawn :=
    ⟨drawn, made, (Term.mem_occurrences_var (supply.name drawn) name).mp occurs⟩
  have inExcerpt (record other : Application Term) (drawn : Nat) (made : drawn < 2)
      (occurs : name ∈ (record.surplus other (some (supply.tail drawn))).occurrences) :
      name ∈ (Term.app record).occurrences ∨ ∃ drawn < 2, name = supply.name drawn := by
    rcases mem_occurrences_surplus occurs with inRecord | ⟨row, isTail, inside⟩
    · exact Or.inl inRecord
    · obtain rfl := Option.some.inj isTail
      exact Or.inr (inTail drawn made inside)
  simp only [extensionEquations, List.mem_cons, List.not_mem_nil, or_false] at member
  rcases member with rfl | rfl | rfl
  · rcases inside with excerpt | row
    · exact (inExcerpt first second 0 (by decide) excerpt).imp_left Or.inl
    · exact Or.inl (Or.inr (inRow second secondRow secondOpen row))
  · rcases inside with excerpt | row
    · exact (inExcerpt second first 1 (by decide) excerpt).imp_left Or.inr
    · exact Or.inl (Or.inl (inRow first firstRow firstOpen row))
  · rcases inside with left | right
    · exact Or.inr (inTail 0 (by decide) left)
    · exact Or.inr (inTail 1 (by decide) right)

end Application

namespace Engine

/-- A decomposition makes equations of the variables that the applications have, except for
the tails: these are variables of the indices that the supply hands out meanwhile. -/
theorem mentions_of_decomposed {engine : Engine} {top equation : Equation}
    {equations : List Equation} {supply : FreshSupply} (normal : engine.store.Normal)
    (standard : engine.extension = none ∨ engine.extension = some RowExtension.withNewRow)
    (move : engine.move top (engine.resolve equation) = .decomposed equations supply) :
    engine.supply.next ≤ supply.next ∧ ∀ part ∈ equations, ∀ name, part.Mentions name →
      (engine.resolve equation).Mentions name ∨
        ∃ index ∈ engine.supply.drawnUntil supply, name = .fresh index := by
  obtain ⟨lhs, rhs, aligned, shape, lhsFlat, rhsFlat, arities, way, rfl⟩ :=
    aligned_of_move normal standard move
  rw [shape]
  refine ⟨way.next_le, fun part member name inside => ?_⟩
  rcases way.reduces_or_extended arities lhsFlat rhsFlat with reduces | extended
  · exact Or.inl (reduces.known part member name inside)
  · obtain ⟨first, second, firstRow, secondRow, sides, firstOpen, secondOpen, -, extended, rfl⟩ :=
      extended
    rw [extended] at member
    rcases List.mem_append.mp member with shared | extension
    · have reduces := Application.reduces_shared arities lhsFlat rhsFlat
      exact Or.inl (reduces.known part shared name inside)
    · rcases Application.mentions_of_mem_extensionEquations firstOpen secondOpen part extension
        name inside with own | ⟨drawn, made, rfl⟩
      · rcases sides with ⟨rfl, rfl⟩ | ⟨rfl, rfl⟩
        · exact Or.inl own
        · exact Or.inl own.symm
      · have handedOut : engine.supply.next + drawn ∈
            engine.supply.drawnUntil (engine.supply.after 2) :=
          FreshSupply.mem_drawnUntil_iff.mpr ⟨Nat.le_add_right _ _, Nat.add_lt_add_left made _⟩
        exact Or.inr ⟨_, handedOut, rfl⟩

/-- All names of the store and of the equations are below the index. -/
structure KnownTo (engine : Engine) (pending : List Equation) (bound : Nat) : Prop where
  /-- The names of the store are. -/
  store : engine.store.KnownTo bound
  /-- The variables of the equations are. -/
  equations : ∀ equation ∈ pending, ∀ name, equation.Mentions name → name.IsBelow bound

/-- Some index is above all names of the store and of the equations. -/
theorem exists_knownTo (engine : Engine) (pending : List Equation) :
    ∃ bound, engine.KnownTo pending bound := by
  obtain ⟨own, store⟩ := engine.store.exists_knownTo
  obtain ⟨bound, below⟩ := Name.exists_isBelow
    (pending.flatMap fun equation => equation.lhs.occurrences ++ equation.rhs.occurrences)
  refine ⟨max own bound, store.mono (Nat.le_max_left _ _), fun equation member name inside => ?_⟩
  exact (below name (List.mem_flatMap.mpr ⟨equation, member, List.mem_append.mpr inside⟩)).mono
    (Nat.le_max_right _ _)

namespace KnownTo

variable {engine : Engine} {equation top : Equation} {pending rest : List Equation} {bound : Nat}

/-- The variables of a resolved equation are below the index. -/
theorem resolve (known : engine.KnownTo pending bound) (indexed : engine.store.Indexed)
    (member : equation ∈ pending) (name : Name)
    (inside : (engine.resolve equation).Mentions name) : name.IsBelow bound := by
  rcases inside with left | right
  · exact known.store.apply indexed equation.lhs
      (fun other occurs => known.equations equation member other (Or.inl occurs)) name left
  · exact known.store.apply indexed equation.rhs
      (fun other occurs => known.equations equation member other (Or.inr occurs)) name right

/-- Without the first equation the others stay below the index. -/
theorem tail (known : engine.KnownTo (equation :: rest) bound) : engine.KnownTo rest bound :=
  ⟨known.store, fun other member => known.equations other (List.mem_cons_of_mem _ member)⟩

/-- A binding keeps to the index. -/
theorem of_bound {store : Store} (known : engine.KnownTo (equation :: rest) bound)
    (normal : engine.store.Normal)
    (move : engine.move top (engine.resolve equation) = .bound store) :
    KnownTo { engine with store } rest bound := by
  obtain ⟨name, term, assigns, -, -, success⟩ := bound_of_move normal move
  have mentioned := assigns.mentions
  have below := known.resolve normal.indexed List.mem_cons_self
  exact ⟨known.store.bind normal success (below name mentioned.1) fun inner inside =>
    below inner (mentioned.2 inner inside), known.tail.equations⟩

/-- Equations below what the supply has come to may be put in front of the others. -/
theorem append (known : engine.KnownTo rest bound) {equations : List Equation}
    {supply : FreshSupply}
    (below : ∀ part ∈ equations, ∀ name, part.Mentions name →
      name.IsBelow (max bound supply.next)) :
    KnownTo { engine with supply } (equations ++ rest) (max bound supply.next) := by
  refine ⟨known.store.mono (Nat.le_max_left _ _), fun part member name inside => ?_⟩
  rcases List.mem_append.mp member with new | old
  · exact below part new name inside
  · exact (known.equations part old name inside).mono (Nat.le_max_left _ _)

/-- A decomposition keeps to the index or to what the supply has come to. If the supply
has not changed, it is a reduction. -/
theorem of_decomposed {equations : List Equation} {supply : FreshSupply}
    (known : engine.KnownTo (equation :: rest) bound) (normal : engine.store.Normal)
    (standard : engine.extension = none ∨ engine.extension = some RowExtension.withNewRow)
    (move : engine.move top (engine.resolve equation) = .decomposed equations supply) :
    KnownTo { engine with supply } (equations ++ rest) (max bound supply.next) ∧
      engine.supply.next ≤ supply.next ∧
      (supply.next = engine.supply.next → ∀ lhs rhs,
        engine.resolve equation = ⟨.app lhs, .app rhs⟩ → lhs.Reduces rhs equations) := by
  obtain ⟨least, origin⟩ := mentions_of_decomposed normal standard move
  refine ⟨known.tail.append fun part member name inside => ?_, least, ?_⟩
  · rcases origin part member name inside with own | ⟨index, drawn, rfl⟩
    · exact (known.resolve normal.indexed List.mem_cons_self name own).mono (Nat.le_max_left _ _)
    · have made : index < supply.next := (FreshSupply.mem_drawnUntil_iff.mp drawn).2
      exact Nat.lt_of_lt_of_le made (Nat.le_max_right _ _)
  · intro unchanged left right sameShape
    obtain ⟨lhs, rhs, aligned, shape, lhsFlat, rhsFlat, arities, way, rfl⟩ :=
      aligned_of_move normal standard move
    obtain ⟨rfl, rfl⟩ : lhs = left ∧ rhs = right := by simpa using shape.symm.trans sameShape
    rcases way.reduces_or_extended arities lhsFlat rhsFlat with
      reduces | ⟨-, -, -, -, -, -, -, -, -, rfl⟩
    · exact reduces
    · have changed : engine.supply.next + 2 ≠ engine.supply.next := by omega
      exact absurd unchanged changed

/-- Once the supply has passed the index, the variables of the resolved equations are names
that a run may keep to. -/
theorem exists_confined (known : engine.KnownTo pending bound)
    (passed : bound ≤ engine.supply.next) (normal : engine.store.Normal)
    (active : engine.failure = none)
    (standard : engine.extension = none ∨ engine.extension = some RowExtension.withNewRow) :
    ∃ names, engine.Confined names ∧ engine.Covers names pending := by
  obtain ⟨names, covers, mentioned⟩ := engine.exists_covers pending
  refine ⟨names, ⟨normal, active, standard, fun name member => ?_, fun name member => ?_,
    fun index least => ?_⟩, covers⟩
  · obtain ⟨equation, -, left | right⟩ := mentioned name member
    · exact normal.lookup?_eq_none equation.lhs name left
    · exact normal.lookup?_eq_none equation.rhs name right
  · obtain ⟨equation, listed, inside⟩ := mentioned name member
    exact (known.resolve normal.indexed listed name inside).mono passed
  · rw [normal.indexed.lookup?_eq_none_iff]
    intro key
    have below : index < bound := known.store (.fresh index) (Or.inl key)
    omega

end KnownTo

end Engine

end RowUnification
