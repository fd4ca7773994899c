import Mathlib.Algebra.GroupWithZero.Nat
import Mathlib.Data.Finset.Card
import RowUnification.Proofs.Alignment
import RowUnification.Proofs.Calls

/-!
# Weights of equations

Decomposing two applications without making a tail leaves equations that weigh less
than the two applications and have no other variables: each subterm, field and row
goes into one equation at most, and the excerpt of a closed record replaces the
fields that it holds. Binding a variable takes it out of every equation left.

So a run that makes no tails ends. With each move either the variables of the
equations still to be solved become fewer, or they are the same and the equations
weigh less.
-/

namespace RowUnification

/-- The variable occurs on one of the sides. -/
def Equation.Mentions (equation : Equation) (name : Name) : Prop :=
  name ∈ equation.lhs.occurrences ∨ name ∈ equation.rhs.occurrences

/-- An equation that would bind a variable mentions it and the variables of its term. -/
theorem Equation.Assigns.mentions {equation : Equation} {name : Name} {term : Term}
    (assigns : equation.Assigns name term) :
    equation.Mentions name ∧ ∀ other ∈ term.occurrences, equation.Mentions other := by
  have own : name ∈ (Term.var name).occurrences := (Term.mem_occurrences_var name name).mpr rfl
  rcases assigns.1 with rfl | rfl
  · exact ⟨Or.inl own, fun _ inside => Or.inr inside⟩
  · exact ⟨Or.inr own, fun _ inside => Or.inl inside⟩

/-- The sizes of both sides together. -/
def Equation.weight (equation : Equation) : Nat := equation.lhs.size + equation.rhs.size

/-- The weights of all equations of a list together. -/
def totalWeight (equations : List Equation) : Nat := (equations.map Equation.weight).sum

@[simp] theorem totalWeight_nil : totalWeight [] = 0 := rfl

@[simp] theorem totalWeight_cons (equation : Equation) (rest : List Equation) :
    totalWeight (equation :: rest) = equation.weight + totalWeight rest := by
  simp [totalWeight]

@[simp] theorem totalWeight_append (first second : List Equation) :
    totalWeight (first ++ second) = totalWeight first + totalWeight second := by
  simp [totalWeight]

/-- The weight of a list counts its left and its right sides. -/
theorem totalWeight_eq_sides (equations : List Equation) :
    totalWeight equations =
      Term.totalSize (equations.map Equation.lhs) +
        Term.totalSize (equations.map Equation.rhs) := by
  induction equations with
  | nil => rfl
  | cons equation rest inductionHypothesis =>
    simp only [totalWeight_cons, inductionHypothesis, Equation.weight, List.map_cons,
      Term.totalSize_cons]
    omega

theorem Equation.weight_pos (equation : Equation) : 0 < equation.weight := by
  have positive : 0 < equation.lhs.size := equation.lhs.size_pos
  unfold weight
  omega

/-- Lists of the same length are the left and the right sides of their pairs. -/
theorem map_sides_zipWith_mk (left right : List Term) (arities : left.length = right.length) :
    (List.zipWith Equation.mk left right).map Equation.lhs = left ∧
      (List.zipWith Equation.mk left right).map Equation.rhs = right := by
  induction left generalizing right with
  | nil =>
    obtain rfl := List.length_eq_zero_iff.mp arities.symm
    exact ⟨rfl, rfl⟩
  | cons term rest inductionHypothesis =>
    cases right with
    | nil => contradiction
    | cons other others =>
      obtain ⟨lefts, rights⟩ := inductionHypothesis others (Nat.succ.inj arities)
      simp only [List.zipWith_cons_cons, List.map_cons, lefts, rights, and_self]

namespace Application

/-- The fields of a record whose labels another record has too. -/
def shared (record other : Application Term) : NameMap Term :=
  record.fields.keep other.fields.contains

/-- The left sides of the common fields are the shared fields of the left record. -/
theorem map_lhs_commonFields (lhs rhs : Application Term) :
    (commonFields lhs rhs).map Equation.lhs = (lhs.shared rhs).values := by
  simp only [commonFields, shared, SortedMap.values, SortedMap.toList_keep]
  induction lhs.fields.toList with
  | nil => rfl
  | cons field rest inductionHypothesis =>
    cases partner : rhs.fields.get? field.1 with
    | none => simpa [SortedMap.contains, partner] using inductionHypothesis
    | some value => simpa [SortedMap.contains, partner] using inductionHypothesis

/-- The right sides of the common fields are the shared fields of the right record. -/
theorem map_rhs_commonFields (lhs rhs : Application Term) :
    (commonFields lhs rhs).map Equation.rhs = (rhs.shared lhs).values := by
  rw [← map_lhs_commonFields, commonFields_swap lhs rhs, List.map_map]
  rfl

/-- The fields of a record are those that it shares and those beyond the other record. -/
theorem totalSize_shared_add_beyond (record other : Application Term) :
    Term.totalSize (record.shared other).values + Term.totalSize (record.beyond other).values =
      Term.totalSize record.fields.values := by
  simp only [shared, beyond, SortedMap.values, SortedMap.toList_keep]
  induction record.fields.toList with
  | nil => rfl
  | cons field rest inductionHypothesis =>
    cases chosen : other.fields.contains field.1 with
    | true =>
      simp only [List.filter_cons, chosen, if_true, Bool.not_true, Bool.false_eq_true, if_false,
        List.map_cons, Term.totalSize_cons, ← inductionHypothesis]
      omega
    | false =>
      simp only [List.filter_cons, chosen, if_true, Bool.not_false, Bool.false_eq_true, if_false,
        List.map_cons, Term.totalSize_cons, ← inductionHypothesis]
      omega

/-- The equations of the subterms and of the common fields. -/
def sharedEquations (lhs rhs : Application Term) : List Equation :=
  List.zipWith Equation.mk lhs.subterms rhs.subterms ++ commonFields lhs rhs

/-- Flat equations that weigh less than two applications and have no other variables. -/
structure Reduces (lhs rhs : Application Term) (equations : List Equation) : Prop where
  /-- They weigh less. -/
  lighter : totalWeight equations < (Term.app lhs).size + (Term.app rhs).size
  /-- Their sides are flat. -/
  flat : ∀ equation ∈ equations, equation.lhs.Flat ∧ equation.rhs.Flat
  /-- Their variables are among those of the applications. -/
  known : ∀ equation ∈ equations, ∀ name, equation.Mentions name →
    Equation.Mentions ⟨.app lhs, .app rhs⟩ name

section Reduction

variable {lhs rhs : Application Term}

/-- The sides of a shared equation are subterms or fields. -/
theorem mem_of_mem_sharedEquations (arities : lhs.subterms.length = rhs.subterms.length)
    (equation : Equation) (member : equation ∈ lhs.sharedEquations rhs) :
    (equation.lhs ∈ lhs.subterms ∨ equation.lhs ∈ lhs.fields.values) ∧
      (equation.rhs ∈ rhs.subterms ∨ equation.rhs ∈ rhs.fields.values) := by
  rcases List.mem_append.mp member with paired | common
  · obtain ⟨lefts, rights⟩ := map_sides_zipWith_mk _ _ arities
    have left : equation.lhs ∈ lhs.subterms := lefts ▸ List.mem_map_of_mem paired
    have right : equation.rhs ∈ rhs.subterms := rights ▸ List.mem_map_of_mem paired
    exact ⟨Or.inl left, Or.inl right⟩
  · obtain ⟨label, inLeft, inRight⟩ := (mem_commonFields_iff lhs rhs equation).mp common
    exact ⟨Or.inr ((SortedMap.mem_values_iff _ _).mpr ⟨label, inLeft⟩),
      Or.inr ((SortedMap.mem_values_iff _ _).mpr ⟨label, inRight⟩)⟩

/-- The sides of a shared equation are parts. -/
theorem mem_children_of_mem_sharedEquations (arities : lhs.subterms.length = rhs.subterms.length)
    (equation : Equation) (member : equation ∈ lhs.sharedEquations rhs) :
    equation.lhs ∈ lhs.children ∧ equation.rhs ∈ rhs.children := by
  obtain ⟨left, right⟩ := mem_of_mem_sharedEquations arities equation member
  exact ⟨(mem_children_iff lhs _).mpr (left.imp_right Or.inl),
    (mem_children_iff rhs _).mpr (right.imp_right Or.inl)⟩

/-- Two applications weigh as much as their shared equations, the fields beyond each
other, the rows and the two functors. -/
theorem weight_eq_shared (arities : lhs.subterms.length = rhs.subterms.length) :
    (Term.app lhs).size + (Term.app rhs).size =
      totalWeight (lhs.sharedEquations rhs) + Term.totalSize (lhs.beyond rhs).values +
        Term.totalSize (rhs.beyond lhs).values + Term.totalSize lhs.row.toList +
          Term.totalSize rhs.row.toList + 2 := by
  obtain ⟨lefts, rights⟩ := map_sides_zipWith_mk _ _ arities
  have lhsFields := totalSize_shared_add_beyond lhs rhs
  have rhsFields := totalSize_shared_add_beyond rhs lhs
  simp only [totalWeight_eq_sides, sharedEquations, List.map_append, lefts, rights,
    map_lhs_commonFields, map_rhs_commonFields, Term.size_app, children, Term.totalSize_append]
  omega

/-- The shared equations together with light equations over the same variables are a
reduction. -/
theorem reduces_of_light (arities : lhs.subterms.length = rhs.subterms.length)
    (lhsFlat : (Term.app lhs).Flat) (rhsFlat : (Term.app rhs).Flat) (equations : List Equation)
    (light : totalWeight equations < Term.totalSize (lhs.beyond rhs).values +
      Term.totalSize (rhs.beyond lhs).values + Term.totalSize lhs.row.toList +
        Term.totalSize rhs.row.toList + 2)
    (flat : ∀ equation ∈ equations, equation.lhs.Flat ∧ equation.rhs.Flat)
    (known : ∀ equation ∈ equations, ∀ name, equation.Mentions name →
      Equation.Mentions ⟨.app lhs, .app rhs⟩ name) :
    Reduces lhs rhs (lhs.sharedEquations rhs ++ equations) where
  lighter := by
    have total := weight_eq_shared arities
    rw [totalWeight_append]
    omega
  flat equation member := by
    rcases List.mem_append.mp member with shared | further
    · obtain ⟨left, right⟩ := mem_children_of_mem_sharedEquations arities equation shared
      exact ⟨lhsFlat.children _ left, rhsFlat.children _ right⟩
    · exact flat equation further
  known equation member name inside := by
    rcases List.mem_append.mp member with shared | further
    · obtain ⟨left, right⟩ := mem_children_of_mem_sharedEquations arities equation shared
      exact inside.imp (Term.occurrences_of_child lhs _ left name)
        (Term.occurrences_of_child rhs _ right name)
    · exact known equation further name inside

/-- The shared equations are a reduction. -/
theorem reduces_shared (arities : lhs.subterms.length = rhs.subterms.length)
    (lhsFlat : (Term.app lhs).Flat) (rhsFlat : (Term.app rhs).Flat) :
    Reduces lhs rhs (lhs.sharedEquations rhs) := by
  rw [← List.append_nil (lhs.sharedEquations rhs)]
  refine reduces_of_light arities lhsFlat rhsFlat [] ?_ nofun nofun
  rw [totalWeight_nil]
  omega

/-- The shared equations and the equation of the rows, if there is one, are a reduction. -/
theorem reduces_level (arities : lhs.subterms.length = rhs.subterms.length)
    (lhsFlat : (Term.app lhs).Flat) (rhsFlat : (Term.app rhs).Flat) :
    Reduces lhs rhs (lhs.sharedEquations rhs ++ rowEquations lhs.row rhs.row) := by
  match lhsRow : lhs.row, rhsRow : rhs.row with
  | some left, some right =>
    have inLeft : left ∈ lhs.children := (mem_children_iff lhs _).mpr (Or.inr (Or.inr lhsRow))
    have inRight : right ∈ rhs.children := (mem_children_iff rhs _).mpr (Or.inr (Or.inr rhsRow))
    refine reduces_of_light arities lhsFlat rhsFlat _ ?_ ?_ ?_
    · simp only [rowEquations, totalWeight_cons, totalWeight_nil, Equation.weight, lhsRow, rhsRow,
        Option.toList_some, Term.totalSize_cons, Term.totalSize_nil]
      omega
    · intro equation member
      obtain rfl := List.mem_singleton.mp member
      exact ⟨lhsFlat.children left inLeft, rhsFlat.children right inRight⟩
    · intro equation member name inside
      obtain rfl := List.mem_singleton.mp member
      exact inside.imp (Term.occurrences_of_child lhs left inLeft name)
        (Term.occurrences_of_child rhs right inRight name)
  | none, _ =>
    rw [rowEquations.eq_def, List.append_nil]
    exact reduces_shared arities lhsFlat rhsFlat
  | some _, none =>
    rw [rowEquations.eq_def, List.append_nil]
    exact reduces_shared arities lhsFlat rhsFlat

/-- The excerpt of a flat record is flat if its row is a variable or missing. -/
theorem flat_surplus {record other : Application Term} (flat : (Term.app record).Flat)
    (row : Option Term) (rowFlat : row = none ∨ ∃ name, row = some (.var name)) :
    (record.surplus other row).Flat := by
  refine .app _ (fun child member => ?_) rowFlat
  rcases (mem_children_iff _ child).mp member with subterm | field | isRow
  · exact nomatch subterm
  · exact flat.children child ((mem_children_iff record child).mpr (Or.inr (Or.inl
      (SortedMap.mem_values_of_mem_values_keep _ _ child field))))
  · rcases rowFlat with closed | ⟨name, opened⟩
    · exact nomatch closed.symm.trans isRow
    · obtain rfl := Option.some.inj (opened.symm.trans isRow)
      exact .var name

/-- The variables of an excerpt are variables of the record or of the row given to it. -/
theorem mem_occurrences_surplus {record other : Application Term} {row : Option Term} {name : Name}
    (inside : name ∈ (record.surplus other row).occurrences) :
    name ∈ (Term.app record).occurrences ∨
      ∃ term, row = some term ∧ name ∈ term.occurrences := by
  obtain ⟨child, member, occurs⟩ := (Term.mem_occurrences_app _ name).mp inside
  rcases (mem_children_iff _ child).mp member with subterm | field | isRow
  · exact nomatch subterm
  · refine Or.inl (Term.occurrences_of_child record child ?_ name occurs)
    exact (mem_children_iff record child).mpr (Or.inr (Or.inl
      (SortedMap.mem_values_of_mem_values_keep _ _ child field)))
  · exact Or.inr ⟨child, isRow, occurs⟩

/-- The excerpt of a closed record is one more than the fields that it holds. -/
theorem size_surplus_none (record other : Application Term) :
    (record.surplus other none).size = Term.totalSize (record.beyond other).values + 1 := by
  rw [surplus, Term.size_app]
  simp [children]

/-- The equation that fills a row from a closed record is flat, and its variables are those
of the two records. -/
theorem flat_mentions_fill {source target : Application Term} {row : Term}
    (sourceFlat : (Term.app source).Flat) (targetFlat : (Term.app target).Flat)
    (opened : target.row = some row) :
    ((source.surplus target none).Flat ∧ row.Flat) ∧
      ∀ name, Equation.Mentions ⟨source.surplus target none, row⟩ name →
        Equation.Mentions ⟨.app source, .app target⟩ name := by
  have child : row ∈ target.children := (mem_children_iff target _).mpr (Or.inr (Or.inr opened))
  refine ⟨⟨flat_surplus sourceFlat none (Or.inl rfl), targetFlat.children row child⟩, ?_⟩
  rintro name (inExcerpt | inRow)
  · rcases mem_occurrences_surplus inExcerpt with inSource | ⟨_, noRow, _⟩
    · exact Or.inl inSource
    · contradiction
  · exact Or.inr (Term.occurrences_of_child target row child name inRow)

/-- The shared equations and the equation that fills the left row from a closed record are
a reduction. -/
theorem reduces_fillLhs (arities : lhs.subterms.length = rhs.subterms.length)
    (lhsFlat : (Term.app lhs).Flat) (rhsFlat : (Term.app rhs).Flat) (row : Term)
    (lhsOpen : lhs.row = some row) :
    Reduces lhs rhs (lhs.sharedEquations rhs ++ [⟨rhs.surplus lhs none, row⟩]) := by
  obtain ⟨flat, mentions⟩ := flat_mentions_fill rhsFlat lhsFlat lhsOpen
  refine reduces_of_light arities lhsFlat rhsFlat _ ?_ ?_ ?_
  · simp only [totalWeight_cons, totalWeight_nil, Equation.weight, size_surplus_none, lhsOpen,
      Option.toList_some, Term.totalSize_cons, Term.totalSize_nil]
    omega
  · exact List.forall_mem_singleton.mpr flat
  · exact List.forall_mem_singleton.mpr fun name inside => (mentions name inside).symm

/-- The shared equations and the equation that fills the right row from a closed record are
a reduction. -/
theorem reduces_fillRhs (arities : lhs.subterms.length = rhs.subterms.length)
    (lhsFlat : (Term.app lhs).Flat) (rhsFlat : (Term.app rhs).Flat) (row : Term)
    (rhsOpen : rhs.row = some row) :
    Reduces lhs rhs (lhs.sharedEquations rhs ++ [⟨lhs.surplus rhs none, row⟩]) := by
  obtain ⟨flat, mentions⟩ := flat_mentions_fill lhsFlat rhsFlat rhsOpen
  refine reduces_of_light arities lhsFlat rhsFlat _ ?_ ?_ ?_
  · simp only [totalWeight_cons, totalWeight_nil, Equation.weight, size_surplus_none, rhsOpen,
      Option.toList_some, Term.totalSize_cons, Term.totalSize_nil]
    omega
  · exact List.forall_mem_singleton.mpr flat
  · exact List.forall_mem_singleton.mpr mentions

end Reduction

end Application

/-- An alignment that makes no tails is a reduction. The other one adds the equations that
extend both rows to the shared equations. -/
theorem Aligned.reduces_or_extended {lhs rhs : Application Term} {supply later : FreshSupply}
    {aligned : List Equation} (way : Aligned lhs rhs supply aligned later)
    (arities : lhs.subterms.length = rhs.subterms.length) (lhsFlat : (Term.app lhs).Flat)
    (rhsFlat : (Term.app rhs).Flat) :
    lhs.Reduces rhs (List.zipWith Equation.mk lhs.subterms rhs.subterms ++ aligned) ∨
      ∃ first second firstRow secondRow,
        ((first = lhs ∧ second = rhs) ∨ (first = rhs ∧ second = lhs)) ∧
        first.row = some firstRow ∧ second.row = some secondRow ∧
        (∀ name, firstRow = .var name → secondRow ≠ .var name) ∧
        List.zipWith Equation.mk lhs.subterms rhs.subterms ++ aligned =
          lhs.sharedEquations rhs ++
            first.extensionEquations second firstRow secondRow supply.tail ∧
        later = supply.after 2 := by
  cases way with
  | level labels =>
    rw [← List.append_assoc]
    exact Or.inl (Application.reduces_level arities lhsFlat rhsFlat)
  | fillLhs row lhsOpen rhsClosed contained =>
    rw [← List.append_assoc]
    exact Or.inl (Application.reduces_fillLhs arities lhsFlat rhsFlat row lhsOpen)
  | fillRhs row lhsClosed rhsOpen contained =>
    rw [← List.append_assoc]
    exact Or.inl (Application.reduces_fillRhs arities lhsFlat rhsFlat row rhsOpen)
  | extended first second firstRow secondRow sides firstOpen secondOpen distinct =>
    exact Or.inr ⟨first, second, firstRow, secondRow, sides, firstOpen, secondOpen, distinct,
      (List.append_assoc _ _ _).symm, rfl⟩

namespace Engine

/-- A decomposition without a row extension, or with the one that makes new row variables,
pairs the subterms and aligns the records of two flat applications. -/
theorem aligned_of_move {engine : Engine} {top equation : Equation} {equations : List Equation}
    {supply : FreshSupply} (normal : engine.store.Normal)
    (standard : engine.extension = none ∨ engine.extension = some RowExtension.withNewRow)
    (move : engine.move top (engine.resolve equation) = .decomposed equations supply) :
    ∃ lhs rhs aligned, engine.resolve equation = ⟨.app lhs, .app rhs⟩ ∧
      (Term.app lhs).Flat ∧ (Term.app rhs).Flat ∧ lhs.subterms.length = rhs.subterms.length ∧
      Aligned lhs rhs engine.supply aligned supply ∧
      equations = List.zipWith Equation.mk lhs.subterms rhs.subterms ++ aligned := by
  obtain ⟨lhs, rhs, aligned, shape, -, arities, success, rfl⟩ :=
    (move ▸ engine.moved top _).of_decomposed
  have ⟨lhsShape, rhsShape⟩ := Equation.mk.inj shape
  exact ⟨lhs, rhs, aligned, shape, lhsShape ▸ normal.flat_apply equation.lhs,
    rhsShape ▸ normal.flat_apply equation.rhs, arities,
    aligned_of_align _ lhs rhs _ _ aligned standard success, rfl⟩

/-- The weights of equations once they are resolved. -/
def load (engine : Engine) (equations : List Equation) : Nat :=
  totalWeight (equations.map engine.resolve)

@[simp] theorem load_cons (engine : Engine) (equation : Equation) (rest : List Equation) :
    engine.load (equation :: rest) = (engine.resolve equation).weight + engine.load rest := by
  simp [load]

@[simp] theorem load_append (engine : Engine) (first second : List Equation) :
    engine.load (first ++ second) = engine.load first + engine.load second := by
  simp [load]

/-- Without the first equation the load is less. -/
theorem load_tail_lt (engine : Engine) (equation : Equation) (rest : List Equation) :
    engine.load rest < engine.load (equation :: rest) := by
  have positive := (engine.resolve equation).weight_pos
  rw [load_cons]
  omega

/-- All variables of the resolved equations are among the given names. -/
def Covers (engine : Engine) (names : Finset Name) (equations : List Equation) : Prop :=
  ∀ equation ∈ equations, ∀ name, (engine.resolve equation).Mentions name → name ∈ names

section Reduction

variable {engine : Engine} {names : Finset Name}

/-- The variables of the resolved equations are a finite set of names. -/
theorem exists_covers (engine : Engine) (equations : List Equation) :
    ∃ names, engine.Covers names equations ∧
      ∀ name ∈ names, ∃ equation ∈ equations, (engine.resolve equation).Mentions name := by
  refine ⟨(equations.flatMap fun equation => (engine.resolve equation).lhs.occurrences ++
    (engine.resolve equation).rhs.occurrences).toFinset, ?_, ?_⟩
  · intro equation member name inside
    rw [List.mem_toFinset, List.mem_flatMap]
    exact ⟨equation, member, List.mem_append.mpr inside⟩
  · intro name member
    rw [List.mem_toFinset, List.mem_flatMap] at member
    obtain ⟨equation, listed, inside⟩ := member
    exact ⟨equation, listed, List.mem_append.mp inside⟩

/-- Two lists are covered together exactly if each is. -/
theorem covers_append_iff {first second : List Equation} :
    engine.Covers names (first ++ second) ↔
      engine.Covers names first ∧ engine.Covers names second := by
  simp only [Covers, List.mem_append, or_imp, forall_and]

/-- Without the first equation the others stay covered. -/
theorem Covers.tail {equation : Equation} {rest : List Equation}
    (covers : engine.Covers names (equation :: rest)) : engine.Covers names rest :=
  fun other member => covers other (List.mem_cons_of_mem _ member)

/-- A reduction of resolved applications is resolved. -/
theorem resolve_of_reduces (normal : engine.store.Normal) {equation : Equation}
    {lhs rhs : Application Term} (shape : engine.resolve equation = ⟨.app lhs, .app rhs⟩)
    {equations : List Equation} (reduces : lhs.Reduces rhs equations) :
    equations.map engine.resolve = equations := by
  have free (name : Name) (inside : (engine.resolve equation).Mentions name) :
      engine.store.lookup? name = none := by
    rcases inside with left | right
    · exact normal.lookup?_eq_none _ name left
    · exact normal.lookup?_eq_none _ name right
  conv => rhs; rw [← List.map_id equations]
  refine List.map_congr_left fun part member => ?_
  obtain ⟨left, right⟩ := reduces.flat part member
  have partFree (name : Name) (inside : part.Mentions name) : engine.store.lookup? name = none :=
    free name (shape ▸ reduces.known part member name inside)
  have lhsResolved : engine.store.apply part.lhs = part.lhs :=
    Store.Normal.apply_eq_self _ left fun name inside => partFree name (Or.inl inside)
  have rhsResolved : engine.store.apply part.rhs = part.rhs :=
    Store.Normal.apply_eq_self _ right fun name inside => partFree name (Or.inr inside)
  rw [resolve, lhsResolved, rhsResolved]
  rfl

/-- A reduction takes load off and stays covered. -/
theorem load_covers_of_reduces (normal : engine.store.Normal) {equation : Equation}
    {lhs rhs : Application Term} (shape : engine.resolve equation = ⟨.app lhs, .app rhs⟩)
    {equations rest : List Equation} (reduces : lhs.Reduces rhs equations)
    (covers : engine.Covers names (equation :: rest)) :
    engine.load (equations ++ rest) < engine.load (equation :: rest) ∧
      engine.Covers names (equations ++ rest) := by
  have resolved := resolve_of_reduces normal shape reduces
  constructor
  · have lighter : totalWeight equations < (engine.resolve equation).weight :=
      shape ▸ reduces.lighter
    rw [load_append, load_cons, load, resolved]
    omega
  · rw [covers_append_iff]
    constructor
    · intro part member name inside
      have same : engine.resolve part = part := by
        have memberResolved := List.map_inj_left.mp (resolved.trans (List.map_id _).symm)
        exact memberResolved part member
      rw [same] at inside
      exact covers equation List.mem_cons_self name
        (shape ▸ reduces.known part member name inside)
    · exact covers.tail

/-- Binding a variable of the first equation takes it out of the others. -/
theorem covers_bind (normal : engine.store.Normal) {equation : Equation}
    {rest : List Equation} {name : Name} {term : Term} {store : Store}
    (assigns : (engine.resolve equation).Assigns name term)
    (success : engine.store.bind name term = .ok store)
    (covers : engine.Covers names (equation :: rest)) :
    name ∈ names ∧ Engine.Covers { engine with store } (names.erase name) rest := by
  obtain ⟨free, resolved⟩ := free_of_assigns normal assigns
  have mentioned := assigns.mentions
  refine ⟨covers equation List.mem_cons_self name mentioned.1, ?_⟩
  intro other member inner inside
  have afterwards : store.lookup? inner = none := by
    rcases inside with left | right
    · exact (normal.bind success).lookup?_eq_none _ inner left
    · exact (normal.bind success).lookup?_eq_none _ inner right
  refine Finset.mem_erase.mpr
    ⟨((Store.lookup?_bind_eq_none_iff normal success inner).mp afterwards).1, ?_⟩
  have carried (side : Term) (inSide : inner ∈ (store.apply side).occurrences) :
      inner ∈ (engine.store.apply side).occurrences ∨ inner ∈ term.occurrences := by
    rcases Store.mem_occurrences_apply_bind normal free success side inner inSide with
      ⟨-, before⟩ | ⟨-, replaced⟩
    · exact Or.inl before
    · exact Or.inr (resolved ▸ replaced)
  have known := covers equation List.mem_cons_self inner
  rcases inside with left | right
  · rcases carried other.lhs left with before | replaced
    · exact covers other (List.mem_cons_of_mem _ member) inner (Or.inl before)
    · exact known (mentioned.2 inner replaced)
  · rcases carried other.rhs right with before | replaced
    · exact covers other (List.mem_cons_of_mem _ member) inner (Or.inr before)
    · exact known (mentioned.2 inner replaced)

end Reduction

/-- Equations are worked off if each decomposition on the way is a reduction or leaves
what can be worked off for another reason.

The induction is on the number of variables that cover the equations and, for the same
cover, on their load. -/
theorem WorksOff.exists_of_reduces {top : Equation} (admits : Engine → List Equation → Prop)
    (normal : ∀ engine pending, admits engine pending → engine.store.Normal)
    (settled : ∀ engine equation rest, admits engine (equation :: rest) →
      engine.move top (engine.resolve equation) = .settled → admits engine rest)
    (bound : ∀ engine equation rest store, admits engine (equation :: rest) →
      engine.move top (engine.resolve equation) = .bound store →
        admits { engine with store } rest)
    (decomposed : ∀ engine equation rest lhs rhs equations supply,
      admits engine (equation :: rest) → engine.resolve equation = ⟨.app lhs, .app rhs⟩ →
      engine.move top (engine.resolve equation) = .decomposed equations supply →
        (∃ visited final, WorksOff top { engine with supply } (equations ++ rest) visited final) ∨
          (lhs.Reduces rhs equations ∧ admits { engine with supply } (equations ++ rest)))
    (engine : Engine) (pending : List Equation) (admitted : admits engine pending) :
    ∃ visited final, WorksOff top engine pending visited final := by
  obtain ⟨names, covers, -⟩ := engine.exists_covers pending
  induction count : names.card using Nat.strong_induction_on generalizing names engine pending with
  | _ number fewerNames =>
    induction load : engine.load pending using Nat.strong_induction_on
      generalizing engine pending with
    | _ total lighter =>
      cases pending with
      | nil => exact ⟨[], engine, .done engine⟩
      | cons equation rest =>
        have engineNormal := normal engine _ admitted
        cases move : engine.move top (engine.resolve equation) with
        | settled =>
          have less : engine.load rest < total := load ▸ engine.load_tail_lt equation rest
          obtain ⟨visited, final, work⟩ := lighter _ less engine rest
            (settled engine equation rest admitted move) covers.tail rfl
          exact ⟨_, final, .settled engine final equation rest visited move work⟩
        | bound store =>
          obtain ⟨name, term, assigns, -, -, success⟩ := bound_of_move engineNormal move
          obtain ⟨present, fewer⟩ := covers_bind engineNormal assigns success covers
          have less : (names.erase name).card < number :=
            count ▸ Finset.card_erase_lt_of_mem present
          obtain ⟨visited, final, work⟩ := fewerNames _ less { engine with store } rest
            (bound engine equation rest store admitted move) _ fewer rfl
          exact ⟨_, final, .bound engine final equation rest visited store move work⟩
        | decomposed equations supply =>
          obtain ⟨lhs, rhs, -, shape, -⟩ := (move ▸ engine.moved top _).of_decomposed
          rcases decomposed engine equation rest lhs rhs equations supply admitted shape move with
            ⟨visited, final, work⟩ | ⟨reduces, admittedParts⟩
          · exact ⟨_, final, .decomposed engine final equation rest visited equations supply move
              work⟩
          · obtain ⟨less, partsCovered⟩ :=
              load_covers_of_reduces engineNormal shape reduces covers
            obtain ⟨visited, final, work⟩ := lighter _ (load ▸ less) { engine with supply } _
              admittedParts partsCovered rfl
            exact ⟨_, final, .decomposed engine final equation rest visited equations supply move
              work⟩
        | refused failure store supply =>
          obtain ⟨rfl, rfl⟩ := refused_of_move move
          exact ⟨_, _, .refused engine equation rest failure move⟩

end Engine

end RowUnification
