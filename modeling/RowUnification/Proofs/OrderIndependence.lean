import RowUnification.Proofs.Representatives
import RowUnification.Proofs.RowFree
import RowUnification.Proofs.Symmetry

/-!
# The order of equations

Two runs on the same row-free equations in different orders, some of them with their
sides exchanged, bind different variables at different times. Both end with a most
general store, so each store refines the other, and they could still differ in the
variable that stands for several equal ones.

They do not. Of two variables the greater one is always bound, so a variable that was
free before the call resolves to itself, to a lesser variable or to an application.
Take a variable that the first store leaves free. The second store resolves it to a
variable that the first store resolves back to it; neither is less than the other, so
they are the same. The two stores leave the same variables free, and then two stores
that refine each other resolve every variable alike. Only the order in which the
bindings are listed is left to the order of the equations.
-/

namespace RowUnification

namespace Store

section Mutual

variable {base first second : Store}

/-- A variable that the first store leaves free is left free by a second store that it refines,
if both let the variables of the base descend. -/
theorem lookup?_eq_none_of_refinedBy (secondNormal : second.Normal)
    (firstKept : ∀ name, first.lookup? name = none → base.lookup? name = none)
    (secondKept : ∀ name, second.lookup? name = none → base.lookup? name = none)
    (firstDescends : base.DescendsTo first) (secondDescends : base.DescendsTo second)
    (refined : second.RefinedBy first) (name : Name) (free : first.lookup? name = none) :
    second.lookup? name = none := by
  have back : first.apply (second.apply (.var name)) = .var name :=
    (refined (.var name)).trans (apply_var_of_free first name free)
  cases shape : second.apply (.var name) with
  | app parts =>
    rw [shape, apply, Term.subst_app] at back
    contradiction
  | var other =>
    rw [shape] at back
    have otherFree : second.lookup? other = none := by
      apply secondNormal.lookup?_eq_none (.var name)
      rw [shape]
      exact (Term.mem_occurrences_var other other).mpr rfl
    have down := secondDescends name other (firstKept name free) shape
    have up := firstDescends other name (secondKept other otherFree) back
    rcases down with rfl | less
    · exact otherFree
    · rcases up with rfl | greater
      · exact otherFree
      · exact absurd (Name.lt_trans less greater) (Name.lt_irrefl other)

/-- Two stores that refine each other and let the variables of the base descend find the same
terms. -/
theorem lookup?_eq_of_refinedBy (firstNormal : first.Normal) (secondNormal : second.Normal)
    (firstKept : ∀ name, first.lookup? name = none → base.lookup? name = none)
    (secondKept : ∀ name, second.lookup? name = none → base.lookup? name = none)
    (firstDescends : base.DescendsTo first) (secondDescends : base.DescendsTo second)
    (finer : first.RefinedBy second) (coarser : second.RefinedBy first) (name : Name) :
    first.lookup? name = second.lookup? name := by
  have alsoFree (other : Name) (free : first.lookup? other = none) :
      second.lookup? other = none :=
    lookup?_eq_none_of_refinedBy secondNormal firstKept secondKept firstDescends secondDescends
      coarser other free
  have freeBefore (other : Name) (free : second.lookup? other = none) :
      first.lookup? other = none :=
    lookup?_eq_none_of_refinedBy firstNormal secondKept firstKept secondDescends firstDescends
      finer other free
  exact lookup?_eq_of_same_free firstNormal
    (fun other => ⟨alsoFree other, freeBefore other⟩) finer name

/-- Stores that find the same terms list the same bindings, in some order. -/
theorem entries_perm_of_lookup? (firstIndexed : first.Indexed) (secondIndexed : second.Indexed)
    (same : ∀ name, first.lookup? name = second.lookup? name) :
    first.entries.Perm second.entries := by
  have distinct (store : Store) (indexed : store.Indexed) : store.entries.Nodup :=
    List.Nodup.of_map Prod.fst indexed.nodup_keys
  rw [List.perm_ext_iff_of_nodup (distinct first firstIndexed) (distinct second secondIndexed)]
  rintro ⟨name, term⟩
  rw [← firstIndexed.lookup?_eq_some_iff, ← secondIndexed.lookup?_eq_some_iff, same]

end Mutual

end Store

/-- The other equations are these in some order, each as it is or with its sides exchanged. -/
def Rearranged (equations others : List Equation) : Prop :=
  ∃ shuffled, equations.Perm shuffled ∧ List.Forall₂ Equation.Mirrors shuffled others

namespace Rearranged

variable {equations others : List Equation}

/-- Each equation mirrors one of the other list, and the other way round. -/
theorem exists_mirrors (rearranged : Rearranged equations others) :
    (∀ equation ∈ equations, ∃ other ∈ others, equation.Mirrors other) ∧
      ∀ other ∈ others, ∃ equation ∈ equations, equation.Mirrors other := by
  obtain ⟨shuffled, permuted, mirrored⟩ := rearranged
  have partners : (∀ equation ∈ shuffled, ∃ other ∈ others, equation.Mirrors other) ∧
      ∀ other ∈ others, ∃ equation ∈ shuffled, equation.Mirrors other := by
    induction mirrored generalizing equations with
    | nil => exact ⟨nofun, nofun⟩
    | cons mirrors _ inductionHypothesis =>
      obtain ⟨forward, backward⟩ := inductionHypothesis (.refl _)
      constructor
      · rw [List.forall_mem_cons]
        refine ⟨⟨_, List.mem_cons_self, mirrors⟩, fun equation member => ?_⟩
        obtain ⟨other, present, mirrors⟩ := forward equation member
        exact ⟨other, List.mem_cons_of_mem _ present, mirrors⟩
      · rw [List.forall_mem_cons]
        refine ⟨⟨_, List.mem_cons_self, mirrors⟩, fun other member => ?_⟩
        obtain ⟨equation, present, mirrors⟩ := backward other member
        exact ⟨equation, List.mem_cons_of_mem _ present, mirrors⟩
  constructor
  · intro equation member
    exact partners.1 equation (permuted.mem_iff.mp member)
  · intro other member
    obtain ⟨equation, present, mirrors⟩ := partners.2 other member
    exact ⟨equation, permuted.mem_iff.mpr present, mirrors⟩

/-- Rearranged equations are row-free if the equations are. -/
theorem isRowFree (rearranged : Rearranged equations others)
    (rowFree : ∀ equation ∈ equations, equation.IsRowFree) :
    ∀ other ∈ others, other.IsRowFree := by
  intro other member
  obtain ⟨equation, present, rfl | rfl⟩ := rearranged.exists_mirrors.2 other member
  · exact rowFree other present
  · exact (rowFree equation present).symm

/-- Rearranged equations have the same unifiers under any store. -/
theorem unifies_iff (rearranged : Rearranged equations others) (engine : Engine)
    (assignment : Assignment) : assignment.Unifies (equations.map engine.resolve) ↔
      assignment.Unifies (others.map engine.resolve) := by
  obtain ⟨forward, backward⟩ := rearranged.exists_mirrors
  simp only [Assignment.Unifies, List.forall_mem_map]
  constructor
  · intro unified other member
    obtain ⟨equation, present, rfl | rfl⟩ := backward other member
    · exact unified other present
    · exact (unified equation present).symm
  · intro unified equation member
    obtain ⟨other, present, rfl | rfl⟩ := forward equation member
    · exact unified _ present
    · exact (unified _ present).symm

end Rearranged

namespace Engine

/-- What solving row-free equations comes to: the store has been developed; if the engine is
active, its store unifies the equations; and whatever unifies them shows that it is active and
absorbs the bindings made. -/
structure SolvesExactly (engine : Engine) (equations : List Equation) (report : Report) :
    Prop where
  /-- The call answers. -/
  answered : engine.SolvesTo equations report
  /-- The store has been developed. -/
  develops : engine.store.DevelopsInto report.engine.store
  /-- The last store is a unifier. -/
  unified : report.engine.failure = none →
    Assignment.Unifies report.engine.store.lookup? (equations.map engine.resolve)
  /-- The last store is most general. -/
  general : ∀ assignment : Assignment, assignment.Unifies (equations.map engine.resolve) →
    report.engine.failure = none ∧ assignment.Absorbs engine.store report.engine.store

section Solutions

variable {engine : Engine} {equations others : List Equation} {first second : Report}

/-- Row-free equations are solved exactly. -/
theorem exists_solvesExactly (rowFree : engine.RowFreeOn equations)
    (active : engine.failure = none) : ∃ report, engine.SolvesExactly equations report := by
  obtain ⟨report, answered, holds, general⟩ := solve_rowFree engine equations rowFree active
  have develops : engine.store.DevelopsInto report.engine.store := by
    obtain ⟨budget, answers⟩ := answered
    exact solve_developsInto rowFree.normal (answers budget (Nat.le_refl budget))
  refine ⟨report, answered, develops, fun finalActive => ?_, general⟩
  intro image member
  obtain ⟨equation, original, rfl⟩ := List.mem_map.mp member
  have refined := develops.refinedBy rowFree.normal
  calc report.engine.store.apply (engine.store.apply equation.lhs)
      = report.engine.store.apply equation.lhs := refined equation.lhs
    _ = report.engine.store.apply equation.rhs := holds finalActive equation original
    _ = report.engine.store.apply (engine.store.apply equation.rhs) :=
      (refined equation.rhs).symm

/-- Exact solutions of equations with the same unifiers: if the first one leaves the engine
active, so does the second one, and the first store refines the second one. -/
theorem SolvesExactly.refinedBy (one : engine.SolvesExactly equations first)
    (other : engine.SolvesExactly others second)
    (same : ∀ assignment : Assignment, assignment.Unifies (equations.map engine.resolve) →
      assignment.Unifies (others.map engine.resolve))
    (normal : engine.store.Normal) (active : first.engine.failure = none) :
    second.engine.failure = none ∧ second.engine.store.RefinedBy first.engine.store := by
  obtain ⟨secondActive, absorbs⟩ := other.general _ (same _ (one.unified active))
  refine ⟨secondActive, fun term => ?_⟩
  calc first.engine.store.apply (second.engine.store.apply term)
      = first.engine.store.apply (engine.store.apply term) := absorbs term
    _ = first.engine.store.apply term := one.develops.refinedBy normal term

/-- A variable that is free after solving was free before. -/
theorem SolvesExactly.kept (exact : engine.SolvesExactly equations first)
    (normal : engine.store.Normal) (name : Name)
    (free : first.engine.store.lookup? name = none) : engine.store.lookup? name = none := by
  have laterNormal := exact.develops.normal normal
  rw [normal.indexed.lookup?_eq_none_iff]
  rw [laterNormal.indexed.lookup?_eq_none_iff] at free
  exact fun key => free ((exact.develops.keys_isPrefix normal).subset key)

/-- Solving lets the variables descend. -/
theorem SolvesExactly.descendsTo (exact : engine.SolvesExactly equations first)
    (normal : engine.store.Normal) : engine.store.DescendsTo first.engine.store :=
  exact.develops.descendsTo normal engine.store.descendsTo_self

/-- Exact solutions of equations with the same unifiers, each with the engine active, make the
same bindings. -/
theorem SolvesExactly.entries_perm (one : engine.SolvesExactly equations first)
    (other : engine.SolvesExactly others second) (normal : engine.store.Normal)
    (coarser : second.engine.store.RefinedBy first.engine.store)
    (finer : first.engine.store.RefinedBy second.engine.store) :
    first.engine.store.entries.Perm second.engine.store.entries := by
  have oneNormal := one.develops.normal normal
  have otherNormal := other.develops.normal normal
  refine Store.entries_perm_of_lookup? oneNormal.indexed otherNormal.indexed fun name => ?_
  exact Store.lookup?_eq_of_refinedBy oneNormal otherNormal (one.kept normal) (other.kept normal)
    (one.descendsTo normal) (other.descendsTo normal) finer coarser name

end Solutions

/-- Solving row-free equations over a row-free store, in any order and with the sides of any
of them exchanged, ends. Either it fails each time, or the engine stays active each time and
the bindings are literally the same, apart from their order. The row extension does not
matter. -/
theorem solve_ignores_order (engine : Engine) (equations others : List Equation)
    (reachable : Reachable engine) (active : engine.isActive = true)
    (storeRowFree : engine.store.IsRowFree)
    (rowFree : ∀ equation ∈ equations, equation.IsRowFree)
    (rearranged : Rearranged equations others) :
    ∃ first second, engine.SolvesTo equations first ∧ engine.SolvesTo others second ∧
      (first.engine.isActive = true ↔ second.engine.isActive = true) ∧
      (first.engine.isActive = true →
        first.engine.store.entries.Perm second.engine.store.entries) := by
  have normal := reachable.normal
  have start := engine.isActive_iff.mp active
  obtain ⟨first, one⟩ := exists_solvesExactly ⟨normal, storeRowFree, rowFree⟩ start
  obtain ⟨second, other⟩ :=
    exists_solvesExactly ⟨normal, storeRowFree, rearranged.isRowFree rowFree⟩ start
  have forward (still : first.engine.failure = none) :=
    one.refinedBy other (fun assignment => (rearranged.unifies_iff engine assignment).mp)
      normal still
  have backward (still : second.engine.failure = none) :=
    other.refinedBy one (fun assignment => (rearranged.unifies_iff engine assignment).mpr)
      normal still
  refine ⟨first, second, one.answered, other.answered, ?_, ?_⟩
  · rw [isActive_iff, isActive_iff]
    exact ⟨fun still => (forward still).1, fun still => (backward still).1⟩
  · intro stays
    obtain ⟨otherStays, coarser⟩ := forward (first.engine.isActive_iff.mp stays)
    exact one.entries_perm other normal coarser (backward otherStays).2

/-- `x == y` and `Box(label: z) == Box(label: y)`. -/
def chain : List Equation :=
  [⟨.var (.symbol "x"), .var (.symbol "y")⟩,
    ⟨.app ⟨.symbol "Box", [], .ofList [(.symbol "label", .var (.symbol "z"))], none⟩,
      .app ⟨.symbol "Box", [], .ofList [(.symbol "label", .var (.symbol "y"))], none⟩⟩]

/-- Solved from the end and with sides exchanged, the chain binds `z` before `y`, and in the
end both stand for `x` as they do when it is solved in order. -/
theorem solve_ignores_order_chain : ∃ first second,
    boxEngine.SolvesTo chain first ∧
      boxEngine.SolvesTo (chain.map Equation.swap).reverse second ∧
      first.engine.store.keys = [.symbol "y", .symbol "z"] ∧
      second.engine.store.keys = [.symbol "z", .symbol "y"] ∧
      first.engine.store.entries.Perm second.engine.store.entries := by
  have rowFree : ∀ equation ∈ chain, equation.IsRowFree := by
    unfold Equation.IsRowFree
    decide +kernel
  have rearranged : Rearranged chain (chain.map Equation.swap).reverse := by
    refine ⟨chain.reverse, (List.reverse_perm chain).symm, ?_⟩
    rw [← List.map_reverse]
    exact forall₂_mirrors_swap chain.reverse
  obtain ⟨first, second, one, other, -, entries⟩ := solve_ignores_order boxEngine chain
    (chain.map Equation.swap).reverse boxEngine_reachable rfl nofun rowFree rearranged
  have outcome : first.engine.isActive = true ∧
      first.engine.store.keys = [.symbol "y", .symbol "z"] :=
    of_decide_eq_true (one.of_any (by decide +kernel : (boxEngine.solve 9 chain).any (fun report =>
      decide (report.engine.isActive = true ∧
        report.engine.store.keys = [.symbol "y", .symbol "z"])) = true))
  have otherKeys : second.engine.store.keys = [.symbol "z", .symbol "y"] :=
    of_decide_eq_true (other.of_any (by decide +kernel :
      (boxEngine.solve 9 (chain.map Equation.swap).reverse).any (fun report =>
        decide (report.engine.store.keys = [.symbol "z", .symbol "y"])) = true))
  exact ⟨first, second, one, other, outcome.2, otherKeys, entries outcome.1⟩

end Engine

end RowUnification
