import Mathlib.Data.List.Perm.Basic
import RowUnification.Proofs.Substitution

/-!
# Searching a term with a stack

A search keeps the terms still to be looked at on a stack. A turn takes the top one off: a
variable is examined, and of an application the row goes on the stack first, then the field
values by label and then the subterms, so that the last subterm is looked at next. The search
ends when it finds the stack empty, or earlier, if a variable settles the answer.

What a search comes to can be told without a stack. It examines the variables of the term in an
order that is read off the structure, `Term.searchOrder`; a turn keeps what is to be expected
from the variables found and those on the stack (`prospect_turn`) and takes one variable or
functor off it, so the size of the term bounds the turns (`finish_eq_prospect`). The order
differs from that of `Term.occurrences`, and neither looking for one variable nor collecting all
of them depends on it.

`Term.HasVariable` says where a variable may stand, position by position. Both searches find
exactly these, so the occurs check misses no position, and a substitution depends on nothing
else.
-/

namespace RowUnification

universe u v

namespace Application

variable {τ : Type u} {υ : Type v}

/-- The parts in the order in which they go on a stack. -/
def pushed (parts : Application τ) : List τ :=
  parts.row.toList ++ parts.fields.values ++ parts.subterms

@[simp] theorem pushed_map (transform : τ → υ) (parts : Application τ) :
    (parts.map transform).pushed = parts.pushed.map transform := by
  obtain ⟨functor, subterms, fields, row⟩ := parts
  cases row <;> simp [pushed, map]

/-- Taken off the stack again, the parts come in another order, but they are the same. -/
theorem perm_children_pushed (parts : Application τ) :
    parts.pushed.reverse.Perm parts.children := by
  have rowLast : parts.pushed.Perm (parts.fields.values ++ parts.subterms ++ parts.row.toList) := by
    rw [pushed, List.append_assoc]
    exact List.perm_append_comm
  have subtermsFirst : (parts.fields.values ++ parts.subterms ++ parts.row.toList).Perm
      parts.children :=
    List.perm_append_comm.append_right _
  exact (List.reverse_perm _).trans (rowLast.trans subtermsFirst)

end Application

namespace NameSet

/-- Adding names changes the lookups of these names. -/
theorem get?_foldl_add (found : NameSet) (names : List Name) (name : Name) :
    (names.foldl add found).get? name = if name ∈ names then some () else found.get? name := by
  induction names generalizing found with
  | nil => simp
  | cons first rest inductionHypothesis =>
    rw [List.foldl_cons, inductionHypothesis, add, SortedMap.get?_insert]
    by_cases later : name ∈ rest
    · simp [later]
    · simp [later]

/-- A set has the names that it was read from. -/
theorem mem_keys_ofList_iff (names : List Name) (name : Name) :
    name ∈ (ofList names).keys ↔ name ∈ names := by
  rw [SortedMap.mem_keys_iff, ofList, get?_foldl_add]
  by_cases listed : name ∈ names <;> simp [listed]

/-- A set does not depend on the order in which its names were added. -/
theorem ofList_eq_of_perm {names others : List Name} (rearranged : names.Perm others) :
    ofList names = ofList others := by
  apply SortedMap.ext
  intro name
  simp only [ofList, get?_foldl_add, rearranged.mem_iff]

end NameSet

namespace Term

/-- A variable of a term is the term itself or a variable of a subterm, of a field or of the row. -/
inductive HasVariable (name : Name) : Term → Prop
  /-- The term is the variable. -/
  | self : HasVariable name (.var name)
  /-- A positional subterm has it. -/
  | subterm (parts : Application Term) (child : Term) (member : child ∈ parts.subterms)
      (inside : HasVariable name child) : HasVariable name (.app parts)
  /-- The value of a field has it. -/
  | field (parts : Application Term) (label : Name) (child : Term)
      (labelled : parts.fields.get? label = some child)
      (inside : HasVariable name child) : HasVariable name (.app parts)
  /-- The row has it. -/
  | row (parts : Application Term) (child : Term) (opened : parts.row = some child)
      (inside : HasVariable name child) : HasVariable name (.app parts)

/-- The listing of a term's variables leaves out no position and adds none. -/
theorem hasVariable_iff (name : Name) (term : Term) :
    term.HasVariable name ↔ name ∈ term.occurrences := by
  constructor
  · intro has
    induction has with
    | self => exact (mem_occurrences_var name name).mpr rfl
    | subterm parts child member inside inductionHypothesis =>
      have part : child ∈ parts.children := (parts.mem_children_iff child).mpr (Or.inl member)
      exact occurrences_of_child parts child part name inductionHypothesis
    | field parts label child labelled inside inductionHypothesis =>
      have value : child ∈ parts.fields.values :=
        (SortedMap.mem_values_iff _ child).mpr ⟨label, labelled⟩
      have part : child ∈ parts.children :=
        (parts.mem_children_iff child).mpr (Or.inr (Or.inl value))
      exact occurrences_of_child parts child part name inductionHypothesis
    | row parts child opened inside inductionHypothesis =>
      have part : child ∈ parts.children :=
        (parts.mem_children_iff child).mpr (Or.inr (Or.inr opened))
      exact occurrences_of_child parts child part name inductionHypothesis
  · intro listed
    induction term using Term.induct with
    | variableCase other =>
      rw [(mem_occurrences_var other name).mp listed]
      exact .self
    | applicationCase parts inductionHypothesis =>
      obtain ⟨child, member, occurs⟩ := (mem_occurrences_app parts name).mp listed
      have inside : child.HasVariable name := inductionHypothesis child member occurs
      rcases (parts.mem_children_iff child).mp member with subterm | value | opened
      · exact .subterm parts child subterm inside
      · obtain ⟨label, labelled⟩ := (SortedMap.mem_values_iff _ child).mp value
        exact .field parts label child labelled inside
      · exact .row parts child opened inside

/-- The variables of a term in the order in which a stack brings them up. -/
def searchOrder : Term → List Name :=
  fold (fun name => [name]) fun parts => parts.pushed.reverse.flatten

/-- The variables of an application come up part by part. -/
theorem searchOrder_app (parts : Application Term) :
    (app parts).searchOrder = parts.pushed.reverse.flatMap searchOrder := by
  rw [List.flatMap_def, List.map_reverse, ← Application.pushed_map]
  exact fold_app _ _ parts

/-- A stack brings up every occurrence of a variable once. -/
theorem searchOrder_perm_occurrences (term : Term) : term.searchOrder.Perm term.occurrences := by
  induction term using Term.induct with
  | variableCase name => exact List.Perm.refl _
  | applicationCase parts inductionHypothesis =>
    rw [searchOrder_app, occurrences_app]
    apply parts.perm_children_pushed.flatMap
    intro child member
    exact inductionHypothesis child (parts.perm_children_pushed.mem_iff.mp member)

/-- The sizes of terms add up to the same in every order. -/
theorem totalSize_eq_of_perm {terms others : List Term} (rearranged : terms.Perm others) :
    totalSize terms = totalSize others := by
  induction rearranged with
  | nil => rfl
  | cons term _ inductionHypothesis => simp only [totalSize_cons, inductionHypothesis]
  | swap first second rest => simp only [totalSize_cons, Nat.add_left_comm]
  | trans _ _ firstHypothesis secondHypothesis => exact firstHypothesis.trans secondHypothesis

/-- The collection adds the variables of the pending terms from left to right. -/
theorem collect_eq_foldl (found : NameSet) (pending : List Term) :
    collect found pending = (pending.flatMap occurrences).foldl NameSet.add found := by
  fun_induction collect found pending with
  | case1 found => rfl
  | case2 found name rest inductionHypothesis => exact inductionHypothesis
  | case3 found parts rest inductionHypothesis =>
    rw [inductionHypothesis, List.flatMap_append, ← occurrences_app, ← List.flatMap_cons]

/-- The collected variables are those that the structure lists. -/
theorem variableSet_eq_ofList (term : Term) : term.variableSet = .ofList term.occurrences := by
  rw [variableSet, collect_eq_foldl, List.flatMap_singleton, NameSet.ofList]

/-- A name is collected exactly if it occurs. -/
theorem mem_keys_variableSet_iff (term : Term) (name : Name) :
    name ∈ term.variableSet.keys ↔ name ∈ term.occurrences := by
  rw [variableSet_eq_ofList, NameSet.mem_keys_ofList_iff]

end Term

/-- What a search does with the variables it meets. -/
structure Search (σ ρ : Type) where
  /-- What has been found before the first variable. -/
  start : σ
  /-- Settles the answer at a variable, or goes on with more found. -/
  examine : σ → Name → ρ ⊕ σ
  /-- The answer when no variable is left. -/
  answer : σ → ρ

namespace Search

variable {σ ρ : Type}

/-- A search under way. -/
structure Stage (σ : Type) where
  /-- What has been found. -/
  found : σ
  /-- The terms still to be looked at, the top one first. -/
  stack : List Term

/-- Looks at the top of the stack: the answer, or what the search goes on with. -/
def turn (search : Search σ ρ) : Stage σ → ρ ⊕ Stage σ
  | ⟨found, []⟩ => .inl (search.answer found)
  | ⟨found, .var name :: stack⟩ =>
    match search.examine found name with
    | .inl answer => .inl answer
    | .inr more => .inr ⟨more, stack⟩
  | ⟨found, .app parts :: stack⟩ => .inr ⟨found, parts.pushed.reverse ++ stack⟩

/-- Takes at most the given number of turns; `none` says that they were too few. -/
def finish (search : Search σ ρ) : Nat → Stage σ → Option ρ
  | 0, _ => none
  | budget + 1, stage =>
    match search.turn stage with
    | .inl answer => some answer
    | .inr next => search.finish budget next

/-- Searches one term. -/
def within (search : Search σ ρ) (budget : Nat) (term : Term) : Option ρ :=
  search.finish budget ⟨search.start, [term]⟩

/-- What variables come to if they are examined one after another. -/
def conclude (search : Search σ ρ) (found : σ) : List Name → ρ
  | [] => search.answer found
  | name :: rest =>
    match search.examine found name with
    | .inl answer => answer
    | .inr more => search.conclude more rest

/-- What a search under way is to come to. -/
def prospect (search : Search σ ρ) (stage : Stage σ) : ρ :=
  search.conclude stage.found (stage.stack.flatMap Term.searchOrder)

/-- A turn keeps what is to be expected: its answer is that, or it goes on to it. A variable taken
off the stack is the next one to be examined, and the parts of an application bring up its
variables in its place. -/
theorem prospect_turn (search : Search σ ρ) (stage : Stage σ) :
    (search.turn stage).elim id search.prospect = search.prospect stage := by
  fun_cases turn search stage with
  | case1 found => rfl
  | case2 found name stack answer examined =>
    have examinedNext :
        search.conclude found (name :: stack.flatMap Term.searchOrder) = answer := by
      rw [conclude, examined]
    exact examinedNext.symm
  | case3 found name stack more examined =>
    have examinedNext : search.conclude found (name :: stack.flatMap Term.searchOrder) =
        search.conclude more (stack.flatMap Term.searchOrder) := by
      rw [conclude, examined]
    exact examinedNext.symm
  | case4 found parts stack =>
    simp only [Sum.elim_inr, prospect, List.flatMap_append, List.flatMap_cons,
      Term.searchOrder_app]

/-- A turn that goes on leaves one variable or functor less on the stack. -/
theorem totalSize_of_turn (search : Search σ ρ) (stage next : Stage σ)
    (going : search.turn stage = .inr next) :
    Term.totalSize next.stack + 1 = Term.totalSize stage.stack := by
  fun_cases turn search stage with
  | case1 found => exact nomatch going
  | case2 found name stack answer examined => simp [turn, examined] at going
  | case3 found name stack more examined =>
    obtain rfl : ⟨more, stack⟩ = next := by simpa [turn, examined] using going
    exact Nat.add_comm _ 1
  | case4 found parts stack =>
    obtain rfl := Sum.inr.inj going
    have sameParts : Term.totalSize parts.pushed.reverse = Term.totalSize parts.children :=
      Term.totalSize_eq_of_perm parts.perm_children_pushed
    rw [Term.totalSize_append, Term.totalSize_cons, Term.size_app, sameParts]
    omega

/-- A search with more turns than there are variables and functors on its stack ends, with the
answer that was to be expected. -/
theorem finish_eq_prospect (search : Search σ ρ) (stage : Stage σ) (budget : Nat)
    (enough : Term.totalSize stage.stack < budget) :
    search.finish budget stage = some (search.prospect stage) := by
  induction budget generalizing stage with
  | zero => exact absurd enough (Nat.not_lt_zero _)
  | succ budget inductionHypothesis =>
    rw [finish, ← search.prospect_turn stage]
    cases turned : search.turn stage with
    | inl answer => rfl
    | inr next =>
      have fewer : Term.totalSize next.stack + 1 = Term.totalSize stage.stack :=
        search.totalSize_of_turn stage next turned
      exact inductionHypothesis next (by omega)

/-- A search with more turns than the term has variables and functors examines the variables in
the order of the stack. -/
theorem within_eq_conclude (search : Search σ ρ) (term : Term) (budget : Nat)
    (enough : term.size < budget) :
    search.within budget term = some (search.conclude search.start term.searchOrder) := by
  have ends : search.within budget term = some (search.prospect ⟨search.start, [term]⟩) :=
    search.finish_eq_prospect ⟨search.start, [term]⟩ budget enough
  rw [ends, prospect, List.flatMap_singleton]

/-- Looks for one variable; finding it settles the answer. -/
def lookFor (name : Name) : Search Unit Bool where
  start := ()
  examine _ other := if other = name then .inl true else .inr ()
  answer _ := false

/-- Collects all variables. -/
def collectAll : Search NameSet NameSet where
  start := .nil
  examine found name := .inr (found.add name)
  answer found := found

/-- Looking for a variable finds it exactly if it is among those examined. -/
theorem conclude_lookFor (name : Name) (names : List Name) :
    (lookFor name).conclude () names = true ↔ name ∈ names := by
  induction names with
  | nil => simp [conclude, lookFor]
  | cons first rest inductionHypothesis =>
    by_cases same : first = name
    · simp [conclude, lookFor, same]
    · have later : (lookFor name).conclude () (first :: rest) =
          (lookFor name).conclude () rest := by
        simp [conclude, lookFor, same]
      rw [later, inductionHypothesis, List.mem_cons]
      simp [Ne.symm same]

/-- Collecting adds the variables in the order in which they are examined. -/
theorem conclude_collectAll (found : NameSet) (names : List Name) :
    collectAll.conclude found names = names.foldl NameSet.add found := by
  induction names generalizing found with
  | nil => rfl
  | cons first rest inductionHypothesis => exact inductionHypothesis (found.add first)

/-- Looking for a variable with a stack is the occurs check. -/
theorem lookFor_within (name : Name) (term : Term) (budget : Nat) (enough : term.size < budget) :
    (lookFor name).within budget term = some (term.occurs name) := by
  rw [within_eq_conclude _ term budget enough]
  congr 1
  rw [Bool.eq_iff_iff]
  calc (lookFor name).conclude () term.searchOrder = true
      ↔ name ∈ term.searchOrder := conclude_lookFor name _
    _ ↔ name ∈ term.occurrences := term.searchOrder_perm_occurrences.mem_iff
    _ ↔ term.occurs name = true := (Term.occurs_iff name term).symm

/-- Collecting the variables with a stack gives the set of variables. -/
theorem collectAll_within (term : Term) (budget : Nat) (enough : term.size < budget) :
    collectAll.within budget term = some term.variableSet := by
  rw [within_eq_conclude _ term budget enough]
  congr 1
  calc collectAll.conclude .nil term.searchOrder
      = .ofList term.searchOrder := conclude_collectAll .nil _
    _ = .ofList term.occurrences := NameSet.ofList_eq_of_perm term.searchOrder_perm_occurrences
    _ = term.variableSet := term.variableSet_eq_ofList.symm

end Search

namespace Term

/-- Where a variable of a result comes from: it was there and is not assigned, or it belongs to
the term assigned to a variable that was there. -/
theorem kept_or_assigned_of_mem_subst (assignment : Assignment) (term : Term) (name : Name)
    (inside : name ∈ (term.subst assignment).occurrences) :
    (name ∈ term.occurrences ∧ assignment name = none) ∨
      ∃ source ∈ term.occurrences, ∃ value, assignment source = some value ∧
        name ∈ value.occurrences := by
  obtain ⟨source, present, image⟩ := mem_occurrences_subst assignment term name inside
  rw [subst_var] at image
  cases assigned : assignment source with
  | none =>
    rw [assigned, Option.getD_none] at image
    obtain rfl := (mem_occurrences_var source name).mp image
    exact Or.inl ⟨present, assigned⟩
  | some value =>
    rw [assigned, Option.getD_some] at image
    exact Or.inr ⟨source, present, value, assigned, image⟩

/-- Looking for a variable with a stack and collecting all variables with a stack end after no
more turns than the term has variables and functors and one to see that the stack is empty. The
first finds a variable exactly if the second collects it, and that is if it stands as the term
itself or in a subterm, a field or a row at any depth; the set collected is read off the
structure. A substitution sees no more of an assignment than what it has for these variables, and
every variable of the result is one of them that is not assigned, or comes with what is assigned
to one of them. -/
theorem searches_agree_with_structure (term : Term) (name : Name) (first second : Assignment) :
    (∀ budget, term.size < budget →
      (Search.lookFor name).within budget term = some (term.occurs name) ∧
      Search.collectAll.within budget term = some term.variableSet) ∧
    (term.occurs name = true ↔ name ∈ term.variableSet.keys) ∧
    (term.occurs name = true ↔ term.HasVariable name) ∧
    term.variableSet = .ofList term.occurrences ∧
    ((∀ other ∈ term.variableSet.keys, first other = second other) →
      term.subst first = term.subst second) ∧
    ∀ other ∈ (term.subst first).variableSet.keys,
      (other ∈ term.variableSet.keys ∧ first other = none) ∨
        ∃ source ∈ term.variableSet.keys, ∃ value, first source = some value ∧
          other ∈ value.variableSet.keys := by
  refine ⟨?_, ?_, ?_, term.variableSet_eq_ofList, ?_, ?_⟩
  · intro budget enough
    exact ⟨Search.lookFor_within name term budget enough,
      Search.collectAll_within term budget enough⟩
  · rw [occurs_iff, mem_keys_variableSet_iff]
  · rw [occurs_iff, hasVariable_iff]
  · intro agree
    apply subst_congr
    intro other inside
    rw [subst_var, subst_var, agree other ((term.mem_keys_variableSet_iff other).mpr inside)]
  · intro other inside
    simp only [mem_keys_variableSet_iff] at inside ⊢
    exact kept_or_assigned_of_mem_subst first term other inside

/-- `r` is `Box(width: v | s)`. -/
def overridingFilling : NameMap Term :=
  .ofList [(.symbol "r", .app ⟨.symbol "Box", [],
    .ofList [(.symbol "width", .var (.symbol "v"))], some (.var (.symbol "s"))⟩)]

/-- In the nested box `r` stands only as the row of a row, and six turns are enough to find it.
Whether `s` is assigned as well makes no difference, although `s` comes in with the term for `r`.
The width that comes in too overrides the one of the box: `w` is not assigned, but it is gone. -/
theorem searches_agree_with_structure_nestedBox :
    (Search.lookFor (.symbol "r")).within 6 nestedBox = some true ∧
    nestedBox.HasVariable (.symbol "r") ∧
    Search.collectAll.within 6 nestedBox =
      some (.ofList [.symbol "w", .symbol "d", .symbol "r"]) ∧
    nestedBox.subst (.ofMap overridingFilling) =
      nestedBox.subst (.ofMap (overridingFilling.insert (.symbol "s") (.var (.symbol "w")))) ∧
    (nestedBox.subst (.ofMap overridingFilling)).variableSet.keys =
      [.symbol "d", .symbol "s", .symbol "v"] ∧
    ∃ source ∈ nestedBox.variableSet.keys, ∃ value,
      overridingFilling.get? source = some value ∧ .symbol "s" ∈ value.variableSet.keys := by
  obtain ⟨ends, -, structured, collected, depends, origin⟩ :=
    searches_agree_with_structure nestedBox (.symbol "r") (.ofMap overridingFilling)
      (.ofMap (overridingFilling.insert (.symbol "s") (.var (.symbol "w"))))
  have found : nestedBox.occurs (.symbol "r") = true := by decide +kernel
  have small : nestedBox.size < 6 := by decide +kernel
  obtain ⟨looked, gathered⟩ := ends 6 small
  have agree : ∀ other ∈ nestedBox.variableSet.keys, overridingFilling.get? other =
      (overridingFilling.insert (.symbol "s") (.var (.symbol "w"))).get? other := by
    decide +kernel
  have resultKeys : (nestedBox.subst (.ofMap overridingFilling)).variableSet.keys =
      [.symbol "d", .symbol "s", .symbol "v"] := by decide +kernel
  have unknown : Name.symbol "s" ∉ nestedBox.variableSet.keys := by decide +kernel
  refine ⟨found ▸ looked, structured.mp found, ?_, depends agree, resultKeys, ?_⟩
  · rw [gathered, collected]
    decide +kernel
  · rcases origin (.symbol "s") (by rw [resultKeys]; decide) with ⟨known, -⟩ | assigned
    · exact absurd known unknown
    · exact assigned

end Term

end RowUnification
