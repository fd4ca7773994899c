import RowUnification.Term.Basic

/-!
# The order of terms

Terms are ordered with every variable before every application; variables by
name, applications by functor, subterms, fields and row in turn. Lists and
fields are compared lexicographically, so a proper beginning comes first.
Comparison answers "equal" exactly on equal terms, which makes equality of terms
decidable.
-/

namespace RowUnification.Term

mutual

/-- Variables precede applications; applications are compared part by part. -/
protected def compare : Term → Term → Ordering
  | var left, var right => Ord.compare left right
  | var _, app _ => .lt
  | app _, var _ => .gt
  | app ⟨functor, subterms, fields, row⟩, app ⟨otherFunctor, otherSubterms, otherFields, otherRow⟩ =>
    (Ord.compare functor otherFunctor).then <|
      (compareSubterms subterms otherSubterms).then <|
        (compareFields fields otherFields).then (compareRows row otherRow)
termination_by structural left => left

/-- The lexicographic order of subterms. -/
def compareSubterms : List Term → List Term → Ordering
  | [], [] => .eq
  | [], _ :: _ => .lt
  | _ :: _, [] => .gt
  | left :: lefts, right :: rights => (left.compare right).then (compareSubterms lefts rights)
termination_by structural lefts => lefts

/-- The lexicographic order of fields, each compared by label and then by value. -/
def compareFields : {leftBound rightBound : Option Name} →
    SortedMap Term leftBound → SortedMap Term rightBound → Ordering
  | _, _, .nil, .nil => .eq
  | _, _, .nil, .cons .. => .lt
  | _, _, .cons .., .nil => .gt
  | _, _, .cons label _ value rest, .cons otherLabel _ otherValue otherRest =>
    ((Ord.compare label otherLabel).then (value.compare otherValue)).then
      (compareFields rest otherRest)
termination_by structural _ _ left => left

/-- A closed application precedes an open one. -/
def compareRows : Option Term → Option Term → Ordering
  | none, none => .eq
  | none, some _ => .lt
  | some _, none => .gt
  | some left, some right => left.compare right
termination_by structural left => left

end

instance : Ord Term := ⟨Term.compare⟩

mutual

theorem compare_self : (term : Term) → term.compare term = .eq
  | var name => (Name.compare_eq_eq_iff name name).mpr rfl
  | app ⟨functor, subterms, fields, row⟩ => by
    simp only [Term.compare, Ordering.then_eq_eq]
    exact ⟨(Name.compare_eq_eq_iff functor functor).mpr rfl, compareSubterms_self subterms,
      compareFields_self fields, compareRows_self row⟩
termination_by structural term => term

theorem compareSubterms_self : (terms : List Term) → compareSubterms terms terms = .eq
  | [] => rfl
  | term :: rest => Ordering.then_eq_eq.mpr ⟨compare_self term, compareSubterms_self rest⟩
termination_by structural terms => terms

theorem compareFields_self : {bound : Option Name} → (fields : SortedMap Term bound) →
    compareFields fields fields = .eq
  | _, .nil => rfl
  | _, .cons label _ value rest => Ordering.then_eq_eq.mpr
      ⟨Ordering.then_eq_eq.mpr ⟨(Name.compare_eq_eq_iff label label).mpr rfl, compare_self value⟩,
        compareFields_self rest⟩
termination_by structural _ fields => fields

theorem compareRows_self : (row : Option Term) → compareRows row row = .eq
  | none => rfl
  | some term => compare_self term
termination_by structural row => row

end

mutual

theorem eq_of_compare : (left right : Term) → left.compare right = .eq → left = right
  | var left, var right, equal => congrArg var ((Name.compare_eq_eq_iff left right).mp equal)
  | var _, app _, equal => nomatch equal
  | app _, var _, equal => nomatch equal
  | app ⟨functor, subterms, fields, row⟩, app ⟨otherFunctor, otherSubterms, otherFields, otherRow⟩,
      equal => by
    simp only [Term.compare, Ordering.then_eq_eq] at equal
    obtain ⟨functorEqual, subtermsEqual, fieldsEqual, rowEqual⟩ := equal
    rw [(Name.compare_eq_eq_iff functor otherFunctor).mp functorEqual,
      eq_of_compareSubterms subterms otherSubterms subtermsEqual,
      eq_of_compareFields fields otherFields fieldsEqual,
      eq_of_compareRows row otherRow rowEqual]
termination_by structural left => left

theorem eq_of_compareSubterms : (lefts rights : List Term) →
    compareSubterms lefts rights = .eq → lefts = rights
  | [], [], _ => rfl
  | [], _ :: _, equal => nomatch equal
  | _ :: _, [], equal => nomatch equal
  | left :: lefts, right :: rights, equal => by
    obtain ⟨first, rest⟩ := Ordering.then_eq_eq.mp equal
    rw [eq_of_compare left right first, eq_of_compareSubterms lefts rights rest]
termination_by structural lefts => lefts

theorem eq_of_compareFields : {bound : Option Name} → (lefts rights : SortedMap Term bound) →
    compareFields lefts rights = .eq → lefts = rights
  | _, .nil, .nil, _ => rfl
  | _, .nil, .cons .., equal => nomatch equal
  | _, .cons .., .nil, equal => nomatch equal
  | _, .cons label _ value rest, .cons otherLabel _ otherValue otherRest, equal => by
    obtain ⟨first, later⟩ := Ordering.then_eq_eq.mp equal
    obtain ⟨labelEqual, valueEqual⟩ := Ordering.then_eq_eq.mp first
    have sameLabel : label = otherLabel := (Name.compare_eq_eq_iff label otherLabel).mp labelEqual
    subst sameLabel
    rw [eq_of_compare value otherValue valueEqual, eq_of_compareFields rest otherRest later]
termination_by structural _ lefts => lefts

theorem eq_of_compareRows : (left right : Option Term) → compareRows left right = .eq → left = right
  | none, none, _ => rfl
  | none, some _, equal => nomatch equal
  | some _, none, equal => nomatch equal
  | some left, some right, equal => congrArg some (eq_of_compare left right equal)
termination_by structural left => left

end

/-- Comparison finds two terms equal exactly if they are the same term. -/
theorem compare_term_eq_eq_iff (left right : Term) : left.compare right = .eq ↔ left = right :=
  ⟨eq_of_compare left right, fun same => same ▸ compare_self left⟩

instance : DecidableEq Term := fun left right =>
  decidable_of_iff (left.compare right = .eq) (compare_term_eq_eq_iff left right)

end RowUnification.Term
