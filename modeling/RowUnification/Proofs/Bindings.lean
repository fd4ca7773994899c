import RowUnification.Proofs.Substitution
import RowUnification.Store

/-!
# Stores in normal form

A store is in normal form if its index agrees with its list, no bound variable occurs
in a bound term and every bound term is flat. Then one pass over a term resolves it
for good: the result is flat, has no bound variable and is its own result.

Binding keeps the normal form. For a variable that was free, the new store
resolves a term as the old one does and then replaces that one variable. Hence
stores only become finer: what an earlier store makes of a term, a later store
resolves to the same term as the original one. If it has no other keys, it finds
the same terms. `DevelopsInto` is any number of such bindings; a fact about what an
engine does to its store is shown for one binding and carried along by this relation.
-/

namespace RowUnification.Store

/-- One pass over a term resolves all of its variables and leaves it flat. -/
structure Normal (store : Store) : Prop where
  /-- The index has the positions of the bindings. -/
  indexed : store.Indexed
  /-- No bound variable occurs in a bound term. -/
  resolved : ∀ name term, store.lookup? name = some term →
    ∀ inner ∈ term.occurrences, store.lookup? inner = none
  /-- Bound terms are flat. -/
  flat : ∀ name term, store.lookup? name = some term → term.Flat

/-- The later store resolves what the earlier one made of a term to what it makes
of the term itself. -/
def RefinedBy (earlier later : Store) : Prop :=
  ∀ term : Term, later.apply (earlier.apply term) = later.apply term

/-- A free variable stands for itself. -/
theorem apply_var_of_free (store : Store) (name : Name) (free : store.lookup? name = none) :
    store.apply (.var name) = .var name := by
  simp [apply, free]

/-- A bound variable stands for its term. -/
theorem apply_var_of_bound (store : Store) (name : Name) (term : Term)
    (bound : store.lookup? name = some term) : store.apply (.var name) = term := by
  simp [apply, bound]

/-- Each variable of a resolved term is a free one of the term, or it comes with the term of a
bound one. -/
theorem mem_occurrences_apply (store : Store) (term : Term) (name : Name)
    (inside : name ∈ (store.apply term).occurrences) :
    (name ∈ term.occurrences ∧ store.lookup? name = none) ∨
      ∃ source ∈ term.occurrences, ∃ value, store.lookup? source = some value ∧
        name ∈ value.occurrences := by
  obtain ⟨source, present, image⟩ := Term.mem_occurrences_subst store.lookup? term name inside
  change name ∈ (store.apply (.var source)).occurrences at image
  cases found : store.lookup? source with
  | none =>
    rw [apply_var_of_free store source found] at image
    obtain rfl := (Term.mem_occurrences_var source name).mp image
    exact Or.inl ⟨present, found⟩
  | some value =>
    rw [apply_var_of_bound store source value found] at image
    exact Or.inr ⟨source, present, value, found, image⟩

/-- The store without bindings is in normal form. -/
theorem Normal.empty : Normal empty where
  indexed := .empty
  resolved _ _ bound := nomatch bound
  flat _ _ bound := nomatch bound

namespace Normal

variable {store : Store}

/-- A resolved term has no bound variable. -/
theorem lookup?_eq_none (normal : store.Normal) (term : Term) (name : Name)
    (inside : name ∈ (store.apply term).occurrences) : store.lookup? name = none := by
  rcases mem_occurrences_apply store term name inside with
    ⟨-, free⟩ | ⟨source, -, value, found, image⟩
  · exact free
  · exact normal.resolved source value found name image

/-- A resolved term is flat. -/
theorem flat_apply (normal : store.Normal) (term : Term) : (store.apply term).Flat :=
  Term.flat_subst store.lookup? term normal.flat

/-- A flat term without bound variables is resolved. -/
theorem apply_eq_self (term : Term) (flat : term.Flat)
    (free : ∀ name ∈ term.occurrences, store.lookup? name = none) : store.apply term = term :=
  Term.subst_eq_self_of_flat store.lookup? term flat free

/-- One pass resolves a term for good. -/
theorem refinedBy_self (normal : store.Normal) : store.RefinedBy store := fun term =>
  apply_eq_self _ (normal.flat_apply term) (normal.lookup?_eq_none term)

/-- The parts of a resolved application are resolved. -/
theorem apply_child (normal : store.Normal) (parts : Application Term)
    (resolved : store.apply (.app parts) = .app parts) (child : Term)
    (member : child ∈ parts.children) : store.apply child = child := by
  have flat : (Term.app parts).Flat := resolved ▸ normal.flat_apply (.app parts)
  refine apply_eq_self child (flat.children child member) fun name inside => ?_
  have occurs : name ∈ (store.apply (.app parts)).occurrences :=
    resolved.symm ▸ Term.occurrences_of_child parts child member name inside
  exact normal.lookup?_eq_none _ name occurs

end Normal

namespace RefinedBy

variable {first second third : Store}

/-- Refinement composes. -/
theorem trans (near : first.RefinedBy second) (far : second.RefinedBy third) :
    first.RefinedBy third := fun term =>
  calc third.apply (first.apply term)
      = third.apply (second.apply (first.apply term)) := (far _).symm
    _ = third.apply (second.apply term) := by rw [near term]
    _ = third.apply term := far term

/-- Terms that one store made equal stay equal under a finer one. -/
theorem apply_eq (finer : first.RefinedBy second) {left right : Term}
    (equal : first.apply left = first.apply right) : second.apply left = second.apply right := by
  rw [← finer left, ← finer right, equal]

end RefinedBy

/-- What the assignment of one variable makes of variables. -/
theorem subst_single_var (name : Name) (term : Term) (other : Name) :
    (Term.var other).subst (.single name term) = if other = name then term else .var other := by
  simp only [Term.subst_var, Assignment.single]
  split <;> rfl

/-- Each variable after the replacement of one was there before and is another one, or it comes
with the term. -/
theorem mem_occurrences_subst_single (name : Name) (term target : Term) (other : Name)
    (inside : other ∈ (target.subst (.single name term)).occurrences) :
    (other ≠ name ∧ other ∈ target.occurrences) ∨
      (name ∈ target.occurrences ∧ other ∈ term.occurrences) := by
  obtain ⟨source, present, image⟩ := Term.mem_occurrences_subst _ target other inside
  rw [subst_single_var] at image
  split at image
  · next same => exact Or.inr ⟨same ▸ present, image⟩
  · next different =>
    obtain rfl := (Term.mem_occurrences_var source other).mp image
    exact Or.inl ⟨different, present⟩

/-- A term without the assigned variable keeps its value under a flat reading. -/
theorem subst_single_of_absent (name : Name) (term target : Term) (flat : target.Flat)
    (absent : name ∉ target.occurrences) : target.subst (.single name term) = target := by
  refine Term.subst_eq_self_of_flat _ target flat fun other inside => ?_
  have different : other ≠ name := by
    rintro rfl
    exact absent inside
  simp [Assignment.single, different]

/-- Binding succeeds exactly if the variable occurs neither in the term nor in what it
resolves to, and then gives the composed store. -/
theorem bind_eq_ok_iff (store bound : Store) (name : Name) (term : Term) :
    store.bind name term = .ok bound ↔
      name ∉ term.occurrences ∧ name ∉ (store.apply term).occurrences ∧
        (store.compose (.single name (store.apply term))).record name (store.apply term) =
          bound := by
  simp only [bind_eq, Term.occurs_iff]
  by_cases given : name ∈ term.occurrences
  · simp [given]
  · by_cases resolved : name ∈ (store.apply term).occurrences
    · simp [given, resolved]
    · simp [given, resolved]

/-- A refused binding names the variable and a term that it occurs in: the one given or
the one it resolves to. -/
theorem bind_eq_error (store : Store) (name : Name) (term : Term) (cycle : Cycle)
    (refused : store.bind name term = .error cycle) :
    cycle.name = name ∧ name ∈ cycle.term.occurrences ∧
      (cycle.term = term ∨ cycle.term = store.apply term) := by
  simp only [bind_eq, Term.occurs_iff] at refused
  by_cases given : name ∈ term.occurrences
  · rw [if_pos given] at refused
    cases refused
    exact ⟨rfl, given, Or.inl rfl⟩
  · rw [if_neg given] at refused
    by_cases resolved : name ∈ (store.apply term).occurrences
    · rw [if_pos resolved] at refused
      cases refused
      exact ⟨rfl, resolved, Or.inr rfl⟩
    · rw [if_neg resolved] at refused
      contradiction

section Bound

variable {store bound : Store} {name : Name} {term : Term}

/-- After a binding, the variable has the resolved term and the others have what the
binding makes of theirs. -/
theorem lookup?_bind (normal : store.Normal) (success : store.bind name term = .ok bound)
    (other : Name) :
    bound.lookup? other =
      if other = name then some (store.apply term)
      else (store.lookup? other).map (Term.subst (.single name (store.apply term))) := by
  obtain ⟨-, -, rfl⟩ := (bind_eq_ok_iff store bound name term).mp success
  rw [(normal.indexed.compose _).lookup?_record, lookup?_compose]

/-- A binding adds a free variable after the other keys and moves no bound one. -/
theorem keys_bind (normal : store.Normal) (success : store.bind name term = .ok bound) :
    bound.keys = if name ∈ store.keys then store.keys else store.keys ++ [name] := by
  obtain ⟨-, -, rfl⟩ := (bind_eq_ok_iff store bound name term).mp success
  rw [(normal.indexed.compose _).keys_record, keys_compose]

/-- A free variable becomes the last key. -/
theorem keys_bind_of_free (normal : store.Normal) (free : store.lookup? name = none)
    (success : store.bind name term = .ok bound) : bound.keys = store.keys ++ [name] := by
  rw [keys_bind normal success, if_neg ((normal.indexed.lookup?_eq_none_iff name).mp free)]

/-- A binding frees no variable, and binds one. -/
theorem lookup?_bind_eq_none_iff (normal : store.Normal)
    (success : store.bind name term = .ok bound) (other : Name) :
    bound.lookup? other = none ↔ other ≠ name ∧ store.lookup? other = none := by
  rw [lookup?_bind normal success]
  by_cases same : other = name <;> simp [same]

/-- Binding keeps the normal form, also where the variable was bound already. -/
theorem Normal.bind (normal : store.Normal) (success : store.bind name term = .ok bound) :
    bound.Normal := by
  obtain ⟨-, absent, made⟩ := (bind_eq_ok_iff store bound name term).mp success
  have freeInResolved (inner : Name) (inside : inner ∈ (store.apply term).occurrences) :
      bound.lookup? inner = none := by
    have different : inner ≠ name := by
      rintro rfl
      exact absent inside
    exact (lookup?_bind_eq_none_iff normal success inner).mpr
      ⟨different, normal.lookup?_eq_none term inner inside⟩
  have valuesFlat (other : Name) (value : Term)
      (assigned : Assignment.single name (store.apply term) other = some value) : value.Flat := by
    simp only [Assignment.single] at assigned
    split at assigned
    · exact Option.some.inj assigned ▸ normal.flat_apply term
    · contradiction
  refine ⟨made ▸ (normal.indexed.compose _).record name _, ?_, ?_⟩
  · intro other value found inner inside
    rw [lookup?_bind normal success] at found
    split at found
    · cases found
      exact freeInResolved inner inside
    · obtain ⟨old, oldFound, rfl⟩ := Option.map_eq_some_iff.mp found
      rcases mem_occurrences_subst_single _ _ old inner inside with ⟨different, inOld⟩ | ⟨-, image⟩
      · exact (lookup?_bind_eq_none_iff normal success inner).mpr
          ⟨different, normal.resolved other old oldFound inner inOld⟩
      · exact freeInResolved inner image
  · intro other value found
    rw [lookup?_bind normal success] at found
    split at found
    · cases found
      exact normal.flat_apply term
    · obtain ⟨old, oldFound, rfl⟩ := Option.map_eq_some_iff.mp found
      exact Term.flat_subst _ old valuesFlat

/-- Binding a free variable resolves as before and then replaces that variable. -/
theorem apply_bind (normal : store.Normal) (free : store.lookup? name = none)
    (success : store.bind name term = .ok bound) (target : Term) :
    bound.apply target = (store.apply target).subst (.single name (store.apply term)) := by
  refine (Term.subst_subst_eq_of_var _ _ _ target fun other _ => ?_).symm
  simp only [Term.subst_var, lookup?_bind normal success]
  by_cases same : other = name
  · subst same
    simp [free, Assignment.single]
  · cases store.lookup? other <;> simp [same, Assignment.single]

/-- The store after the binding of a free variable is finer. -/
theorem refinedBy_bind (normal : store.Normal) (free : store.lookup? name = none)
    (success : store.bind name term = .ok bound) : store.RefinedBy bound := by
  intro target
  rw [apply_bind normal free success, apply_bind normal free success, normal.refinedBy_self target]

/-- An assignment that makes a free variable equal to the resolved term does not see their
binding. -/
theorem subst_apply_bind (normal : store.Normal) (free : store.lookup? name = none)
    (success : store.bind name term = .ok bound) (assignment : Assignment)
    (equal : (Term.var name).subst assignment = (store.apply term).subst assignment)
    (target : Term) :
    (bound.apply target).subst assignment = (store.apply target).subst assignment := by
  rw [apply_bind normal free success]
  refine Term.subst_subst_eq_of_var _ _ assignment _ fun other _ => ?_
  rw [subst_single_var]
  split
  · next same => rw [same, equal]
  · rfl

/-- After the binding of a free variable, the variable and the term resolve alike. -/
theorem apply_var_bind (normal : store.Normal) (free : store.lookup? name = none)
    (success : store.bind name term = .ok bound) :
    bound.apply (.var name) = bound.apply term := by
  obtain ⟨-, absent, -⟩ := (bind_eq_ok_iff store bound name term).mp success
  rw [apply_bind normal free success, apply_bind normal free success,
    apply_var_of_free store name free, subst_single_var, if_pos rfl]
  exact (subst_single_of_absent name _ _ (normal.flat_apply term) absent).symm

/-- Each variable after the binding of a free variable was there before and is another
one, or it comes with the term that replaced the variable. -/
theorem mem_occurrences_apply_bind (normal : store.Normal) (free : store.lookup? name = none)
    (success : store.bind name term = .ok bound) (target : Term) (other : Name)
    (inside : other ∈ (bound.apply target).occurrences) :
    (other ≠ name ∧ other ∈ (store.apply target).occurrences) ∨
      (name ∈ (store.apply target).occurrences ∧ other ∈ (store.apply term).occurrences) := by
  rw [apply_bind normal free success] at inside
  exact mem_occurrences_subst_single name _ _ other inside

end Bound

section Same

variable {first second : Store}

/-- Of two stores with the same free variables, the second finds what the first finds if it
refines it: there is nothing left for it to replace. -/
theorem lookup?_eq_of_same_free (firstNormal : first.Normal)
    (sameFree : ∀ name, first.lookup? name = none ↔ second.lookup? name = none)
    (finer : first.RefinedBy second) (name : Name) : first.lookup? name = second.lookup? name := by
  have images : first.apply (.var name) = second.apply (.var name) :=
    calc first.apply (.var name)
        = second.apply (first.apply (.var name)) :=
          (Normal.apply_eq_self _ (firstNormal.flat_apply _) fun other inside =>
            (sameFree other).mp (firstNormal.lookup?_eq_none _ other inside)).symm
      _ = second.apply (.var name) := finer (.var name)
  cases inFirst : first.lookup? name with
  | none => exact ((sameFree name).mp inFirst).symm
  | some term =>
    cases inSecond : second.lookup? name with
    | none => exact nomatch ((sameFree name).mpr inSecond).symm.trans inFirst
    | some other =>
      rw [apply_var_of_bound first name term inFirst,
        apply_var_of_bound second name other inSecond] at images
      exact congrArg some images

/-- Stores that list the same keys in the same order and find the same terms are the same, index
included. -/
theorem eq_of_keys_of_lookup? (firstIndexed : first.Indexed) (secondIndexed : second.Indexed)
    (keys : first.keys = second.keys) (found : ∀ name, first.lookup? name = second.lookup? name) :
    first = second := by
  have entries : first.entries = second.entries := by
    apply List.ext_getElem?
    intro position
    have key : (first.entries[position]?).map Prod.fst =
        (second.entries[position]?).map Prod.fst := by
      rw [← List.getElem?_map, ← List.getElem?_map]
      exact congrArg (·[position]?) keys
    cases inFirst : first.entries[position]? with
    | none =>
      rw [inFirst] at key
      exact (Option.map_eq_none_iff.mp key.symm).symm
    | some entry =>
      rw [inFirst] at key
      obtain ⟨⟨name, term⟩, inSecond, sameName⟩ := Option.map_eq_some_iff.mp key.symm
      obtain rfl : name = entry.1 := sameName
      have ofFirst := (firstIndexed.lookup?_eq_some_iff entry.1 entry.2).mpr
        (List.mem_of_getElem? inFirst)
      have ofSecond := (secondIndexed.lookup?_eq_some_iff entry.1 term).mpr
        (List.mem_of_getElem? inSecond)
      obtain rfl : entry.2 = term :=
        Option.some.inj (ofFirst.symm.trans ((found entry.1).trans ofSecond))
      exact inSecond.symm
  have positions : first.positions = second.positions := by
    apply SortedMap.ext
    intro name
    apply Option.ext
    intro position
    have ofFirst := firstIndexed name position
    have ofSecond := secondIndexed name position
    rw [keys] at ofFirst
    exact ofFirst.trans ofSecond.symm
  cases first
  cases second
  rw [Store.mk.injEq]
  exact ⟨entries, positions⟩

end Same

/-- The later store comes from the earlier one by binding free variables to resolved terms,
one after another. Of two variables the greater one is bound. -/
inductive DevelopsInto : Store → Store → Prop
  /-- Nothing is bound. -/
  | refl (store : Store) : DevelopsInto store store
  /-- A variable is bound first. -/
  | bind (store bound later : Store) (name : Name) (term : Term)
      (free : store.lookup? name = none) (resolved : store.apply term = term)
      (descends : ∀ other, term = .var other → other < name)
      (success : store.bind name term = .ok bound) (rest : DevelopsInto bound later) :
      DevelopsInto store later

namespace DevelopsInto

variable {first second third : Store}

/-- One development continues another. -/
theorem trans (near : first.DevelopsInto second) (far : second.DevelopsInto third) :
    first.DevelopsInto third := by
  induction near with
  | refl store => exact far
  | bind store bound later name term free resolved descends success _ inductionHypothesis =>
    exact .bind store bound third name term free resolved descends success
      (inductionHypothesis far)

/-- Development keeps the normal form. -/
theorem normal (develops : first.DevelopsInto second) (normal : first.Normal) :
    second.Normal := by
  induction develops with
  | refl store => exact normal
  | bind store bound later name term free resolved descends success _ inductionHypothesis =>
    exact inductionHypothesis (normal.bind success)

/-- Development only refines the store. -/
theorem refinedBy (develops : first.DevelopsInto second) (normal : first.Normal) :
    first.RefinedBy second := by
  induction develops with
  | refl store => exact normal.refinedBy_self
  | bind store bound later name term free resolved descends success _ inductionHypothesis =>
    exact (refinedBy_bind normal free success).trans (inductionHypothesis (normal.bind success))

/-- Development adds keys after those that were there. -/
theorem keys_isPrefix (develops : first.DevelopsInto second) (normal : first.Normal) :
    first.keys <+: second.keys := by
  induction develops with
  | refl store => exact List.prefix_rfl
  | bind store bound later name term free resolved descends success _ inductionHypothesis =>
    have added := keys_bind_of_free normal free success
    have later : bound.keys <+: later.keys := inductionHypothesis (normal.bind success)
    exact (added ▸ List.prefix_append store.keys [name]).trans later

end DevelopsInto

/-- Adding bindings goes on from the store that the first one makes. -/
theorem bindAll_cons_eq_ok_iff (store final : Store) (name : Name) (term : Term)
    (rest : List (Name × Term)) :
    store.bindAll ((name, term) :: rest) = .ok final ↔
      ∃ bound, store.bind name term = .ok bound ∧ bound.bindAll rest = .ok final := by
  rw [bindAll]
  cases store.bind name term with
  | ok bound => simp
  | error cycle => simp

/-- Bindings made one after another keep the normal form. -/
theorem Normal.bindAll (entries : List (Name × Term)) (store bound : Store) (normal : store.Normal)
    (success : store.bindAll entries = .ok bound) : bound.Normal := by
  induction entries generalizing store with
  | nil =>
    cases success
    exact normal
  | cons entry rest inductionHypothesis =>
    obtain ⟨next, made, later⟩ := (bindAll_cons_eq_ok_iff store bound _ _ rest).mp success
    exact inductionHypothesis next (normal.bind made) later

/-- The store of given bindings is in normal form. -/
theorem Normal.ofEntries (entries : List (Name × Term)) (store : Store)
    (success : ofEntries entries = .ok store) : store.Normal :=
  Normal.bindAll entries Store.empty store Normal.empty success

end RowUnification.Store
