import RowUnification.Proofs.StoreHistory

/-!
# What a request to bind comes to

A request to bind a variable is refused exactly if the variable occurs in the term, as
given or as the store resolves it. The refusal names the one of the two in which it
was found first, and leaves the store as it was.

A new variable becomes the last key, and from then on a term resolves as before, with the
variable replaced at the end. A bound variable gets its new term in the place of the old
one. Carrying the new term into the other bindings changes none of them: they are flat and
no bound variable occurs in them. So the store before and the store after differ in
this one entry.
-/

namespace RowUnification.Store

section Outcomes

variable {store bound : Store} {name : Name} {term : Term}

/-- A term that contains the variable as given is refused as given. -/
theorem bind_of_given (given : name ∈ term.occurrences) :
    store.bind name term = .error ⟨name, term⟩ := by
  simp only [bind_eq, if_pos ((Term.occurs_iff name term).mpr given)]

/-- A term that contains the variable once it is resolved is refused as resolved. -/
theorem bind_of_resolved (notGiven : name ∉ term.occurrences)
    (resolved : name ∈ (store.apply term).occurrences) :
    store.bind name term = .error ⟨name, store.apply term⟩ := by
  have passes : ¬ term.occurs name = true := fun found =>
    notGiven ((Term.occurs_iff name term).mp found)
  simp only [bind_eq, if_neg passes,
    if_pos ((Term.occurs_iff name (store.apply term)).mpr resolved)]

/-- Binding is refused exactly if the variable occurs in the term or in what it resolves to. -/
theorem exists_bind_eq_error_iff :
    (∃ cycle, store.bind name term = .error cycle) ↔
      name ∈ term.occurrences ∨ name ∈ (store.apply term).occurrences := by
  constructor
  · rintro ⟨cycle, refused⟩
    obtain ⟨-, inside, sameTerm | sameTerm⟩ := bind_eq_error store name term cycle refused
    · exact Or.inl (sameTerm ▸ inside)
    · exact Or.inr (sameTerm ▸ inside)
  · intro inside
    by_cases given : name ∈ term.occurrences
    · exact ⟨_, bind_of_given given⟩
    · exact ⟨_, bind_of_resolved given (inside.resolve_left given)⟩

/-- A binding that is not refused is what the attempt makes. -/
theorem bind_of_absent (notGiven : name ∉ term.occurrences)
    (absent : name ∉ (store.apply term).occurrences) :
    store.bind name term = .ok (store.attempt name term) := by
  cases outcome : store.bind name term with
  | ok bound => rw [attempt_of_bound outcome]
  | error cycle =>
    exact absurd (exists_bind_eq_error_iff.mp ⟨cycle, outcome⟩) (not_or.mpr ⟨notGiven, absent⟩)

/-- The bindings of a store in normal form do not see a new term for a bound variable. -/
theorem compose_single_of_bound (normal : store.Normal) (known : name ∈ store.keys) (value : Term) :
    store.compose (.single name value) = store := by
  have kept (entry : Name × Term) (member : entry ∈ store.entries) :
      (entry.1, entry.2.subst (.single name value)) = entry := by
    have found : store.lookup? entry.1 = some entry.2 :=
      (normal.indexed.lookup?_eq_some_iff entry.1 entry.2).mpr member
    have absent : name ∉ entry.2.occurrences := fun inside =>
      (normal.indexed.lookup?_eq_none_iff name).mp
        (normal.resolved entry.1 entry.2 found name inside) known
    rw [subst_single_of_absent name value entry.2 (normal.flat entry.1 entry.2 found) absent]
  have entries : (store.compose (.single name value)).entries = store.entries :=
    (List.map_congr_left kept).trans store.entries.map_id'
  exact congrArg (fun entries => { store with entries }) entries

/-- Binding a bound variable anew replaces its entry and changes nothing else. -/
theorem bind_of_bound (normal : store.Normal) {position : Nat}
    (known : store.position? name = some position) (success : store.bind name term = .ok bound) :
    bound = { store with entries := store.entries.set position (name, store.apply term) } := by
  have key : name ∈ store.keys := List.mem_of_getElem? ((normal.indexed name position).mp known)
  obtain ⟨old, found⟩ := normal.indexed.entry_of_position known
  have entry : Inhabited (Name × Term) := ⟨(name, old)⟩
  obtain ⟨-, -, rfl⟩ := (bind_eq_ok_iff store bound name term).mp success
  rw [compose_single_of_bound normal key, record_of_bound store name _ position known,
    List.modify_eq_set, found]
  rfl

end Outcomes

/-- A request to bind a variable in a store, however the store was obtained, is refused exactly if
the variable occurs in the term or in what the term resolves to. A refusal carries the variable
with the term as given in the first case and as resolved in the second; it leaves the store as it
was, and an engine that was asked records it without an equation. A success binds the variable to
the resolved term. If the variable was not bound, it becomes the last key, and every term resolves
as before with the variable replaced afterwards. If it was bound, its entry is replaced where it
stands, and every other entry and every position stays. -/
theorem bind_refuses_or_replaces (store : Store) (obtained : store.Obtained) (name : Name)
    (term : Term) :
    ((∃ cycle, store.bind name term = .error cycle) ↔
      name ∈ term.occurrences ∨ name ∈ (store.apply term).occurrences) ∧
    (∀ cycle, store.bind name term = .error cycle →
      (name ∈ term.occurrences → cycle = ⟨name, term⟩) ∧
      (name ∉ term.occurrences → cycle = ⟨name, store.apply term⟩) ∧
      store.attempt name term = store ∧
      ∀ engine : Engine, engine.isActive = true → engine.store = store →
        (engine.assign name term).engine =
          { engine with failure := some (.cyclic cycle none) }) ∧
    ∀ bound, store.bind name term = .ok bound →
      bound.lookup? name = some (store.apply term) ∧
      (name ∉ store.keys → bound.keys = store.keys ++ [name] ∧
        ∀ target : Term, bound.apply target =
          (store.apply target).subst (.single name (store.apply term))) ∧
      (name ∈ store.keys → ∃ position, store.position? name = some position ∧
        bound = { store with entries := store.entries.set position (name, store.apply term) }) := by
  have normal := obtained.normal
  refine ⟨exists_bind_eq_error_iff, ?_, ?_⟩
  · intro cycle refused
    refine ⟨?_, ?_, attempt_of_refused refused, ?_⟩
    · intro given
      exact Except.error.inj (refused.symm.trans (bind_of_given given))
    · intro notGiven
      have resolved := (exists_bind_eq_error_iff.mp ⟨cycle, refused⟩).resolve_left notGiven
      exact Except.error.inj (refused.symm.trans (bind_of_resolved notGiven resolved))
    · rintro engine active rfl
      simp only [Engine.assign_eq, if_pos active, refused]
  · intro bound success
    refine ⟨?_, ?_, ?_⟩
    · rw [lookup?_bind normal success, if_pos rfl]
    · intro new
      have free := (normal.indexed.lookup?_eq_none_iff name).mpr new
      exact ⟨keys_bind_of_free normal free success, apply_bind normal free success⟩
    · intro known
      obtain ⟨position, key⟩ := List.mem_iff_getElem?.mp known
      have indexed := (normal.indexed name position).mpr key
      exact ⟨position, indexed, bind_of_bound normal indexed success⟩

/-- `Tag` of a variable. -/
def tagOf (name : Name) : Term := .app (.ofSubterms (.symbol "Tag") [.var name])

/-- The retried store with `x`, its second key, bound anew to `Tag(r)`. -/
def reboundStore : Store := retriedStore.attempt (.symbol "x") (tagOf (.symbol "r"))

/-- In the retried store `x` stands for a box that ends in `s`, so the binding of `s` to `Tag(x)` is
refused. Binding `x` anew replaces the second entry, and then `s` is bound to `Tag(x)` after the
other keys. -/
theorem bind_refuses_or_replaces_retried :
    retriedStore.attempt (.symbol "s") (tagOf (.symbol "x")) = retriedStore ∧
    retriedStore.bind (.symbol "x") (tagOf (.symbol "r")) = .ok reboundStore ∧
    reboundStore = { retriedStore with
      entries := retriedStore.entries.set 1 (.symbol "x", tagOf (.symbol "w")) } ∧
    (reboundStore.attempt (.symbol "s") (tagOf (.symbol "x"))).keys =
      [.symbol "r", .symbol "x", .symbol "s"] := by
  have retried : retriedStore.Obtained :=
    .attempt _ _ _ (.attempt _ _ _ (.attempt _ _ _ (.attempt _ _ _ .empty)))
  have rebound : reboundStore.Obtained := .attempt _ _ _ retried
  have success : retriedStore.bind (.symbol "x") (tagOf (.symbol "r")) = .ok reboundStore :=
    bind_of_absent (by decide +kernel) (by decide +kernel)
  refine ⟨?_, success, ?_, ?_⟩
  · obtain ⟨fails, refusal, -⟩ := bind_refuses_or_replaces retriedStore retried (.symbol "s")
      (tagOf (.symbol "x"))
    obtain ⟨cycle, refused⟩ := fails.mpr (Or.inr (by decide +kernel))
    exact (refusal cycle refused).2.2.1
  · obtain ⟨-, -, outcome⟩ := bind_refuses_or_replaces retriedStore retried (.symbol "x")
      (tagOf (.symbol "r"))
    obtain ⟨position, known, replaced⟩ := (outcome reboundStore success).2.2 (by decide +kernel)
    obtain rfl : position = 1 := Option.some.inj (known.symm.trans (by decide +kernel))
    have resolved : retriedStore.apply (tagOf (.symbol "r")) = tagOf (.symbol "w") := by
      decide +kernel
    rw [resolved] at replaced
    exact replaced
  · obtain ⟨-, -, outcome⟩ := bind_refuses_or_replaces reboundStore rebound (.symbol "s")
      (tagOf (.symbol "x"))
    have extended : reboundStore.bind (.symbol "s") (tagOf (.symbol "x")) =
        .ok (reboundStore.attempt (.symbol "s") (tagOf (.symbol "x"))) :=
      bind_of_absent (by decide +kernel) (by decide +kernel)
    obtain ⟨keys, -⟩ := (outcome _ extended).2.1 (by decide +kernel)
    rw [keys]
    decide +kernel

end RowUnification.Store
