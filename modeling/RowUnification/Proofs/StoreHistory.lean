import RowUnification.Proofs.Calls

/-!
# What bindings and calls do to a store

A store is obtained by attempting bindings, one after another, or from an engine that
calls have led to. A refused binding and a failed call count as well: the one changes
nothing, the other leaves the bindings made before the failure. However a store was
obtained, its index agrees with its list, and it resolves a term in one pass.

A call that binds no variable anew only refines the store: keys are added after the
old ones, and what the old store made of a term the new one resolves as it resolves
the term itself. After a failure no sequence of calls changes anything. An engine is a
value, so this also holds of each copy of it, whatever is done with the others.
-/

namespace RowUnification

namespace Store

/-- The store that a request to bind leaves, granted or refused. -/
def attempt (store : Store) (name : Name) (term : Term) : Store := (store.request name term).2

/-- A granted request leaves the store with the binding. -/
theorem attempt_of_bound {store bound : Store} {name : Name} {term : Term}
    (success : store.bind name term = .ok bound) : store.attempt name term = bound := by
  rw [attempt, request_eq, success]

/-- A refused request leaves the store as it was. -/
theorem attempt_of_refused {store : Store} {name : Name} {term : Term} {cycle : Cycle}
    (refused : store.bind name term = .error cycle) : store.attempt name term = store := by
  rw [attempt, request_eq, refused]

/-- The stores that attempts to bind and calls to engines lead to. -/
inductive Obtained : Store → Prop
  /-- A store begins without bindings. -/
  | empty : Obtained empty
  /-- A binding is attempted, with or without success. -/
  | attempt (store : Store) (name : Name) (term : Term) (obtained : Obtained store) :
      Obtained (store.attempt name term)
  /-- The store belongs to an engine, active or failed. -/
  | engine (engine : Engine) (reachable : engine.Reachable) : Obtained engine.store

/-- However a store was obtained, it is in normal form. -/
theorem Obtained.normal {store : Store} (obtained : store.Obtained) : store.Normal := by
  induction obtained with
  | empty => exact .empty
  | attempt store name term _ inductionHypothesis =>
    cases outcome : store.bind name term with
    | ok bound => exact attempt_of_bound outcome ▸ inductionHypothesis.bind outcome
    | error cycle => exact (attempt_of_refused outcome).symm ▸ inductionHypothesis
  | engine engine reachable => exact reachable.normal

/-- However a store was obtained, no variable is bound twice, and the index has the position
of every binding and no other position. No bound variable occurs in a bound term, and no row
in one is an application. So one pass resolves a term: it leaves no bound variable and no
application as a row, and a second pass changes nothing. -/
theorem obtained_resolves_in_one_pass (store : Store) (obtained : store.Obtained) :
    store.keys.Nodup ∧
    (∀ name position, store.positions.get? name = some position ↔
      ∃ term, store.entries[position]? = some (name, term)) ∧
    (∀ entry ∈ store.entries, ∀ name ∈ entry.2.occurrences, name ∉ store.keys) ∧
    (∀ entry ∈ store.entries, entry.2.Flat) ∧
    ∀ term : Term, (∀ name ∈ (store.apply term).occurrences, name ∉ store.keys) ∧
      (store.apply term).Flat ∧ store.apply (store.apply term) = store.apply term := by
  have normal := obtained.normal
  have bound (entry : Name × Term) (member : entry ∈ store.entries) :
      store.lookup? entry.1 = some entry.2 :=
    (normal.indexed.lookup?_eq_some_iff entry.1 entry.2).mpr member
  have unbound (name : Name) (free : store.lookup? name = none) : name ∉ store.keys :=
    (normal.indexed.lookup?_eq_none_iff name).mp free
  refine ⟨normal.indexed.nodup_keys, ?_, ?_, ?_, ?_⟩
  · intro name position
    constructor
    · intro known
      exact normal.indexed.entry_of_position known
    · rintro ⟨term, found⟩
      have key : store.keys[position]? = some name := by
        rw [keys, List.getElem?_map, found]
        rfl
      exact (normal.indexed name position).mpr key
  · intro entry member name inside
    exact unbound name (normal.resolved entry.1 entry.2 (bound entry member) name inside)
  · intro entry member
    exact normal.flat entry.1 entry.2 (bound entry member)
  · intro term
    refine ⟨?_, normal.flat_apply term, normal.refinedBy_self term⟩
    intro name inside
    exact unbound name (normal.lookup?_eq_none term name inside)

/-- `r` and `x` are bound to open boxes, the second with the first as its row; the attempt to
bind the row that is left, `s`, to a term with `x` is refused; then `r` is bound anew. -/
def retriedStore : Store :=
  (((empty.attempt (.symbol "r") (.app ⟨.symbol "Box", [],
      .ofList [(.symbol "depth", .var (.symbol "d"))], some (.var (.symbol "s"))⟩)).attempt
    (.symbol "x") (.app ⟨.symbol "Box", [],
      .ofList [(.symbol "width", .var (.symbol "w"))], some (.var (.symbol "r"))⟩)).attempt
    (.symbol "s") (.app (.ofSubterms (.symbol "Tag") [.var (.symbol "x")]))).attempt
    (.symbol "r") (.var (.symbol "w"))

/-- The box with a box as its row has been flattened, and its store resolves it in one
pass. -/
theorem retriedStore_resolves_in_one_pass :
    retriedStore.Obtained ∧ retriedStore.keys = [.symbol "r", .symbol "x"] ∧
      retriedStore.apply (.var (.symbol "x")) = .app ⟨.symbol "Box", [],
        .ofList [(.symbol "depth", .var (.symbol "d")), (.symbol "width", .var (.symbol "w"))],
        some (.var (.symbol "s"))⟩ ∧
      retriedStore.keys.Nodup ∧ ∀ term : Term, (retriedStore.apply term).Flat := by
  have obtained : retriedStore.Obtained :=
    .attempt _ _ _ (.attempt _ _ _ (.attempt _ _ _ (.attempt _ _ _ .empty)))
  obtain ⟨distinct, -, -, -, resolves⟩ := obtained_resolves_in_one_pass retriedStore obtained
  refine ⟨obtained, by decide +kernel, by decide +kernel, distinct, ?_⟩
  intro term
  exact (resolves term).2.1

end Store

namespace Engine

/-- What may be asked of an engine. -/
inductive Call where
  /-- To solve one equation. -/
  | unify (equation : Equation)
  /-- To solve equations in order. -/
  | solve (equations : List Equation)
  /-- To bind a variable. -/
  | assign (name : Name) (term : Term)

/-- The call does not ask to bind a variable that the store has bound already. -/
def Call.BindsNew (store : Store) : Call → Prop
  | unify _ => True
  | solve _ => True
  | assign name _ => name ∉ store.keys

/-- Makes one call. -/
def perform (budget : Nat) (engine : Engine) : Call → Option Report
  | .unify equation => engine.unify budget equation
  | .solve equations => engine.solve budget equations
  | .assign name term => some (engine.assign name term)

/-- Makes calls one after another, each with the whole budget. -/
def performAll (budget : Nat) : Engine → List Call → Option Engine
  | engine, [] => some engine
  | engine, call :: rest => do
    let report ← engine.perform budget call
    report.engine.performAll budget rest

/-- Binding a new variable directly, with or without success, adds at most this key and only
refines the store. -/
theorem assign_refines (engine : Engine) (name : Name) (term : Term)
    (normal : engine.store.Normal) (new : name ∉ engine.store.keys) :
    engine.store.keys <+: (engine.assign name term).engine.store.keys ∧
      engine.store.RefinedBy (engine.assign name term).engine.store := by
  have unchanged : engine.store.keys <+: engine.store.keys ∧
      engine.store.RefinedBy engine.store := ⟨List.prefix_rfl, normal.refinedBy_self⟩
  rw [assign_eq]
  split
  · split
    · next bound success =>
      have free := (normal.indexed.lookup?_eq_none_iff name).mpr new
      have added := Store.keys_bind_of_free normal free success
      exact ⟨added ▸ List.prefix_append _ _, Store.refinedBy_bind normal free success⟩
    · exact unchanged
  · exact unchanged

/-- A call that binds no variable anew adds keys after the old ones and refines the store. -/
theorem perform_refines {engine : Engine} {budget : Nat} {call : Call} {report : Report}
    (normal : engine.store.Normal) (new : call.BindsNew engine.store)
    (answered : engine.perform budget call = some report) :
    engine.store.keys <+: report.engine.store.keys ∧
      engine.store.RefinedBy report.engine.store := by
  cases call with
  | unify equation =>
    have develops := unify_developsInto normal answered
    exact ⟨develops.keys_isPrefix normal, develops.refinedBy normal⟩
  | solve equations =>
    have develops := solve_developsInto normal answered
    exact ⟨develops.keys_isPrefix normal, develops.refinedBy normal⟩
  | assign name term =>
    obtain rfl := Option.some.inj answered
    exact assign_refines engine name term normal new

/-- A failed engine answers every call, and with itself. -/
theorem perform_of_failed (engine : Engine) (failed : engine.failure ≠ none) (budget : Nat)
    (call : Call) : engine.perform budget call = some ⟨engine, []⟩ := by
  cases call with
  | unify equation => exact unify_of_failed engine budget equation failed
  | solve equations => exact solve_of_failed engine budget equations failed
  | assign name term =>
    have inactive : ¬ engine.isActive = true := fun active =>
      failed (engine.isActive_iff.mp active)
    simp only [perform, assign_eq, if_neg inactive]

/-- No sequence of calls changes a failed engine. -/
theorem performAll_of_failed (engine : Engine) (failed : engine.failure ≠ none) (budget : Nat)
    (calls : List Call) : engine.performAll budget calls = some engine := by
  induction calls with
  | nil => rfl
  | cons call rest inductionHypothesis =>
    rw [performAll, perform_of_failed engine failed budget call]
    exact inductionHypothesis

/-- Every call to a reachable engine that answers and binds no variable anew, whether it
succeeds or fails, leaves the old keys in front and refines the store: terms that the old
store made equal stay equal. Once an engine has failed, every sequence of calls answers and
leaves it as it is. The row extension does not matter. -/
theorem calls_refine_until_failure (engine : Engine) (reachable : Reachable engine) :
    (∀ budget call report, call.BindsNew engine.store →
      engine.perform budget call = some report →
        engine.store.keys <+: report.engine.store.keys ∧
        (∀ term : Term, report.engine.store.apply (engine.store.apply term) =
          report.engine.store.apply term) ∧
        ∀ left right : Term, engine.store.apply left = engine.store.apply right →
          report.engine.store.apply left = report.engine.store.apply right) ∧
    (engine.isActive = false → ∀ budget calls, engine.performAll budget calls = some engine) := by
  constructor
  · intro budget call report new answered
    obtain ⟨keys, refined⟩ := perform_refines reachable.normal new answered
    refine ⟨keys, refined, ?_⟩
    intro left right equal
    exact refined.apply_eq equal
  · intro inactive
    have failed : engine.failure ≠ none := by
      intro active
      exact nomatch inactive.symm.trans (engine.isActive_iff.mpr active)
    exact performAll_of_failed engine failed

/-- The engine for boxes once `w` is bound to `Unit`. -/
def unitEngine : Engine :=
  (boxEngine.assign (.symbol "w") (.app (.ofSubterms (.symbol "Unit") []))).engine

/-- `Pair(x, A) == Pair(Tag(w), B)`: the first subterms bind `x`, the second ones fail. -/
def halfSolvable : Equation where
  lhs := .app (.ofSubterms (.symbol "Pair")
    [.var (.symbol "x"), .app (.ofSubterms (.symbol "A") [])])
  rhs := .app (.ofSubterms (.symbol "Pair")
    [.app (.ofSubterms (.symbol "Tag") [.var (.symbol "w")]), .app (.ofSubterms (.symbol "B") [])])

/-- A call that fails halfway keeps the key of before and the binding made, and the calls
after it change nothing. -/
theorem calls_refine_until_failure_halfway : Reachable unitEngine ∧ ∃ report,
    unitEngine.perform 9 (.unify halfSolvable) = some report ∧
      report.engine.isActive = false ∧
      report.engine.store.keys = [.symbol "w", .symbol "x"] ∧
      unitEngine.store.keys <+: report.engine.store.keys ∧
      (∀ term : Term, report.engine.store.apply (unitEngine.store.apply term) =
        report.engine.store.apply term) ∧
      report.engine.performAll 9 [.unify ⟨wideBox, deepBox⟩, .assign (.symbol "y") deepBox] =
        some report.engine := by
  have reachable : Reachable unitEngine := .assign boxEngine _ _ boxEngine_reachable
  obtain ⟨report, answered⟩ := Option.isSome_iff_exists.mp (by decide +kernel :
    (unitEngine.perform 9 (.unify halfSolvable)).isSome = true)
  have outcome : (unitEngine.perform 9 (.unify halfSolvable)).all (fun report =>
      report.engine.isActive = false ∧
        report.engine.store.keys = [.symbol "w", .symbol "x"]) = true := by decide +kernel
  rw [answered] at outcome
  obtain ⟨inactive, keys⟩ := of_decide_eq_true outcome
  have later : Reachable report.engine := .unify unitEngine 9 halfSolvable report reachable answered
  obtain ⟨isPrefix, refined, -⟩ :=
    (calls_refine_until_failure unitEngine reachable).1 9 (.unify halfSolvable) report trivial
      answered
  have unchanged := (calls_refine_until_failure report.engine later).2 inactive
  exact ⟨reachable, report, answered, inactive, keys, isPrefix, refined, unchanged 9 _⟩

end Engine

end RowUnification
