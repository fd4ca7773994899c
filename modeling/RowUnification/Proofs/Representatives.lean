import RowUnification.Proofs.Calls

/-!
# The variable that stands for others

A store resolves several variables alike once they have been made equal. If what they
resolve to is a variable, it is one of them and stands for all.

Which one it is does not depend on the run. Of two variables the greater one is always
bound, so one binding takes a variable that resolves to a variable down to a lesser one, if
it moves it at all: later bindings carry earlier ones along, whether the variables come from
the caller, stand as rows or have been made for new rows. Started without bindings, an
engine therefore resolves variables to the least of those that it resolves alike. Symbols
precede numbered names, so no symbol ever stands for a mere new row.

An engine that a caller has seeded, or told to bind a variable directly, may hold any
orientation; `Store.DescendsTo` says what is left of the statement there.
-/

namespace RowUnification

namespace Store

/-- A variable that the earlier store leaves free and the later one resolves to a variable is
resolved to itself or to a lesser one. -/
def DescendsTo (earlier later : Store) : Prop :=
  ∀ name other, earlier.lookup? name = none → later.apply (.var name) = .var other →
    other = name ∨ other < name

/-- A store resolves its free variables to themselves. -/
theorem descendsTo_self (store : Store) : store.DescendsTo store := by
  intro name other free image
  rw [apply_var_of_free store name free] at image
  exact Or.inl (Term.var.inj image).symm

/-- A binding lets variables descend further: binding a variable to a lesser one replaces
it by that one, and an application in its place is no variable any more. -/
theorem DescendsTo.bind {base store bound : Store} {name : Name} {term : Term}
    (before : base.DescendsTo store) (normal : store.Normal)
    (free : store.lookup? name = none) (resolved : store.apply term = term)
    (descends : ∀ other, term = .var other → other < name)
    (success : store.bind name term = .ok bound) : base.DescendsTo bound := by
  intro source other sourceFree image
  rw [apply_bind normal free success, resolved] at image
  cases shape : store.apply (.var source) with
  | app parts =>
    rw [shape, Term.subst_app] at image
    contradiction
  | var middle =>
    have near := before source middle sourceFree shape
    rw [shape, subst_single_var] at image
    split at image
    · next same =>
      have less : other < middle := same ▸ descends other image
      rcases near with rfl | lower
      · exact Or.inr less
      · exact Or.inr (Name.lt_trans less lower)
    · exact Term.var.inj image ▸ near

/-- Development lets variables descend further, since each of its bindings does. -/
theorem DevelopsInto.descendsTo {base earlier later : Store}
    (develops : earlier.DevelopsInto later) (normal : earlier.Normal)
    (before : base.DescendsTo earlier) : base.DescendsTo later := by
  induction develops with
  | refl store => exact before
  | bind store bound later name term free resolved descends success _ inductionHypothesis =>
    have afterwards := before.bind normal free resolved descends success
    exact inductionHypothesis (normal.bind success) afterwards

/-- The store resolves the two variables alike. -/
def Identifies (store : Store) (first second : Name) : Prop :=
  store.apply (.var first) = store.apply (.var second)

/-- A variable that another one resolves to is resolved like it, namely to itself. -/
theorem Normal.identifies_of_apply {store : Store} (normal : store.Normal)
    {name representative : Name} (resolved : store.apply (.var name) = .var representative) :
    store.Identifies representative name := by
  have again : store.apply (store.apply (.var name)) = store.apply (.var name) :=
    normal.refinedBy_self (.var name)
  rw [resolved] at again
  exact again.trans resolved.symm

end Store

namespace Engine

/-- The engines that solving equations leads to, with success or not, from an engine without
bindings. The row extension may be any. -/
inductive Unseeded : Engine → Prop
  /-- Nothing has been asked. -/
  | start (extension : Option RowExtension) (trace : Bool) :
      Unseeded (.start .empty extension trace)
  /-- An equation has been solved, or has failed. -/
  | unify (engine : Engine) (budget : Nat) (equation : Equation) (report : Report)
      (unseeded : Unseeded engine) (answered : engine.unify budget equation = some report) :
      Unseeded report.engine
  /-- Equations have been solved in order, as far as they could be. -/
  | solve (engine : Engine) (budget : Nat) (equations : List Equation) (report : Report)
      (unseeded : Unseeded engine) (answered : engine.solve budget equations = some report) :
      Unseeded report.engine

/-- Such an engine has made all of its bindings itself. -/
theorem Unseeded.develops {engine : Engine} (unseeded : engine.Unseeded) :
    Store.empty.DevelopsInto engine.store := by
  induction unseeded with
  | start extension trace => exact .refl Store.empty
  | unify engine budget equation report _ answered inductionHypothesis =>
    have normal := inductionHypothesis.normal Store.Normal.empty
    exact inductionHypothesis.trans (unify_developsInto normal answered)
  | solve engine budget equations report _ answered inductionHypothesis =>
    have normal := inductionHypothesis.normal Store.Normal.empty
    exact inductionHypothesis.trans (solve_developsInto normal answered)

/-- Let an engine that was started without bindings and has only solved equations, with any row
extension and whether it has failed or not, resolve a variable to a variable. That one is the
variable itself or a lesser one; it is resolved like it, and it is the least of all variables that
are. So a symbol is resolved to a symbol, and never to a mere new row. -/
theorem represented_by_least (engine : Engine) (unseeded : engine.Unseeded)
    (name representative : Name)
    (resolved : engine.store.apply (.var name) = .var representative) :
    (representative = name ∨ representative < name) ∧
    engine.store.Identifies representative name ∧
    (∀ other, engine.store.Identifies other name →
      representative = other ∨ representative < other) ∧
    ∀ text, name = .symbol text → ∃ own, representative = .symbol own := by
  have normal : engine.store.Normal := unseeded.develops.normal Store.Normal.empty
  have descends : Store.empty.DescendsTo engine.store :=
    unseeded.develops.descendsTo Store.Normal.empty Store.empty.descendsTo_self
  have down : representative = name ∨ representative < name :=
    descends name representative rfl resolved
  refine ⟨down, normal.identifies_of_apply resolved, ?_, ?_⟩
  · intro other identified
    exact descends other representative rfl (identified.trans resolved)
  · rintro text rfl
    rcases down with same | less
    · exact ⟨text, same⟩
    · cases representative with
      | symbol own => exact ⟨own, rfl⟩
      | fresh index => exact less.elim

/-- The boxes are solved, then the row of the first one is to be a box with the row `t`, and then
an equation follows that has no solution. -/
def boxesThenRow : List Equation :=
  [⟨wideBox, deepBox⟩,
    ⟨.var (.symbol "r"), .app ⟨.symbol "Box", [],
      .ofList [(.symbol "depth", .var (.symbol "e"))], some (.var (.symbol "t"))⟩⟩,
    ⟨.app (.ofSubterms (.symbol "A") []), .app (.ofSubterms (.symbol "B") [])⟩]

/-- Two tails are made for the boxes, and the later one is bound to the earlier one. Both give way
to the symbol that the caller names afterwards, as does `e` to `d`. The failure changes nothing
about that. -/
theorem represented_by_least_boxes : ∃ report,
    boxEngine.solve 20 boxesThenRow = some report ∧ report.engine.isActive = false ∧
    report.engine.store.apply (.var (.fresh 1)) = .var (.symbol "t") ∧
    report.engine.store.apply (.var (.symbol "e")) = .var (.symbol "d") ∧
    Name.symbol "t" < .fresh 1 ∧
    (∀ other, report.engine.store.Identifies other (.fresh 1) →
      .symbol "t" = other ∨ .symbol "t" < other) ∧
    ∀ other, report.engine.store.Identifies other (.symbol "e") →
      .symbol "d" = other ∨ .symbol "d" < other := by
  obtain ⟨report, answered⟩ := Option.isSome_iff_exists.mp (by decide +kernel :
    (boxEngine.solve 20 boxesThenRow).isSome = true)
  have outcome : (boxEngine.solve 20 boxesThenRow).all (fun report =>
      report.engine.isActive = false ∧
        report.engine.store.apply (.var (.fresh 1)) = .var (.symbol "t") ∧
        report.engine.store.apply (.var (.symbol "e")) = .var (.symbol "d")) = true := by
    decide +kernel
  rw [answered] at outcome
  obtain ⟨inactive, tail, field⟩ := of_decide_eq_true outcome
  have unseeded : report.engine.Unseeded :=
    .solve boxEngine 20 boxesThenRow report (.start _ false) answered
  obtain ⟨-, -, leastTail, -⟩ := represented_by_least report.engine unseeded _ _ tail
  obtain ⟨-, -, leastField, -⟩ := represented_by_least report.engine unseeded _ _ field
  exact ⟨report, answered, inactive, tail, field, trivial, leastTail, leastField⟩

end Engine

end RowUnification
