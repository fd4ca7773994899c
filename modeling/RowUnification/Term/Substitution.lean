import RowUnification.Term.Basic

/-!
# Substitution

A substitution replaces the variables of a term bottom-up and in one pass: a term
put in the place of a variable is not searched again. It keeps records flat on
the way. Where the row of an application becomes an application, its parts move
into the owner: `Box(width: w | r)` with `Box(depth: d | s)` for `r` is
`Box(depth: d, width: w | s)`.
-/

namespace RowUnification

/-- The terms assigned to variables; the others stand for themselves. -/
abbrev Assignment : Type := Name → Option Term

namespace Assignment

/-- Assigns a term to one variable. -/
def single (name : Name) (term : Term) : Assignment :=
  fun other => if other = name then some term else none

/-- Assigns the terms of a map to its names. -/
def ofMap (terms : NameMap Term) : Assignment := terms.get?

end Assignment

/-- Moves an application that stands as the row into its owner: its subterms come
last, its fields win over those of the same label, and its own row takes its
place. A variable stays the row. -/
def Application.spliceRow (parts : Application Term) : Application Term :=
  match parts.row with
  | some (.app extension) =>
    { functor := parts.functor
      subterms := parts.subterms ++ extension.subterms
      fields := parts.fields.merge extension.fields
      row := extension.row }
  | _ => parts

namespace Term

/-- Replaces every assigned variable and keeps records flat. -/
def subst (assignment : Assignment) : Term → Term :=
  fold (fun name => (assignment name).getD (var name)) fun parts => app parts.spliceRow

@[simp] theorem subst_var (assignment : Assignment) (name : Name) :
    (var name).subst assignment = (assignment name).getD (var name) := rfl

/-- The parts are replaced first; then the row, if it has become an application, is spliced. -/
@[simp] theorem subst_app (assignment : Assignment) (parts : Application Term) :
    (app parts).subst assignment = app (parts.map (subst assignment)).spliceRow :=
  fold_app _ _ parts

end Term

end RowUnification
