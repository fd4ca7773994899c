import RowUnification.Term.Basic

/-!
# The written form of terms

A variable is written as its name. An application is written as its functor,
followed by its parts in parentheses if it has any: `Pair(a, Some(b), size: n | r)`.
Names are written as they are, so the text is for readers and not for parsing.
-/

namespace RowUnification

/-- A labelled part. -/
def fieldText (field : Name × String) : String := field.1.render ++ ": " ++ field.2

/-- A bar sets the row off; a blank comes before it if other parts do. -/
def rowText (standsAlone : Bool) : Option String → String
  | none => ""
  | some row => (if standsAlone then "| " else " | ") ++ row

/-- Lays out an application whose parts are written already. -/
def Application.layout (parts : Application String) : String :=
  if parts.isConstant then parts.functor.render
  else
    let listed := parts.subterms ++ parts.fields.toList.map fieldText
    parts.functor.render ++ "(" ++ String.intercalate ", " listed ++
      rowText listed.isEmpty parts.row ++ ")"

/-- The written form of a term. -/
def Term.render : Term → String := Term.fold Name.render Application.layout

/-- Fields written one after another. -/
def renderFields (fields : NameMap Term) : String :=
  String.intercalate ", " ((fields.map Term.render).toList.map fieldText)

end RowUnification
