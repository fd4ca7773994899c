import RowUnification.Json
import RowUnification.Term.Basic

/-!
# The JSON form of terms

A term is an object with one member, which says whether it is a variable or an
application. A name is a string if it is a symbol and an integer if it is
numbered. Member keys can only be strings, so a numbered label is written by its
digits, and every label read back is a symbol. The parts of an application are
an object, or an array of the four parts in order; only a row may be left out. In
an object no part may be given twice, and members that are no part are passed over.
-/

namespace RowUnification

/-- Symbols are strings and numbered names are integers. -/
def Name.toJson : Name → Json
  | .symbol text => .string text
  | .fresh index => .integer (.ofNat index)

/-- A name as the key of a member: numbered names are written by their digits. -/
def Name.toKey : Name → String
  | .symbol text => text
  | .fresh index => toString index

/-- Reads a string as a symbol and an integer of 64 bits without sign as a numbered name. -/
def Name.ofJson? : Json → Option Name
  | .string text => some (.symbol text)
  | .integer (.ofNat index) => if index < UInt64.size then some (.fresh index) else none
  | _ => none

/-- The parts of an application, each part in its JSON form already. -/
def Application.toJson (parts : Application Json) : Json :=
  .object [("functor", parts.functor.toJson), ("subterms", .array parts.subterms),
    ("labelled", .object (parts.fields.toList.map fun field => (field.1.toKey, field.2))),
    ("row", parts.row.getD .null)]

/-- The keys of the parts of an application. -/
def Application.partKeys : List String := ["functor", "subterms", "labelled", "row"]

/-- Whether no part of an application is given twice. Other members may repeat. -/
def Application.givesPartsOnce (members : List (String × Json)) : Bool :=
  partKeys.all fun part => (members.map Prod.fst).count part ≤ 1

namespace Term

/-- The JSON form of a term. -/
def toJson : Term → Json :=
  fold (fun name => .object [("Variable", name.toJson)])
    fun parts => .object [("Application", parts.toJson)]

/-- The functor among the members of an application. -/
def functorOfMembers? : List (String × Json) → Option Name
  | [] => none
  | (key, value) :: rest => if key = "functor" then Name.ofJson? value else functorOfMembers? rest

mutual

/-- Reads a term from its JSON form. -/
def ofJson? : Json → Option Term
  | .object [(tag, content)] =>
    if tag = "Variable" then (Name.ofJson? content).map var
    else if tag = "Application" then
      match content with
      | .object members =>
        if Application.givesPartsOnce members then do
          return app ⟨← functorOfMembers? members, ← subtermsOfMembers? members,
            ← fieldsOfMembers? members, ← rowOfMembers? members⟩
        else none
      | .array [functor, .array subterms, .object fields, .null] => do
        return app ⟨← Name.ofJson? functor, ← subtermsOfJson? subterms,
          .ofList (← fieldsOfJson? fields), none⟩
      | .array [functor, .array subterms, .object fields, row] => do
        return app ⟨← Name.ofJson? functor, ← subtermsOfJson? subterms,
          .ofList (← fieldsOfJson? fields), some (← ofJson? row)⟩
      | _ => none
    else none
  | _ => none
termination_by structural value => value

/-- Reads positional subterms. -/
def subtermsOfJson? : List Json → Option (List Term)
  | [] => some []
  | element :: rest => do return (← ofJson? element) :: (← subtermsOfJson? rest)
termination_by structural elements => elements

/-- Reads fields in the order of their members, each label as a symbol. -/
def fieldsOfJson? : List (String × Json) → Option (List (Name × Term))
  | [] => some []
  | (key, value) :: rest => do return (.symbol key, ← ofJson? value) :: (← fieldsOfJson? rest)
termination_by structural members => members

/-- The positional subterms among the members of an application. -/
def subtermsOfMembers? : List (String × Json) → Option (List Term)
  | [] => none
  | (key, value) :: rest =>
    if key = "subterms" then
      match value with
      | .array elements => subtermsOfJson? elements
      | _ => none
    else subtermsOfMembers? rest
termination_by structural members => members

/-- The fields among the members of an application; of a repeated label the last
value counts. -/
def fieldsOfMembers? : List (String × Json) → Option (NameMap Term)
  | [] => none
  | (key, value) :: rest =>
    if key = "labelled" then
      match value with
      | .object members => (fieldsOfJson? members).map .ofList
      | _ => none
    else fieldsOfMembers? rest
termination_by structural members => members

/-- The row among the members of an application; it may be missing or `null`. -/
def rowOfMembers? : List (String × Json) → Option (Option Term)
  | [] => some none
  | (key, value) :: rest =>
    if key = "row" then
      match value with
      | .null => some none
      | value => (ofJson? value).map some
    else rowOfMembers? rest
termination_by structural members => members

end

end Term

end RowUnification
