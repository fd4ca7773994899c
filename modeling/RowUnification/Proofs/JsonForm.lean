import RowUnification.Proofs.Vocabulary
import RowUnification.Term.Json
import RowUnification.Term.Order

/-!
# What the JSON form keeps

Names are written in two ways. As a value, a symbol is a string and a numbered name an
integer, so the two are told apart. As the key of a member, both are strings: a numbered
label is written by its digits and read back as the symbol with these digits, and it may even
meet a symbol written alike, of which only the last one is kept. Numbers are read up to the
largest machine word.

So two things can get lost, and nothing else does: a term is read back from its JSON form
exactly if all of its labels are symbols and its numbered names fit a machine word. Whatever
is read from any JSON value has both properties, since labels are read as symbols and numbers
are checked. A term that was read once is therefore never changed by being written and read
again.
-/

namespace RowUnification

/-- A name is read back from its JSON form exactly if it fits a machine word. -/
theorem Name.ofJson?_toJson_iff (name : Name) :
    Name.ofJson? name.toJson = some name ↔ name.IsBelow UInt64.size := by
  cases name with
  | symbol text => simp [toJson, ofJson?, IsBelow]
  | fresh index => simp [toJson, ofJson?, IsBelow]

/-- The names that are read fit a machine word. -/
theorem Name.isBelow_of_ofJson? {json : Json} {name : Name} (read : ofJson? json = some name) :
    name.IsBelow UInt64.size := by
  unfold ofJson? at read
  split at read
  · cases read
    trivial
  · next index =>
    split at read
    · next fits =>
      cases read
      exact fits
    · contradiction
  · contradiction

namespace Term

/-- All labels of the term are symbols, and its numbered names fit a machine word. -/
structure Portable (term : Term) : Prop where
  /-- No label is numbered. -/
  labels : ∀ label ∈ term.labels, ∃ text, label = .symbol text
  /-- Numbered names fit a machine word. -/
  words : ∀ name ∈ term.names, name.IsBelow UInt64.size

/-- A variable has no labels. -/
theorem portable_var_iff (name : Name) :
    (var name).Portable ↔ name.IsBelow UInt64.size := by
  constructor
  · intro portable
    exact portable.words name (List.mem_singleton.mpr rfl)
  · intro fits
    refine ⟨nofun, fun other member => ?_⟩
    obtain rfl := List.mem_singleton.mp member
    exact fits

/-- An application is portable by its functor, its labels and its parts. -/
theorem portable_app_iff (parts : Application Term) :
    (app parts).Portable ↔ parts.functor.IsBelow UInt64.size ∧
      (∀ label ∈ parts.fields.keys, ∃ text, label = .symbol text) ∧
      ∀ child ∈ parts.children, child.Portable := by
  constructor
  · rintro ⟨labels, words⟩
    refine ⟨?_, ?_, fun child member => ⟨?_, ?_⟩⟩
    · exact words _ ((mem_gather_app _ _ parts _).mpr (Or.inl List.mem_cons_self))
    · intro label own
      exact labels label ((mem_gather_app _ _ parts label).mpr (Or.inl own))
    · intro label inside
      exact labels label (gather_of_child member inside)
    · intro name inside
      exact words name (gather_of_child member inside)
  · rintro ⟨functor, symbols, children⟩
    constructor
    · intro label inside
      rcases (mem_gather_app _ _ parts label).mp inside with own | ⟨child, member, further⟩
      · exact symbols label own
      · exact (children child member).labels label further
    · intro name inside
      rcases (mem_gather_app _ _ parts name).mp inside with own | ⟨child, member, further⟩
      · rcases List.mem_cons.mp own with rfl | label
        · exact functor
        · obtain ⟨text, rfl⟩ := symbols name label
          trivial
      · exact (children child member).words name further

section Reading

/-- Some JSON value is read as the term. -/
def Readable (term : Term) : Prop := ∃ json, ofJson? json = some term

/-- Each of the subterms read is read from a value. -/
theorem readable_of_subtermsOfJson? {elements : List Json} {terms : List Term}
    (read : subtermsOfJson? elements = some terms) : ∀ term ∈ terms, term.Readable := by
  induction elements generalizing terms with
  | nil =>
    cases read
    exact nofun
  | cons element rest inductionHypothesis =>
    simp only [subtermsOfJson?, Option.bind_eq_bind, Option.bind_eq_some_iff, Option.pure_def,
      Option.some.injEq] at read
    obtain ⟨first, readFirst, later, readLater, rfl⟩ := read
    rw [List.forall_mem_cons]
    exact ⟨⟨element, readFirst⟩, inductionHypothesis readLater⟩

/-- Each of the fields read has a symbol as its label, and its value is read from a value. -/
theorem readable_of_fieldsOfJson? {members : List (String × Json)} {fields : List (Name × Term)}
    (read : fieldsOfJson? members = some fields) :
    ∀ field ∈ fields, (∃ text, field.1 = .symbol text) ∧ field.2.Readable := by
  induction members generalizing fields with
  | nil =>
    cases read
    exact nofun
  | cons member rest inductionHypothesis =>
    obtain ⟨key, value⟩ := member
    simp only [fieldsOfJson?, Option.bind_eq_bind, Option.bind_eq_some_iff, Option.pure_def,
      Option.some.injEq] at read
    obtain ⟨first, readFirst, later, readLater, rfl⟩ := read
    rw [List.forall_mem_cons]
    exact ⟨⟨⟨key, rfl⟩, ⟨value, readFirst⟩⟩, inductionHypothesis readLater⟩

/-- The map of the fields read keeps the labels and values of some of them. -/
theorem readable_of_ofList {members : List (String × Json)} {fields : List (Name × Term)}
    (read : fieldsOfJson? members = some fields) :
    (∀ label ∈ (SortedMap.ofList fields).keys, ∃ text, label = .symbol text) ∧
      ∀ value ∈ (SortedMap.ofList fields).values, value.Readable := by
  have listed := readable_of_fieldsOfJson? read
  constructor
  · intro label member
    obtain ⟨value, found⟩ := (SortedMap.mem_keys_iff _ label).mp member
    exact (listed (label, value) (SortedMap.mem_of_get?_ofList found)).1
  · intro value member
    obtain ⟨label, found⟩ := (SortedMap.mem_values_iff _ value).mp member
    exact (listed (label, value) (SortedMap.mem_of_get?_ofList found)).2

/-- The functor read from the members of an application fits a machine word. -/
theorem isBelow_of_functorOfMembers? {members : List (String × Json)} {functor : Name}
    (read : functorOfMembers? members = some functor) : functor.IsBelow UInt64.size := by
  induction members with
  | nil => contradiction
  | cons member rest inductionHypothesis =>
    unfold functorOfMembers? at read
    split at read
    · exact Name.isBelow_of_ofJson? read
    · exact inductionHypothesis read

/-- The subterms read from the members of an application are read from values. -/
theorem readable_of_subtermsOfMembers? {members : List (String × Json)} {terms : List Term}
    (read : subtermsOfMembers? members = some terms) : ∀ term ∈ terms, term.Readable := by
  induction members with
  | nil => contradiction
  | cons member rest inductionHypothesis =>
    unfold subtermsOfMembers? at read
    split at read
    · split at read
      · exact readable_of_subtermsOfJson? read
      · contradiction
    · exact inductionHypothesis read

/-- The fields read from the members of an application have symbols as labels, and their values
are read from values. -/
theorem readable_of_fieldsOfMembers? {members : List (String × Json)} {fields : NameMap Term}
    (read : fieldsOfMembers? members = some fields) :
    (∀ label ∈ fields.keys, ∃ text, label = .symbol text) ∧
      ∀ value ∈ fields.values, value.Readable := by
  induction members with
  | nil => contradiction
  | cons member rest inductionHypothesis =>
    unfold fieldsOfMembers? at read
    split at read
    · split at read
      · obtain ⟨listed, found, rfl⟩ := Option.map_eq_some_iff.mp read
        exact readable_of_ofList found
      · contradiction
    · exact inductionHypothesis read

/-- The row read from the members of an application is read from a value. -/
theorem readable_of_rowOfMembers? {members : List (String × Json)} {row : Term}
    (read : rowOfMembers? members = some (some row)) : row.Readable := by
  induction members with
  | nil => cases read
  | cons member rest inductionHypothesis =>
    unfold rowOfMembers? at read
    split at read
    · split at read
      · cases read
      · obtain ⟨found, readRow, same⟩ := Option.map_eq_some_iff.mp read
        exact ⟨member.2, Option.some.inj same ▸ readRow⟩
    · exact inductionHypothesis read

/-- What is read is a variable whose name fits a machine word, or an application whose functor
does, whose labels are symbols and whose parts are read from values. It does not matter whether
the application is written as an object or as an array. -/
theorem Readable.inversion {term : Term} (readable : term.Readable) :
    (∃ name, name.IsBelow UInt64.size ∧ var name = term) ∨
    ∃ parts, parts.functor.IsBelow UInt64.size ∧
      (∀ label ∈ parts.fields.keys, ∃ text, label = .symbol text) ∧
      (∀ child ∈ parts.children, child.Readable) ∧ app parts = term := by
  obtain ⟨json, read⟩ := readable
  unfold ofJson? at read
  split at read
  · split at read
    · obtain ⟨name, readName, same⟩ := Option.map_eq_some_iff.mp read
      exact Or.inl ⟨name, Name.isBelow_of_ofJson? readName, same⟩
    · split at read
      · refine Or.inr ?_
        split at read <;>
          simp only [Option.bind_eq_bind, Option.bind_eq_some_iff, Option.pure_def,
            Option.some.injEq, reduceCtorEq, Option.ite_none_right_eq_some] at read
        · obtain ⟨-, functor, readFunctor, subterms, readSubterms, fields, readFields, row, readRow,
            same⟩ := read
          obtain ⟨symbols, values⟩ := readable_of_fieldsOfMembers? readFields
          refine ⟨⟨functor, subterms, fields, row⟩, isBelow_of_functorOfMembers? readFunctor,
            symbols, (Application.forall_mem_children_iff _ _).mpr
              ⟨readable_of_subtermsOfMembers? readSubterms, values, fun child opened => ?_⟩, same⟩
          exact readable_of_rowOfMembers? (readRow.trans (congrArg some opened))
        · obtain ⟨functor, readFunctor, subterms, readSubterms, fields, readFields, same⟩ := read
          obtain ⟨symbols, values⟩ := readable_of_ofList readFields
          exact ⟨⟨functor, subterms, .ofList fields, none⟩, Name.isBelow_of_ofJson? readFunctor,
            symbols, (Application.forall_mem_children_iff _ _).mpr
              ⟨readable_of_subtermsOfJson? readSubterms, values, nofun⟩, same⟩
        · next rowJson _ =>
          obtain ⟨functor, readFunctor, subterms, readSubterms, fields, readFields, row, readRow,
            same⟩ := read
          obtain ⟨symbols, values⟩ := readable_of_ofList readFields
          refine ⟨⟨functor, subterms, .ofList fields, some row⟩,
            Name.isBelow_of_ofJson? readFunctor, symbols,
            (Application.forall_mem_children_iff _ _).mpr
              ⟨readable_of_subtermsOfJson? readSubterms, values, fun child opened => ?_⟩, same⟩
          exact ⟨rowJson, Option.some.inj opened ▸ readRow⟩
      · contradiction
  · contradiction

/-- Whatever is read is portable. -/
theorem Readable.portable {term : Term} (readable : term.Readable) : term.Portable := by
  induction term using induct with
  | variableCase name =>
    obtain ⟨_, fits, same⟩ | ⟨_, -, -, -, impossible⟩ := readable.inversion
    · exact (portable_var_iff name).mpr (var.inj same ▸ fits)
    · contradiction
  | applicationCase parts inductionHypothesis =>
    obtain ⟨_, -, impossible⟩ | ⟨_, functor, symbols, children, same⟩ := readable.inversion
    · contradiction
    · obtain rfl := app.inj same
      refine (portable_app_iff _).mpr ⟨functor, symbols, fun child member => ?_⟩
      exact inductionHypothesis child member (children child member)

end Reading

section Writing

/-- A variable is written as an object whose only member has its name. -/
theorem toJson_var (name : Name) : (var name).toJson = .object [("Variable", name.toJson)] := rfl

/-- An application is written as an object whose only member has its parts as written. -/
theorem toJson_app (parts : Application Term) :
    (app parts).toJson = .object [("Application", (parts.map toJson).toJson)] :=
  fold_app _ _ parts

/-- No term is written as `null`. -/
theorem toJson_ne_null (term : Term) : term.toJson ≠ .null := by
  cases term with
  | var name => exact nofun
  | app parts => rw [toJson_app]; exact nofun

/-- Subterms are read back if each of them is. -/
theorem subtermsOfJson?_map_toJson {terms : List Term}
    (readBack : ∀ term ∈ terms, ofJson? term.toJson = some term) :
    subtermsOfJson? (terms.map toJson) = some terms := by
  induction terms with
  | nil => rfl
  | cons term rest inductionHypothesis =>
    obtain ⟨first, later⟩ := List.forall_mem_cons.mp readBack
    simp [subtermsOfJson?, first, inductionHypothesis later]

/-- Fields with symbols as labels are read back if their values are. -/
theorem fieldsOfJson?_map_toJson {fields : List (Name × Term)}
    (symbols : ∀ field ∈ fields, ∃ text, field.1 = .symbol text)
    (readBack : ∀ field ∈ fields, ofJson? field.2.toJson = some field.2) :
    fieldsOfJson? (fields.map fun field => (field.1.toKey, field.2.toJson)) = some fields := by
  induction fields with
  | nil => rfl
  | cons field rest inductionHypothesis =>
    obtain ⟨⟨text, isSymbol⟩, laterSymbols⟩ := List.forall_mem_cons.mp symbols
    obtain ⟨first, later⟩ := List.forall_mem_cons.mp readBack
    have readLater := inductionHypothesis laterSymbols later
    obtain ⟨label, value⟩ := field
    obtain rfl : label = .symbol text := isSymbol
    rw [List.map_cons, fieldsOfJson?, first, readLater]
    rfl

/-- A row is read back if there is none or the term is. -/
theorem rowOfMembers?_toJson {row : Option Term}
    (readBack : ∀ term, row = some term → ofJson? term.toJson = some term) :
    rowOfMembers? [("row", (row.map toJson).getD .null)] = some row := by
  cases row with
  | none => rfl
  | some term =>
    unfold rowOfMembers?
    simp only [Option.map_some, Option.getD_some, if_true]
    split
    · next isNull => exact absurd isNull term.toJson_ne_null
    · rw [readBack term rfl]
      rfl

/-- An application is read back from an object with its parts in order if each part is. -/
theorem ofJson?_application {parts : Application Term} {functor row : Json} {subterms : List Json}
    {fields : List (String × Json)}
    (readFunctor : Name.ofJson? functor = some parts.functor)
    (readSubterms : subtermsOfJson? subterms = some parts.subterms)
    (readFields : fieldsOfJson? fields = some parts.fields.toList)
    (readRow : rowOfMembers? [("row", row)] = some parts.row) :
    ofJson? (.object [("Application", .object [("functor", functor), ("subterms", .array subterms),
      ("labelled", .object fields), ("row", row)])]) = some (app parts) := by
  have unfolded : ofJson? (.object [("Application", .object [("functor", functor),
      ("subterms", .array subterms), ("labelled", .object fields), ("row", row)])]) =
      (do return app ⟨← Name.ofJson? functor, ← subtermsOfJson? subterms,
        ← (fieldsOfJson? fields).map .ofList, ← rowOfMembers? [("row", row)]⟩) := by
    unfold ofJson?
    rfl
  rw [unfolded, readFunctor, readSubterms, readFields, readRow, Option.map_some,
    SortedMap.ofList_toList]
  rfl

/-- A portable term is read back from its JSON form. -/
theorem Portable.ofJson?_toJson {term : Term} (portable : term.Portable) :
    ofJson? term.toJson = some term := by
  induction term using induct with
  | variableCase name =>
    have readName := (Name.ofJson?_toJson_iff name).mpr ((portable_var_iff name).mp portable)
    have unfolded : ofJson? (.object [("Variable", name.toJson)]) =
        (Name.ofJson? name.toJson).map var := by
      unfold ofJson?
      rfl
    rw [toJson_var, unfolded, readName]
    rfl
  | applicationCase parts inductionHypothesis =>
    obtain ⟨functor, symbols, children⟩ := (portable_app_iff parts).mp portable
    have readBack : ∀ child ∈ parts.children, ofJson? child.toJson = some child :=
      fun child member => inductionHypothesis child member (children child member)
    obtain ⟨subterms, values, row⟩ := (parts.forall_mem_children_iff _).mp readBack
    rw [toJson_app, Application.toJson, Application.map, SortedMap.toList_map, List.map_map]
    refine ofJson?_application ((Name.ofJson?_toJson_iff _).mpr functor)
      (subtermsOfJson?_map_toJson subterms) ?_ (rowOfMembers?_toJson row)
    apply fieldsOfJson?_map_toJson
    · intro field member
      exact symbols field.1 (List.mem_map_of_mem member)
    · intro field member
      exact values field.2 (List.mem_map_of_mem member)

end Writing

/-- A term is read back from its JSON form exactly if all its labels are symbols, at every depth,
and its numbered names are machine words; its variables and functors may be numbered and its rows
may be any terms. Whatever was read once, from any JSON value, is read back. -/
theorem json_round_trip (term : Term) :
    (ofJson? term.toJson = some term ↔
      (∀ label ∈ term.labels, ∃ text, label = .symbol text) ∧
        ∀ name ∈ term.names, name.IsBelow UInt64.size) ∧
    ∀ json, ofJson? json = some term → ofJson? term.toJson = some term := by
  refine ⟨⟨fun readBack => ?_, fun ⟨symbols, words⟩ => ?_⟩, fun json read => ?_⟩
  · have portable := Readable.portable ⟨term.toJson, readBack⟩
    exact ⟨portable.labels, portable.words⟩
  · exact Portable.ofJson?_toJson ⟨symbols, words⟩
  · exact (Readable.portable ⟨json, read⟩).ofJson?_toJson

/-- An application written with its parts out of order, with members that nothing reads, with a
repeated label, without a row, and with a part written as an array. -/
def looseJson : Json :=
  .object [("Application", .object [
    ("labelled", .object [("b", .object [("Variable", .string "lost")]),
      ("a", .object [("Variable", .integer 7)]),
      ("b", .object [("Application",
        .array [.string "Box", .array [], .object [], .object [("Variable", .string "r")]])])]),
    ("note", .bool true), ("functor", .integer 3), ("note", .null), ("subterms", .array [])])]

/-- The term that is read from `looseJson`. -/
def looselyWritten : Term :=
  app ⟨.fresh 3, [], .ofList [(.symbol "a", var (.fresh 7)),
    (.symbol "b", app ⟨.symbol "Box", [], .nil, some (var (.symbol "r"))⟩)], none⟩

/-- A numbered label inside a row: it is written as `"7"` and read as a symbol. -/
def numberedLabel : Term :=
  app ⟨.symbol "Box", [], .nil,
    some (app ⟨.symbol "Row", [], .ofList [(.fresh 7, var (.symbol "x"))], none⟩)⟩

/-- The loosely written application is read, with the last value of the repeated label, and what
was read is read back; the term with a numbered label is not. -/
theorem json_round_trip_looselyWritten :
    ofJson? looseJson = some looselyWritten ∧
    ofJson? looselyWritten.toJson = some looselyWritten ∧
    ofJson? numberedLabel.toJson ≠ some numberedLabel := by
  have read : ofJson? looseJson = some looselyWritten := by decide +kernel
  refine ⟨read, (json_round_trip looselyWritten).2 looseJson read, fun readBack => ?_⟩
  obtain ⟨symbols, -⟩ := (json_round_trip numberedLabel).1.mp readBack
  obtain ⟨text, impossible⟩ := symbols (.fresh 7) (by decide +kernel)
  contradiction

end Term

end RowUnification
