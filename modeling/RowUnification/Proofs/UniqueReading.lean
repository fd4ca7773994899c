import RowUnification.Proofs.Substitution
import RowUnification.Proofs.Vocabulary
import RowUnification.Term.Rendering

/-!
# Terms that are written alike

Names are written as they are, so nothing can be said about names with marks in them. Among
plain names the text of a term can be read in one way only, up to one point: a variable and a
constant of the same name are written alike. It has to be known which names are variables.

A text is read from the left. A name ends before the first mark. What follows a term begins
with a comma, a blank or a closing parenthesis, if anything follows, and so cannot be taken
for its arguments or for the colon of a label. The statement about one term is therefore
about its text with any such continuation; it yields the term and the continuation. Within an
application a list is read item by item, and the letters after an item say whether another
item, the row or the end comes next.
-/

namespace RowUnification

/-- The letters that separate the parts of a text. -/
def marks : List Char := ['(', ')', ',', ':', '|', ' ']

namespace Name

/-- The letters a name is written with. -/
def letters (name : Name) : List Char := name.render.toList

/-- A name whose text is not empty, has no marks and is not that of another kind of name. -/
structure Plain (name : Name) : Prop where
  /-- Something is written. -/
  written : name.render ≠ ""
  /-- None of the letters is a mark. -/
  unmarked : ∀ letter ∈ name.letters, letter ∉ marks
  /-- A symbol is not written as a numbered name is. -/
  telling : ∀ text, name = .symbol text → ∀ index, text ≠ (fresh index).render

theorem letters_fresh (index : Nat) :
    (fresh index).letters = '_' :: 'r' :: Nat.toDigits 10 index := by
  rw [letters, render, String.toList_append, Nat.toString_eq_repr, Nat.toList_repr]
  rfl

/-- The number that a numbered name with this text has. -/
def indexIn (text : String) : Nat := Nat.ofDigitChars 10 (text.toList.drop 2) 0

theorem indexIn_render_fresh (index : Nat) : indexIn (fresh index).render = index := by
  have digits : (fresh index).render.toList.drop 2 = Nat.toDigits 10 index :=
    congrArg (List.drop 2) (letters_fresh index)
  rw [indexIn, digits, Nat.ofDigitChars_ten_toDigits]

/-- Every numbered name is plain. -/
theorem plain_fresh (index : Nat) : (fresh index).Plain := by
  refine ⟨fun empty => ?_, fun letter member => ?_, nofun⟩
  · have noLetters : (fresh index).letters = [] := congrArg String.toList empty
    rw [letters_fresh] at noLetters
    contradiction
  · rw [letters_fresh] at member
    rcases List.mem_cons.mp member with rfl | member
    · decide
    · rcases List.mem_cons.mp member with rfl | member
      · decide
      · have digit := Nat.isDigit_of_mem_toDigits (by decide) (by decide) member
        have noDigits : ∀ mark ∈ marks, ¬ mark.isDigit = true := by simp [marks, Char.isDigit]
        exact fun mark => noDigits letter mark digit

/-- Whether a name is plain can be decided: only one number is to be tried for a symbol. -/
instance decidablePlain : (name : Name) → Decidable name.Plain
  | .fresh index => .isTrue (plain_fresh index)
  | .symbol text =>
    decidable_of_iff (text ≠ "" ∧ text.toList.all (· ∉ marks) = true ∧
        text ≠ (fresh (indexIn text)).render) <| by
      rw [List.all_eq_true]
      simp only [decide_eq_true_eq]
      constructor
      · rintro ⟨written, unmarked, other⟩
        refine ⟨written, unmarked, fun _ same index => ?_⟩
        cases same
        rintro rfl
        rw [indexIn_render_fresh] at other
        contradiction
      · intro plain
        exact ⟨plain.written, plain.unmarked, plain.telling text rfl _⟩

/-- Plain names are told apart by their letters. -/
theorem Plain.eq_of_letters {name other : Name} (plain : name.Plain) (otherPlain : other.Plain)
    (same : name.letters = other.letters) : name = other := by
  have sameText : name.render = other.render := String.toList_inj.mp same
  match name, other with
  | .symbol text, .symbol otherText => exact congrArg symbol sameText
  | .symbol text, .fresh index => exact absurd sameText (plain.telling text rfl index)
  | .fresh index, .symbol text => exact absurd sameText.symm (otherPlain.telling text rfl index)
  | .fresh index, .fresh otherIndex =>
    rw [← indexIn_render_fresh index, sameText, indexIn_render_fresh]

/-- A plain name begins with a letter that is not a mark. -/
theorem Plain.exists_first {name : Name} (plain : name.Plain) :
    ∃ first rest, name.letters = first :: rest ∧ first ∉ marks := by
  cases written : name.letters with
  | nil => exact absurd (String.toList_eq_nil_iff.mp written) plain.written
  | cons first rest => exact ⟨first, rest, rfl, plain.unmarked first (written ▸ List.mem_cons_self)⟩

end Name

/-- The text is empty or begins with one of the letters. -/
def BeginsAmong (letters text : List Char) : Prop :=
  ∀ letter, text.head? = some letter → letter ∈ letters

theorem beginsAmong_nil (letters : List Char) : BeginsAmong letters [] := by
  intro letter first
  contradiction

theorem beginsAmong_cons {letters : List Char} {letter : Char} (allowed : letter ∈ letters)
    (rest : List Char) : BeginsAmong letters (letter :: rest) := by
  intro other first
  exact Option.some.inj first ▸ allowed

/-- No name goes on in a text that is empty or begins with a mark. -/
abbrev EndsName (rest : List Char) : Prop := BeginsAmong marks rest

/-- A plain name is read from a text up to the first mark. -/
theorem Name.Plain.read {name other : Name} (plain : name.Plain) (otherPlain : other.Plain)
    {rest otherRest : List Char} (ends : EndsName rest) (otherEnds : EndsName otherRest)
    (same : name.letters ++ rest = other.letters ++ otherRest) :
    name = other ∧ rest = otherRest := by
  have upToMark {name : Name} (plain : name.Plain) {rest : List Char} (ends : EndsName rest) :
      (name.letters ++ rest).takeWhile (· ∉ marks) = name.letters := by
    have nothing : rest.takeWhile (· ∉ marks) = [] := by
      cases rest with
      | nil => rfl
      | cons letter later =>
        exact List.takeWhile_cons_of_neg (by simpa using ends letter rfl)
    rw [List.takeWhile_append_of_pos, nothing, List.append_nil]
    intro letter member
    exact decide_eq_true (plain.unmarked letter member)
  have sameLetters : name.letters = other.letters := by
    rw [← upToMark plain ends, same, upToMark otherPlain otherEnds]
  rw [sameLetters] at same
  exact ⟨plain.eq_of_letters otherPlain sameLetters, List.append_cancel_left same⟩

/-- What may follow the text of a term: nothing, or a comma, a blank or a closing parenthesis. -/
abbrev EndsTerm (rest : List Char) : Prop := BeginsAmong [',', ' ', ')'] rest

/-- What may follow a term may follow a name. -/
theorem EndsTerm.endsName {rest : List Char} (ends : EndsTerm rest) : EndsName rest := by
  have areMarks : ∀ letter ∈ [',', ' ', ')'], letter ∈ marks := by simp [marks]
  intro letter first
  exact areMarks letter (ends letter first)

/-- A parenthesis that opens ends no term. -/
theorem not_endsTerm_parenthesis (rest : List Char) : ¬ EndsTerm ('(' :: rest) := by
  intro ends
  exact absurd (ends '(' rfl) (by decide)

/-- What an application lists: a positional subterm, or a field with its label. -/
abbrev Item : Type := Option Name × Term

namespace Item

/-- The text of an item. -/
def text : Item → String
  | (none, subterm) => subterm.render
  | (some label, value) => fieldText (label, value.render)

/-- The letters of an item. -/
def letters (item : Item) : List Char := item.text.toList

/-- What separates an item from what is listed after it. -/
def separator : List Item → Option Term → List Char
  | _ :: _, _ => [',', ' ']
  | [], some _ => [' ']
  | [], none => []

/-- What is written after the parenthesis that opens, up to the one that closes. -/
def enclosed : List Item → Option Term → List Char
  | item :: rest, row => item.letters ++ (separator rest row ++ enclosed rest row)
  | [], some row => '|' :: ' ' :: (row.render.toList ++ [')'])
  | [], none => [')']

/-- What is written between the parentheses of an application. -/
theorem letters_enclosed (items : List Item) (row : Option Term) :
    (String.intercalate ", " (items.map text) ++
      rowText items.isEmpty (row.map Term.render) ++ ")").toList = enclosed items row := by
  induction items with
  | nil => cases row <;> simp [enclosed, rowText]
  | cons item rest inductionHypothesis =>
    cases rest with
    | nil => cases row <;> simp [enclosed, separator, rowText, letters]
    | cons next later =>
      rw [enclosed, ← inductionHypothesis]
      simp only [String.toList_append, String.toList_intercalate, List.map_cons,
        List.intercalate_cons_cons, List.append_assoc]
      rfl

end Item

namespace Application

/-- The items in the order in which they are listed. -/
def items (parts : Application Term) : List Item :=
  parts.subterms.map (none, ·) ++ parts.fields.toList.map fun field => (some field.1, field.2)

/-- The term of an item is a part, and its label is that of a field. -/
theorem mem_items {parts : Application Term} {item : Item} (listed : item ∈ parts.items) :
    item.2 ∈ parts.children ∧ ∀ label, item.1 = some label → label ∈ parts.fields.keys := by
  rw [mem_children_iff]
  rcases List.mem_append.mp listed with positional | labelled
  · obtain ⟨subterm, member, rfl⟩ := List.mem_map.mp positional
    exact ⟨Or.inl member, nofun⟩
  · obtain ⟨field, member, rfl⟩ := List.mem_map.mp labelled
    refine ⟨Or.inr (Or.inl (List.mem_map_of_mem member)), fun label same => ?_⟩
    cases same
    exact List.mem_map_of_mem member

/-- A constant has no items and no row. -/
theorem isConstant_iff (parts : Application Term) :
    parts.isConstant = true ↔ parts.items = [] ∧ parts.row = none := by
  obtain ⟨functor, subterms, fields, row⟩ := parts
  cases fields <;> simp [isConstant, items, SortedMap.isEmpty, SortedMap.toList]

/-- An application is known by its functor, its items and its row. -/
theorem eq_of_items {parts other : Application Term} (functor : parts.functor = other.functor)
    (items : parts.items = other.items) (row : parts.row = other.row) : parts = other := by
  have subtermsListed (parts : Application Term) :
      parts.items.filterMap (fun item => if item.1.isNone then some item.2 else none) =
        parts.subterms := by
    rw [Application.items, List.filterMap_append, List.filterMap_map, List.filterMap_map]
    change parts.subterms.filterMap some ++ parts.fields.toList.filterMap (fun _ => none) = _
    simp
  have fieldsListed (parts : Application Term) :
      parts.items.filterMap (fun item => item.1.map (·, item.2)) = parts.fields.toList := by
    rw [Application.items, List.filterMap_append, List.filterMap_map, List.filterMap_map]
    change parts.subterms.filterMap (fun _ => none) ++ parts.fields.toList.filterMap some = _
    simp
  have sameSubterms : parts.subterms = other.subterms := by
    rw [← subtermsListed parts, items, subtermsListed other]
  have sameFields : parts.fields = other.fields := by
    rw [← SortedMap.ofList_toList parts.fields, ← fieldsListed parts, items, fieldsListed other,
      SortedMap.ofList_toList]
  cases parts
  cases other
  simp_all

end Application

namespace Term

/-- The letters a term is written with. -/
def letters (term : Term) : List Char := term.render.toList

/-- The name a term is written with first. -/
def head : Term → Name
  | var name => name
  | app parts => parts.functor

/-- What is written after that name. -/
def arguments : Term → List Char
  | var _ => []
  | app parts => if parts.isConstant then [] else '(' :: Item.enclosed parts.items parts.row

/-- A term is written as its first name and its arguments. -/
theorem letters_eq (term : Term) : term.letters = term.head.letters ++ term.arguments := by
  cases term with
  | var name => exact (List.append_nil _).symm
  | app parts =>
    have laidOut : (app parts).render = (parts.map render).layout := fold_app _ _ parts
    have constant : (parts.map render).isConstant = parts.isConstant := by
      obtain ⟨functor, subterms, fields, row⟩ := parts
      cases fields <;>
        simp [Application.isConstant, Application.map, SortedMap.map, SortedMap.isEmpty]
    have listed : (parts.map render).subterms ++ (parts.map render).fields.toList.map fieldText =
        parts.items.map Item.text := by
      simp [Application.map, Application.items, Item.text, Function.comp_def]
    rw [letters, laidOut, Application.layout, constant, arguments]
    split
    · exact (List.append_nil _).symm
    · have enclosed := Item.letters_enclosed parts.items parts.row
      simp only [listed, List.isEmpty_map, String.append_assoc] at enclosed ⊢
      rw [String.toList_append, String.toList_append]
      exact congrArg (fun inside => parts.functor.letters ++ '(' :: inside) enclosed

/-- Arguments begin with a parenthesis if there are any. -/
theorem arguments_eq_nil_or (term : Term) :
    term.arguments = [] ∨ ∃ more, term.arguments = '(' :: more := by
  cases term with
  | var name => exact Or.inl rfl
  | app parts =>
    rw [arguments]
    split
    · exact Or.inl rfl
    · exact Or.inr ⟨_, rfl⟩

/-- After the first name of a term there is a mark, and not the colon of a label. -/
theorem first_of_arguments (term : Term) {rest : List Char} (ends : EndsTerm rest) {letter : Char}
    (first : (term.arguments ++ rest).head? = some letter) : letter ∈ marks ∧ letter ≠ ':' := by
  have noColons : ∀ letter ∈ [',', ' ', ')'], letter ≠ ':' := by simp
  rcases arguments_eq_nil_or term with none | ⟨more, opened⟩
  · rw [none] at first
    exact ⟨ends.endsName letter first, noColons letter (ends letter first)⟩
  · rw [opened] at first
    obtain rfl : '(' = letter := Option.some.inj first
    decide

/-- All names in a term are plain, and its variables, but none of its functors, are known to be
variables. -/
structure Legible (known : List Name) (term : Term) : Prop where
  /-- All names are plain. -/
  plain : ∀ name ∈ term.names, name.Plain
  /-- The variables are known. -/
  occurrences : ∀ name ∈ term.occurrences, name ∈ known
  /-- No functor is taken for a variable. -/
  functors : ∀ name ∈ term.functors, name ∉ known

variable {known : List Name}

/-- The first name of a legible term is plain. -/
theorem Legible.plain_head {term : Term} (legible : term.Legible known) : term.head.Plain := by
  apply legible.plain
  cases term with
  | var name => exact List.mem_singleton_self name
  | app parts => exact (mem_gather_app _ _ parts _).mpr (Or.inl List.mem_cons_self)

/-- The first name of a legible term tells whether it is a variable. -/
theorem Legible.head_known_iff {term : Term} (legible : term.Legible known) :
    term.head ∈ known ↔ ∃ name, term = var name := by
  cases term with
  | var name =>
    exact iff_of_true (legible.occurrences name (List.mem_singleton_self name)) ⟨name, rfl⟩
  | app parts =>
    have unknown : parts.functor ∉ known :=
      legible.functors _ ((mem_gather_app _ _ parts _).mpr (Or.inl (List.mem_singleton_self _)))
    exact iff_of_false unknown nofun

/-- The parts of a legible term are legible. -/
theorem Legible.child {parts : Application Term} (legible : (app parts).Legible known)
    {child : Term} (member : child ∈ parts.children) : child.Legible known where
  plain name inside := legible.plain name (gather_of_child member inside)
  occurrences name inside :=
    legible.occurrences name (occurrences_of_child parts child member name inside)
  functors name inside := legible.functors name (gather_of_child member inside)

/-- The labels of a legible term are plain. -/
theorem Legible.plain_label {parts : Application Term} (legible : (app parts).Legible known)
    {label : Name} (member : label ∈ parts.fields.keys) : label.Plain :=
  legible.plain label ((mem_gather_app _ _ parts _).mpr (Or.inl (List.mem_cons_of_mem _ member)))

/-- If two legible terms are written alike, up to what follows, then they begin with the same name
and go on alike. -/
theorem Legible.read_head {term other : Term} (legible : term.Legible known)
    (otherLegible : other.Legible known) {rest otherRest : List Char} (ends : EndsTerm rest)
    (otherEnds : EndsTerm otherRest) (same : term.letters ++ rest = other.letters ++ otherRest) :
    term.head = other.head ∧ term.arguments ++ rest = other.arguments ++ otherRest := by
  rw [letters_eq, letters_eq, List.append_assoc, List.append_assoc] at same
  exact legible.plain_head.read otherLegible.plain_head
    (fun _ first => (first_of_arguments term ends first).1)
    (fun _ first => (first_of_arguments other otherEnds first).1) same

/-- The term and what follows it are known from the text of both. -/
def ReadsUniquely (known : List Name) (term : Term) : Prop :=
  ∀ ⦃other rest otherRest⦄, other.Legible known → EndsTerm rest → EndsTerm otherRest →
    term.letters ++ rest = other.letters ++ otherRest → term = other ∧ rest = otherRest

end Term

namespace Item

/-- The label, if there is one, is plain, and the term is legible. -/
structure Legible (known : List Name) (item : Item) : Prop where
  /-- The label is plain. -/
  label : ∀ label, item.1 = some label → label.Plain
  /-- The term is legible. -/
  term : item.2.Legible known

variable {known : List Name}

/-- A field is written as its label, a colon, a blank and its value. -/
theorem letters_field (label : Name) (value : Term) :
    letters (some label, value) = label.letters ++ ':' :: ' ' :: value.letters := by
  simp [letters, text, fieldText, Name.letters, Term.letters]

/-- A positional subterm is not written like a field, since its first name is not followed by a
colon. -/
theorem subterm_ne_field {subterm value : Term} {label : Name} (legible : subterm.Legible known)
    (plain : label.Plain) {rest otherRest : List Char} (ends : EndsTerm rest) :
    letters (none, subterm) ++ rest ≠ letters (some label, value) ++ otherRest := by
  intro same
  have written : letters (none, subterm) = subterm.head.letters ++ subterm.arguments :=
    subterm.letters_eq
  rw [written, letters_field, List.append_assoc, List.append_assoc] at same
  obtain ⟨-, colon⟩ := legible.plain_head.read plain
    (fun _ first => (subterm.first_of_arguments ends first).1) (beginsAmong_cons (by decide) _) same
  exact (subterm.first_of_arguments ends (colon ▸ rfl)).2 rfl

/-- An item and what follows it are known from the text of both, if its term is. -/
theorem read {item other : Item} (legible : item.Legible known) (otherLegible : other.Legible known)
    (unique : item.2.ReadsUniquely known) {rest otherRest : List Char} (ends : EndsTerm rest)
    (otherEnds : EndsTerm otherRest) (same : item.letters ++ rest = other.letters ++ otherRest) :
    item = other ∧ rest = otherRest := by
  match item, other with
  | (none, subterm), (none, otherSubterm) =>
    obtain ⟨rfl, followed⟩ := unique otherLegible.term ends otherEnds same
    exact ⟨rfl, followed⟩
  | (none, subterm), (some label, value) =>
    exact absurd same (subterm_ne_field legible.term (otherLegible.label label rfl) ends)
  | (some label, value), (none, subterm) =>
    exact absurd same.symm (subterm_ne_field otherLegible.term (legible.label label rfl) otherEnds)
  | (some label, value), (some otherLabel, otherValue) =>
    rw [letters_field, letters_field, List.append_assoc, List.append_assoc] at same
    obtain ⟨rfl, values⟩ := (legible.label label rfl).read (otherLegible.label otherLabel rfl)
      (beginsAmong_cons (by decide) _) (beginsAmong_cons (by decide) _) same
    have sameValues := (List.cons.inj (List.cons.inj values).2).2
    obtain ⟨rfl, followed⟩ := unique otherLegible.term ends otherEnds sameValues
    exact ⟨rfl, followed⟩

/-- An item begins with a letter that is not a mark. -/
theorem exists_first {item : Item} (legible : item.Legible known) :
    ∃ first rest, item.letters = first :: rest ∧ first ∉ marks := by
  match item with
  | (none, subterm) =>
    obtain ⟨first, rest, written, unmarked⟩ := legible.term.plain_head.exists_first
    refine ⟨first, rest ++ subterm.arguments, ?_, unmarked⟩
    exact subterm.letters_eq.trans (congrArg (· ++ subterm.arguments) written)
  | (some label, value) =>
    obtain ⟨first, rest, written, unmarked⟩ := (legible.label label rfl).exists_first
    exact ⟨first, _, (letters_field label value).trans (congrArg (· ++ _) written), unmarked⟩

/-- The term of an item ends before what is listed after it. -/
theorem endsTerm_separator (items : List Item) (row : Option Term) (rest : List Char) :
    EndsTerm (separator items row ++ (enclosed items row ++ rest)) := by
  cases items with
  | cons item later => exact beginsAmong_cons (by decide) _
  | nil => cases row <;> exact beginsAmong_cons (by decide) _

/-- The separators agree if what is listed after an item is written alike. -/
theorem drop_separator {items others : List Item} {row otherRow : Option Term}
    {rest otherRest : List Char}
    (same : separator items row ++ (enclosed items row ++ rest) =
      separator others otherRow ++ (enclosed others otherRow ++ otherRest)) :
    enclosed items row ++ rest = enclosed others otherRow ++ otherRest := by
  match items, row, others, otherRow with
  | _ :: _, _, _ :: _, _ => exact (List.cons.inj (List.cons.inj same).2).2
  | [], some _, [], some _ => exact (List.cons.inj same).2
  | [], none, [], none => exact same
  | _ :: _, _, [], some _ => exact absurd (List.cons.inj same).1 (by decide)
  | _ :: _, _, [], none => exact absurd (List.cons.inj same).1 (by decide)
  | [], some _, _ :: _, _ => exact absurd (List.cons.inj same).1 (by decide)
  | [], none, _ :: _, _ => exact absurd (List.cons.inj same).1 (by decide)
  | [], some _, [], none => exact absurd (List.cons.inj same).1 (by decide)
  | [], none, [], some _ => exact absurd (List.cons.inj same).1 (by decide)

/-- No item begins like a row that stands alone or like the end. -/
theorem enclosed_nil_ne_cons {item : Item} (legible : item.Legible known) (items : List Item)
    (row otherRow : Option Term) (rest otherRest : List Char) :
    enclosed [] row ++ rest ≠ enclosed (item :: items) otherRow ++ otherRest := by
  obtain ⟨first, later, written, unmarked⟩ := exists_first legible
  rw [enclosed, written]
  intro same
  cases row with
  | none => exact unmarked ((List.cons.inj same).1 ▸ by decide)
  | some row => exact unmarked ((List.cons.inj same).1 ▸ by decide)

end Item

namespace Term

variable {known : List Name}

/-- What two rows that are written alike are, and what follows the parentheses that close. -/
theorem read_row {row otherRow : Option Term}
    (unique : ∀ term, row = some term → term.ReadsUniquely known)
    (otherLegible : ∀ term, otherRow = some term → term.Legible known) {rest otherRest : List Char}
    (same : Item.enclosed [] row ++ rest = Item.enclosed [] otherRow ++ otherRest) :
    row = otherRow ∧ rest = otherRest := by
  match row, otherRow with
  | none, none => exact ⟨rfl, (List.cons.inj same).2⟩
  | none, some _ => exact absurd (List.cons.inj same).1 (by decide)
  | some _, none => exact absurd (List.cons.inj same).1 (by decide)
  | some term, some other =>
    simp only [Item.enclosed, List.cons_append, List.append_assoc, List.nil_append, List.cons.injEq,
      true_and] at same
    obtain ⟨rfl, closed⟩ := unique term rfl (otherLegible other rfl)
      (beginsAmong_cons (by decide) rest) (beginsAmong_cons (by decide) otherRest) same
    exact ⟨rfl, (List.cons.inj closed).2⟩

/-- The items and the row of an application, and what follows it, are known from the text of all
three, if the parts are. -/
theorem read_enclosed {items others : List Item} {row otherRow : Option Term}
    (legible : ∀ item ∈ items, item.Legible known)
    (otherLegible : ∀ item ∈ others, item.Legible known)
    (unique : ∀ item ∈ items, item.2.ReadsUniquely known)
    (rowUnique : ∀ term, row = some term → term.ReadsUniquely known)
    (otherRowLegible : ∀ term, otherRow = some term → term.Legible known)
    {rest otherRest : List Char}
    (same : Item.enclosed items row ++ rest = Item.enclosed others otherRow ++ otherRest) :
    items = others ∧ row = otherRow ∧ rest = otherRest := by
  induction items generalizing others with
  | nil =>
    cases others with
    | nil => exact ⟨rfl, read_row rowUnique otherRowLegible same⟩
    | cons other later =>
      have first := otherLegible other List.mem_cons_self
      exact absurd same (Item.enclosed_nil_ne_cons first later row otherRow rest otherRest)
  | cons item items inductionHypothesis =>
    obtain ⟨firstLegible, laterLegible⟩ := List.forall_mem_cons.mp legible
    obtain ⟨firstUnique, laterUnique⟩ := List.forall_mem_cons.mp unique
    cases others with
    | nil =>
      exact absurd same.symm
        (Item.enclosed_nil_ne_cons firstLegible items otherRow row otherRest rest)
    | cons other others =>
      obtain ⟨otherFirstLegible, otherLaterLegible⟩ := List.forall_mem_cons.mp otherLegible
      simp only [Item.enclosed, List.append_assoc] at same
      obtain ⟨rfl, followed⟩ := Item.read firstLegible otherFirstLegible firstUnique
        (Item.endsTerm_separator items row rest)
        (Item.endsTerm_separator others otherRow otherRest) same
      obtain ⟨rfl, sameRow⟩ := inductionHypothesis laterLegible otherLaterLegible laterUnique
        (Item.drop_separator followed)
      exact ⟨rfl, sameRow⟩

/-- The items of a legible term are legible. -/
theorem Legible.item {parts : Application Term} (legible : (app parts).Legible known) {item : Item}
    (listed : item ∈ parts.items) : item.Legible known := by
  obtain ⟨isPart, labelled⟩ := Application.mem_items listed
  exact ⟨fun label same => legible.plain_label (labelled label same), legible.child isPart⟩

/-- The row of a legible term is legible. -/
theorem Legible.row {parts : Application Term} (legible : (app parts).Legible known) {row : Term}
    (opened : parts.row = some row) : row.Legible known :=
  legible.child ((parts.mem_children_iff row).mpr (Or.inr (Or.inr opened)))

/-- An application without parts has no arguments. -/
theorem arguments_of_isConstant {parts : Application Term} (constant : parts.isConstant = true) :
    (app parts).arguments = [] := if_pos constant

/-- The arguments of an application with parts are in parentheses. -/
theorem arguments_of_not_isConstant {parts : Application Term}
    (parted : ¬ parts.isConstant = true) :
    (app parts).arguments = '(' :: Item.enclosed parts.items parts.row := if_neg parted

/-- Items, row and what follows an application are known from the text after its functor, if the
parts are. -/
theorem read_arguments {parts other : Application Term} (legible : (app parts).Legible known)
    (otherLegible : (app other).Legible known)
    (unique : ∀ child ∈ parts.children, child.ReadsUniquely known) {rest otherRest : List Char}
    (ends : EndsTerm rest) (otherEnds : EndsTerm otherRest)
    (same : (app parts).arguments ++ rest = (app other).arguments ++ otherRest) :
    parts.items = other.items ∧ parts.row = other.row ∧ rest = otherRest := by
  by_cases constant : parts.isConstant = true
  · rw [arguments_of_isConstant constant, List.nil_append] at same
    by_cases otherConstant : other.isConstant = true
    · rw [arguments_of_isConstant otherConstant, List.nil_append] at same
      obtain ⟨noItems, noRow⟩ := parts.isConstant_iff.mp constant
      obtain ⟨noOtherItems, noOtherRow⟩ := other.isConstant_iff.mp otherConstant
      exact ⟨noItems.trans noOtherItems.symm, noRow.trans noOtherRow.symm, same⟩
    · rw [arguments_of_not_isConstant otherConstant] at same
      exact absurd (same ▸ ends) (not_endsTerm_parenthesis _)
  · rw [arguments_of_not_isConstant constant] at same
    by_cases otherConstant : other.isConstant = true
    · rw [arguments_of_isConstant otherConstant, List.nil_append] at same
      exact absurd (same ▸ otherEnds) (not_endsTerm_parenthesis _)
    · rw [arguments_of_not_isConstant otherConstant] at same
      refine read_enclosed (fun item listed => legible.item listed)
        (fun item listed => otherLegible.item listed) ?_ ?_
        (fun row opened => otherLegible.row opened) (List.cons.inj same).2
      · intro item listed
        exact unique item.2 (Application.mem_items listed).1
      · intro row opened
        exact unique row ((parts.mem_children_iff row).mpr (Or.inr (Or.inr opened)))

/-- Every legible term is known from its text, whatever follows. -/
theorem Legible.readsUniquely {term : Term} (legible : term.Legible known) :
    term.ReadsUniquely known := by
  induction term using induct with
  | variableCase name =>
    intro other rest otherRest otherLegible ends otherEnds same
    obtain ⟨sameHead, followed⟩ := legible.read_head otherLegible ends otherEnds same
    have isKnown : other.head ∈ known := sameHead ▸ legible.head_known_iff.mpr ⟨name, rfl⟩
    obtain ⟨otherName, rfl⟩ := otherLegible.head_known_iff.mp isKnown
    exact ⟨congrArg var sameHead, followed⟩
  | applicationCase parts inductionHypothesis =>
    intro other rest otherRest otherLegible ends otherEnds same
    obtain ⟨sameHead, followed⟩ := legible.read_head otherLegible ends otherEnds same
    cases other with
    | var name =>
      have isKnown : (app parts).head ∈ known :=
        sameHead ▸ otherLegible.head_known_iff.mpr ⟨name, rfl⟩
      obtain ⟨_, impossible⟩ := legible.head_known_iff.mp isKnown
      contradiction
    | app other =>
      have unique (child : Term) (member : child ∈ parts.children) : child.ReadsUniquely known :=
        inductionHypothesis child member (legible.child member)
      obtain ⟨items, row, after⟩ :=
        read_arguments legible otherLegible unique ends otherEnds followed
      exact ⟨congrArg app (Application.eq_of_items sameHead items row), after⟩

/-- Two terms that are written alike are the same term, if all their names are plain and no name is
a variable of one of them and a functor of one of them; labels may be either. Their subterms,
fields and rows may be nested in any way, and rows may be applications. -/
theorem eq_of_render (first second : Term)
    (plain : ∀ name ∈ first.names ++ second.names, name.Plain)
    (apart : ∀ name ∈ first.occurrences ++ second.occurrences,
      name ∉ first.functors ++ second.functors)
    (same : first.render = second.render) : first = second := by
  have legible (term : Term) (names : ∀ name ∈ term.names, name ∈ first.names ++ second.names)
      (occurrences : ∀ name ∈ term.occurrences, name ∈ first.occurrences ++ second.occurrences)
      (functors : ∀ name ∈ term.functors, name ∈ first.functors ++ second.functors) :
      term.Legible (first.occurrences ++ second.occurrences) :=
    ⟨fun name inside => plain name (names name inside), occurrences,
      fun name inside known => apart name known (functors name inside)⟩
  have firstLegible := legible first (fun _ => List.mem_append_left _)
    (fun _ => List.mem_append_left _) (fun _ => List.mem_append_left _)
  have secondLegible := legible second (fun _ => List.mem_append_right _)
    (fun _ => List.mem_append_right _) (fun _ => List.mem_append_right _)
  have sameLetters : first.letters ++ [] = second.letters ++ [] := by
    rw [letters, letters, same]
  have read := firstLegible.readsUniquely secondLegible (beginsAmong_nil _) (beginsAmong_nil _)
    sameLetters
  exact read.1

/-- A variable and a constant of the same name are written alike. -/
example : (var (.symbol "x")).render = (app (.ofSubterms (.symbol "x") [])).render := rfl

/-- A record with nested subterms, fields and rows; a numbered name is a variable, and the label
`a` is a variable too. -/
def nestedRecord : Term :=
  app ⟨.symbol "Pair",
    [var (.symbol "a"), app ⟨.symbol "Some", [var (.fresh 7)], .nil, some (var (.symbol "r"))⟩,
      app (.ofSubterms (.symbol "none") [])],
    .ofList [(.symbol "a", var (.symbol "x")),
      (.symbol "b", app ⟨.symbol "Box", [], .nil, some (var (.symbol "q"))⟩)],
    some (app ⟨.symbol "Row", [], .ofList [(.symbol "Row", var (.symbol "a"))],
      some (var (.symbol "r"))⟩)⟩

/-- The same record, the fields listed in another order and one of them twice. -/
def relistedRecord : Term :=
  app ⟨.symbol "Pair",
    [var (.symbol "a"), app ⟨.symbol "Some", [var (.fresh 7)], .nil, some (var (.symbol "r"))⟩,
      app (.ofSubterms (.symbol "none") [])],
    .ofList [(.symbol "b", app ⟨.symbol "Box", [], .nil, some (var (.symbol "q"))⟩),
      (.symbol "a", var (.symbol "q")), (.symbol "a", var (.symbol "x"))],
    some (app ⟨.symbol "Row", [], .ofList [(.symbol "Row", var (.symbol "a"))],
      some (var (.symbol "r"))⟩)⟩

/-- The two listings of the record are written alike, so they are one term. -/
theorem eq_of_render_nestedRecord :
    nestedRecord.render = "Pair(a, Some(_r7 | r), none, a: x, b: Box(| q) | Row(Row: a | r))" ∧
    relistedRecord.render = nestedRecord.render ∧ relistedRecord = nestedRecord := by
  have same : relistedRecord.render = nestedRecord.render := by decide +kernel
  exact ⟨by decide +kernel, same,
    eq_of_render relistedRecord nestedRecord (by decide +kernel) (by decide +kernel) same⟩

end Term

end RowUnification
