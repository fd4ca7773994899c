import RowUnification.Term.Substitution

/-!
# Maps and applications part by part

What a map of fields does under transformation and merging is stated by its
lookups and lifted to equality by `SortedMap.ext`. A merge looks into the second
map first, so merging associates and transforming distributes over it.

An application is transformed part by part. Splicing a row moves the parts of the
row up by one application and makes no part of its own; `spliceRow_map_subst`
says that a substitution does not see whether a row was spliced before it: it
replaces the moved parts in their new place exactly as it would have in the old.
-/

namespace RowUnification

universe u v w

namespace SortedMap

variable {α : Type u} {β : Type v} {γ : Type w} {bound : Option Name}

/-- A value is listed exactly if some name looks it up. -/
theorem mem_values_iff (entries : SortedMap α bound) (value : α) :
    value ∈ entries.values ↔ ∃ name, entries.get? name = some value := by
  simp only [values, List.mem_map, Prod.exists, exists_eq_right, mem_toList_iff]

/-- A name is listed exactly if it has a value. -/
theorem mem_keys_iff (entries : SortedMap α bound) (name : Name) :
    name ∈ entries.keys ↔ ∃ value, entries.get? name = some value := by
  simp only [keys, List.mem_map, Prod.exists, exists_and_right, exists_eq_right, mem_toList_iff]

/-- A map without entries has no lookups, and the other way round. -/
theorem isEmpty_iff (entries : SortedMap α bound) :
    entries.isEmpty = true ↔ ∀ name, entries.get? name = none := by
  cases entries with
  | nil => simp [isEmpty]
  | cons head follows value rest =>
    constructor
    · intro empty
      exact absurd empty Bool.false_ne_true
    · intro missing
      have found := missing head
      rw [get?_cons, if_pos rfl] at found
      contradiction

/-- Transforming twice transforms once by the composite. -/
theorem map_map (second : β → γ) (first : α → β) (entries : SortedMap α bound) :
    (entries.map first).map second = entries.map (fun value => second (first value)) := by
  apply ext
  intro name
  simp only [get?_map, Option.map_map]
  rfl

/-- Only the values of a map decide what a transformation makes of it. -/
theorem map_congr (first second : α → β) (entries : SortedMap α bound)
    (agree : ∀ value ∈ entries.values, first value = second value) :
    entries.map first = entries.map second := by
  apply ext
  intro name
  simp only [get?_map]
  cases found : entries.get? name with
  | none => rfl
  | some value =>
    exact congrArg some (agree value ((mem_values_iff entries value).mpr ⟨name, found⟩))

/-- A transformation that keeps every value keeps the map. -/
theorem map_eq_self (transform : α → α) (entries : SortedMap α bound)
    (kept : ∀ value ∈ entries.values, transform value = value) :
    entries.map transform = entries := by
  apply ext
  intro name
  rw [get?_map]
  cases found : entries.get? name with
  | none => rfl
  | some value =>
    exact congrArg some (kept value ((mem_values_iff entries value).mpr ⟨name, found⟩))

/-- Transforming distributes over merging. -/
theorem map_merge (transform : α → β) (base : NameMap α) (entries : NameMap α) :
    (base.merge entries).map transform = (base.map transform).merge (entries.map transform) := by
  apply ext
  intro name
  simp only [get?_map, get?_merge]
  cases entries.get? name <;> rfl

/-- The last map that names a value decides, however the merges are grouped. -/
theorem merge_assoc (first second third : NameMap α) :
    (first.merge second).merge third = first.merge (second.merge third) := by
  apply ext
  intro name
  simp only [get?_merge, Option.or_assoc]

/-- Keeping the names of a selection that was already kept selects nothing new. -/
theorem keep_contains_keySet (entries : NameMap α) (selected : Name → Bool) :
    entries.keep (entries.keep selected).keySet.contains = entries.keep selected := by
  apply ext
  intro name
  rw [get?_keep, get?_keep, contains, keySet, get?_map, get?_keep]
  cases entries.get? name <;> cases selected name <;> rfl

/-- A kept value was a value before. -/
theorem mem_values_of_mem_values_keep (entries : SortedMap α bound) (selected : Name → Bool)
    (value : α) (kept : value ∈ (entries.keep selected).values) : value ∈ entries.values := by
  obtain ⟨name, found⟩ := (mem_values_iff _ _).mp kept
  rw [get?_keep] at found
  split at found
  · exact (mem_values_iff _ _).mpr ⟨name, found⟩
  · contradiction

/-- The values of a merge come from one of the two maps. -/
theorem mem_values_of_mem_values_merge (base entries : NameMap α) (value : α)
    (merged : value ∈ (base.merge entries).values) :
    value ∈ base.values ∨ value ∈ entries.values := by
  obtain ⟨name, found⟩ := (mem_values_iff _ _).mp merged
  rw [get?_merge] at found
  cases later : entries.get? name with
  | none =>
    rw [later, Option.none_or] at found
    exact Or.inl ((mem_values_iff _ _).mpr ⟨name, found⟩)
  | some other =>
    rw [later, Option.some_or] at found
    exact Or.inr ((mem_values_iff _ _).mpr ⟨name, later.trans found⟩)

/-- Two maps name the same labels exactly if they list the same ones. -/
theorem keys_eq_iff (left right : NameMap α) :
    left.keys = right.keys ↔ ∀ name, left.contains name = right.contains name := by
  constructor
  · intro same name
    have listed : name ∈ left.keys ↔ name ∈ right.keys := by rw [same]
    rw [mem_keys_iff, mem_keys_iff] at listed
    simp only [contains]
    cases inLeft : left.get? name <;> cases inRight : right.get? name <;>
      simp_all
  · intro same
    -- The labels as a set are a map themselves, so equal lookups make them equal.
    have sameSet : left.keySet = right.keySet := by
      apply ext
      intro name
      have found := same name
      simp only [contains] at found
      simp only [keySet, get?_map]
      cases inLeft : left.get? name <;> cases inRight : right.get? name <;>
        simp_all
    rw [← keys_map (fun _ => ()) left, ← keys_map (fun _ => ()) right]
    exact congrArg keys sameSet

/-- The values of a map paired with the partners that their names have. -/
def join (partners : Name → Option β) :
    {bound : Option Name} → SortedMap α bound → SortedMap (α × β) bound
  | _, nil => nil
  | _, cons name follows value rest =>
    match partners name with
    | some partner => cons name follows (value, partner) (rest.join partners)
    | none => (rest.join partners).weaken fun _ after => follows.trans after

/-- A joined name has a value and a partner. -/
theorem get?_join (partners : Name → Option β) {bound : Option Name}
    (entries : SortedMap α bound) (name : Name) :
    (entries.join partners).get? name =
      (entries.get? name).bind fun value => (partners name).map (value, ·) := by
  induction entries with
  | nil => rfl
  | cons head follows value rest inductionHypothesis =>
    cases partner : partners head with
    | none =>
      simp only [join, partner, get?_weaken, inductionHypothesis, get?_cons]
      by_cases same : name = head
      · simp [same, partner]
      · simp [same]
    | some other =>
      simp only [join, partner, get?_cons, inductionHypothesis]
      by_cases same : name = head
      · simp [same, partner]
      · simp [same]

/-- Weakening the bound lists the same entries. -/
theorem toList_weaken {bound wider : Option Name}
    (admits : ∀ name, Follows bound name → Follows wider name) (entries : SortedMap α bound) :
    (entries.weaken admits).toList = entries.toList := by
  cases entries <;> rfl

/-- The joined values are listed in the order of the map. -/
theorem values_join (partners : Name → Option β) {bound : Option Name}
    (entries : SortedMap α bound) :
    (entries.join partners).values =
      entries.toList.filterMap fun field => (partners field.1).map (field.2, ·) := by
  induction entries with
  | nil => rfl
  | cons head follows value rest inductionHypothesis =>
    simp only [values] at inductionHypothesis ⊢
    cases partner : partners head with
    | none =>
      simp only [join, partner, toList_weaken, toList, List.filterMap_cons, Option.map_none]
      exact inductionHypothesis
    | some other =>
      simp only [join, partner, toList, List.filterMap_cons, Option.map_some, List.map_cons]
      exact congrArg _ inductionHypothesis

/-- Joining the other way round exchanges the two components. -/
theorem join_swap (left : NameMap α) (right : NameMap β) :
    (left.join right.get?).map Prod.swap = right.join left.get? := by
  apply ext
  intro name
  simp only [get?_map, get?_join]
  cases left.get? name <;> cases right.get? name <;> rfl

/-- Keeping a selection of the names lists the entries of those names. -/
theorem toList_keep (selected : Name → Bool) (entries : SortedMap α bound) :
    (entries.keep selected).toList = entries.toList.filter fun entry => selected entry.1 := by
  induction entries with
  | nil => rfl
  | cons head follows value rest inductionHypothesis =>
    by_cases chosen : selected head = true
    · simp [keep, toList, chosen, inductionHypothesis]
    · simp [keep, toList, toList_weaken, chosen, inductionHypothesis]

/-- Entries inserted in their order are merged. -/
theorem foldl_insert_toList (base : NameMap α) {bound : Option Name} (entries : SortedMap α bound) :
    entries.toList.foldl (fun built entry => built.insert entry.1 entry.2) base =
      base.merge entries := by
  induction entries generalizing base with
  | nil => rfl
  | cons name follows value rest inductionHypothesis => exact inductionHypothesis _

/-- A map is read back from its list of entries. -/
theorem ofList_toList (entries : NameMap α) : ofList entries.toList = entries := by
  apply ext
  intro name
  rw [ofList, foldl_insert_toList, get?_merge, get?_nil, Option.or_none]

/-- What is found after entries have been inserted is one of them or was there before. -/
theorem mem_or_get?_of_foldl_insert {entries : List (Name × α)} {base : NameMap α} {name : Name}
    {value : α}
    (found : (entries.foldl (fun built entry => built.insert entry.1 entry.2) base).get? name =
      some value) : (name, value) ∈ entries ∨ base.get? name = some value := by
  induction entries generalizing base with
  | nil => exact Or.inr found
  | cons entry rest inductionHypothesis =>
    rcases inductionHypothesis found with later | earlier
    · exact Or.inl (List.mem_cons_of_mem entry later)
    · rw [get?_insert] at earlier
      split at earlier
      · next same =>
        cases earlier
        exact Or.inl (same ▸ List.mem_cons_self)
      · exact Or.inr earlier

/-- What is found in a map read from a list is in the list. -/
theorem mem_of_get?_ofList {entries : List (Name × α)} {name : Name} {value : α}
    (found : (ofList entries).get? name = some value) : (name, value) ∈ entries := by
  rcases mem_or_get?_of_foldl_insert found with listed | impossible
  · exact listed
  · exact nomatch impossible

end SortedMap

namespace Application

variable {τ : Type u} {υ : Type v} {ω : Type w}

/-- A part is a subterm, a field value or the row. -/
theorem mem_children_iff (parts : Application τ) (child : τ) :
    child ∈ parts.children ↔
      child ∈ parts.subterms ∨ child ∈ parts.fields.values ∨ parts.row = some child := by
  simp only [children, List.mem_append, Option.mem_toList, or_assoc]

/-- What holds of all parts holds of the subterms, of the field values and of the row. -/
theorem forall_mem_children_iff (parts : Application τ) (property : τ → Prop) :
    (∀ child ∈ parts.children, property child) ↔
      (∀ child ∈ parts.subterms, property child) ∧
      (∀ child ∈ parts.fields.values, property child) ∧
      ∀ child, parts.row = some child → property child := by
  simp only [mem_children_iff, or_imp, forall_and]

/-- Transforming twice transforms once by the composite. -/
theorem map_map (second : υ → ω) (first : τ → υ) (parts : Application τ) :
    (parts.map first).map second = parts.map (fun part => second (first part)) := by
  simp only [map, List.map_map, SortedMap.map_map, Option.map_map]
  rfl

/-- Only the parts of an application decide what a transformation makes of it. -/
theorem map_congr (first second : τ → υ) (parts : Application τ)
    (agree : ∀ child ∈ parts.children, first child = second child) :
    parts.map first = parts.map second := by
  have subterms : parts.subterms.map first = parts.subterms.map second :=
    List.map_congr_left fun child member =>
      agree child ((mem_children_iff parts child).mpr (Or.inl member))
  have fields : parts.fields.map first = parts.fields.map second :=
    SortedMap.map_congr first second parts.fields fun child member =>
      agree child ((mem_children_iff parts child).mpr (Or.inr (Or.inl member)))
  have row : parts.row.map first = parts.row.map second :=
    Option.map_congr fun child member =>
      agree child ((mem_children_iff parts child).mpr (Or.inr (Or.inr member)))
  simp only [map, subterms, fields, row]

/-- A transformation that keeps every part keeps the application. -/
theorem map_eq_self (transform : τ → τ) (parts : Application τ)
    (kept : ∀ child ∈ parts.children, transform child = child) :
    parts.map transform = parts := by
  rw [map_congr transform id parts kept]
  obtain ⟨functor, subterms, fields, row⟩ := parts
  simp only [map, List.map_id, Option.map_id, SortedMap.map_eq_self id fields fun _ _ => rfl]
  rfl

/-- A closed application has nothing to splice. -/
theorem spliceRow_of_row_none (parts : Application Term) (closed : parts.row = none) :
    parts.spliceRow = parts := by
  simp only [spliceRow, closed]

/-- A variable stays the row. -/
theorem spliceRow_of_row_var (parts : Application Term) (name : Name)
    (opened : parts.row = some (.var name)) : parts.spliceRow = parts := by
  simp only [spliceRow, opened]

/-- An application as the row hands over its parts. -/
theorem spliceRow_of_row_app (parts extension : Application Term)
    (extended : parts.row = some (.app extension)) :
    parts.spliceRow =
      ⟨parts.functor, parts.subterms ++ extension.subterms,
        parts.fields.merge extension.fields, extension.row⟩ := by
  simp only [spliceRow, extended]

/-- Splicing keeps the functor. -/
@[simp] theorem functor_spliceRow (parts : Application Term) :
    parts.spliceRow.functor = parts.functor := by
  unfold spliceRow
  split <;> rfl

/-- Every part after splicing was a part before or belonged to the row. -/
theorem mem_children_spliceRow (parts : Application Term) (child : Term)
    (member : child ∈ parts.spliceRow.children) :
    child ∈ parts.children ∨
      ∃ extension, parts.row = some (.app extension) ∧ child ∈ extension.children := by
  match rowShape : parts.row with
  | none =>
    rw [spliceRow_of_row_none parts rowShape] at member
    exact Or.inl member
  | some (.var name) =>
    rw [spliceRow_of_row_var parts name rowShape] at member
    exact Or.inl member
  | some (.app extension) =>
    rw [spliceRow_of_row_app parts extension rowShape, mem_children_iff] at member
    simp only [List.mem_append] at member
    have inRow (inside : child ∈ extension.children) :
        ∃ inner, some (Term.app extension) = some (Term.app inner) ∧ child ∈ inner.children :=
      ⟨extension, rfl, inside⟩
    rcases member with (own | moved) | values | row
    · exact Or.inl ((mem_children_iff parts child).mpr (Or.inl own))
    · exact Or.inr (inRow ((mem_children_iff extension child).mpr (Or.inl moved)))
    · rcases SortedMap.mem_values_of_mem_values_merge _ _ _ values with own | moved
      · exact Or.inl ((mem_children_iff parts child).mpr (Or.inr (Or.inl own)))
      · exact Or.inr (inRow ((mem_children_iff extension child).mpr (Or.inr (Or.inl moved))))
    · exact Or.inr (inRow ((mem_children_iff extension child).mpr (Or.inr (Or.inr row))))

/-- A substitution does not see whether the row was spliced before it.

If the row is an application, its parts are replaced either inside the row or in
the owner; its own row is spliced by one step in the first case and by the same
step, one level higher, in the second. Merging associates, so the fields agree. -/
theorem spliceRow_map_subst (assignment : Assignment) (parts : Application Term) :
    (parts.spliceRow.map (Term.subst assignment)).spliceRow =
      (parts.map (Term.subst assignment)).spliceRow := by
  obtain ⟨functor, subterms, fields, row⟩ := parts
  cases row with
  | none => rfl
  | some row =>
    cases row with
    | var name => rfl
    | app extension =>
      obtain ⟨rowFunctor, rowSubterms, rowFields, innerRow⟩ := extension
      simp only [spliceRow, map, Option.map_some, Term.subst_app, List.map_append,
        SortedMap.map_merge]
      cases innerRow.map (Term.subst assignment) with
      | none => rfl
      | some inner =>
        cases inner with
        | var name => rfl
        | app last => simp only [List.append_assoc, SortedMap.merge_assoc]

end Application

end RowUnification
