import RowUnification.Name

/-!
# Maps with ascending names

A record names its fields, and the fields are listed by ascending name. The
order is part of the type: a map carries the name its entries must follow, and
each entry moves this bound to its own name. Two maps with the same lookups are
therefore the same value, and no statement about records needs a hypothesis
that excludes unsorted or repeated labels.

Every operation is stated by its lookups; `ext` turns lookups into equality.
-/

namespace RowUnification

universe u v

/-- Whether a name may come next after the given bound; without one, any may. -/
def Follows : Option Name → Name → Prop
  | none, _ => True
  | some bound, name => bound < name

instance decidableFollows : (bound : Option Name) → (name : Name) → Decidable (Follows bound name)
  | none, _ => isTrue trivial
  | some bound, name => inferInstanceAs (Decidable (bound < name))

/-- What follows a name that follows the bound also follows the bound. -/
theorem Follows.trans {bound : Option Name} {first second : Name} (near : Follows bound first)
    (far : Follows (some first) second) : Follows bound second := by
  cases bound with
  | none => trivial
  | some bound => exact Name.lt_trans near far

/-- Entries by strictly ascending name, all of them after the bound. -/
inductive SortedMap (α : Type u) : Option Name → Type u where
  /-- The map without entries. -/
  | nil {bound : Option Name} : SortedMap α bound
  /-- An entry before the entries of greater names. -/
  | cons {bound : Option Name} (name : Name) (follows : Follows bound name) (value : α)
      (rest : SortedMap α (some name)) : SortedMap α bound
deriving DecidableEq

/-- A map from any names at all. -/
abbrev NameMap (α : Type u) : Type u := SortedMap α none

namespace SortedMap

variable {α : Type u} {β : Type v} {bound : Option Name}

instance : Inhabited (SortedMap α bound) := ⟨nil⟩

/-- The value of a name, if the map has one. -/
def get? : {bound : Option Name} → SortedMap α bound → Name → Option α
  | _, nil, _ => none
  | _, cons head _ value rest, name => if name = head then some value else rest.get? name

/-- Whether the name has a value. -/
def contains (entries : SortedMap α bound) (name : Name) : Bool := (entries.get? name).isSome

/-- Whether there is no entry. -/
def isEmpty : SortedMap α bound → Bool
  | nil => true
  | cons .. => false

/-- The entries by ascending name. -/
def toList : {bound : Option Name} → SortedMap α bound → List (Name × α)
  | _, nil => []
  | _, cons name _ value rest => (name, value) :: rest.toList

/-- The names by ascending order. -/
def keys (entries : SortedMap α bound) : List Name := entries.toList.map Prod.fst

/-- The values by ascending name. -/
def values (entries : SortedMap α bound) : List α := entries.toList.map Prod.snd

/-- The same names with transformed values. -/
def map (transform : α → β) : {bound : Option Name} → SortedMap α bound → SortedMap β bound
  | _, nil => nil
  | _, cons name follows value rest => cons name follows (transform value) (rest.map transform)

/-- The same entries under a bound that admits at least the same names. -/
def weaken {wider : Option Name} (admits : ∀ name, Follows bound name → Follows wider name) :
    SortedMap α bound → SortedMap α wider
  | nil => nil
  | cons name follows value rest => cons name (admits name follows) value rest

/-- The entries whose names are selected. -/
def keep (selected : Name → Bool) : {bound : Option Name} → SortedMap α bound → SortedMap α bound
  | _, nil => nil
  | _, cons name follows value rest =>
    if selected name then cons name follows value (rest.keep selected)
    else (rest.keep selected).weaken fun _ after => follows.trans after

/-- Gives a name that the bound admits a value, in place of the one it had. -/
def put : {bound : Option Name} → SortedMap α bound → (name : Name) → Follows bound name → α →
    SortedMap α bound
  | _, nil, name, admitted, value => cons name admitted value nil
  | _, cons head follows old rest, name, admitted, value =>
    if before : name < head then cons name admitted value (cons head before old rest)
    else if after : head < name then cons head follows old (rest.put name after value)
    else cons head follows value rest

/-- Gives a name a value, in place of the one it had. -/
def insert (entries : NameMap α) (name : Name) (value : α) : NameMap α :=
  entries.put name trivial value

/-- The entries of both maps; where both name a value, the second map's counts. -/
def merge (base : NameMap α) : {bound : Option Name} → SortedMap α bound → NameMap α
  | _, nil => base
  | _, cons name _ value rest => merge (base.insert name value) rest

/-- Reads entries in any order; of a repeated name the last value counts. -/
def ofList (entries : List (Name × α)) : NameMap α :=
  entries.foldl (fun built entry => built.insert entry.1 entry.2) nil

@[simp] theorem get?_nil (name : Name) : (nil : SortedMap α bound).get? name = none := rfl

theorem get?_cons (head : Name) (follows : Follows bound head) (value : α)
    (rest : SortedMap α (some head)) (name : Name) :
    (cons head follows value rest).get? name =
      if name = head then some value else rest.get? name := rfl

/-- A name that the bound excludes has no value. -/
theorem get?_eq_none_of_not_follows (entries : SortedMap α bound) (name : Name)
    (excluded : ¬ Follows bound name) : entries.get? name = none := by
  induction entries with
  | nil => rfl
  | cons head follows value rest inductionHypothesis =>
    have different : name ≠ head := by
      rintro rfl
      exact excluded follows
    rw [get?_cons, if_neg different]
    exact inductionHypothesis fun after => excluded (follows.trans after)

/-- The first name of a map is not among the names after it. -/
theorem get?_rest (head : Name) (rest : SortedMap α (some head)) : rest.get? head = none :=
  get?_eq_none_of_not_follows rest head (Name.lt_irrefl head)

@[simp] theorem get?_map (transform : α → β) (entries : SortedMap α bound) (name : Name) :
    (entries.map transform).get? name = (entries.get? name).map transform := by
  induction entries with
  | nil => rfl
  | cons head follows value rest inductionHypothesis =>
    simp only [map, get?_cons, inductionHypothesis]
    split <;> rfl

@[simp] theorem get?_weaken {wider : Option Name}
    (admits : ∀ name, Follows bound name → Follows wider name) (entries : SortedMap α bound)
    (name : Name) : (entries.weaken admits).get? name = entries.get? name := by
  cases entries <;> rfl

theorem get?_keep (selected : Name → Bool) (entries : SortedMap α bound) (name : Name) :
    (entries.keep selected).get? name = if selected name then entries.get? name else none := by
  induction entries with
  | nil => simp [keep]
  | cons head follows value rest inductionHypothesis =>
    by_cases chosen : selected head
    · simp only [keep, if_pos chosen, get?_cons, inductionHypothesis]
      by_cases same : name = head
      · simp [same, chosen]
      · simp [same]
    · simp only [keep, if_neg chosen, get?_weaken, get?_cons, inductionHypothesis]
      by_cases same : name = head
      · simp [same, chosen]
      · simp [same]

theorem get?_put (entries : SortedMap α bound) (name : Name) (admitted : Follows bound name)
    (value : α) (other : Name) :
    (entries.put name admitted value).get? other =
      if other = name then some value else entries.get? other := by
  induction entries with
  | nil => rfl
  | cons head follows old rest inductionHypothesis =>
    unfold put
    split
    · rfl
    · next notBefore =>
      split
      · next after =>
        have different : name ≠ head := by
          rintro rfl
          exact notBefore after
        have inRest := inductionHypothesis after
        simp only [get?_cons, inRest]
        by_cases same : other = head
        · subst same
          simp [Ne.symm different]
        · simp [same]
      · next notAfter =>
        have same : name = head := Name.eq_of_not_lt notBefore notAfter
        subst same
        simp only [get?_cons]
        split <;> rfl

theorem get?_insert (entries : NameMap α) (name : Name) (value : α) (other : Name) :
    (entries.insert name value).get? other =
      if other = name then some value else entries.get? other :=
  get?_put entries name trivial value other

/-- A merge looks into the second map first. -/
theorem get?_merge (base : NameMap α) (entries : SortedMap α bound) (name : Name) :
    (base.merge entries).get? name = (entries.get? name).or (base.get? name) := by
  induction entries generalizing base with
  | nil => rfl
  | cons head follows value rest inductionHypothesis =>
    rw [merge, inductionHypothesis, get?_insert, get?_cons]
    by_cases same : name = head
    · subst same
      simp [get?_rest]
    · simp [same]

@[simp] theorem toList_map (transform : α → β) (entries : SortedMap α bound) :
    (entries.map transform).toList = entries.toList.map fun entry => (entry.1, transform entry.2) := by
  induction entries with
  | nil => rfl
  | cons name follows value rest inductionHypothesis => simp [map, toList, inductionHypothesis]

@[simp] theorem keys_map (transform : α → β) (entries : SortedMap α bound) :
    (entries.map transform).keys = entries.keys := by
  simp [keys]

@[simp] theorem values_map (transform : α → β) (entries : SortedMap α bound) :
    (entries.map transform).values = entries.values.map transform := by
  simp [values]

/-- The names of a map follow its bound. -/
theorem follows_of_mem_keys (entries : SortedMap α bound) (name : Name)
    (member : name ∈ entries.keys) : Follows bound name := by
  induction entries with
  | nil => simp [keys, toList] at member
  | cons head follows value rest inductionHypothesis =>
    rcases List.mem_cons.mp member with same | member
    · exact same ▸ follows
    · exact follows.trans (inductionHypothesis member)

/-- The names of a map ascend. -/
theorem keys_ascending (entries : SortedMap α bound) : entries.keys.Pairwise (· < ·) := by
  induction entries with
  | nil => exact List.Pairwise.nil
  | cons head follows value rest inductionHypothesis =>
    exact List.pairwise_cons.mpr
      ⟨fun name member => follows_of_mem_keys rest name member, inductionHypothesis⟩

/-- The entries listed are the lookups. -/
theorem mem_toList_iff (entries : SortedMap α bound) (name : Name) (value : α) :
    (name, value) ∈ entries.toList ↔ entries.get? name = some value := by
  induction entries with
  | nil => simp [toList]
  | cons head follows first rest inductionHypothesis =>
    rw [toList, List.mem_cons, inductionHypothesis, get?_cons]
    by_cases same : name = head
    · subst same
      simp [get?_rest, eq_comm]
    · simp [same]

/-- Lookups determine the map: the smallest name of each side is found on the
other, so the two smallest names agree, and then so do the rests. -/
theorem ext {left right : SortedMap α bound}
    (same : ∀ name, left.get? name = right.get? name) : left = right := by
  induction left with
  | nil =>
    cases right with
    | nil => rfl
    | cons head follows value rest => simpa [get?_cons] using same head
  | cons head follows value rest inductionHypothesis =>
    cases right with
    | nil => simpa [get?_cons] using same head
    | cons other otherFollows otherValue otherRest =>
      have headAgrees : head = other := by
        apply Name.eq_of_not_lt
        · intro before
          have missing := same head
          rw [get?_cons, if_pos rfl, get?_cons, if_neg (by
            rintro rfl
            exact Name.lt_irrefl _ before), get?_eq_none_of_not_follows otherRest head
              fun after => Name.lt_irrefl _ (Name.lt_trans before after)] at missing
          contradiction
        · intro before
          have missing := same other
          rw [get?_cons head follows value rest other, if_neg (by
            rintro rfl
            exact Name.lt_irrefl _ before), get?_eq_none_of_not_follows rest other
              fun after => Name.lt_irrefl _ (Name.lt_trans before after), get?_cons,
            if_pos rfl] at missing
          contradiction
      subst headAgrees
      have valueAgrees : value = otherValue := by simpa [get?_cons] using same head
      subst valueAgrees
      have restAgrees : rest = otherRest := by
        apply inductionHypothesis
        intro name
        by_cases first : name = head
        · rw [first, get?_rest, get?_rest]
        · simpa [get?_cons, first] using same name
      rw [restAgrees]

end SortedMap

/-- A set of names. -/
abbrev NameSet : Type := NameMap Unit

namespace NameSet

/-- The set with one more name. -/
def add (names : NameSet) (name : Name) : NameSet := names.insert name ()

/-- The names of a list, in any order and however often they occur. -/
def ofList (names : List Name) : NameSet := names.foldl add .nil

end NameSet

/-- The names of the entries, as a set. -/
def SortedMap.keySet {α : Type u} {bound : Option Name} (entries : SortedMap α bound) :
    SortedMap Unit bound :=
  entries.map fun _ => ()

end RowUnification
