import RowUnification.Term.Order
import RowUnification.Term.Substitution
import RowUnification.Term.Variables

/-!
# The store of bindings

A store lists the bound variables in the order of their first binding and keeps an
index of their positions, so a lookup goes to one position and does not search the
list. It is kept composed: every new binding is resolved through the store and then
carried into the terms that are bound already, so one pass over a term resolves all
of its variables. A binding that would make a variable stand for a term that
contains it is refused.

List and index are separate data. `Store.Indexed` says that they agree; composing
and recording keep it, and what a lookup finds is stated for stores that have it.
-/

namespace RowUnification

/-- A binding that was refused because the variable occurs in the term. -/
structure Cycle where
  /-- The variable that was to be bound. -/
  name : Name
  /-- The term that it occurs in. -/
  term : Term
deriving DecidableEq

/-- The bindings of variables in the order of their first binding. -/
structure Store where
  /-- The bound variables with their terms. -/
  entries : List (Name × Term) := []
  /-- The position of each bound variable among the entries. -/
  positions : NameMap Nat := .nil
deriving DecidableEq

namespace Store

/-- The store without bindings. -/
def empty : Store := {}

/-- The number of bound variables. -/
def size (store : Store) : Nat := store.entries.length

/-- Whether no variable is bound. -/
def isEmpty (store : Store) : Bool := store.entries.isEmpty

/-- The bound variables. -/
def keys (store : Store) : List Name := store.entries.map Prod.fst

/-- The position of a variable's binding. -/
def position? (store : Store) (name : Name) : Option Nat := store.positions.get? name

/-- Whether a variable is bound. -/
def contains (store : Store) (name : Name) : Bool := (store.position? name).isSome

/-- The term bound to a variable: the one at the position of its binding. -/
def lookup? (store : Store) (name : Name) : Option Term :=
  (store.position? name).bind fun position => store.entries[position]?.map Prod.snd

/-- Replaces every bound variable of a term by its term. -/
def apply (store : Store) (term : Term) : Term := term.subst store.lookup?

/-- Carries an assignment into the bound terms. -/
def compose (store : Store) (assignment : Assignment) : Store :=
  { store with entries := store.entries.map fun entry => (entry.1, entry.2.subst assignment) }

/-- Records a term for a variable: at its position if it is bound, else at the end. -/
def record (store : Store) (name : Name) (term : Term) : Store :=
  match store.position? name with
  | some position =>
    { store with entries := store.entries.modify position fun entry => (entry.1, term) }
  | none =>
    { entries := store.entries ++ [(name, term)]
      positions := store.positions.insert name store.entries.length }

/-- Asks to bind a variable to a term, resolved first: the outcome, and the store afterwards. The
variable may occur neither in the term as given nor in the resolved one. -/
def request (store : Store) (name : Name) (term : Term) : Except Cycle Unit × Store :=
  if term.occurs name then (.error ⟨name, term⟩, store)
  else
    let resolved := store.apply term
    if resolved.occurs name then (.error ⟨name, resolved⟩, store)
    else
      let composed := store.compose (.single name resolved)
      (.ok (), composed.record name resolved)

/-- The store with the variable bound, or why it is refused. -/
def bind (store : Store) (name : Name) (term : Term) : Except Cycle Store :=
  match store.request name term with
  | (.ok (), bound) => .ok bound
  | (.error cycle, _) => .error cycle

/-- Adds bindings one after another until one is refused. -/
def bindAll (store : Store) : List (Name × Term) → Except Cycle Store
  | [] => .ok store
  | (name, term) :: rest =>
    match store.bind name term with
    | .ok bound => bound.bindAll rest
    | .error cycle => .error cycle

/-- The store of the given bindings, made in their order. -/
def ofEntries (entries : List (Name × Term)) : Except Cycle Store := empty.bindAll entries

/-- A binding is refused as soon as the variable is found in the term, as given or as resolved. -/
theorem bind_eq (store : Store) (name : Name) (term : Term) :
    store.bind name term =
      if term.occurs name then .error ⟨name, term⟩
      else if (store.apply term).occurs name then .error ⟨name, store.apply term⟩
      else .ok ((store.compose (.single name (store.apply term))).record name
        (store.apply term)) := by
  unfold bind request
  by_cases given : term.occurs name = true
  · simp only [if_pos given]
  · by_cases resolved : (store.apply term).occurs name = true
    · simp only [if_neg given, if_pos resolved]
    · simp only [if_neg given, if_neg resolved]

/-- A request that is granted leaves the store with the binding. One that is refused leaves the
store as it was: both checks come before the first change. -/
theorem request_eq (store : Store) (name : Name) (term : Term) :
    store.request name term =
      match store.bind name term with
      | .ok bound => (.ok (), bound)
      | .error cycle => (.error cycle, store) := by
  unfold bind request
  by_cases given : term.occurs name = true
  · simp only [if_pos given]
  · by_cases resolved : (store.apply term).occurs name = true
    · simp only [if_neg given, if_pos resolved]
    · simp only [if_neg given, if_neg resolved]

@[simp] theorem keys_compose (store : Store) (assignment : Assignment) :
    (store.compose assignment).keys = store.keys := by
  simp [keys, compose]

/-- Composing reaches every bound term and moves no binding. -/
theorem lookup?_compose (store : Store) (assignment : Assignment) (name : Name) :
    (store.compose assignment).lookup? name = (store.lookup? name).map (Term.subst assignment) := by
  have samePosition : (store.compose assignment).position? name = store.position? name := rfl
  simp only [lookup?, samePosition]
  cases store.position? name with
  | none => rfl
  | some position => simp [compose, Function.comp_def]

/-- A bound variable keeps its position. -/
theorem record_of_bound (store : Store) (name : Name) (term : Term) (position : Nat)
    (known : store.position? name = some position) :
    store.record name term =
      { store with entries := store.entries.modify position fun entry => (entry.1, term) } := by
  simp only [record, known]

/-- A new variable comes last. -/
theorem record_of_new (store : Store) (name : Name) (term : Term)
    (missing : store.position? name = none) :
    store.record name term =
      { entries := store.entries ++ [(name, term)]
        positions := store.positions.insert name store.entries.length } := by
  simp only [record, missing]

/-- A list with one more item at the end has that item at the end and the others where they
were. -/
theorem getElem?_concat_eq_some_iff {α : Type} (list : List α) (last item : α) (position : Nat) :
    (list ++ [last])[position]? = some item ↔
      list[position]? = some item ∨ (position = list.length ∧ last = item) := by
  rcases Nat.lt_trichotomy position list.length with before | rfl | after
  · rw [List.getElem?_append_left before]
    simp [Nat.ne_of_lt before]
  · simp
  · rw [List.getElem?_append_right (Nat.le_of_lt after)]
    have beyond : position - list.length ≠ 0 := by omega
    have outside : list[position]? = none := List.getElem?_eq_none (Nat.le_of_lt after)
    simp [beyond, outside, Nat.ne_of_gt after]

/-- The index has the position of every binding and no other positions. -/
def Indexed (store : Store) : Prop :=
  ∀ name position, store.position? name = some position ↔ store.keys[position]? = some name

namespace Indexed

variable {store : Store}

/-- Without bindings the index is empty. -/
theorem empty : empty.Indexed := fun _ _ => iff_of_false nofun nofun

/-- Composing moves no binding. -/
theorem compose (indexed : store.Indexed) (assignment : Assignment) :
    (store.compose assignment).Indexed := by
  intro name position
  rw [keys_compose]
  exact indexed name position

/-- A known position has the binding of its variable. -/
theorem entry_of_position (indexed : store.Indexed) {name : Name} {position : Nat}
    (known : store.position? name = some position) :
    ∃ term, store.entries[position]? = some (name, term) := by
  have key := (indexed name position).mp known
  rw [keys, List.getElem?_map, Option.map_eq_some_iff] at key
  obtain ⟨⟨other, term⟩, found, rfl⟩ := key
  exact ⟨term, found⟩

/-- The position of a variable is missing exactly if the variable is not bound. -/
theorem position?_eq_none_iff (indexed : store.Indexed) (name : Name) :
    store.position? name = none ↔ name ∉ store.keys := by
  rw [List.mem_iff_getElem?]
  constructor
  · rintro missing ⟨position, key⟩
    rw [← indexed name position, missing] at key
    contradiction
  · intro unbound
    cases known : store.position? name with
    | none => rfl
    | some position => exact absurd ⟨position, (indexed name position).mp known⟩ unbound

/-- A lookup finds exactly the entries. -/
theorem lookup?_eq_some_iff (indexed : store.Indexed) (name : Name) (term : Term) :
    store.lookup? name = some term ↔ (name, term) ∈ store.entries := by
  rw [lookup?, Option.bind_eq_some_iff, List.mem_iff_getElem?]
  constructor
  · rintro ⟨position, known, bound⟩
    obtain ⟨own, found⟩ := indexed.entry_of_position known
    rw [found] at bound
    cases bound
    exact ⟨position, found⟩
  · rintro ⟨position, found⟩
    have key : store.keys[position]? = some name := by rw [keys, List.getElem?_map, found]; rfl
    exact ⟨position, (indexed name position).mpr key, by rw [found]; rfl⟩

/-- A lookup finds nothing exactly for the variables that are not bound. -/
theorem lookup?_eq_none_iff (indexed : store.Indexed) (name : Name) :
    store.lookup? name = none ↔ name ∉ store.keys := by
  rw [← indexed.position?_eq_none_iff]
  unfold lookup?
  cases known : store.position? name with
  | none => exact iff_of_true rfl rfl
  | some position =>
    obtain ⟨term, found⟩ := indexed.entry_of_position known
    simp [found]

/-- No variable is bound at two positions. -/
theorem nodup_keys (indexed : store.Indexed) : store.keys.Nodup := by
  rw [List.nodup_iff_pairwise_ne, List.pairwise_iff_getElem]
  intro first second firstBound secondBound before same
  have atFirst : store.position? store.keys[first] = some first :=
    (indexed _ first).mpr (List.getElem?_eq_getElem firstBound)
  have atSecond : store.position? store.keys[first] = some second :=
    (indexed _ second).mpr (same ▸ List.getElem?_eq_getElem secondBound)
  have positions : first = second := Option.some.inj (atFirst.symm.trans atSecond)
  omega

/-- A new variable becomes the last key; a bound one keeps its place. -/
theorem keys_record (indexed : store.Indexed) (name : Name) (term : Term) :
    (store.record name term).keys =
      if name ∈ store.keys then store.keys else store.keys ++ [name] := by
  cases known : store.position? name with
  | none =>
    rw [if_neg ((indexed.position?_eq_none_iff name).mp known), record_of_new store name term known]
    simp [keys]
  | some position =>
    rw [if_pos (List.mem_of_getElem? ((indexed name position).mp known)),
      record_of_bound store name term position known]
    apply List.ext_getElem?
    intro index
    simp only [keys, List.getElem?_map, List.getElem?_modify]
    cases store.entries[index]? with
    | none => rfl
    | some entry => by_cases here : position = index <;> simp [here]

/-- Recording keeps the index: a bound variable stays where it is, and a new one gets the
position at the end. -/
theorem record (indexed : store.Indexed) (name : Name) (term : Term) :
    (store.record name term).Indexed := by
  intro other position
  rw [indexed.keys_record]
  cases known : store.position? name with
  | some own =>
    rw [if_pos (List.mem_of_getElem? ((indexed name own).mp known)),
      record_of_bound store name term own known]
    exact indexed other position
  | none =>
    have unbound := (indexed.position?_eq_none_iff name).mp known
    have found : (store.record name term).position? other =
        if other = name then some store.keys.length else store.position? other := by
      rw [record_of_new store name term known]
      simp [position?, SortedMap.get?_insert, keys]
    rw [if_neg unbound, found, getElem?_concat_eq_some_iff]
    by_cases same : other = name
    · have notBefore : store.keys[position]? ≠ some other := fun key =>
        unbound (same ▸ List.mem_of_getElem? key)
      simp [same, same ▸ notBefore, eq_comm]
    · simp [same, Ne.symm same, indexed other position]

/-- A lookup of the recorded variable finds the recorded term; other variables keep theirs. -/
theorem lookup?_record (indexed : store.Indexed) (name : Name) (term : Term) (other : Name) :
    (store.record name term).lookup? other =
      if other = name then some term else store.lookup? other := by
  cases known : store.position? name with
  | none =>
    have unbound := (indexed.position?_eq_none_iff name).mp known
    apply Option.ext
    intro value
    rw [(indexed.record name term).lookup?_eq_some_iff, record_of_new store name term known,
      List.mem_append, List.mem_singleton, ← indexed.lookup?_eq_some_iff]
    by_cases same : other = name
    · subst same
      simp [(indexed.lookup?_eq_none_iff other).mpr unbound, eq_comm]
    · simp [same]
  | some position =>
    have samePosition : (store.record name term).position? other = store.position? other := by
      rw [record_of_bound store name term position known]
      rfl
    rw [lookup?, samePosition, record_of_bound store name term position known]
    by_cases same : other = name
    · subst same
      obtain ⟨old, found⟩ := indexed.entry_of_position known
      simp [known, found]
    · have elsewhere (index : Nat) (there : store.position? other = some index) :
          position ≠ index := by
        rintro rfl
        have key :=
          ((indexed name position).mp known).symm.trans ((indexed other position).mp there)
        exact same (Option.some.inj key).symm
      rw [if_neg same, lookup?]
      cases there : store.position? other with
      | none => rfl
      | some index => simp [List.getElem?_modify, elsewhere index there, Function.comp_def]

end Indexed

end Store

end RowUnification
