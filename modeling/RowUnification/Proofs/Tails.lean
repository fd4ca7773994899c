import RowUnification.Proofs.Symmetry
import RowUnification.Proofs.Vocabulary
import RowUnification.Proofs.Weights

/-!
# Names, spare tails and what a run may do to them

The variables of the equations at hand are kept in a finite set of free names. A
term lies within the set, or it ends in a spare tail: its only variable outside the
set is its row, or the term is that variable. New tails are spare when they are
made.

`Engine.Advances` says what a run may do: it refines the store, carries the names
into a set that is no larger, and leaves every other variable that was known
before alone, except for the given tails. Such steps compose. Binding a name to a
term within the set takes it out of the set; binding a name to a term that ends in
a spare tail exchanges it for the tail; binding a spare tail changes nothing about
the set.
-/

namespace RowUnification

namespace Term

/-- All variables of the term are among the names. -/
def Within (names : Finset Name) (term : Term) : Prop := ∀ name ∈ term.occurrences, name ∈ names

end Term

/-- The subterms and fields of the application lie within the names. -/
def Application.InnerWithin (names : Finset Name) (parts : Application Term) : Prop :=
  ∀ child, child ∈ parts.subterms ∨ child ∈ parts.fields.values → child.Within names

namespace Term

/-- The term is the tail, or an application whose row is the tail and whose other parts
lie within the names. -/
inductive EndsIn (names : Finset Name) (tail : Name) : Term → Prop
  /-- The tail itself. -/
  | var : EndsIn names tail (.var tail)
  /-- An application with the tail as its row. -/
  | app (parts : Application Term) (row : parts.row = some (.var tail))
      (inner : parts.InnerWithin names) : EndsIn names tail (.app parts)

variable {names : Finset Name} {tail : Name}

/-- A variable lies within the names exactly if it is one of them. -/
theorem within_var_iff (name : Name) : (var name).Within names ↔ name ∈ names := by
  simp [Within]

/-- The parts of an application within the names lie within them. -/
theorem Within.child {parts : Application Term} (within : (app parts).Within names) (child : Term)
    (member : child ∈ parts.children) : child.Within names := fun name inside =>
  within name (occurrences_of_child parts child member name inside)

/-- The subterms and fields of an application within the names lie within them. -/
theorem Within.inner {parts : Application Term} (within : (app parts).Within names) :
    parts.InnerWithin names := fun child member =>
  within.child child ((Application.mem_children_iff parts child).mpr (member.imp_right Or.inl))

/-- An application that ends in a tail has it as its row. -/
theorem EndsIn.row_inner {parts : Application Term} (ends : (Term.app parts).EndsIn names tail) :
    parts.row = some (.var tail) ∧ parts.InnerWithin names := by
  cases ends with
  | app _ row inner => exact ⟨row, inner⟩

/-- A term that ends in a tail has the tail and names as its variables. -/
theorem EndsIn.mem_occurrences {term : Term} (ends : term.EndsIn names tail) (name : Name)
    (inside : name ∈ term.occurrences) : name = tail ∨ name ∈ names := by
  cases ends with
  | var => exact Or.inl ((mem_occurrences_var tail name).mp inside)
  | app parts row inner =>
    obtain ⟨child, member, occurs⟩ := (mem_occurrences_app parts name).mp inside
    rcases (Application.mem_children_iff parts child).mp member with subterm | field | isRow
    · exact Or.inr (inner child (Or.inl subterm) name occurs)
    · exact Or.inr (inner child (Or.inr field) name occurs)
    · obtain rfl := Option.some.inj (row.symm.trans isRow)
      exact Or.inl ((mem_occurrences_var tail name).mp occurs)

section Apply

variable {store : Store} {later : Finset Name}

/-- A term whose variables resolve within names resolves within them. -/
theorem within_apply (term : Term)
    (carried : ∀ name ∈ term.occurrences, (store.apply (.var name)).Within later) :
    (store.apply term).Within later := by
  intro name inside
  obtain ⟨source, present, image⟩ := mem_occurrences_subst store.lookup? term name inside
  exact carried source present name image

/-- If the tail resolves within the names, so does a term that ends in it. -/
theorem EndsIn.within_apply {term : Term} (ends : term.EndsIn names tail)
    (carried : ∀ name ∈ names, (store.apply (.var name)).Within later)
    (tailWithin : (store.apply (.var tail)).Within later) : (store.apply term).Within later := by
  refine Term.within_apply term fun name inside => ?_
  rcases ends.mem_occurrences name inside with rfl | member
  · exact tailWithin
  · exact carried name member

/-- If the tail resolves to a term that ends in another tail, so does a term that ends in
the tail: the row is spliced where it becomes an application. -/
theorem EndsIn.endsIn_apply {term : Term} {other : Name} (ends : term.EndsIn names tail)
    (carried : ∀ name ∈ names, (store.apply (.var name)).Within later)
    (tailEnds : (store.apply (.var tail)).EndsIn later other) :
    (store.apply term).EndsIn later other := by
  cases ends with
  | var => exact tailEnds
  | app parts row inner =>
    have innerWithin (child : Term)
        (member : child ∈ parts.subterms ∨ child ∈ parts.fields.values) :
        (store.apply child).Within later :=
      Term.within_apply child fun name inside => carried name (inner child member name inside)
    have subterms (child : Term) (member : child ∈ parts.subterms.map store.apply) :
        child.Within later := by
      obtain ⟨original, present, rfl⟩ := List.mem_map.mp member
      exact innerWithin original (Or.inl present)
    have fields (child : Term) (member : child ∈ (parts.fields.map store.apply).values) :
        child.Within later := by
      rw [SortedMap.values_map] at member
      obtain ⟨original, present, rfl⟩ := List.mem_map.mp member
      exact innerWithin original (Or.inr present)
    have rowImage : (parts.map store.apply).row = some (store.apply (.var tail)) := by
      simp [Application.map, row]
    have applied : store.apply (.app parts) = .app (parts.map store.apply).spliceRow :=
      subst_app _ parts
    rw [applied]
    generalize store.apply (.var tail) = image at tailEnds rowImage
    cases tailEnds with
    | var =>
      rw [Application.spliceRow_of_row_var _ other rowImage]
      exact .app _ rowImage fun child member => member.elim (subterms child) (fields child)
    | app extension rowRow rowInner =>
      rw [Application.spliceRow_of_row_app _ extension rowImage]
      refine .app _ rowRow fun child member => ?_
      rcases member with subterm | field
      · rcases List.mem_append.mp subterm with own | moved
        · exact subterms child own
        · exact rowInner child (Or.inl moved)
      · rcases SortedMap.mem_values_of_mem_values_merge _ _ _ field with own | moved
        · exact fields child own
        · exact rowInner child (Or.inr moved)

end Apply

end Term

namespace Engine

/-- An active engine without a row extension or with the one that makes new row variables,
and free names that its supply does not make any more. Nor has any name been bound that the
supply still makes. -/
structure Confined (engine : Engine) (names : Finset Name) : Prop where
  /-- One pass resolves a term. -/
  normal : engine.store.Normal
  /-- The engine has not failed. -/
  active : engine.failure = none
  /-- There is no row extension, or the one that makes new row variables. -/
  standard : engine.extension = none ∨ engine.extension = some RowExtension.withNewRow
  /-- The names are free. -/
  free : ∀ name ∈ names, engine.store.lookup? name = none
  /-- The names are not made again. -/
  known : ∀ name ∈ names, name.IsBelow engine.supply.next
  /-- What is still to be made is not bound. -/
  unused : ∀ index, engine.supply.next ≤ index → engine.store.lookup? (.fresh index) = none

/-- A free variable outside the names that is not made again. -/
structure Spare (engine : Engine) (names : Finset Name) (tail : Name) : Prop where
  /-- It is none of the names. -/
  outside : tail ∉ names
  /-- It is free. -/
  free : engine.store.lookup? tail = none
  /-- It is not made again. -/
  known : tail.IsBelow engine.supply.next

/-- The term resolves to one that ends in the spare tail. -/
structure Loose (engine : Engine) (names : Finset Name) (tail : Name) (term : Term) : Prop where
  /-- The tail is spare. -/
  spare : engine.Spare names tail
  /-- The resolved term ends in it. -/
  ends : (engine.store.apply term).EndsIn names tail

/-- What a run may do: it keeps to names that are no more than before, and of the other
variables known before it touches only the given tails. -/
structure Advances (tails : List Name) (engine : Engine) (names : Finset Name) (later : Engine)
    (laterNames : Finset Name) : Prop where
  /-- The names afterwards are as they should be. -/
  confined : later.Confined laterNames
  /-- The later store refines the earlier one. -/
  refined : engine.store.RefinedBy later.store
  /-- The names resolve within the names afterwards. -/
  carried : ∀ name ∈ names, (later.store.apply (.var name)).Within laterNames
  /-- They have not become more. -/
  fewer : laterNames.card ≤ names.card
  /-- Other variables known before stay free and outside, except for the tails. -/
  untouched : ∀ name, engine.Spare names name → name ∉ tails → later.Spare laterNames name
  /-- No index is made again. -/
  supply : engine.supply.next ≤ later.supply.next

namespace Advances

variable {tails : List Name} {engine later : Engine} {names laterNames : Finset Name}

/-- Terms within the names stay within. -/
theorem within (advances : Advances tails engine names later laterNames) {term : Term}
    (before : (engine.store.apply term).Within names) :
    (later.store.apply term).Within laterNames := by
  rw [← advances.refined term]
  exact Term.within_apply _ fun name inside => advances.carried name (before name inside)

/-- Terms stay loose whose tail is not touched. -/
theorem loose (advances : Advances tails engine names later laterNames) {term : Term} {tail : Name}
    (before : engine.Loose names tail term) (kept : tail ∉ tails) :
    later.Loose laterNames tail term := by
  have spare := advances.untouched tail before.spare kept
  refine ⟨spare, ?_⟩
  rw [← advances.refined term]
  refine before.ends.endsIn_apply advances.carried ?_
  rw [Store.apply_var_of_free _ tail spare.free]
  exact .var

/-- A term that ended in a tail before it was resolved is loose if the tail is spare. -/
theorem loose_of_endsIn (advances : Advances tails engine names later laterNames) {term : Term}
    {tail : Name} (ends : term.EndsIn names tail) (spare : later.Spare laterNames tail) :
    later.Loose laterNames tail term := by
  refine ⟨spare, ends.endsIn_apply advances.carried ?_⟩
  rw [Store.apply_var_of_free _ tail spare.free]
  exact .var

/-- Equations stay covered. -/
theorem covers (advances : Advances tails engine names later laterNames)
    {equations : List Equation} (before : engine.Covers names equations) :
    later.Covers laterNames equations := by
  intro equation member name inside
  rcases inside with left | right
  · have lhsWithin : (engine.store.apply equation.lhs).Within names := fun inner occurs =>
      before equation member inner (Or.inl occurs)
    exact advances.within lhsWithin name left
  · have rhsWithin : (engine.store.apply equation.rhs).Within names := fun inner occurs =>
      before equation member inner (Or.inr occurs)
    exact advances.within rhsWithin name right

/-- More tails may be named; those that were not known before count for nothing. -/
theorem weaken {touched : List Name} (advances : Advances touched engine names later laterNames)
    (least : ∀ name ∈ touched, name.IsBelow engine.supply.next → name ∈ tails) :
    Advances tails engine names later laterNames where
  confined := advances.confined
  refined := advances.refined
  carried := advances.carried
  fewer := advances.fewer
  untouched name spare kept :=
    advances.untouched name spare fun member => kept (least name member spare.known)
  supply := advances.supply

/-- Steps compose; tails that were not known before count for nothing. -/
theorem trans {first second : List Name} {middle : Engine} {middleNames : Finset Name}
    (near : Advances first engine names middle middleNames) (tails : List Name)
    (far : Advances second middle middleNames later laterNames)
    (touched : ∀ name, name ∈ first ∨ name ∈ second → name.IsBelow engine.supply.next →
      name ∈ tails) : Advances tails engine names later laterNames where
  confined := far.confined
  refined := near.refined.trans far.refined
  carried name member := far.within (near.carried name member)
  fewer := far.fewer.trans near.fewer
  untouched name spare kept := by
    have nearKept : name ∉ first := fun member => kept (touched name (Or.inl member) spare.known)
    have farKept : name ∉ second := fun member => kept (touched name (Or.inr member) spare.known)
    exact far.untouched name (near.untouched name spare nearKept) farKept
  supply := near.supply.trans far.supply

end Advances

namespace Confined

variable {engine : Engine} {names : Finset Name}

/-- Using up indices touches nothing. -/
theorem advances_supply (confined : engine.Confined names) (supply : FreshSupply)
    (least : engine.supply.next ≤ supply.next) :
    Advances [] engine names { engine with supply } names where
  confined := ⟨confined.normal, confined.active, confined.standard, confined.free,
    fun name member => (confined.known name member).mono least,
    fun index bound => confined.unused index (least.trans bound)⟩
  refined := confined.normal.refinedBy_self
  carried name member := by
    rw [Store.apply_var_of_free _ name (confined.free name member), Term.within_var_iff]
    exact member
  fewer := Nat.le_refl _
  untouched name spare _ := ⟨spare.outside, spare.free, spare.known.mono least⟩
  supply := least

/-- Nothing done is a step. -/
theorem advances_self (confined : engine.Confined names) : Advances [] engine names engine names :=
  confined.advances_supply engine.supply (Nat.le_refl _)

/-- A name lies within the names when it is resolved. -/
theorem within_var (confined : engine.Confined names) {name : Name} (member : name ∈ names) :
    (engine.store.apply (.var name)).Within names := by
  rw [Store.apply_var_of_free _ name (confined.free name member), Term.within_var_iff]
  exact member

/-- A term within the names lies within them when it is resolved. -/
theorem within_apply (confined : engine.Confined names) {term : Term} (within : term.Within names) :
    (engine.store.apply term).Within names :=
  Term.within_apply term fun name inside => confined.within_var (within name inside)

/-- What the supply makes next is spare once it is made. -/
theorem spare_made (confined : engine.Confined names) (count drawn : Nat) (made : drawn < count) :
    Spare { engine with supply := engine.supply.after count } names
      (engine.supply.name drawn) where
  outside member := by
    have below : engine.supply.next + drawn < engine.supply.next := confined.known _ member
    omega
  free := confined.unused _ (Nat.le_add_right _ _)
  known := Nat.add_lt_add_left made _

section Bind

variable {name : Name} {term : Term} {store : Store}

/-- A binding of a free known variable keeps names that it does not bind as they should be. -/
theorem bind (confined : engine.Confined names) (success : engine.store.bind name term = .ok store)
    (known : name.IsBelow engine.supply.next) (laterNames : Finset Name)
    (others : ∀ other ∈ laterNames, other ≠ name ∧
      (other ∈ names ∨ engine.Spare names other)) :
    Confined { engine with store } laterNames where
  normal := confined.normal.bind success
  active := confined.active
  standard := confined.standard
  free other member := by
    obtain ⟨different, inside | spare⟩ := others other member
    · exact (Store.lookup?_bind_eq_none_iff confined.normal success other).mpr
        ⟨different, confined.free other inside⟩
    · exact (Store.lookup?_bind_eq_none_iff confined.normal success other).mpr
        ⟨different, spare.free⟩
  known other member := by
    obtain ⟨-, inside | spare⟩ := others other member
    · exact confined.known other inside
    · exact spare.known
  unused index least := by
    refine (Store.lookup?_bind_eq_none_iff confined.normal success _).mpr
      ⟨?_, confined.unused index least⟩
    rintro rfl
    exact Nat.lt_irrefl index (Nat.lt_of_lt_of_le known least)

/-- Binding a spare tail changes nothing about the names. -/
theorem advances_bind_spare (confined : engine.Confined names) (spare : engine.Spare names name)
    (success : engine.store.bind name term = .ok store) :
    Advances [name] engine names { engine with store } names where
  confined := confined.bind success spare.known names fun other member =>
    ⟨fun same => spare.outside (same ▸ member), Or.inl member⟩
  refined := Store.refinedBy_bind confined.normal spare.free success
  carried other member := by
    have different : other ≠ name := fun same => spare.outside (same ▸ member)
    have free : store.lookup? other = none :=
      (Store.lookup?_bind_eq_none_iff confined.normal success other).mpr
        ⟨different, confined.free other member⟩
    rw [Store.apply_var_of_free _ other free, Term.within_var_iff]
    exact member
  fewer := Nat.le_refl _
  untouched other otherSpare kept := by
    have different : other ≠ name := fun same => kept (same ▸ List.mem_singleton.mpr rfl)
    exact ⟨otherSpare.outside,
      (Store.lookup?_bind_eq_none_iff confined.normal success other).mpr
        ⟨different, otherSpare.free⟩,
      otherSpare.known⟩
  supply := Nat.le_refl _

/-- Binding a name to a term with other names and the given spare tails exchanges the name
for the tails. -/
theorem advances_bind_name (confined : engine.Confined names) (member : name ∈ names)
    (resolved : engine.store.apply term = term)
    (success : engine.store.bind name term = .ok store) (tails : List Name)
    (laterNames : Finset Name)
    (kept : ∀ other ∈ names, other ≠ name → other ∈ laterNames)
    (others : ∀ other ∈ laterNames, other ≠ name ∧
      (other ∈ names ∨ engine.Spare names other ∧ other ∈ tails))
    (within : ∀ other ∈ term.occurrences, other ≠ name → other ∈ laterNames)
    (fewer : laterNames.card ≤ names.card) :
    Advances tails engine names { engine with store } laterNames where
  confined := confined.bind success (confined.known name member) laterNames fun other inside =>
    ⟨(others other inside).1, (others other inside).2.imp_right And.left⟩
  refined := Store.refinedBy_bind confined.normal (confined.free name member) success
  carried other inside := by
    obtain ⟨-, absent, -⟩ := (Store.bind_eq_ok_iff _ _ name term).mp success
    rw [resolved] at absent
    have free := confined.free name member
    change (store.apply (.var other)).Within laterNames
    rw [Store.apply_bind confined.normal free success,
      Store.apply_var_of_free _ other (confined.free other inside), Store.subst_single_var, resolved]
    split
    · intro inner occurs
      refine within inner occurs ?_
      rintro rfl
      exact absent occurs
    · next different => exact (Term.within_var_iff other).mpr (kept other inside different)
  fewer := fewer
  untouched other spare notTail := by
    have different : other ≠ name := fun same => spare.outside (same ▸ member)
    refine ⟨fun inside => ?_,
      (Store.lookup?_bind_eq_none_iff confined.normal success other).mpr ⟨different, spare.free⟩,
      spare.known⟩
    rcases (others other inside).2 with old | ⟨-, tail⟩
    · exact spare.outside old
    · exact notTail tail
  supply := Nat.le_refl _

/-- Binding a name to a term within the names takes it out of them. -/
theorem advances_bind_within (confined : engine.Confined names) (member : name ∈ names)
    (resolved : engine.store.apply term = term)
    (success : engine.store.bind name term = .ok store) (within : term.Within names) :
    Advances [] engine names { engine with store } (names.erase name) :=
  confined.advances_bind_name member resolved success [] _
    (fun _ inside different => Finset.mem_erase.mpr ⟨different, inside⟩)
    (fun _ inside => ⟨(Finset.mem_erase.mp inside).1, Or.inl (Finset.mem_erase.mp inside).2⟩)
    (fun other occurs different => Finset.mem_erase.mpr ⟨different, within other occurs⟩)
    (Finset.card_erase_le)

/-- Binding a name to a term that ends in a spare tail exchanges the name for the tail. -/
theorem advances_bind_loose (confined : engine.Confined names) (member : name ∈ names)
    (resolved : engine.store.apply term = term)
    (success : engine.store.bind name term = .ok store) {tail : Name}
    (spare : engine.Spare names tail) (ends : term.EndsIn names tail) :
    Advances [tail] engine names { engine with store } (insert tail (names.erase name)) := by
  have tailOther : tail ≠ name := fun same => spare.outside (same ▸ member)
  refine confined.advances_bind_name member resolved success [tail] _ ?_ ?_ ?_ ?_
  · exact fun other inside different =>
      Finset.mem_insert_of_mem (Finset.mem_erase.mpr ⟨different, inside⟩)
  · intro other inside
    rcases Finset.mem_insert.mp inside with rfl | old
    · exact ⟨tailOther, Or.inr ⟨spare, List.mem_singleton.mpr rfl⟩⟩
    · exact ⟨(Finset.mem_erase.mp old).1, Or.inl (Finset.mem_erase.mp old).2⟩
  · intro other occurs different
    rcases ends.mem_occurrences other occurs with rfl | old
    · exact Finset.mem_insert_self _ _
    · exact Finset.mem_insert_of_mem (Finset.mem_erase.mpr ⟨different, old⟩)
  · have erased := Finset.card_erase_lt_of_mem member
    have inserted := Finset.card_insert_le tail (names.erase name)
    omega

end Bind

end Confined

end Engine

end RowUnification
