import Mathlib.Data.List.Induction
import Mathlib.Logic.Relation
import RowUnification.Proofs.RowFree
import RowUnification.Proofs.StoreHistory

/-!
# Making a store of given bindings

A store of bindings for different variables is made by adding one binding after another. A
variable depends on another one if both are to be bound and the second one occurs in the term of
the first. Adding a binding fails on terms that are resolved already, so what counts is where a
variable leads by any number of such steps.

If no variable leads back to itself, every order of the bindings makes a store: each variable in a
bound term is one that the key leads to, so none is a key that is being bound. The store solves
the bindings, as equations, and it is the most general one that does. Two such stores with the same
keys refine each other and have nothing left to replace in each other's terms, so they are the same
up to the order of the keys; no recursion along the dependencies is needed.

If some variable leads back to itself and there are no rows, every order fails. The last binding of
a cycle meets a store in which the other ones lead to its variable, and without rows no field that
has the variable is overridden on the way. With rows that may happen, and then the order decides.
-/

namespace RowUnification.Store

section Dependencies

variable {entries order : List (Name × Term)}

/-- The second variable occurs in the term for the first one. -/
def Refers (entries : List (Name × Term)) (name other : Name) : Prop :=
  ∃ term, (name, term) ∈ entries ∧ other ∈ term.occurrences

/-- Both variables are to be bound, and the second one occurs in the term for the first one. -/
def DependsOn (entries : List (Name × Term)) (name other : Name) : Prop :=
  other ∈ entries.map Prod.fst ∧ Refers entries name other

/-- No variable depends on itself, directly or through others. -/
def Acyclic (entries : List (Name × Term)) : Prop :=
  ∀ name, ¬ Relation.TransGen (DependsOn entries) name name

/-- A variable that refers to another one is to be bound. -/
theorem Refers.mem_keys {name other : Name} (refers : Refers entries name other) :
    name ∈ entries.map Prod.fst := by
  obtain ⟨term, member, -⟩ := refers
  exact List.mem_map.mpr ⟨(name, term), member, rfl⟩

/-- References that lead to a variable to be bound are dependencies. -/
theorem dependsOn_of_refers {name other : Name}
    (leads : Relation.TransGen (Refers entries) name other) (key : other ∈ entries.map Prod.fst) :
    Relation.TransGen (DependsOn entries) name other := by
  induction leads with
  | single refers => exact .single ⟨key, refers⟩
  | tail _ refers inductionHypothesis =>
    exact (inductionHypothesis refers.mem_keys).tail ⟨key, refers⟩

/-- Without cycles, no variable leads to itself. -/
theorem acyclic_iff : Acyclic entries ↔ ∀ name, ¬ Relation.TransGen (Refers entries) name name := by
  constructor
  · intro acyclic name leads
    obtain ⟨other, refers, -⟩ := Relation.TransGen.head'_iff.mp leads
    exact acyclic name (dependsOn_of_refers leads refers.mem_keys)
  · intro irreflexive name depends
    exact irreflexive name
      (Relation.TransGen.mono (fun _ _ depends => depends.2) name name depends)

/-- Dependencies do not regard the order. -/
theorem Acyclic.perm (acyclic : Acyclic entries) (permuted : order.Perm entries) :
    Acyclic order := by
  have same (first second : Name) (depends : DependsOn order first second) :
      DependsOn entries first second := by
    obtain ⟨key, term, member, inside⟩ := depends
    exact ⟨(permuted.map Prod.fst).mem_iff.mp key, term, permuted.mem_iff.mp member, inside⟩
  intro name depends
  exact acyclic name (Relation.TransGen.mono same name name depends)

/-- Bindings are without cycles if each variable is ranked above those that it depends on. -/
theorem acyclic_of_rank (rank : Name → Nat)
    (descends : ∀ entry ∈ entries, ∀ other ∈ entry.2.occurrences,
      other ∈ entries.map Prod.fst → rank other < rank entry.1) : Acyclic entries := by
  have below (name other : Name) (depends : Relation.TransGen (DependsOn entries) name other) :
      rank other < rank name := by
    induction depends with
    | single depends =>
      obtain ⟨key, term, member, inside⟩ := depends
      exact descends (name, term) member _ inside key
    | tail _ depends inductionHypothesis =>
      obtain ⟨key, term, member, inside⟩ := depends
      exact Nat.lt_trans (descends (_, term) member _ inside key) inductionHypothesis
  intro name depends
  exact Nat.lt_irrefl _ (below name name depends)

/-- With one more binding, a way leads along the others, or it takes the new one: then it leads to
the new key and from there, by a variable of the new term, to its end. -/
theorem refers_concat {key : Name} {term : Term} {first second : Name}
    (leads : Relation.TransGen (Refers (entries ++ [(key, term)])) first second) :
    Relation.TransGen (Refers entries) first second ∨
      (Relation.ReflTransGen (Refers entries) first key ∧
        ∃ source ∈ term.occurrences, Relation.ReflTransGen (Refers entries) source second) := by
  have split (name other : Name) (refers : Refers (entries ++ [(key, term)]) name other) :
      Refers entries name other ∨ (name = key ∧ other ∈ term.occurrences) := by
    obtain ⟨own, member, inside⟩ := refers
    rcases List.mem_append.mp member with old | new
    · exact Or.inl ⟨own, old, inside⟩
    · obtain ⟨rfl, rfl⟩ : name = key ∧ own = term := by simpa using new
      exact Or.inr ⟨rfl, inside⟩
  induction leads with
  | single refers =>
    rcases split _ _ refers with old | ⟨rfl, inside⟩
    · exact Or.inl (.single old)
    · exact Or.inr ⟨.refl, _, inside, .refl⟩
  | tail _ refers inductionHypothesis =>
    rcases split _ _ refers with old | ⟨rfl, inside⟩
    · rcases inductionHypothesis with direct | ⟨before, source, present, after⟩
      · exact Or.inl (direct.tail old)
      · exact Or.inr ⟨before, source, present, after.tail old⟩
    · rcases inductionHypothesis with direct | ⟨before, -⟩
      · exact Or.inr ⟨direct.to_reflTransGen, _, inside, .refl⟩
      · exact Or.inr ⟨before, _, inside, .refl⟩

end Dependencies

section Success

variable {store bound final : Store} {entries : List (Name × Term)} {name : Name} {term : Term}

/-- Adding bindings goes on from the store that the first ones make. -/
theorem bindAll_append_eq_ok_iff (first second : List (Name × Term)) :
    store.bindAll (first ++ second) = .ok final ↔
      ∃ bound, store.bindAll first = .ok bound ∧ bound.bindAll second = .ok final := by
  induction first generalizing store with
  | nil => simp [bindAll]
  | cons entry rest inductionHypothesis =>
    obtain ⟨name, term⟩ := entry
    simp only [List.cons_append, bindAll_cons_eq_ok_iff, inductionHypothesis]
    constructor
    · rintro ⟨next, head, bound, middle, tail⟩
      exact ⟨bound, ⟨next, head, middle⟩, tail⟩
    · rintro ⟨bound, ⟨next, head, middle⟩, tail⟩
      exact ⟨next, head, bound, middle, tail⟩

/-- Every variable in a bound term is one that the key leads to. -/
def Traces (store : Store) (entries : List (Name × Term)) : Prop :=
  ∀ name term, store.lookup? name = some term →
    ∀ other ∈ term.occurrences, Relation.TransGen (Refers entries) name other

/-- Every variable of a resolved term is one that a variable of the term leads to. -/
theorem Traces.apply (traces : store.Traces entries) (other : Name)
    (inside : other ∈ (store.apply term).occurrences) :
    ∃ source ∈ term.occurrences, Relation.ReflTransGen (Refers entries) source other := by
  rcases mem_occurrences_apply store term other inside with
    ⟨present, -⟩ | ⟨source, present, value, found, image⟩
  · exact ⟨other, present, .refl⟩
  · exact ⟨source, present, (traces source value found other image).to_reflTransGen⟩

/-- Every variable of the term for a key, resolved, is one that the key leads to. -/
theorem Traces.leads (traces : store.Traces entries) (member : (name, term) ∈ entries)
    (other : Name) (inside : other ∈ (store.apply term).occurrences) :
    Relation.TransGen (Refers entries) name other := by
  obtain ⟨source, present, leads⟩ := traces.apply other inside
  exact .head' ⟨term, member, present⟩ leads

/-- Adding a binding keeps the traces. -/
theorem Traces.bind (traces : store.Traces entries) (normal : store.Normal)
    (member : (name, term) ∈ entries) (success : store.bind name term = .ok bound) :
    bound.Traces entries := by
  intro key value found other inside
  rw [lookup?_bind normal success] at found
  split at found
  · next same =>
    cases found
    exact same ▸ traces.leads member other inside
  · obtain ⟨old, oldFound, rfl⟩ := Option.map_eq_some_iff.mp found
    rcases mem_occurrences_subst_single _ _ old other inside with ⟨-, inOld⟩ | ⟨inOld, image⟩
    · exact traces key old oldFound other inOld
    · exact (traces key old oldFound name inOld).trans (traces.leads member other image)

/-- Bindings without cycles are all accepted. -/
theorem exists_bindAll (acyclic : Acyclic entries) (rest : List (Name × Term))
    (listed : ∀ entry ∈ rest, entry ∈ entries) (normal : store.Normal)
    (traces : store.Traces entries) : ∃ final, store.bindAll rest = .ok final := by
  induction rest generalizing store with
  | nil => exact ⟨store, rfl⟩
  | cons entry rest inductionHypothesis =>
    obtain ⟨name, term⟩ := entry
    have member := listed (name, term) List.mem_cons_self
    have irreflexive := acyclic_iff.mp acyclic name
    have accepted : ∃ bound, store.bind name term = .ok bound := by
      refine ⟨_, (bind_eq_ok_iff store _ name term).mpr ⟨?_, ?_, rfl⟩⟩
      · intro inside
        exact irreflexive (.single ⟨term, member, inside⟩)
      · intro inside
        exact irreflexive (traces.leads member name inside)
    obtain ⟨bound, success⟩ := accepted
    obtain ⟨final, later⟩ := inductionHypothesis
      (fun other inRest => listed other (List.mem_cons_of_mem _ inRest))
      (normal.bind success) (traces.bind normal member success)
    exact ⟨final, (bindAll_cons_eq_ok_iff store final name term rest).mpr ⟨bound, success, later⟩⟩

/-- What adding bindings for new variables to a store makes of it. -/
structure Completes (store : Store) (entries : List (Name × Term)) (final : Store) : Prop where
  /-- One pass resolves a term. -/
  normal : final.Normal
  /-- The new keys come after the old ones, in the order of the bindings. -/
  keys : final.keys = store.keys ++ entries.map Prod.fst
  /-- The store was only refined. -/
  refined : store.RefinedBy final
  /-- Each variable resolves like its term. -/
  solved : ∀ entry ∈ entries, final.apply (.var entry.1) = final.apply entry.2
  /-- Every finer store in which each variable resolves like its term is finer still. -/
  general : ∀ other : Store, store.RefinedBy other →
    (∀ entry ∈ entries, other.apply (.var entry.1) = other.apply entry.2) → final.RefinedBy other

/-- Adding bindings for new variables completes the store. -/
theorem completes_of_bindAll (normal : store.Normal)
    (new : ∀ entry ∈ entries, entry.1 ∉ store.keys) (distinct : (entries.map Prod.fst).Nodup)
    (success : store.bindAll entries = .ok final) : store.Completes entries final := by
  induction entries generalizing store with
  | nil =>
    cases success
    exact ⟨normal, by simp, normal.refinedBy_self, nofun, fun _ finer _ => finer⟩
  | cons entry rest inductionHypothesis =>
    obtain ⟨name, term⟩ := entry
    obtain ⟨bound, head, tail⟩ := (bindAll_cons_eq_ok_iff store final name term rest).mp success
    have free := (normal.indexed.lookup?_eq_none_iff name).mpr (new (name, term) List.mem_cons_self)
    have keys := keys_bind_of_free normal free head
    obtain ⟨others, distinctRest⟩ := List.nodup_cons.mp distinct
    have newRest : ∀ entry ∈ rest, entry.1 ∉ bound.keys := by
      intro entry member key
      rw [keys, List.mem_append, List.mem_singleton] at key
      rcases key with old | same
      · exact new entry (List.mem_cons_of_mem _ member) old
      · have listed : entry.1 ∈ rest.map Prod.fst := List.mem_map_of_mem member
        exact others (same ▸ listed)
    have later := inductionHypothesis (normal.bind head) newRest distinctRest tail
    refine ⟨later.normal, ?_, (refinedBy_bind normal free head).trans later.refined, ?_, ?_⟩
    · rw [later.keys, keys, List.map_cons, List.append_assoc, List.singleton_append]
    · rw [List.forall_mem_cons]
      exact ⟨later.refined.apply_eq (apply_var_bind normal free head), later.solved⟩
    · intro other finer solves
      rw [List.forall_mem_cons] at solves
      refine later.general other (fun target => ?_) solves.2
      -- The other store does not see the binding, since its variable resolves like its term.
      have equal : other.apply (.var name) = other.apply (store.apply term) :=
        solves.1.trans (finer term).symm
      exact (subst_apply_bind normal free head other.lookup? equal target).trans (finer target)

/-- Every store refines the one without bindings. -/
theorem refinedBy_of_empty (store : Store) : empty.RefinedBy store := fun term =>
  Term.subst_subst_eq_of_var empty.lookup? store.lookup? store.lookup? term fun _ _ => rfl

/-- A store of bindings for different variables solves them in the most general way. -/
theorem completes_of_ofEntries (distinct : (entries.map Prod.fst).Nodup)
    (success : ofEntries entries = .ok store) : empty.Completes entries store :=
  completes_of_bindAll .empty (fun _ _ => List.not_mem_nil) distinct success

/-- Stores of the same bindings in different orders find the same terms. -/
theorem lookup?_eq_of_completes {order : List (Name × Term)} {other : Store}
    (one : empty.Completes entries store) (another : empty.Completes order other)
    (permuted : order.Perm entries) (name : Name) : store.lookup? name = other.lookup? name := by
  have finer : store.RefinedBy other := by
    apply one.general other (refinedBy_of_empty other)
    intro entry member
    exact another.solved entry (permuted.mem_iff.mpr member)
  refine lookup?_eq_of_same_free one.normal (fun key => ?_) finer name
  rw [one.normal.indexed.lookup?_eq_none_iff, another.normal.indexed.lookup?_eq_none_iff,
    one.keys, another.keys]
  exact not_congr ((permuted.map Prod.fst).mem_iff.symm)

end Success

section Failure

variable {store : Store} {entries : List (Name × Term)}

/-- What stops bindings is one of them, and its variable occurs in the term. -/
theorem bindAll_eq_error {cycle : Cycle} (refused : store.bindAll entries = .error cycle) :
    cycle.name ∈ entries.map Prod.fst ∧ cycle.name ∈ cycle.term.occurrences := by
  induction entries generalizing store with
  | nil => exact nomatch refused
  | cons entry rest inductionHypothesis =>
    obtain ⟨name, term⟩ := entry
    rw [bindAll] at refused
    split at refused
    · obtain ⟨member, inside⟩ := inductionHypothesis refused
      exact ⟨List.mem_cons_of_mem _ member, inside⟩
    · next stopped =>
      cases refused
      obtain ⟨same, inside, -⟩ := bind_eq_error store name term cycle stopped
      exact ⟨same ▸ List.mem_cons_self, same ▸ inside⟩

/-- Without rows, a variable that leads to a free one resolves to a term that contains it. -/
theorem mem_apply_of_leads (rowFree : ∀ entry ∈ entries, entry.2.isRowFree = true)
    (solved : ∀ entry ∈ entries, store.apply (.var entry.1) = store.apply entry.2) {name : Name}
    (free : store.lookup? name = none) {source : Name}
    (leads : Relation.ReflTransGen (Refers entries) source name) :
    name ∈ (store.apply (.var source)).occurrences := by
  induction leads using Relation.ReflTransGen.head_induction_on with
  | refl =>
    rw [apply_var_of_free store name free]
    exact (Term.mem_occurrences_var name name).mpr rfl
  | head refers _ inductionHypothesis =>
    obtain ⟨term, member, inside⟩ := refers
    rw [solved _ member]
    exact Term.mem_occurrences_subst_of_isRowFree store.lookup? term (rowFree _ member) _ inside
      name inductionHypothesis

/-- Bindings without rows are accepted only if they are without cycles. -/
theorem acyclic_of_ofEntries (distinct : (entries.map Prod.fst).Nodup)
    (rowFree : ∀ entry ∈ entries, entry.2.isRowFree = true)
    (success : ofEntries entries = .ok store) : Acyclic entries := by
  induction entries using List.reverseRecOn generalizing store with
  | nil =>
    intro name depends
    obtain ⟨other, ⟨key, -⟩, -⟩ := Relation.TransGen.head'_iff.mp depends
    exact List.not_mem_nil key
  | append_singleton entries entry inductionHypothesis =>
    obtain ⟨name, term⟩ := entry
    rw [List.map_append] at distinct
    have others : (entries.map Prod.fst).Nodup := (List.nodup_append.mp distinct).1
    have new : name ∉ entries.map Prod.fst := fun old =>
      (List.nodup_append.mp distinct).2.2 name old name List.mem_cons_self rfl
    have rowFreeOthers : ∀ entry ∈ entries, entry.2.isRowFree = true := fun entry member =>
      rowFree entry (List.mem_append_left _ member)
    obtain ⟨middle, made, last⟩ := (bindAll_append_eq_ok_iff entries [(name, term)]).mp success
    obtain ⟨bound, accepted, -⟩ := (bindAll_cons_eq_ok_iff middle store name term []).mp last
    obtain ⟨-, absent, -⟩ := (bind_eq_ok_iff middle bound name term).mp accepted
    have completes := completes_of_ofEntries others made
    have free : middle.lookup? name = none := by
      rw [completes.normal.indexed.lookup?_eq_none_iff, completes.keys]
      exact new
    rw [acyclic_iff]
    intro start leads
    rcases refers_concat leads with old | ⟨before, source, present, after⟩
    · exact acyclic_iff.mp (inductionHypothesis others rowFreeOthers made) start old
    · -- A variable of the last term leads to the last key, so it does occur in the resolved term.
      have image := mem_apply_of_leads rowFreeOthers completes.solved free (after.trans before)
      exact absent (Term.mem_occurrences_subst_of_isRowFree middle.lookup? term
        (rowFree (name, term) (by simp)) source present name image)

end Failure

/-- Bindings without cycles make a store. -/
theorem exists_ofEntries {entries : List (Name × Term)} (acyclic : Acyclic entries) :
    ∃ store, ofEntries entries = .ok store :=
  exists_bindAll acyclic entries (fun _ member => member) .empty fun _ _ bound => nomatch bound

/-- A store in normal form is made again from its own bindings: none of its terms has a key, and
each variable resolves to its term already. -/
theorem Normal.ofEntries_entries {store : Store} (normal : store.Normal) :
    Store.ofEntries store.entries = .ok store := by
  have bound (entry : Name × Term) (member : entry ∈ store.entries) :
      store.lookup? entry.1 = some entry.2 :=
    (normal.indexed.lookup?_eq_some_iff entry.1 entry.2).mpr member
  have acyclic : Acyclic store.entries := by
    apply acyclic_of_rank fun _ => 0
    intro entry member other inside key
    have free := normal.resolved entry.1 entry.2 (bound entry member) other inside
    exact absurd key ((normal.indexed.lookup?_eq_none_iff other).mp free)
  obtain ⟨again, made⟩ := exists_ofEntries acyclic
  have completes := completes_of_ofEntries normal.indexed.nodup_keys made
  have finer : again.RefinedBy store := by
    apply completes.general store (refinedBy_of_empty store)
    intro entry member
    rw [← normal.refinedBy_self (.var entry.1),
      apply_var_of_bound store entry.1 entry.2 (bound entry member)]
  have keys : again.keys = store.keys := completes.keys
  have sameFree (name : Name) : again.lookup? name = none ↔ store.lookup? name = none := by
    rw [completes.normal.indexed.lookup?_eq_none_iff, normal.indexed.lookup?_eq_none_iff, keys]
  rw [made, eq_of_keys_of_lookup? completes.normal.indexed normal.indexed keys
    (lookup?_eq_of_same_free completes.normal sameFree finer)]

/-- For bindings of different variables, cycles alone decide, and the order does not matter.
Without a cycle, every order makes a store of these keys, all find the same terms, and each
variable has what its term resolves to. With a cycle and without rows, every order is stopped at a
variable that occurs in its term. Every store obtained is made again from its own bindings, index
and order included. -/
theorem seeding_ignores_order :
    (∀ entries : List (Name × Term), (entries.map Prod.fst).Nodup →
      (Acyclic entries → ∃ found : Assignment, ∀ order : List (Name × Term), order.Perm entries →
        ∃ store, ofEntries order = .ok store ∧ store.keys = order.map Prod.fst ∧
          store.lookup? = found ∧
          ∀ entry ∈ entries, store.lookup? entry.1 = some (store.apply entry.2)) ∧
      (¬ Acyclic entries → (∀ entry ∈ entries, entry.2.isRowFree = true) →
        ∀ order : List (Name × Term), order.Perm entries →
          ∃ cycle, ofEntries order = .error cycle ∧ cycle.name ∈ order.map Prod.fst ∧
            cycle.name ∈ cycle.term.occurrences)) ∧
    ∀ store : Store, store.Obtained → ofEntries store.entries = .ok store := by
  refine ⟨fun entries distinct => ⟨?_, ?_⟩, fun store obtained => obtained.normal.ofEntries_entries⟩
  · intro acyclic
    obtain ⟨given, madeGiven⟩ := exists_ofEntries acyclic
    have givenCompletes := completes_of_ofEntries distinct madeGiven
    refine ⟨given.lookup?, fun order permuted => ?_⟩
    obtain ⟨store, made⟩ := exists_ofEntries (acyclic.perm permuted)
    have distinctOrder : (order.map Prod.fst).Nodup := (permuted.map Prod.fst).nodup_iff.mpr distinct
    have completes := completes_of_ofEntries distinctOrder made
    refine ⟨store, made, completes.keys, ?_, ?_⟩
    · funext name
      exact (lookup?_eq_of_completes givenCompletes completes permuted name).symm
    · intro entry member
      have inOrder := permuted.mem_iff.mpr member
      have key : entry.1 ∈ store.keys := completes.keys ▸ List.mem_map_of_mem inOrder
      have solved := completes.solved entry inOrder
      cases found : store.lookup? entry.1 with
      | none => exact absurd key ((completes.normal.indexed.lookup?_eq_none_iff _).mp found)
      | some term => rw [← solved, apply_var_of_bound store entry.1 term found]
  · intro cyclic rowFree order permuted
    cases made : ofEntries order with
    | error cycle => exact ⟨cycle, rfl, bindAll_eq_error made⟩
    | ok store =>
      have acyclic := acyclic_of_ofEntries ((permuted.map Prod.fst).nodup_iff.mpr distinct)
        (fun entry member => rowFree entry (permuted.mem_iff.mp member)) made
      exact absurd (acyclic.perm permuted.symm) cyclic

/-- `x` is bound to a box with `r` as its row, `r` to a box with `y` in it, and `y` to `Tag(z)`. -/
def nestedBindings : List (Name × Term) :=
  [(.symbol "x", .app ⟨.symbol "Box", [],
      .ofList [(.symbol "width", .var (.symbol "w"))], some (.var (.symbol "r"))⟩),
    (.symbol "r", .app ⟨.symbol "Box", [],
      .ofList [(.symbol "depth", .var (.symbol "y"))], some (.var (.symbol "s"))⟩),
    (.symbol "y", .app (.ofSubterms (.symbol "Tag") [.var (.symbol "z")]))]

/-- `x` is bound to a pair of `y` and `w`, and `y` to `Tag(x)`. -/
def crossedBindings : List (Name × Term) :=
  [(.symbol "x", .app (.ofSubterms (.symbol "Pair") [.var (.symbol "y"), .var (.symbol "w")])),
    (.symbol "y", .app (.ofSubterms (.symbol "Tag") [.var (.symbol "x")]))]

/-- Nested boxes are made in either direction, and the outer one becomes one flat box; crossed
bindings are stopped in either direction; and a store with a refused binding in its past is made
again. -/
theorem seeding_ignores_order_boxes :
    (nestedBindings.map Prod.fst).Nodup ∧ Acyclic nestedBindings ∧
      (∃ forward backward, ofEntries nestedBindings = .ok forward ∧
        ofEntries nestedBindings.reverse = .ok backward ∧ forward.lookup? = backward.lookup? ∧
        backward.keys = [.symbol "y", .symbol "r", .symbol "x"] ∧
        backward.apply (.var (.symbol "x")) = .app ⟨.symbol "Box", [],
          .ofList [(.symbol "depth", .app (.ofSubterms (.symbol "Tag") [.var (.symbol "z")])),
            (.symbol "width", .var (.symbol "w"))], some (.var (.symbol "s"))⟩) ∧
      (crossedBindings.map Prod.fst).Nodup ∧ ¬ Acyclic crossedBindings ∧
      (∃ cycle, ofEntries crossedBindings.reverse = .error cycle ∧
        cycle.name ∈ cycle.term.occurrences) ∧
      retriedStore.Obtained ∧ ofEntries retriedStore.entries = .ok retriedStore := by
  obtain ⟨seeds, remade⟩ := seeding_ignores_order
  have nestedDistinct : (nestedBindings.map Prod.fst).Nodup := by decide +kernel
  have crossedDistinct : (crossedBindings.map Prod.fst).Nodup := by decide +kernel
  have acyclic : Acyclic nestedBindings := by
    apply acyclic_of_rank fun name =>
      if name = .symbol "x" then 2 else if name = .symbol "r" then 1 else 0
    decide +kernel
  have cyclic : ¬ Acyclic crossedBindings := by
    intro acyclic
    have down : DependsOn crossedBindings (.symbol "x") (.symbol "y") :=
      ⟨by decide +kernel, _, List.mem_cons_self, by decide +kernel⟩
    have up : DependsOn crossedBindings (.symbol "y") (.symbol "x") :=
      ⟨by decide +kernel, _, List.mem_cons_of_mem _ List.mem_cons_self, by decide +kernel⟩
    exact acyclic _ (.tail (.single down) up)
  refine ⟨nestedDistinct, acyclic, ?_, crossedDistinct, cyclic, ?_, ?_⟩
  · obtain ⟨found, made⟩ := (seeds nestedBindings nestedDistinct).1 acyclic
    obtain ⟨forward, madeForward, -, foundForward, -⟩ := made nestedBindings (.refl _)
    obtain ⟨backward, madeBackward, keys, foundBackward, -⟩ :=
      made nestedBindings.reverse nestedBindings.reverse_perm
    refine ⟨forward, backward, madeForward, madeBackward,
      foundForward.trans foundBackward.symm, keys, ?_⟩
    have outcome : (ofEntries nestedBindings.reverse).toOption.map (apply · (.var (.symbol "x"))) =
        some (.app ⟨.symbol "Box", [],
          .ofList [(.symbol "depth", .app (.ofSubterms (.symbol "Tag") [.var (.symbol "z")])),
            (.symbol "width", .var (.symbol "w"))], some (.var (.symbol "s"))⟩) := by
      decide +kernel
    rw [madeBackward] at outcome
    exact Option.some.inj outcome
  · obtain ⟨cycle, stopped, -, inside⟩ := (seeds crossedBindings crossedDistinct).2 cyclic
      (by decide +kernel) crossedBindings.reverse crossedBindings.reverse_perm
    exact ⟨cycle, stopped, inside⟩
  · have obtained : retriedStore.Obtained :=
      .attempt _ _ _ (.attempt _ _ _ (.attempt _ _ _ (.attempt _ _ _ .empty)))
    exact ⟨obtained, remade retriedStore obtained⟩

/-- `x` is bound to a tagged box with the width `y`, which its row `r` overrides, and `y` to
`Tag(x)`. -/
def overriddenBindings : List (Name × Term) :=
  [(.symbol "r", .app ⟨.symbol "Box", [], .ofList [(.symbol "width", .var (.symbol "w"))], none⟩),
    (.symbol "x", .app (.ofSubterms (.symbol "Tag") [.app ⟨.symbol "Box", [],
      .ofList [(.symbol "width", .var (.symbol "y"))], some (.var (.symbol "r"))⟩])),
    (.symbol "y", .app (.ofSubterms (.symbol "Tag") [.var (.symbol "x")]))]

/-- Once `r` is bound, `x` does not lead to `y` any more; before, it does. -/
example : (ofEntries overriddenBindings).isOk = true ∧
    (ofEntries overriddenBindings.reverse).isOk = false := by decide +kernel

end RowUnification.Store
