import Mathlib.Order.BooleanAlgebra.Set
import RowUnification.Proofs.Alignment
import RowUnification.Proofs.Calls

/-!
# What a row variable may stand for

A row variable completes a record, and the record has fields already. `Role.rest` gives
the labels of these fields, and a term fits the role if it is a variable with the same role
or an application without subterms whose labels are other ones; its own row then completes
the larger record. All other variables stand for whole terms. `Term.Fits` is this
judgement; splicing a row that fits adds no subterm and overwrites no field, and
substituting terms that fit keeps the role of a term.

A decomposition keeps to the roles. The excerpts of two records have labels that the
rows lack, and both tails complete the record with the labels of both sides. So the roles
of the variables at hand are kept along a run, and each new tail gets one when it is made.
-/

namespace RowUnification

/-- What a variable stands for. -/
inductive Role where
  /-- A whole term. -/
  | whole
  /-- The rest of a record that has fields under the given labels already. -/
  | rest (labels : Set Name)

/-- The labels that are taken already. -/
def Role.labels : Role → Set Name
  | whole => ∅
  | rest labels => labels

/-- The roles of the variables that have one. -/
abbrev Roles : Type := Name → Option Role

/-- Every variable keeps its role. -/
def Roles.ExtendedBy (roles larger : Roles) : Prop :=
  ∀ name role, roles name = some role → larger name = some role

/-- One extension continues another. -/
theorem Roles.ExtendedBy.trans {first second third : Roles} (near : first.ExtendedBy second)
    (far : second.ExtendedBy third) : first.ExtendedBy third := fun name role known =>
  far name role (near name role known)

namespace Application

/-- The labels of the fields. -/
def labels (parts : Application Term) : Set Name := {label | parts.fields.get? label ≠ none}

/-- A label is one under which a field is found. -/
theorem mem_labels_iff (parts : Application Term) (label : Name) :
    label ∈ parts.labels ↔ parts.fields.get? label ≠ none := Iff.rfl

/-- Records that list the same labels have the same set of them. -/
theorem labels_eq_of_keys_eq {lhs rhs : Application Term}
    (same : lhs.fields.keys = rhs.fields.keys) : lhs.labels = rhs.labels := by
  ext label
  have found := (SortedMap.keys_eq_iff lhs.fields rhs.fields).mp same label
  simp only [SortedMap.contains] at found
  rw [mem_labels_iff, mem_labels_iff, ← Option.isSome_iff_ne_none, found, Option.isSome_iff_ne_none]

/-- Transforming the parts keeps the labels. -/
@[simp] theorem labels_map (parts : Application Term) (transform : Term → Term) :
    (parts.map transform).labels = parts.labels := by
  ext label
  simp [mem_labels_iff, map]

/-- An application spliced for the row adds its labels. -/
theorem labels_spliceRow_of_row_app {parts extension : Application Term}
    (extended : parts.row = some (.app extension)) :
    parts.spliceRow.labels = parts.labels ∪ extension.labels := by
  ext label
  rw [parts.spliceRow_of_row_app extension extended]
  simp only [mem_labels_iff, SortedMap.get?_merge, Set.mem_union]
  cases extension.fields.get? label <;> simp

/-- The excerpt beyond another record has the labels that the other one lacks. -/
theorem labels_surplus (record other : Application Term) (row : Option Term) :
    Application.labels ⟨record.functor, [], record.beyond other, row⟩ =
      record.labels \ other.labels := by
  ext label
  simp only [mem_labels_iff, get?_beyond, Set.mem_sdiff]
  cases other.fields.get? label <;> simp

end Application

namespace Term

/-- The term may stand where the role asks for it. -/
inductive Fits (roles : Roles) : Role → Term → Prop
  /-- A variable with this role. -/
  | var (role : Role) (name : Name) (known : roles name = some role) : Fits roles role (.var name)
  /-- An application. As the rest of a record it has no subterms, and it has none of the labels
  taken already; its row completes the record together with its own fields. -/
  | app (role : Role) (parts : Application Term) (bare : role ≠ .whole → parts.subterms = [])
      (apart : ∀ label ∈ role.labels, parts.fields.get? label = none)
      (inner : ∀ child, child ∈ parts.subterms ∨ child ∈ parts.fields.values →
        Fits roles .whole child)
      (row : ∀ row, parts.row = some row → Fits roles (.rest (role.labels ∪ parts.labels)) row) :
      Fits roles role (.app parts)

end Term

/-- Every assigned variable has a role, and its term fits it. -/
def Assignment.Respects (assignment : Assignment) (roles : Roles) : Prop :=
  ∀ name term, assignment name = some term → ∃ role, roles name = some role ∧ term.Fits roles role

namespace Term.Fits

variable {roles larger : Roles} {role : Role} {parts : Application Term}

/-- A variable fits the role that it has. -/
theorem role_of_var {name : Name} (fits : Fits roles role (.var name)) :
    roles name = some role := by
  cases fits with
  | var _ _ known => exact known

/-- The rest of a record has no subterms. -/
theorem subterms_eq_nil {labels : Set Name} (fits : Fits roles (.rest labels) (.app parts)) :
    parts.subterms = [] := by
  cases fits with
  | app _ _ bare _ _ _ => exact bare nofun

/-- An application has none of the labels taken already. -/
theorem get?_eq_none (fits : Fits roles role (.app parts)) (label : Name)
    (taken : label ∈ role.labels) : parts.fields.get? label = none := by
  cases fits with
  | app _ _ _ apart _ _ => exact apart label taken

/-- The subterms and field values of an application are whole terms. -/
theorem inner (fits : Fits roles role (.app parts)) (child : Term)
    (member : child ∈ parts.subterms ∨ child ∈ parts.fields.values) :
    Fits roles .whole child := by
  cases fits with
  | app _ _ _ _ inner _ => exact inner child member

/-- The row of an application completes the record with its fields. -/
theorem row (fits : Fits roles role (.app parts)) (row : Term) (opened : parts.row = some row) :
    Fits roles (.rest (role.labels ∪ parts.labels)) row := by
  cases fits with
  | app _ _ _ _ _ rowFits => exact rowFits row opened

/-- A term keeps its role when further variables get one. -/
theorem mono {term : Term} (fits : Fits roles role term) (extended : roles.ExtendedBy larger) :
    Fits larger role term := by
  induction fits with
  | var role name known => exact .var role name (extended name role known)
  | app role parts bare apart _ _ inner row => exact .app role parts bare apart inner row

/-- A transformation that keeps the roles of the parts keeps the role of the application. -/
theorem map (transform : Term → Term) (fits : Fits roles role (.app parts))
    (kept : ∀ child ∈ parts.children, ∀ role, Fits roles role child →
      Fits roles role (transform child)) : Fits roles role (.app (parts.map transform)) := by
  have child (member : Term) (listed : member ∈ parts.subterms ∨ member ∈ parts.fields.values) :
      Fits roles .whole (transform member) :=
    kept member ((Application.mem_children_iff parts member).mpr (listed.imp_right Or.inl)) _
      (fits.inner member listed)
  refine .app role _ (fun isRest => ?_) (fun label taken => ?_) ?_ (fun image opened => ?_)
  · cases fits with
    | app _ _ bare _ _ _ => simp [Application.map, bare isRest]
  · simp [Application.map, fits.get?_eq_none label taken]
  · rintro image (subterm | field)
    · obtain ⟨original, listed, rfl⟩ := List.mem_map.mp subterm
      exact child original (Or.inl listed)
    · rw [Application.map, SortedMap.values_map] at field
      obtain ⟨original, listed, rfl⟩ := List.mem_map.mp field
      exact child original (Or.inr listed)
  · obtain ⟨original, isRow, rfl⟩ := Option.map_eq_some_iff.mp opened
    rw [Application.labels_map]
    exact kept original ((Application.mem_children_iff parts original).mpr (Or.inr (Or.inr isRow)))
      _ (fits.row original isRow)

/-- Splicing the row keeps the role of an application: the labels of the row are neither taken nor
its own. -/
theorem spliceRow (fits : Fits roles role (.app parts)) :
    Fits roles role (.app parts.spliceRow) := by
  match shape : parts.row with
  | none => exact (parts.spliceRow_of_row_none shape).symm ▸ fits
  | some (.var name) => exact (parts.spliceRow_of_row_var name shape).symm ▸ fits
  | some (.app extension) =>
    have rowFits := fits.row _ shape
    have labels := Application.labels_spliceRow_of_row_app shape
    rw [parts.spliceRow_of_row_app extension shape] at labels ⊢
    refine .app role _ (fun isRest => ?_) (fun label taken => ?_) ?_ (fun row opened => ?_)
    · cases fits with
      | app _ _ bare _ _ _ => simp [bare isRest, rowFits.subterms_eq_nil]
    · rw [SortedMap.get?_merge, fits.get?_eq_none label taken,
        rowFits.get?_eq_none label (Or.inl taken)]
      rfl
    · rintro child (subterm | field)
      · rcases List.mem_append.mp subterm with own | moved
        · exact fits.inner child (Or.inl own)
        · exact rowFits.inner child (Or.inl moved)
      · rcases SortedMap.mem_values_of_mem_values_merge _ _ _ field with own | moved
        · exact fits.inner child (Or.inr own)
        · exact rowFits.inner child (Or.inr moved)
    · rw [labels, ← Set.union_assoc]
      exact rowFits.row row opened

/-- Splicing a row that fits adds no subterm and overwrites no field. -/
theorem parts_spliceRow (fits : Fits roles role (.app parts)) :
    parts.spliceRow.subterms = parts.subterms ∧ ∀ label value,
      parts.fields.get? label = some value → parts.spliceRow.fields.get? label = some value := by
  match shape : parts.row with
  | none =>
    rw [parts.spliceRow_of_row_none shape]
    exact ⟨rfl, fun _ _ found => found⟩
  | some (.var name) =>
    rw [parts.spliceRow_of_row_var name shape]
    exact ⟨rfl, fun _ _ found => found⟩
  | some (.app extension) =>
    have rowFits := fits.row _ shape
    rw [parts.spliceRow_of_row_app extension shape]
    refine ⟨by rw [rowFits.subterms_eq_nil, List.append_nil], fun label value found => ?_⟩
    have own : label ∈ parts.labels := by
      rw [Application.mem_labels_iff, found]
      exact Option.some_ne_none value
    rw [SortedMap.get?_merge, rowFits.get?_eq_none label (Or.inr own), Option.none_or, found]

/-- Substituting terms that fit keeps the role of a term. -/
theorem subst {assignment : Assignment} (respects : assignment.Respects roles) {term : Term}
    (fits : Fits roles role term) : Fits roles role (term.subst assignment) := by
  induction term using Term.induct generalizing role with
  | variableCase name =>
    rw [subst_var]
    cases assigned : assignment name with
    | none => exact fits
    | some value =>
      obtain ⟨own, known, valueFits⟩ := respects name value assigned
      obtain rfl := Option.some.inj (known.symm.trans fits.role_of_var)
      exact valueFits
  | applicationCase parts inductionHypothesis =>
    rw [subst_app]
    exact (fits.map _ fun child member _ => inductionHypothesis child member).spliceRow

/-- What only one record has completes the other one, if its row completes both together. -/
theorem surplus {record : Application Term} (fits : Fits roles role (.app record))
    (other : Application Term) (row : Option Term)
    (rowFits : ∀ tail, row = some tail →
      Fits roles (.rest (role.labels ∪ other.labels ∪ record.labels)) tail) :
    Fits roles (.rest (role.labels ∪ other.labels)) (record.surplus other row) := by
  refine .app _ _ (fun _ => rfl) (fun label taken => ?_) ?_ (fun tail opened => ?_)
  · rw [Application.get?_beyond]
    split
    · rfl
    · next lacking =>
      rcases taken with before | inOther
      · exact fits.get?_eq_none label before
      · exact absurd (Option.isSome_iff_ne_none.mpr inOther) lacking
  · rintro child (subterm | field)
    · cases subterm
    · exact fits.inner child
        (Or.inr (SortedMap.mem_values_of_mem_values_keep record.fields _ child field))
  · have together : role.labels ∪ other.labels ∪ (record.labels \ other.labels) =
        role.labels ∪ other.labels ∪ record.labels := by
      rw [Set.union_assoc, Set.union_sdiff_self, ← Set.union_assoc]
    rw [Application.labels_surplus, Role.labels, together]
    exact rowFits tail opened

end Term.Fits

/-- Both sides fit one role. -/
def Equation.Fits (roles : Roles) (equation : Equation) : Prop :=
  ∃ role, equation.lhs.Fits roles role ∧ equation.rhs.Fits roles role

/-- An equation keeps fitting when further variables get a role. -/
theorem Equation.Fits.mono {roles larger : Roles} {equation : Equation}
    (fits : equation.Fits roles) (extended : roles.ExtendedBy larger) : equation.Fits larger := by
  obtain ⟨role, lhs, rhs⟩ := fits
  exact ⟨role, lhs.mono extended, rhs.mono extended⟩

section Decomposition

variable {roles : Roles} {role : Role} {lhs rhs : Application Term}

/-- Subterms are paired as whole terms. -/
theorem fits_of_mem_zipWith (lhsFits : (Term.app lhs).Fits roles role)
    (rhsFits : (Term.app rhs).Fits roles role) (equation : Equation)
    (member : equation ∈ List.zipWith Equation.mk lhs.subterms rhs.subterms) :
    equation.Fits roles := by
  rw [← List.map_uncurry_zip_eq_zipWith] at member
  obtain ⟨⟨left, right⟩, paired, rfl⟩ := List.mem_map.mp member
  obtain ⟨inLeft, inRight⟩ := List.of_mem_zip paired
  exact ⟨.whole, lhsFits.inner left (Or.inl inLeft), rhsFits.inner right (Or.inl inRight)⟩

/-- Common fields are paired as whole terms. -/
theorem fits_of_mem_commonFields (lhsFits : (Term.app lhs).Fits roles role)
    (rhsFits : (Term.app rhs).Fits roles role) (equation : Equation)
    (member : equation ∈ commonFields lhs rhs) : equation.Fits roles := by
  obtain ⟨label, inLeft, inRight⟩ := (mem_commonFields_iff lhs rhs equation).mp member
  exact ⟨.whole,
    lhsFits.inner _ (Or.inr ((SortedMap.mem_values_iff _ _).mpr ⟨label, inLeft⟩)),
    rhsFits.inner _ (Or.inr ((SortedMap.mem_values_iff _ _).mpr ⟨label, inRight⟩))⟩

/-- Two tails that are made next both get the given role. -/
def Roles.withTails (roles : Roles) (supply : FreshSupply) (role : Role) : Roles := fun name =>
  if name = supply.name 0 ∨ name = supply.name 1 then some role else roles name

/-- No variable to be made has a role yet. -/
def Roles.UnusedFrom (roles : Roles) (supply : FreshSupply) : Prop :=
  ∀ index, supply.next ≤ index → roles (.fresh index) = none

/-- The names of the tails were unused, so all others keep their roles. -/
theorem Roles.UnusedFrom.extendedBy_withTails {supply : FreshSupply}
    (unused : roles.UnusedFrom supply) (role : Role) :
    roles.ExtendedBy (roles.withTails supply role) := by
  intro name own known
  have other (drawn : Nat) : name ≠ supply.name drawn := by
    rintro rfl
    exact nomatch (unused _ (Nat.le_add_right _ _)).symm.trans known
  rw [Roles.withTails, if_neg (not_or.mpr ⟨other 0, other 1⟩), known]

/-- After the two tails nothing else is used. -/
theorem Roles.UnusedFrom.withTails {supply : FreshSupply} (unused : roles.UnusedFrom supply)
    (role : Role) : (roles.withTails supply role).UnusedFrom (supply.after 2) := by
  intro index least
  have later : supply.next + 2 ≤ index := least
  have other : ¬ (Name.fresh index = supply.name 0 ∨ Name.fresh index = supply.name 1) := by
    simp only [FreshSupply.name, Name.fresh.injEq]
    omega
  rw [Roles.withTails, if_neg other]
  exact unused index (by omega)

/-- The equations that align two records of one role fit, once the tails made have a role:
together with the fields of both records they complete what the records complete. -/
theorem Aligned.fits {supply later : FreshSupply} {equations : List Equation}
    (aligned : Aligned lhs rhs supply equations later) (lhsFits : (Term.app lhs).Fits roles role)
    (rhsFits : (Term.app rhs).Fits roles role) (unused : roles.UnusedFrom supply) :
    ∃ larger, roles.ExtendedBy larger ∧ larger.UnusedFrom later ∧
      ∀ equation ∈ equations, equation.Fits larger := by
  have common := fits_of_mem_commonFields lhsFits rhsFits
  have same : roles.ExtendedBy roles := fun _ _ known => known
  have stillUnused (drawn : Nat) : roles.UnusedFrom (supply.after drawn) := fun index least =>
    unused index (Nat.le_trans (Nat.le_add_right _ _) least)
  cases aligned with
  | level labels =>
    refine ⟨roles, same, unused, fun equation member => ?_⟩
    rcases List.mem_append.mp member with field | row
    · exact common equation field
    · match lhsRow : lhs.row, rhsRow : rhs.row with
      | some left, some right =>
        rw [lhsRow, rhsRow] at row
        obtain rfl := List.mem_singleton.mp row
        have rightFits := rhsFits.row right rhsRow
        rw [← Application.labels_eq_of_keys_eq labels] at rightFits
        exact ⟨_, lhsFits.row left lhsRow, rightFits⟩
      | none, none | none, some _ | some _, none =>
        rw [lhsRow, rhsRow] at row
        cases row
  | fillLhs row lhsOpen rhsClosed _ =>
    refine ⟨roles, same, stillUnused 1, fun equation member => ?_⟩
    rcases List.mem_append.mp member with field | filled
    · exact common equation field
    · obtain rfl := List.mem_singleton.mp filled
      exact ⟨_, rhsFits.surplus lhs none nofun, lhsFits.row row lhsOpen⟩
  | fillRhs row lhsClosed rhsOpen _ =>
    refine ⟨roles, same, stillUnused 1, fun equation member => ?_⟩
    rcases List.mem_append.mp member with field | filled
    · exact common equation field
    · obtain rfl := List.mem_singleton.mp filled
      exact ⟨_, lhsFits.surplus rhs none nofun, rhsFits.row row rhsOpen⟩
  | extended first second firstRow secondRow sides firstOpen secondOpen _ =>
    obtain ⟨firstFits, secondFits⟩ : (Term.app first).Fits roles role ∧
        (Term.app second).Fits roles role := by
      rcases sides with ⟨rfl, rfl⟩ | ⟨rfl, rfl⟩
      · exact ⟨lhsFits, rhsFits⟩
      · exact ⟨rhsFits, lhsFits⟩
    let all := role.labels ∪ second.labels ∪ first.labels
    have extended := unused.extendedBy_withTails (.rest all)
    have tailFits (drawn : Nat) (either : drawn = 0 ∨ drawn = 1) :
        (supply.tail drawn).Fits (roles.withTails supply (.rest all)) (.rest all) := by
      refine .var _ _ (if_pos ?_)
      rcases either with rfl | rfl
      · exact Or.inl rfl
      · exact Or.inr rfl
    refine ⟨_, extended, unused.withTails _, fun equation member => ?_⟩
    rcases List.mem_append.mp member with field | made
    · exact (common equation field).mono extended
    · simp only [Application.extensionEquations, List.mem_cons, List.not_mem_nil, or_false] at made
      rcases made with rfl | rfl | rfl
      · refine ⟨_, (firstFits.mono extended).surplus second _ fun tail isTail => ?_,
          (secondFits.row secondRow secondOpen).mono extended⟩
        obtain rfl := Option.some.inj isTail
        exact tailFits 0 (Or.inl rfl)
      · refine ⟨_, (secondFits.mono extended).surplus first _ fun tail isTail => ?_,
          (firstFits.row firstRow firstOpen).mono extended⟩
        obtain rfl := Option.some.inj isTail
        rw [Set.union_right_comm]
        exact tailFits 1 (Or.inr rfl)
      · exact ⟨.rest all, tailFits 0 (Or.inl rfl), tailFits 1 (Or.inr rfl)⟩

end Decomposition

namespace Engine

/-- The bound variables and their terms have roles, the variables still to be made have none, and
the row extension, if there is one, makes new row variables. -/
structure Disciplined (engine : Engine) (roles : Roles) : Prop where
  /-- One pass resolves a term. -/
  normal : engine.store.Normal
  /-- There is no row extension, or the one that makes new row variables. -/
  standard : engine.extension = none ∨ engine.extension = some RowExtension.withNewRow
  /-- Bound terms fit the roles of their variables. -/
  respects : Assignment.Respects engine.store.lookup? roles
  /-- What the supply still makes has no role. -/
  unused : roles.UnusedFrom engine.supply

namespace Disciplined

variable {engine final : Engine} {roles : Roles} {top equation : Equation}

/-- A resolved equation fits as before. -/
theorem resolve (disciplined : engine.Disciplined roles) (fits : equation.Fits roles) :
    (engine.resolve equation).Fits roles := by
  obtain ⟨role, lhs, rhs⟩ := fits
  exact ⟨role, lhs.subst disciplined.respects, rhs.subst disciplined.respects⟩

/-- Binding a variable of an equation that fits keeps the bound terms to their roles. -/
theorem bound {store : Store} (disciplined : engine.Disciplined roles)
    (fits : equation.Fits roles)
    (move : engine.move top (engine.resolve equation) = .bound store) :
    Disciplined { engine with store } roles := by
  obtain ⟨name, term, ⟨sides, -⟩, -, resolved, success⟩ :=
    bound_of_move disciplined.normal move
  obtain ⟨role, known, termFits⟩ :
      ∃ role, roles name = some role ∧ term.Fits roles role := by
    obtain ⟨role, lhs, rhs⟩ := disciplined.resolve fits
    rcases sides with shape | shape <;> rw [shape] at lhs rhs
    · exact ⟨role, lhs.role_of_var, rhs⟩
    · exact ⟨role, rhs.role_of_var, lhs⟩
  have single : (Assignment.single name term).Respects roles := by
    intro other value assigned
    simp only [Assignment.single] at assigned
    split at assigned
    · next same =>
      cases assigned
      exact ⟨role, same ▸ known, termFits⟩
    · contradiction
  refine ⟨disciplined.normal.bind success, disciplined.standard, ?_, disciplined.unused⟩
  intro other value found
  rw [Store.lookup?_bind disciplined.normal success, resolved] at found
  split at found
  · next same =>
    cases found
    exact ⟨role, same ▸ known, termFits⟩
  · obtain ⟨old, oldFound, rfl⟩ := Option.map_eq_some_iff.mp found
    obtain ⟨own, ownKnown, oldFits⟩ := disciplined.respects other old oldFound
    exact ⟨own, ownKnown, oldFits.subst single⟩

/-- A decomposition gives each tail that it makes a role, under which its equations fit. -/
theorem decomposed {equations : List Equation} {supply : FreshSupply}
    (disciplined : engine.Disciplined roles) (fits : equation.Fits roles)
    (move : engine.move top (engine.resolve equation) = .decomposed equations supply) :
    ∃ larger, roles.ExtendedBy larger ∧ Disciplined { engine with supply } larger ∧
      ∀ part ∈ equations, part.Fits larger := by
  obtain ⟨lhs, rhs, aligned, shape, -, -, success, rfl⟩ :=
    (move ▸ engine.moved top _).of_decomposed
  obtain ⟨role, lhsFits, rhsFits⟩ := disciplined.resolve fits
  rw [shape] at lhsFits rhsFits
  have way := aligned_of_align engine.extension lhs rhs engine.supply supply aligned
    disciplined.standard success
  obtain ⟨larger, extended, unused, alignedFit⟩ := way.fits lhsFits rhsFits disciplined.unused
  refine ⟨larger, extended,
    ⟨disciplined.normal, disciplined.standard, fun name term found => ?_, unused⟩,
    fun part member => ?_⟩
  · obtain ⟨own, known, termFits⟩ := disciplined.respects name term found
    exact ⟨own, extended name own known, termFits.mono extended⟩
  · rcases List.mem_append.mp member with subterm | record
    · exact (fits_of_mem_zipWith lhsFits rhsFits part subterm).mono extended
    · exact alignedFit part record

end Disciplined

/-- Working off equations that fit keeps the engine disciplined, also where it ends in a failure;
on the way the tails made get their roles. -/
theorem WorksOff.disciplined {top : Equation} {engine final : Engine}
    {pending visited : List Equation} {roles : Roles}
    (work : WorksOff top engine pending visited final) (disciplined : engine.Disciplined roles)
    (fit : ∀ equation ∈ pending, equation.Fits roles) :
    ∃ larger, roles.ExtendedBy larger ∧ final.Disciplined larger := by
  induction work generalizing roles with
  | done engine => exact ⟨roles, fun _ _ known => known, disciplined⟩
  | settled engine final equation pending visited move _ inductionHypothesis =>
    exact inductionHypothesis disciplined (List.forall_mem_cons.mp fit).2
  | bound engine final equation pending visited store move _ inductionHypothesis =>
    obtain ⟨first, rest⟩ := List.forall_mem_cons.mp fit
    exact inductionHypothesis (disciplined.bound first move) rest
  | decomposed engine final equation pending visited equations supply move _
      inductionHypothesis =>
    obtain ⟨first, rest⟩ := List.forall_mem_cons.mp fit
    obtain ⟨middle, near, still, made⟩ := disciplined.decomposed first move
    obtain ⟨larger, far, last⟩ := inductionHypothesis still fun part member =>
      (List.mem_append.mp member).elim (made part) fun waiting => (rest part waiting).mono near
    exact ⟨larger, near.trans far, last⟩
  | refused engine equation pending failure move =>
    exact ⟨roles, fun _ _ known => known,
      ⟨disciplined.normal, disciplined.standard, disciplined.respects, disciplined.unused⟩⟩

/-- A call to `unify` for an equation that fits keeps the engine disciplined. -/
theorem unify_disciplined {engine : Engine} {budget : Nat} {equation : Equation} {report : Report}
    {roles : Roles} (disciplined : engine.Disciplined roles) (fits : equation.Fits roles)
    (answered : engine.unify budget equation = some report) :
    ∃ larger, roles.ExtendedBy larger ∧ report.engine.Disciplined larger := by
  cases failure : engine.failure with
  | some _ =>
    rw [unify_of_failed engine budget equation (failure ▸ nofun)] at answered
    cases answered
    exact ⟨roles, fun _ _ known => known, disciplined⟩
  | none =>
    obtain ⟨visited, work, -⟩ := worksOff_of_unify failure answered
    exact work.disciplined disciplined (List.forall_mem_singleton.mpr fits)

/-- A call to `solve` for equations that fit keeps the engine disciplined. -/
theorem solve_disciplined {engine : Engine} {budget : Nat} {equations : List Equation}
    {report : Report} {roles : Roles} (disciplined : engine.Disciplined roles)
    (fit : ∀ equation ∈ equations, equation.Fits roles)
    (answered : engine.solve budget equations = some report) :
    ∃ larger, roles.ExtendedBy larger ∧ report.engine.Disciplined larger := by
  induction equations generalizing engine report roles with
  | nil =>
    cases answered
    exact ⟨roles, fun _ _ known => known, disciplined⟩
  | cons equation rest inductionHypothesis =>
    cases failure : engine.failure with
    | some _ =>
      rw [solve_of_failed engine budget _ (failure ▸ nofun)] at answered
      cases answered
      exact ⟨roles, fun _ _ known => known, disciplined⟩
    | none =>
      obtain ⟨first, later, head, tail, rfl⟩ :=
        (solve_cons_eq_some_iff engine budget equation rest report failure).mp answered
      obtain ⟨fits, restFit⟩ := List.forall_mem_cons.mp fit
      obtain ⟨middle, near, still⟩ := unify_disciplined disciplined fits head
      obtain ⟨larger, far, last⟩ := inductionHypothesis still
        (fun other member => (restFit other member).mono near) tail
      exact ⟨larger, near.trans far, last⟩

end Engine

end RowUnification
