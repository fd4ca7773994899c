import RowUnification.Proofs.KnownNames
import RowUnification.Proofs.StoreHistory

/-!
# Sessions and the tails made in them

A session is an engine in use: calls come one after another, and each is worked off
goal by goal. A caller may use the new row variables that it has been given, but it
does not know those still to come: whatever a call mentions is below the next index of
the supply.

Every step either keeps to the variables at hand or brings in a tail that the row
extension has just made. So all variables of a session stay below the next index of the
supply, and a tail, which takes this index, is none of them. The tails made in a session
are those of the indices from zero on in order, also where one is dropped because the
record it was made for is closed. A copy of an engine continues with the same supply: what
holds along one session holds along every one that branches off from it.
-/

namespace RowUnification

/-- The evidence has the variable. -/
def Failure.Shows : Failure → Name → Prop
  | cyclic cycle _, name => name = cycle.name ∨ name ∈ cycle.term.occurrences
  | mismatched (.functorClash _ _ lhs rhs) _, name => Equation.Mentions ⟨lhs, rhs⟩ name
  | mismatched (.arityClash _ _ lhs rhs) _, name => Equation.Mentions ⟨lhs, rhs⟩ name
  | mismatched (.unmatchedLabels lhsOnly rhsOnly) _, name =>
    ∃ term ∈ lhsOnly.values ++ rhsOnly.values, name ∈ term.occurrences

/-- The evidence or the equation that was to be solved has the variable. -/
def Failure.Mentions (failure : Failure) (name : Name) : Prop :=
  failure.Shows name ∨ ∃ top, failure.top = some top ∧ top.Mentions name

/-- A run mentions the variables of its store, its failure and its goals. -/
inductive Run.Mentions (run : Run) (name : Name) : Prop
  /-- The store binds the variable or has it in a bound term. -/
  | store (mentioned : run.engine.store.Mentions name)
  /-- The failure has it. -/
  | failure (failure : Failure) (recorded : run.engine.failure = some failure)
      (mentioned : failure.Mentions name)
  /-- A goal has it. -/
  | pending (goal : Goal) (member : goal ∈ run.pending) (mentioned : goal.equation.Mentions name)

/-- The equations, the term or the variable to be bound have the variable. -/
def Engine.Call.Mentions : Engine.Call → Name → Prop
  | unify equation, name => equation.Mentions name
  | solve equations, name => ∃ equation ∈ equations, equation.Mentions name
  | assign key term, name => name = key ∨ name ∈ term.occurrences

/-- The tails that a row extension makes when it fills rows in turn: the rows of the terms made,
also where these are dropped again. -/
def tailsMade (extension : RowExtension) : List Filling → FreshSupply → List Term
  | [], _ => []
  | filling :: rest, supply =>
    let (made, remaining) := extension filling.record filling.labels supply
    made.row?.toList ++ tailsMade extension rest remaining

/-- The tails made when a resolved equation is treated: if it is decomposed and the labels
differ, every row of the two records is filled. -/
def Engine.mints (engine : Engine) (top equation : Equation) : List Term :=
  match engine.extension, equation, engine.move top equation with
  | some extension, ⟨.app lhs, .app rhs⟩, .decomposed _ _ =>
    let leftover := Leftover.between lhs rhs
    if leftover.isEmpty then []
    else tailsMade extension (Filling.between lhs rhs leftover) engine.supply
  | _, _, _ => []

/-- An engine in use. -/
structure Session where
  /-- The engine and the goals that the equation at hand has come down to. -/
  run : Run
  /-- The equations of the current call that have been solved. -/
  solved : List Equation
  /-- The equation at hand and those after it. -/
  ahead : List Equation

section Mints

variable {engine : Engine} {top equation : Equation}

/-- Making new row variables takes the indices that the supply hands out meanwhile, one for each
row that is filled. -/
theorem tailsMade_withNewRow (fillings : List Filling) (supply : FreshSupply) :
    tailsMade RowExtension.withNewRow fillings supply =
      (supply.drawnUntil (synthesize RowExtension.withNewRow fillings supply).supply).map
        fun index => .var (.fresh index) := by
  induction fillings generalizing supply with
  | nil =>
    rw [synthesize, FreshSupply.drawnUntil_self]
    rfl
  | cons filling rest inductionHypothesis =>
    have less : supply.next < (synthesize RowExtension.withNewRow rest supply.draw.2).supply.next :=
      next_le_synthesize rest supply.draw.2
    rw [supply_synthesize_cons, FreshSupply.drawnUntil_of_lt less, List.map_cons,
      ← inductionHypothesis]
    rfl

/-- The tails made when an equation is decomposed are those of the indices handed out
meanwhile. -/
theorem Engine.mints_of_decomposed {equations : List Equation} {supply : FreshSupply}
    (standard : engine.extension = some RowExtension.withNewRow)
    (move : engine.move top equation = .decomposed equations supply) :
    engine.mints top equation =
      (engine.supply.drawnUntil supply).map fun index => .var (.fresh index) := by
  obtain ⟨lhs, rhs, aligned, rfl, -, -, success, -⟩ := (move ▸ engine.moved top _).of_decomposed
  simp only [mints, standard, move]
  rw [standard] at success
  by_cases level : (Leftover.between lhs rhs).isEmpty = true
  · rw [align_of_level _ level] at success
    cases success
    rw [if_pos level, FreshSupply.drawnUntil_self]
    rfl
  · rw [if_neg level, tailsMade_withNewRow]
    by_cases absorbed : (Leftover.between lhs rhs).isAbsorbed lhs.row rhs.row = true
    · rw [align_of_absorbed _ level absorbed _ rfl] at success
      cases success
      rfl
    · rw [align_of_stuck level (Or.inr absorbed)] at success
      cases success

/-- A move that leaves the supply as it is makes no tails. -/
theorem Engine.mints_of_ne_decomposed
    (other : ∀ equations supply, engine.move top equation ≠ .decomposed equations supply) :
    engine.mints top equation = [] := by
  unfold mints
  split
  · next move => exact absurd move (other _ _)
  · rfl

end Mints

/-- A refused move names the top equation. -/
theorem Engine.Moved.top_of_refused {engine : Engine} {top equation : Equation} {failure : Failure}
    {store : Store} {supply : FreshSupply}
    (moved : engine.Moved top equation (.refused failure store supply)) :
    failure.top = some top := by
  cases moved <;> rfl

/-- The evidence of a refused move has variables of the equation treated or of the store. -/
theorem Engine.Moved.shows_of_refused {engine : Engine} {top equation : Equation}
    {failure : Failure} {store : Store} {supply : FreshSupply}
    (moved : engine.Moved top equation (.refused failure store supply))
    (indexed : engine.store.Indexed) (name : Name) (shown : failure.Shows name) :
    equation.Mentions name ∨ engine.store.Mentions name := by
  cases moved with
  | cyclic _ key term cycle assigns refused =>
    obtain ⟨own, ofTerm⟩ := assigns.mentions
    rcases indexed.mentions_cycle refused name shown with stored | rfl | inTerm
    · exact Or.inr stored
    · exact Or.inl own
    · exact Or.inl (ofTerm name inTerm)
  | functorClash lhs rhs different => exact Or.inl shown
  | arityClash lhs rhs functors different => exact Or.inl shown
  | unmatched lhs rhs leftover functors arities misaligned =>
    have inFields (record : Application Term) (selected : Name → Bool) (term : Term)
        (member : term ∈ (record.fields.keep selected).values)
        (inside : name ∈ term.occurrences) : name ∈ (Term.app record).occurrences := by
      have field := SortedMap.mem_values_of_mem_values_keep record.fields selected term member
      have child := (Application.mem_children_iff record term).mpr (Or.inr (Or.inl field))
      exact Term.occurrences_of_child record term child name inside
    left
    rw [(eq_of_align_error misaligned).1] at shown
    obtain ⟨term, member, inside⟩ := shown
    rcases List.mem_append.mp member with left | right
    · exact Or.inl (inFields lhs _ term left inside)
    · exact Or.inr (inFields rhs _ term right inside)

namespace Run

variable {engine : Engine} (goal : Goal) (pending : List Goal) (events : List Event)
  (top : Equation)

/-- A resolved goal has variables of the run. -/
theorem mentions_resolve (indexed : engine.store.Indexed) (name : Name)
    (inside : (engine.resolve goal.equation).Mentions name) :
    Mentions ⟨engine, goal :: pending, events⟩ name := by
  have origin : goal.equation.Mentions name ∨ engine.store.Mentions name := by
    rcases inside with left | right
    · exact (indexed.mentions_apply goal.equation.lhs name left).imp_left Or.inl
    · exact (indexed.mentions_apply goal.equation.rhs name right).imp_left Or.inr
  rcases origin with own | stored
  · exact .pending goal List.mem_cons_self own
  · exact .store stored

/-- Treating a goal keeps the row extension and the normal form of the store, and the tails made
are those of the indices handed out meanwhile. -/
theorem advance_frame (normal : engine.store.Normal)
    (standard : engine.extension = some RowExtension.withNewRow) :
    let later := (Run.mk engine (goal :: pending) events).advance top
    later.engine.store.Normal ∧ later.engine.extension = some RowExtension.withNewRow ∧
      engine.supply.next ≤ later.engine.supply.next ∧
      engine.mints top (engine.resolve goal.equation) =
        (engine.supply.drawnUntil later.engine.supply).map fun index => .var (.fresh index) := by
  have nothing (other : ∀ equations supply,
      engine.move top (engine.resolve goal.equation) ≠ .decomposed equations supply) :
      engine.mints top (engine.resolve goal.equation) =
        (engine.supply.drawnUntil engine.supply).map fun index => .var (.fresh index) := by
    rw [Engine.mints_of_ne_decomposed other, FreshSupply.drawnUntil_self]
    rfl
  simp only [advance]
  cases move : engine.move top (engine.resolve goal.equation) with
  | settled => exact ⟨normal, standard, Nat.le_refl _, nothing (by simp [move])⟩
  | bound store =>
    have develops := Engine.developsInto_of_move normal move
    exact ⟨develops.normal normal, standard, Nat.le_refl _, nothing (by simp [move])⟩
  | decomposed equations supply =>
    obtain ⟨least, -⟩ := Engine.mentions_of_decomposed normal (Or.inr standard) move
    exact ⟨normal, standard, least, Engine.mints_of_decomposed standard move⟩
  | refused failure store supply =>
    obtain ⟨rfl, rfl⟩ := Engine.refused_of_move move
    exact ⟨normal, standard, Nat.le_refl _, nothing (by simp [move])⟩

/-- Treating a goal brings in no variables but those of the top equation, which a failure
repeats, and those of the indices handed out meanwhile. -/
theorem mentions_advance (normal : engine.store.Normal)
    (standard : engine.extension = some RowExtension.withNewRow) (name : Name)
    (mentioned : ((Run.mk engine (goal :: pending) events).advance top).Mentions name) :
    Mentions ⟨engine, goal :: pending, events⟩ name ∨ top.Mentions name ∨
      ∃ index ∈ engine.supply.drawnUntil
        ((Run.mk engine (goal :: pending) events).advance top).engine.supply,
        name = .fresh index := by
  have resolved := mentions_resolve goal pending events normal.indexed name
  have waiting (other : Goal) (member : other ∈ pending) (inside : other.equation.Mentions name) :
      Mentions ⟨engine, goal :: pending, events⟩ name :=
    .pending other (List.mem_cons_of_mem goal member) inside
  simp only [advance] at mentioned ⊢
  cases move : engine.move top (engine.resolve goal.equation) with
  | settled =>
    rw [move] at mentioned
    cases mentioned with
    | store inside => exact Or.inl (.store inside)
    | failure failure recorded inside => exact Or.inl (.failure failure recorded inside)
    | pending other member inside => exact Or.inl (waiting other member inside)
  | bound store =>
    rw [move] at mentioned
    cases mentioned with
    | store inside =>
      obtain ⟨key, term, assigns, -, -, success⟩ := Engine.bound_of_move normal move
      obtain ⟨own, ofTerm⟩ := assigns.mentions
      rcases normal.mentions_bind success name inside with before | rfl | inTerm
      · exact Or.inl (.store before)
      · exact Or.inl (resolved own)
      · exact Or.inl (resolved (ofTerm name inTerm))
    | failure failure recorded inside => exact Or.inl (.failure failure recorded inside)
    | pending other member inside => exact Or.inl (waiting other member inside)
  | decomposed equations supply =>
    rw [move] at mentioned
    cases mentioned with
    | store inside => exact Or.inl (.store inside)
    | failure failure recorded inside => exact Or.inl (.failure failure recorded inside)
    | pending other member inside =>
      rcases List.mem_append.mp member with new | old
      · obtain ⟨part, isPart, rfl⟩ := List.mem_map.mp new
        obtain ⟨-, origin⟩ := Engine.mentions_of_decomposed normal (Or.inr standard) move
        rcases origin part isPart name inside with own | drawn
        · exact Or.inl (resolved own)
        · exact Or.inr (Or.inr drawn)
      · exact Or.inl (waiting other old inside)
  | refused failure store supply =>
    obtain ⟨rfl, rfl⟩ := Engine.refused_of_move move
    rw [move] at mentioned
    cases mentioned with
    | store inside => exact Or.inl (.store inside)
    | failure other recorded inside =>
      obtain rfl := Option.some.inj recorded
      have moved := move ▸ engine.moved top (engine.resolve goal.equation)
      rcases inside with shown | ⟨equation, isTop, inTop⟩
      · rcases moved.shows_of_refused normal.indexed name shown with own | stored
        · exact Or.inl (resolved own)
        · exact Or.inl (.store stored)
      · obtain rfl := Option.some.inj (moved.top_of_refused.symm.trans isTop)
        exact Or.inr (Or.inl inTop)
    | pending other member inside => cases member

/-- What an engine without goals mentions it mentions whatever the goals are. -/
theorem Mentions.of_idle {name : Name} (mentioned : Mentions ⟨engine, [], []⟩ name) :
    Mentions ⟨engine, pending, events⟩ name := by
  cases mentioned with
  | store inside => exact .store inside
  | failure failure recorded inside => exact .failure failure recorded inside
  | pending other member inside => cases member

/-- Binding a variable directly brings in that variable and those of its term only. -/
theorem mentions_assign (normal : engine.store.Normal) (key : Name) (term : Term) (name : Name)
    (mentioned : Mentions ⟨(engine.assign key term).engine, [], []⟩ name) :
    Mentions ⟨engine, [], []⟩ name ∨ name = key ∨ name ∈ term.occurrences := by
  rw [Engine.assign_eq] at mentioned
  split at mentioned
  · split at mentioned
    · next store success =>
      cases mentioned with
      | store inside =>
        exact (normal.mentions_bind success name inside).imp_left Mentions.store
      | failure failure recorded inside => exact Or.inl (.failure failure recorded inside)
      | pending other member inside => cases member
    · next cycle refused =>
      cases mentioned with
      | store inside => exact Or.inl (.store inside)
      | failure failure recorded inside =>
        obtain rfl := Option.some.inj recorded
        rcases inside with shown | ⟨equation, isTop, -⟩
        · exact (normal.indexed.mentions_cycle refused name shown).imp_left Mentions.store
        · cases isTop
      | pending other member inside => cases member
  · exact Or.inl mentioned

end Run

/-- Binding a variable directly leaves the row extension and the supply alone. -/
theorem Engine.assign_frame (engine : Engine) (key : Name) (term : Term) :
    (engine.assign key term).engine.extension = engine.extension ∧
      (engine.assign key term).engine.supply = engine.supply := by
  rw [assign_eq]
  split
  · split <;> exact ⟨rfl, rfl⟩
  · exact ⟨rfl, rfl⟩

namespace Session

/-- Takes up the first of the equations ahead. -/
def takeUp (engine : Engine) (solved : List Equation) : List Equation → Session
  | [] => ⟨⟨engine, [], []⟩, solved, []⟩
  | top :: later => ⟨Run.start engine top, solved, top :: later⟩

/-- An engine that has nothing to solve. -/
def idle (engine : Engine) : Session := takeUp engine [] []

/-- Receives a call. A variable is bound at once. -/
def receive (engine : Engine) : Engine.Call → Session
  | .unify equation => takeUp engine [] [equation]
  | .solve equations => takeUp engine [] equations
  | .assign name term => idle (engine.assign name term).engine

/-- A step of a session and the tails made in it. -/
inductive Step : Session → List Term → Session → Prop
  /-- The first goal is treated. -/
  | advance (engine : Engine) (goal : Goal) (pending : List Goal) (events : List Event)
      (solved : List Equation) (top : Equation) (later : List Equation) :
      Step ⟨⟨engine, goal :: pending, events⟩, solved, top :: later⟩
        (engine.mints top (engine.resolve goal.equation))
        ⟨Run.advance ⟨engine, goal :: pending, events⟩ top, solved, top :: later⟩
  /-- No goal is left and the engine is active, so the next equation is taken up. -/
  | next (engine : Engine) (events : List Event) (solved : List Equation) (top : Equation)
      (later : List Equation) (active : engine.failure = none) :
      Step ⟨⟨engine, [], events⟩, solved, top :: later⟩ [] (takeUp engine (solved ++ [top]) later)
  /-- The last call has ended, and another one comes that mentions only what the caller
  may know. -/
  | call (engine : Engine) (events : List Event) (solved ahead : List Equation)
      (ended : ahead = [] ∨ engine.failure ≠ none) (call : Engine.Call)
      (known : ∀ name, call.Mentions name → name.IsBelow engine.supply.next) :
      Step ⟨⟨engine, [], events⟩, solved, ahead⟩ [] (receive engine call)

/-- The first session leads to the other one, and these tails are made on the way. -/
inductive Leads (first : Session) : List Term → Session → Prop
  /-- No step is taken. -/
  | refl : Leads first [] first
  /-- A further step is taken. -/
  | step (middle last : Session) (minted new : List Term) (leads : Leads first minted middle)
      (further : Step middle new last) : Leads first (minted ++ new) last

/-- The last call has ended. -/
def AtRest (session : Session) : Prop :=
  session.run.pending = [] ∧ (session.ahead = [] ∨ session.run.engine.failure ≠ none)

/-- A session mentions the variables of its run and of the equations of the current call. -/
def Mentions (session : Session) (name : Name) : Prop :=
  session.run.Mentions name ∨
    ∃ equation ∈ session.solved ++ session.ahead, equation.Mentions name

/-- What every step of a session keeps. -/
structure Orderly (session : Session) : Prop where
  /-- The store is in normal form. -/
  normal : session.run.engine.store.Normal
  /-- The row extension makes new row variables. -/
  standard : session.run.engine.extension = some RowExtension.withNewRow
  /-- All variables are below the next index of the supply. -/
  below : ∀ name, session.Mentions name → name.IsBelow session.run.engine.supply.next

/-- Taking up an equation does not touch the engine. -/
theorem engine_takeUp (engine : Engine) (solved ahead : List Equation) :
    (takeUp engine solved ahead).run.engine = engine := by
  cases ahead <;> rfl

/-- When equations are taken up that mention, as the engine does, only what is below the next
index, so does the session. -/
theorem below_takeUp {engine : Engine}
    (own : ∀ name, Run.Mentions ⟨engine, [], []⟩ name → name.IsBelow engine.supply.next)
    (solved ahead : List Equation) (equations : ∀ equation ∈ solved ++ ahead, ∀ name,
      equation.Mentions name → name.IsBelow engine.supply.next) (name : Name)
    (mentioned : (takeUp engine solved ahead).Mentions name) :
    name.IsBelow engine.supply.next := by
  rcases mentioned with inRun | ⟨equation, member, inside⟩
  · cases ahead with
    | nil => exact own name inRun
    | cons top later =>
      cases inRun with
      | store inside => exact own name (.store inside)
      | failure failure recorded inside => exact own name (.failure failure recorded inside)
      | pending goal member inside =>
        simp only [takeUp, Run.start] at member
        split at member
        · obtain rfl := List.mem_singleton.mp member
          exact equations top (by simp) name inside
        · cases member
  · have listed : equation ∈ solved ++ ahead := by
      cases ahead <;> exact member
    exact equations equation listed name inside

/-- Equations may be taken up if they and the engine mention only what is below the next
index. -/
theorem orderly_takeUp {engine : Engine} (normal : engine.store.Normal)
    (standard : engine.extension = some RowExtension.withNewRow)
    (own : ∀ name, Run.Mentions ⟨engine, [], []⟩ name → name.IsBelow engine.supply.next)
    (solved ahead : List Equation) (equations : ∀ equation ∈ solved ++ ahead, ∀ name,
      equation.Mentions name → name.IsBelow engine.supply.next) :
    (takeUp engine solved ahead).Orderly := by
  constructor
  · rw [engine_takeUp]
    exact normal
  · rw [engine_takeUp]
    exact standard
  · rw [engine_takeUp]
    exact below_takeUp own solved ahead equations

/-- A step keeps the row extension and the normal form of the store, and the tails made in it are
those of the indices that the supply hands out meanwhile. What the variables are does not
matter. -/
theorem Step.frame {session later : Session} {minted : List Term}
    (step : session.Step minted later) (normal : session.run.engine.store.Normal)
    (standard : session.run.engine.extension = some RowExtension.withNewRow) :
    later.run.engine.store.Normal ∧
      later.run.engine.extension = some RowExtension.withNewRow ∧
      session.run.engine.supply.next ≤ later.run.engine.supply.next ∧
      minted = (session.run.engine.supply.drawnUntil later.run.engine.supply).map
        fun index => .var (.fresh index) := by
  cases step with
  | advance engine goal pending events solved top later =>
    exact Run.advance_frame goal pending events top normal standard
  | next engine events solved top later active =>
    rw [engine_takeUp, FreshSupply.drawnUntil_self]
    exact ⟨normal, standard, Nat.le_refl _, rfl⟩
  | call engine events solved ahead ended call known =>
    cases call with
    | unify equation =>
      rw [receive, engine_takeUp, FreshSupply.drawnUntil_self]
      exact ⟨normal, standard, Nat.le_refl _, rfl⟩
    | solve equations =>
      rw [receive, engine_takeUp, FreshSupply.drawnUntil_self]
      exact ⟨normal, standard, Nat.le_refl _, rfl⟩
    | assign key term =>
      obtain ⟨extension, supply⟩ := engine.assign_frame key term
      rw [receive, idle, engine_takeUp, supply, FreshSupply.drawnUntil_self]
      exact ⟨engine.normal_assign key term normal, extension.trans standard, Nat.le_refl _, rfl⟩

/-- The tails made in a session are those of the indices that the supply hands out, in order. -/
theorem Leads.frame {first last : Session} {minted : List Term} (leads : first.Leads minted last)
    (normal : first.run.engine.store.Normal)
    (standard : first.run.engine.extension = some RowExtension.withNewRow) :
    last.run.engine.store.Normal ∧
      last.run.engine.extension = some RowExtension.withNewRow ∧
      first.run.engine.supply.next ≤ last.run.engine.supply.next ∧
      minted = (first.run.engine.supply.drawnUntil last.run.engine.supply).map
        fun index => .var (.fresh index) := by
  induction leads with
  | refl =>
    rw [FreshSupply.drawnUntil_self]
    exact ⟨normal, standard, Nat.le_refl _, rfl⟩
  | step middle last minted new _ further inductionHypothesis =>
    obtain ⟨middleNormal, middleStandard, near, before⟩ := inductionHypothesis
    obtain ⟨lastNormal, lastStandard, far, made⟩ := further.frame middleNormal middleStandard
    refine ⟨lastNormal, lastStandard, Nat.le_trans near far, ?_⟩
    rw [before, made, ← List.map_append, FreshSupply.drawnUntil_append near far]

/-- A step keeps a session orderly, and the tails made in it are those of the indices that the
supply hands out meanwhile. -/
theorem Step.orderly {session later : Session} {minted : List Term}
    (step : session.Step minted later) (orderly : session.Orderly) :
    later.Orderly ∧ session.run.engine.supply.next ≤ later.run.engine.supply.next ∧
      minted = (session.run.engine.supply.drawnUntil later.run.engine.supply).map
        fun index => .var (.fresh index) := by
  obtain ⟨normal, standard, below⟩ := orderly
  obtain ⟨laterNormal, laterStandard, least, made⟩ := step.frame normal standard
  refine ⟨⟨laterNormal, laterStandard, ?_⟩, least, made⟩
  intro name mentioned
  cases step with
  | advance engine goal pending events solved top later =>
    have old (before : Mentions ⟨⟨engine, goal :: pending, events⟩, solved, top :: later⟩ name) :=
      (below name before).mono least
    rcases mentioned with inRun | argument
    · rcases Run.mentions_advance goal pending events top normal standard name inRun with
        own | inTop | ⟨index, drawn, rfl⟩
      · exact old (Or.inl own)
      · exact old (Or.inr ⟨top, by simp, inTop⟩)
      · exact (FreshSupply.mem_drawnUntil_iff.mp drawn).2
    · exact old (Or.inr argument)
  | next engine events solved top later active =>
    have shifted : solved ++ [top] ++ later = solved ++ top :: later := by simp
    rw [engine_takeUp]
    refine below_takeUp ?_ _ _ ?_ name mentioned
    · intro name inside
      exact below name (Or.inl (inside.of_idle [] events))
    · intro equation member name inside
      exact below name (Or.inr ⟨equation, shifted ▸ member, inside⟩)
  | call engine events solved ahead ended call known =>
    have own (name : Name) (inside : Run.Mentions ⟨engine, [], []⟩ name) :
        name.IsBelow engine.supply.next := below name (Or.inl (inside.of_idle [] events))
    cases call with
    | unify equation =>
      rw [receive, engine_takeUp]
      refine below_takeUp own _ _ ?_ name mentioned
      intro other member name inside
      obtain rfl := List.mem_singleton.mp member
      exact known name inside
    | solve equations =>
      rw [receive, engine_takeUp]
      refine below_takeUp own _ _ ?_ name mentioned
      intro equation member name inside
      exact known name ⟨equation, member, inside⟩
    | assign key term =>
      rw [receive, idle, engine_takeUp]
      refine below_takeUp ?_ [] [] nofun name mentioned
      intro name inside
      rw [(engine.assign_frame key term).2]
      rcases Run.mentions_assign normal key term name inside with before | added
      · exact own name before
      · exact known name added

/-- A session that is orderly from the start stays so, and the tails made in it are those of the
indices that the supply hands out. -/
theorem Leads.orderly {first last : Session} {minted : List Term}
    (leads : first.Leads minted last) (orderly : first.Orderly) :
    last.Orderly ∧ first.run.engine.supply.next ≤ last.run.engine.supply.next ∧
      minted = (first.run.engine.supply.drawnUntil last.run.engine.supply).map
        fun index => .var (.fresh index) := by
  obtain ⟨-, -, least, made⟩ := leads.frame orderly.normal orderly.standard
  refine ⟨?_, least, made⟩
  induction leads with
  | refl => exact orderly
  | step middle last minted new earlier further inductionHypothesis =>
    obtain ⟨-, -, near, before⟩ := earlier.frame orderly.normal orderly.standard
    exact (further.orderly (inductionHypothesis near before)).1

/-- Sessions may be continued. -/
theorem Leads.trans {first middle last : Session} {minted new : List Term}
    (near : first.Leads minted middle) (far : middle.Leads new last) :
    first.Leads (minted ++ new) last := by
  induction far with
  | refl => exact (List.append_nil minted).symm ▸ near
  | step between last before new _ further inductionHypothesis =>
    rw [← List.append_assoc]
    exact .step between last _ new inductionHypothesis further

/-- A run that ends is a stretch of a session. -/
theorem exists_leads_of_finish {budget : Nat} {top : Equation} {run final : Run}
    (answered : run.finish top budget = some final) (solved later : List Equation) :
    ∃ minted, Leads ⟨run, solved, top :: later⟩ minted ⟨final, solved, top :: later⟩ := by
  fun_induction Run.finish top budget run with
  | case1 budget run ended =>
    cases answered
    exact ⟨[], .refl⟩
  | case2 run goal rest waiting => contradiction
  | case3 run goal rest budget waiting inductionHypothesis =>
    obtain ⟨engine, pending, events⟩ := run
    obtain rfl : pending = goal :: rest := waiting
    obtain ⟨minted, leads⟩ := inductionHypothesis answered
    have first := Leads.step _ _ [] _ .refl (.advance engine goal rest events solved top later)
    exact ⟨_, first.trans leads⟩

/-- Solving equations is a stretch of a session. -/
theorem exists_leads_of_solve {engine : Engine} {budget : Nat} {equations : List Equation}
    {report : Report} (answered : engine.solve budget equations = some report)
    (solved : List Equation) : ∃ minted last, (takeUp engine solved equations).Leads minted last ∧
      last.AtRest ∧ last.run.engine = report.engine := by
  induction equations generalizing engine report solved with
  | nil =>
    cases answered
    exact ⟨[], _, .refl, ⟨rfl, Or.inl rfl⟩, rfl⟩
  | cons equation rest inductionHypothesis =>
    cases failure : engine.failure with
    | some _ =>
      have failed : engine.failure ≠ none := failure ▸ nofun
      have inactive : ¬ engine.isActive = true := fun active =>
        failed (engine.isActive_iff.mp active)
      rw [Engine.solve_of_failed engine budget _ failed] at answered
      cases answered
      exact ⟨[], _, .refl, ⟨if_neg inactive, Or.inr failed⟩, rfl⟩
    | none =>
      obtain ⟨first, later, head, tail, rfl⟩ :=
        (Engine.solve_cons_eq_some_iff engine budget equation rest report failure).mp answered
      obtain ⟨⟨reached, pending, events⟩, finished, rfl⟩ := Option.map_eq_some_iff.mp head
      obtain rfl : pending = [] := Run.pending_of_finish finished
      obtain ⟨minted, leads⟩ := exists_leads_of_finish finished solved rest
      cases outcome : reached.failure with
      | some _ =>
        have failed : reached.failure ≠ none := outcome ▸ nofun
        have dropped : reached.solve budget rest = some later := tail
        rw [Engine.solve_of_failed reached budget rest failed] at dropped
        cases dropped
        exact ⟨minted, _, leads, ⟨rfl, Or.inr failed⟩, rfl⟩
      | none =>
        obtain ⟨new, last, onward, ended⟩ := inductionHypothesis tail (solved ++ [equation])
        have further := Leads.step _ _ minted [] leads
          (.next reached events solved equation rest outcome)
        exact ⟨_, last, further.trans onward, ended⟩

/-- Every call that answers is a stretch of a session, if it mentions only what the caller may
know. -/
theorem Leads.exists_of_perform {first session : Session} {minted : List Term}
    (leads : first.Leads minted session) (rest : session.AtRest) {budget : Nat}
    {call : Engine.Call} {report : Report}
    (known : ∀ name, call.Mentions name → name.IsBelow session.run.engine.supply.next)
    (answered : session.run.engine.perform budget call = some report) :
    ∃ new last, first.Leads (minted ++ new) last ∧ last.AtRest ∧
      last.run.engine = report.engine := by
  obtain ⟨⟨engine, pending, events⟩, solved, ahead⟩ := session
  obtain ⟨nothing, ended⟩ := rest
  obtain rfl : pending = [] := nothing
  have received := Leads.step _ _ minted [] leads
    (.call engine events solved ahead ended call known)
  rw [List.append_nil] at received
  cases call with
  | unify equation =>
    obtain ⟨new, last, onward, atRest, reached⟩ :=
      exists_leads_of_solve (Engine.solve_singleton answered) []
    exact ⟨new, last, received.trans onward, atRest, reached⟩
  | solve equations =>
    obtain ⟨new, last, onward, atRest, reached⟩ := exists_leads_of_solve answered []
    exact ⟨new, last, received.trans onward, atRest, reached⟩
  | assign name term =>
    obtain rfl := Option.some.inj answered
    exact ⟨[], _, (List.append_nil minted).symm ▸ received, ⟨rfl, Or.inl rfl⟩, rfl⟩

/-- Take an engine whose bindings have no new row variables and whose row extension makes new
rows, and calls that mention none but those handed out by then. At every step, whatever is in the
store, in the failure, in the goals or in the current call is below the next index of the supply.
So every tail is, when it is made, a variable that occurs in none of these, and no tail is made
twice. Every call that answers is made of such steps. -/
theorem minted_tails_are_new (entries : List (Name × Term)) (store : Store) (trace : Bool)
    (made : Store.ofEntries entries = .ok store)
    (symbols : ∀ name, store.Mentions name → ∃ text, name = .symbol text)
    (minted : List Term) (session : Session)
    (leads : (idle (.start store (some RowExtension.withNewRow) trace)).Leads minted session) :
    (∀ name, session.Mentions name → name.IsBelow session.run.engine.supply.next) ∧
    minted.Nodup ∧
    (∀ new later, session.Step new later → ∀ tail ∈ new, ∃ index, tail = .var (.fresh index) ∧
      ¬ session.Mentions (.fresh index) ∧ tail ∉ minted) ∧
    ∀ budget call report, session.AtRest →
      (∀ name, call.Mentions name → name.IsBelow session.run.engine.supply.next) →
      session.run.engine.perform budget call = some report →
      ∃ new later, (idle (.start store (some RowExtension.withNewRow) trace)).Leads
        (minted ++ new) later ∧ later.AtRest ∧ later.run.engine = report.engine := by
  have known (name : Name) (inside : store.Mentions name) : name.IsBelow 0 := by
    obtain ⟨text, rfl⟩ := symbols name inside
    exact trivial
  have start : Orderly (idle (.start store (some RowExtension.withNewRow) trace)) := by
    refine orderly_takeUp (Store.Normal.ofEntries entries store made) rfl ?_ [] [] nofun
    intro name mentioned
    cases mentioned with
    | store inside => exact known name inside
    | failure failure recorded inside => cases recorded
    | pending goal member inside => cases member
  obtain ⟨orderly, -, tails⟩ := leads.orderly start
  have distinct : Function.Injective fun index => Term.var (.fresh index) := by
    intro first second same
    exact Name.fresh.inj (Term.var.inj same)
  refine ⟨orderly.below, ?_, ?_, ?_⟩
  · rw [tails]
    exact List.Nodup.map distinct List.nodup_range'
  · intro new later step tail member
    obtain ⟨-, -, made⟩ := step.orderly orderly
    rw [made] at member
    obtain ⟨index, drawn, rfl⟩ := List.mem_map.mp member
    have least : session.run.engine.supply.next ≤ index :=
      (FreshSupply.mem_drawnUntil_iff.mp drawn).1
    refine ⟨index, rfl, ?_, ?_⟩
    · intro mentioned
      have below : index < session.run.engine.supply.next := orderly.below _ mentioned
      exact absurd below (Nat.not_lt.mpr least)
    · intro again
      rw [tails] at again
      obtain ⟨earlier, before, same⟩ := List.mem_map.mp again
      have below : earlier < session.run.engine.supply.next :=
        (FreshSupply.mem_drawnUntil_iff.mp before).2
      exact absurd (distinct same ▸ below) (Nat.not_lt.mpr least)
  · intro budget call report rest mentioned answered
    exact leads.exists_of_perform rest mentioned answered

/-- Two boxes that need each other's fields. -/
def boxes : Equation := ⟨Engine.wideBox, Engine.deepBox⟩

/-- Treating the boxes makes two tails. Neither occurs before, and both are known afterwards. -/
theorem minted_tails_are_new_boxes : ∃ session later : Session,
    (idle Engine.boxEngine).Leads [] session ∧
      session.Step [.var (.fresh 0), .var (.fresh 1)] later ∧
      later.run.engine.supply.next = 2 ∧
      ¬ session.Mentions (.fresh 0) ∧ ¬ session.Mentions (.fresh 1) ∧
      ∀ name, later.Mentions name → name.IsBelow 2 := by
  have known (name : Name) (mentioned : (Engine.Call.unify boxes).Mentions name) :
      name.IsBelow 0 := by
    have below : ∀ name ∈ boxes.lhs.occurrences ++ boxes.rhs.occurrences, name.IsBelow 0 := by
      decide +kernel
    exact below name (List.mem_append.mpr mentioned)
  have leads : (idle Engine.boxEngine).Leads [] (receive Engine.boxEngine (.unify boxes)) :=
    .step _ _ [] [] .refl (.call Engine.boxEngine [] [] [] (Or.inl rfl) (.unify boxes) known)
  have minted : Engine.boxEngine.mints boxes (Engine.boxEngine.resolve boxes) =
      [.var (.fresh 0), .var (.fresh 1)] := by decide +kernel
  have step := minted ▸ Step.advance Engine.boxEngine ⟨boxes, 0⟩ [] [] [] boxes []
  have next : ((Run.mk Engine.boxEngine [⟨boxes, 0⟩] []).advance boxes).engine.supply.next = 2 := by
    decide +kernel
  obtain ⟨-, -, new, -⟩ := minted_tails_are_new [] .empty false rfl nofun [] _ leads
  obtain ⟨below, -, -⟩ :=
    minted_tails_are_new [] .empty false rfl nofun _ _ (.step _ _ _ _ leads step)
  obtain ⟨first, isFirst, firstNew, -⟩ := new _ _ step (.var (.fresh 0)) (by simp)
  obtain ⟨second, isSecond, secondNew, -⟩ := new _ _ step (.var (.fresh 1)) (by simp)
  obtain rfl := Name.fresh.inj (Term.var.inj isFirst)
  obtain rfl := Name.fresh.inj (Term.var.inj isSecond)
  exact ⟨_, _, leads, step, next, firstNew, secondNew, next ▸ below⟩

end Session

end RowUnification
