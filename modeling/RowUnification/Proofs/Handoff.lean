import RowUnification.Proofs.Sessions

/-!
# Handing bindings on to a new engine

A new engine may be started on the bindings that another one has made. It takes over the
store but not the supply: its own supply begins at index zero, whatever the store has. So
the tails it makes are those of the indices from zero on, and if the store has a tail of
the former engine, a tail made later is soon the same variable. Then rows that have nothing
to do with each other are one row.

An engine that takes over the supply together with the store, as a copy of the former
engine does, makes no tail that the store has.
-/

namespace RowUnification

/-- One of the tails is a variable that the store has. -/
def Store.Captures (store : Store) (tails : List Term) : Prop :=
  ∃ index, .var (.fresh index) ∈ tails ∧ store.Mentions (.fresh index)

/-- A new engine that makes new rows, started on the bindings of this one. -/
def Engine.handOn (engine : Engine) (trace : Bool) : Engine :=
  .start engine.store (some RowExtension.withNewRow) trace

/-- The new engine takes over the supply as well. -/
def Engine.handOnWithSupply (engine : Engine) (trace : Bool) : Engine :=
  { engine.handOn trace with supply := engine.supply }

/-- The call is to solve equations between terms whose variables are symbols. -/
def Engine.Call.OfSymbols : Engine.Call → Prop
  | unify equation => ∀ name, equation.Mentions name → ∃ text, name = .symbol text
  | solve equations =>
    ∀ equation ∈ equations, ∀ name, equation.Mentions name → ∃ text, name = .symbol text
  | assign _ _ => False

namespace Session

/-- The tails made in a session capture a variable of a store exactly if the store has one whose
index the supply hands out meanwhile. -/
theorem Leads.captures_iff {engine : Engine} {last : Session} {tails : List Term}
    (leads : (idle engine).Leads tails last) (normal : engine.store.Normal)
    (standard : engine.extension = some RowExtension.withNewRow) (store : Store) :
    store.Captures tails ↔ ∃ index, store.Mentions (.fresh index) ∧
      engine.supply.next ≤ index ∧ index < last.run.engine.supply.next := by
  obtain ⟨-, -, -, made⟩ := leads.frame normal standard
  constructor
  · rintro ⟨index, member, mentioned⟩
    rw [made] at member
    obtain ⟨drawn, handedOut, same⟩ := List.mem_map.mp member
    obtain rfl := Name.fresh.inj (Term.var.inj same)
    exact ⟨drawn, mentioned, FreshSupply.mem_drawnUntil_iff.mp handedOut⟩
  · rintro ⟨index, mentioned, handedOut⟩
    refine ⟨index, ?_, mentioned⟩
    rw [made]
    exact List.mem_map.mpr ⟨index, FreshSupply.mem_drawnUntil_iff.mpr handedOut, rfl⟩

/-- An engine without bindings is the start of an orderly session. -/
theorem orderly_idle_empty (trace : Bool) :
    (idle (.start .empty (some RowExtension.withNewRow) trace)).Orderly := by
  refine orderly_takeUp Store.Normal.empty rfl ?_ [] [] nofun
  intro name mentioned
  cases mentioned with
  | store inside =>
    rcases inside with bound | ⟨entry, member, -⟩
    · exact nomatch bound
    · exact nomatch member
  | failure failure recorded inside => exact nomatch recorded
  | pending goal member inside => exact nomatch member

/-- A call to `unify` on terms whose variables are symbols is a session. -/
theorem exists_leads_of_unify {engine : Engine} {budget : Nat} {equation : Equation}
    {report : Report} (symbols : (Engine.Call.unify equation).OfSymbols)
    (answered : engine.unify budget equation = some report) :
    ∃ tails last, (idle engine).Leads tails last ∧ last.run.engine = report.engine := by
  have known (name : Name) (mentioned : (Engine.Call.unify equation).Mentions name) :
      name.IsBelow (idle engine).run.engine.supply.next := by
    obtain ⟨text, rfl⟩ := symbols name mentioned
    exact trivial
  have performed : (idle engine).run.engine.perform budget (.unify equation) = some report :=
    answered
  have rest : (idle engine).AtRest := ⟨rfl, Or.inl rfl⟩
  obtain ⟨tails, last, leads, -, reached⟩ :=
    Leads.exists_of_perform .refl rest known performed
  exact ⟨tails, last, leads, reached⟩

/-- Take an engine that has started without bindings and, at any moment, a new engine that is
started on the bindings made. The new engine makes the tails of the indices from zero on, so it
captures a variable of these bindings exactly if they have one whose index is smaller than the
number of its tails. An engine that takes over the supply with the bindings captures none. -/
theorem captures_after_handoff (trace laterTrace : Bool) (minted later : List Term)
    (former session : Session)
    (leads : (idle (.start .empty (some RowExtension.withNewRow) trace)).Leads minted former)
    (resumed : (idle (former.run.engine.handOn laterTrace)).Leads later session) :
    later = (List.range session.run.engine.supply.next).map (fun index => .var (.fresh index)) ∧
    (former.run.engine.store.Captures later ↔
      ∃ index < later.length, former.run.engine.store.Mentions (.fresh index)) ∧
    ∀ tails continued,
      (idle (former.run.engine.handOnWithSupply laterTrace)).Leads tails continued →
        ¬ former.run.engine.store.Captures tails := by
  obtain ⟨orderly, -, -⟩ := leads.orderly (orderly_idle_empty trace)
  obtain ⟨-, -, -, made⟩ := resumed.frame orderly.normal rfl
  have inOrder : later = (List.range session.run.engine.supply.next).map
      fun index => .var (.fresh index) := by
    rw [made, FreshSupply.drawnUntil, List.range_eq_range']
    rfl
  have length : later.length = session.run.engine.supply.next := by
    rw [inOrder, List.length_map, List.length_range]
  refine ⟨inOrder, ?_, ?_⟩
  · rw [resumed.captures_iff orderly.normal rfl, length]
    constructor
    · rintro ⟨index, mentioned, -, handedOut⟩
      exact ⟨index, handedOut, mentioned⟩
    · rintro ⟨index, handedOut, mentioned⟩
      exact ⟨index, mentioned, Nat.zero_le index, handedOut⟩
  · intro tails continued further captured
    obtain ⟨index, mentioned, least, -⟩ :=
      (further.captures_iff orderly.normal rfl _).mp captured
    have below : index < former.run.engine.supply.next :=
      orderly.below (.fresh index) (Or.inl (.store mentioned))
    exact absurd below (Nat.not_lt.mpr least)

/-- Two shelves that need each other's fields; they have nothing to do with the boxes. -/
def shelves : Equation where
  lhs := .app ⟨.symbol "Shelf", [], .ofList [(.symbol "depth", .var (.symbol "u"))],
    some (.var (.symbol "p"))⟩
  rhs := .app ⟨.symbol "Shelf", [], .ofList [(.symbol "width", .var (.symbol "v"))],
    some (.var (.symbol "q"))⟩

/-- The boxes and the shelves have symbols as variables only. -/
theorem ofSymbols_boxes_shelves :
    (Engine.Call.unify boxes).OfSymbols ∧ (Engine.Call.unify shelves).OfSymbols := by
  have symbols (equation : Equation)
      (below : ∀ name ∈ equation.lhs.occurrences ++ equation.rhs.occurrences, name.IsBelow 0) :
      (Engine.Call.unify equation).OfSymbols := by
    intro name mentioned
    cases name with
    | symbol text => exact ⟨text, rfl⟩
    | fresh index =>
      have impossible : index < 0 := below _ (List.mem_append.mpr mentioned)
      exact absurd impossible (Nat.not_lt_zero index)
  constructor
  · exact symbols boxes (by decide +kernel)
  · exact symbols shelves (by decide +kernel)

/-- Solving the boxes leaves the tail of index zero in the store. An engine started on this store
makes two tails for the shelves, and so does one that takes over the supply as well. -/
theorem exists_boxes_then_shelves : ∃ first second third,
    Engine.boxEngine.unify 20 boxes = some first ∧
      first.engine.store.Mentions (.fresh 0) ∧
      (first.engine.handOn false).unify 20 shelves = some second ∧
      second.engine.supply.next = 2 ∧
      (first.engine.handOnWithSupply false).unify 20 shelves = some third ∧
      third.engine.supply.next = 4 := by
  obtain ⟨first, answered⟩ := Option.isSome_iff_exists.mp (by decide +kernel :
    (Engine.boxEngine.unify 20 boxes).isSome = true)
  have outcome : (Engine.boxEngine.unify 20 boxes).all (fun first =>
      (∃ entry ∈ first.engine.store.entries, .fresh 0 ∈ entry.2.occurrences) ∧
      (((first.engine.handOn false).unify 20 shelves).any fun second =>
        second.engine.supply.next = 2) ∧
      ((first.engine.handOnWithSupply false).unify 20 shelves).any fun third =>
        third.engine.supply.next = 4) = true := by decide +kernel
  rw [answered] at outcome
  obtain ⟨occurs, resumed, continued⟩ := of_decide_eq_true outcome
  obtain ⟨second, secondAnswer, two⟩ := (Option.any_eq_true _ _).mp resumed
  obtain ⟨third, thirdAnswer, four⟩ := (Option.any_eq_true _ _).mp continued
  exact ⟨first, second, third, answered, Or.inr occurs, secondAnswer, of_decide_eq_true two,
    thirdAnswer, of_decide_eq_true four⟩

/-- The engine started on the bindings of the boxes captures a tail of theirs when it solves the
shelves; one that takes over the supply as well makes two tails, too, and captures none. -/
theorem captures_after_handoff_boxes : ∃ former session : Session, ∃ minted later,
    (idle Engine.boxEngine).Leads minted former ∧
      (idle (former.run.engine.handOn false)).Leads later session ∧
      later = [.var (.fresh 0), .var (.fresh 1)] ∧ former.run.engine.store.Captures later ∧
      ∃ tails continued, (idle (former.run.engine.handOnWithSupply false)).Leads tails continued ∧
        continued.run.engine.supply.next = 4 ∧ ¬ former.run.engine.store.Captures tails := by
  obtain ⟨first, second, third, answered, mentioned, resumed, two, continued, four⟩ :=
    exists_boxes_then_shelves
  obtain ⟨boxSymbols, shelfSymbols⟩ := ofSymbols_boxes_shelves
  obtain ⟨minted, former, leads, reached⟩ := exists_leads_of_unify boxSymbols answered
  rw [← reached] at mentioned resumed continued
  obtain ⟨later, session, onward, ended⟩ := exists_leads_of_unify shelfSymbols resumed
  obtain ⟨tails, last, further, finished⟩ := exists_leads_of_unify shelfSymbols continued
  obtain ⟨inOrder, captures, apart⟩ :=
    captures_after_handoff false false minted later former session leads onward
  rw [ended, two] at inOrder
  refine ⟨former, session, minted, later, leads, onward, inOrder, captures.mpr ?_, tails, last,
    further, ?_, apart tails last further⟩
  · exact ⟨0, by rw [inOrder]; decide, mentioned⟩
  · rw [finished, four]

/-- A new engine may hand out an index that the bindings it was started on have. -/
theorem handoff_hands_out_index_again :
    ¬ ∀ (budget : Nat) (calls laterCalls : List Engine.Call) (former latter : Engine),
      (∀ call ∈ calls ++ laterCalls, call.OfSymbols) →
      Engine.boxEngine.performAll budget calls = some former →
      (former.handOn false).performAll budget laterCalls = some latter →
      ∀ index < latter.supply.next, ¬ former.store.Mentions (.fresh index) := by
  intro apart
  obtain ⟨first, second, -, answered, mentioned, resumed, two, -, -⟩ := exists_boxes_then_shelves
  obtain ⟨boxSymbols, shelfSymbols⟩ := ofSymbols_boxes_shelves
  refine apart 20 [.unify boxes] [.unify shelves] first.engine second.engine ?_ ?_ ?_ 0 ?_ mentioned
  · intro call member
    rcases List.mem_pair.mp member with rfl | rfl
    · exact boxSymbols
    · exact shelfSymbols
  · simp only [Engine.performAll, Engine.perform, answered]
    rfl
  · simp only [Engine.performAll, Engine.perform, resumed]
    rfl
  · rw [two]
    exact Nat.zero_lt_two

end Session

end RowUnification
