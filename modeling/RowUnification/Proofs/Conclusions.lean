import RowUnification.Proofs.Tails

/-!
# Conclusions about spare tails

`Engine.Concludes` says that a list of equations is worked off, and what holds
afterwards unless that fails. Conclusions about two lists combine to one about both.

An equation that binds a spare tail, or a name to a term that ends in a spare tail,
is one move. Afterwards the tail lies within the names or is loose: it ends in
itself or in another spare tail. Two records are extended by three equations, one
for each row and one for the two tails made on the way. If at least one of the rows
is spare, the equation of the other one decides what becomes of it.
-/

namespace RowUnification.Engine

/-- The equations are worked off, and unless that fails the outcome holds at the end. -/
def Concludes (top : Equation) (engine : Engine) (pending : List Equation)
    (outcome : Engine → Prop) : Prop :=
  ∃ visited final, WorksOff top engine pending visited final ∧
    (final.failure = none → outcome final)

namespace Concludes

variable {top : Equation} {engine : Engine} {outcome further : Engine → Prop}

/-- A conclusion may be weakened. -/
theorem imp {pending : List Equation} (concludes : Concludes top engine pending outcome)
    (weaker : ∀ final, outcome final → further final) : Concludes top engine pending further := by
  obtain ⟨visited, final, work, holds⟩ := concludes
  exact ⟨visited, final, work, fun active => weaker final (holds active)⟩

/-- Nothing is to be done. -/
theorem nil (holds : outcome engine) : Concludes top engine [] outcome :=
  ⟨[], engine, .done engine, fun _ => holds⟩

/-- Two lists are worked off one after another. -/
theorem append {first second : List Equation} (active : engine.failure = none)
    (near : Concludes top engine first outcome)
    (far : ∀ middle, middle.failure = none → outcome middle →
      Concludes top middle second further) :
    Concludes top engine (first ++ second) further := by
  obtain ⟨visited, middle, work, holds⟩ := near
  cases failure : middle.failure with
  | none =>
    obtain ⟨later, final, moreWork, moreHolds⟩ := far middle failure (holds failure)
    exact ⟨_, final, work.append failure moreWork, moreHolds⟩
  | some _ =>
    have failed : middle.failure ≠ none := failure ▸ nofun
    exact ⟨visited, middle, work.append_failed second active failed,
      fun contrary => absurd contrary failed⟩

/-- The first equation is worked off, and then the others. -/
theorem andThen {equation : Equation} {rest : List Equation} (active : engine.failure = none)
    (near : Concludes top engine [equation] outcome)
    (far : ∀ middle, middle.failure = none → outcome middle → Concludes top middle rest further) :
    Concludes top engine (equation :: rest) further :=
  near.append active far

/-- The first equation is worked off by one move and what follows. A move that fails
concludes anything. -/
theorem cons {equation : Equation} {rest : List Equation}
    (settled : engine.move top (engine.resolve equation) = .settled →
      Concludes top engine rest outcome)
    (bound : ∀ store, engine.move top (engine.resolve equation) = .bound store →
      Concludes top { engine with store } rest outcome)
    (decomposed : ∀ equations supply,
      engine.move top (engine.resolve equation) = .decomposed equations supply →
        Concludes top { engine with supply } (equations ++ rest) outcome) :
    Concludes top engine (equation :: rest) outcome := by
  cases move : engine.move top (engine.resolve equation) with
  | settled =>
    obtain ⟨visited, final, work, holds⟩ := settled move
    exact ⟨_, final, .settled engine final equation rest visited move work, holds⟩
  | bound store =>
    obtain ⟨visited, final, work, holds⟩ := bound store move
    exact ⟨_, final, .bound engine final equation rest visited store move work, holds⟩
  | decomposed equations supply =>
    obtain ⟨visited, final, work, holds⟩ := decomposed equations supply move
    exact ⟨_, final, .decomposed engine final equation rest visited equations supply move work,
      holds⟩
  | refused failure store supply =>
    obtain ⟨rfl, rfl⟩ := refused_of_move move
    exact ⟨_, _, .refused engine equation rest failure move, nofun⟩

/-- Only what an equation resolves to matters. -/
theorem congr {equation other : Equation} (same : engine.resolve equation = engine.resolve other)
    (concludes : Concludes top engine [equation] outcome) :
    Concludes top engine [other] outcome := by
  obtain ⟨visited, final, work, holds⟩ := concludes
  cases work with
  | settled _ _ _ _ visited move rest =>
    exact ⟨_, final, .settled engine final other [] visited (same ▸ move) rest, holds⟩
  | bound _ _ _ _ visited store move rest =>
    exact ⟨_, final, .bound engine final other [] visited store (same ▸ move) rest, holds⟩
  | decomposed _ _ _ _ visited equations supply move rest =>
    exact ⟨_, final, .decomposed engine final other [] visited equations supply (same ▸ move) rest,
      holds⟩
  | refused _ _ _ failure move =>
    exact ⟨_, _, .refused engine other [] failure (same ▸ move), holds⟩

/-- The sides of an equation may be exchanged. -/
theorem swap {lhs rhs : Term} (normal : engine.store.Normal) (active : engine.failure = none)
    (concludes : Concludes top engine [⟨lhs, rhs⟩] outcome) :
    Concludes top engine [⟨rhs, lhs⟩] outcome := by
  obtain ⟨visited, final, work, holds⟩ := concludes
  have exchanged : List.Forall₂ Equation.Mirrors [⟨lhs, rhs⟩] [⟨rhs, lhs⟩] :=
    .cons (Or.inr rfl) .nil
  obtain ⟨treated, last, mirroredWork, alike⟩ := work.mirrored top normal active exchanged
  refine ⟨treated, last, mirroredWork, ?_⟩
  cases alike with
  | active _ _ => exact holds
  | failed _ _ _ _ => exact nofun

/-- An equation with a variable on one side is settled, bound or refused by one move.
A variable bound this way is free, and the other side resolves to itself. -/
theorem of_variable {lhs rhs : Term} (normal : engine.store.Normal)
    (variableSide : (∃ name, engine.store.apply lhs = .var name) ∨
      ∃ name, engine.store.apply rhs = .var name)
    (different : engine.store.apply lhs ≠ engine.store.apply rhs)
    (bound : ∀ name term store,
      (engine.store.apply lhs = .var name ∧ engine.store.apply rhs = term) ∨
        (engine.store.apply lhs = term ∧ engine.store.apply rhs = .var name) →
      engine.store.lookup? name = none → engine.store.apply term = term →
      engine.store.bind name term = .ok store → outcome { engine with store }) :
    Concludes top engine [⟨lhs, rhs⟩] outcome := by
  refine cons (fun move => ?_) (fun store move => ?_) (fun equations supply move => ?_)
  · obtain ⟨name, shape⟩ := (move ▸ engine.moved top _).of_settled
    rw [resolve, Equation.mk.injEq] at shape
    exact absurd (shape.1.trans shape.2.symm) different
  · obtain ⟨name, term, assigns, free, resolved, success⟩ := bound_of_move normal move
    simp only [resolve, Equation.Assigns, Equation.mk.injEq] at assigns
    exact nil (bound name term store assigns.1 free resolved success)
  · obtain ⟨left, right, -, shape, -⟩ := (move ▸ engine.moved top _).of_decomposed
    rw [resolve, Equation.mk.injEq] at shape
    rcases variableSide with ⟨name, side⟩ | ⟨name, side⟩
    · cases side.symm.trans shape.1
    · cases side.symm.trans shape.2

end Concludes

/-- The term lies within the names, or it is loose with one of the given tails or with one
not known yet. -/
def Trails (bound : Nat) (tails : List Name) (engine : Engine) (names : Finset Name)
    (term : Term) : Prop :=
  (engine.store.apply term).Within names ∨
    ∃ tail, engine.Loose names tail term ∧ (tail.IsBelow bound → tail ∈ tails)

namespace Trails

variable {bound : Nat} {tails : List Name} {engine : Engine} {names : Finset Name} {term : Term}

/-- What was not known at some point was not known earlier. -/
theorem mono {earlier : Nat} (trails : Trails bound tails engine names term)
    (least : earlier ≤ bound) : Trails earlier tails engine names term := by
  rcases trails with within | ⟨tail, loose, touchable⟩
  · exact Or.inl within
  · exact Or.inr ⟨tail, loose, fun below => touchable (below.mono least)⟩

/-- A step that touches none of its tails keeps a trailing term. -/
theorem advance {touched : List Name} {later : Engine} {laterNames : Finset Name}
    (trails : Trails bound tails engine names term)
    (advances : Advances touched engine names later laterNames)
    (kept : ∀ tail, engine.Loose names tail term → (tail.IsBelow bound → tail ∈ tails) →
      tail ∉ touched) : Trails bound tails later laterNames term := by
  rcases trails with within | ⟨tail, loose, touchable⟩
  · exact Or.inl (advances.within within)
  · exact Or.inr ⟨tail, advances.loose loose (kept tail loose touchable), touchable⟩

end Trails

/-- A loose term becomes what its tail becomes. -/
theorem Loose.trails {engine later : Engine} {names laterNames : Finset Name} {tail : Name}
    {term : Term} {touched tails : List Name} {bound : Nat} (loose : engine.Loose names tail term)
    (advances : Advances touched engine names later laterNames)
    (trails : Trails bound tails later laterNames (.var tail)) :
    Trails bound tails later laterNames term := by
  rcases trails with within | ⟨other, otherLoose, touchable⟩
  · left
    rw [← advances.refined term]
    exact loose.ends.within_apply advances.carried within
  · right
    refine ⟨other, ⟨otherLoose.spare, ?_⟩, touchable⟩
    rw [← advances.refined term]
    exact loose.ends.endsIn_apply advances.carried otherLoose.ends

/-- A spare tail is loose with itself. -/
theorem Spare.loose {engine : Engine} {names : Finset Name} {tail : Name}
    (spare : engine.Spare names tail) : engine.Loose names tail (.var tail) := by
  refine ⟨spare, ?_⟩
  rw [Store.apply_var_of_free _ tail spare.free]
  exact .var

namespace Confined

variable {engine : Engine} {names : Finset Name} {top : Equation}

/-- Of two names that are equated, one is taken out of the names. -/
theorem concludes_names (confined : engine.Confined names) {first second : Name}
    (firstMember : first ∈ names) (secondMember : second ∈ names) (different : first ≠ second) :
    Concludes top engine [⟨.var first, .var second⟩] fun final =>
      ∃ laterNames, Advances [] engine names final laterNames ∧
        laterNames.card < names.card := by
  have firstFree := Store.apply_var_of_free _ first (confined.free first firstMember)
  have secondFree := Store.apply_var_of_free _ second (confined.free second secondMember)
  refine .of_variable confined.normal (Or.inl ⟨first, firstFree⟩) ?_
    fun name term store sides free resolved success => ?_
  · rw [firstFree, secondFree]
    exact fun same => different (Term.var.inj same)
  · rw [firstFree, secondFree] at sides
    rcases sides with ⟨left, rfl⟩ | ⟨rfl, right⟩
    · obtain rfl := Term.var.inj left
      exact ⟨_, confined.advances_bind_within firstMember resolved success
        ((Term.within_var_iff second).mpr secondMember), Finset.card_erase_lt_of_mem firstMember⟩
    · obtain rfl := Term.var.inj right
      exact ⟨_, confined.advances_bind_within secondMember resolved success
        ((Term.within_var_iff first).mpr firstMember), Finset.card_erase_lt_of_mem secondMember⟩

/-- A name that is equated with a loose application is exchanged for its tail. -/
theorem concludes_exchange (confined : engine.Confined names) {tail name : Name}
    {parts : Application Term} {lhs rhs : Term} (loose : engine.Loose names tail lhs)
    (lhsShape : engine.store.apply lhs = .app parts) (rhsShape : engine.store.apply rhs = .var name)
    (member : name ∈ names) :
    Concludes top engine [⟨lhs, rhs⟩] fun final =>
      Advances [tail] engine names final (insert tail (names.erase name)) := by
  refine .of_variable confined.normal (Or.inr ⟨name, rhsShape⟩) ?_
    fun other term store sides free resolved success => ?_
  · rw [lhsShape, rhsShape]
    exact nofun
  · rcases sides with ⟨left, -⟩ | ⟨rfl, right⟩
    · exact nomatch lhsShape.symm.trans left
    · obtain rfl := Term.var.inj (rhsShape.symm.trans right)
      exact confined.advances_bind_loose member resolved success loose.spare loose.ends

/-- A spare tail that is equated with a term within the names comes to lie within them. -/
theorem concludes_spare_within (confined : engine.Confined names) {tail : Name} {rhs : Term}
    (spare : engine.Spare names tail) (within : (engine.store.apply rhs).Within names) :
    Concludes top engine [⟨.var tail, rhs⟩] fun final =>
      ∃ laterNames, Advances [tail] engine names final laterNames ∧
        (final.store.apply (.var tail)).Within laterNames := by
  have tailFree := Store.apply_var_of_free _ tail spare.free
  refine .of_variable confined.normal (Or.inl ⟨tail, tailFree⟩) ?_
    fun name term store sides free resolved success => ?_
  · rw [tailFree]
    intro same
    rw [← same, Term.within_var_iff] at within
    exact spare.outside within
  · rw [tailFree] at sides
    rcases sides with ⟨left, rfl⟩ | ⟨rfl, right⟩
    · obtain rfl := Term.var.inj left
      have advances := confined.advances_bind_spare spare success
      refine ⟨names, advances, ?_⟩
      change (store.apply (.var tail)).Within names
      rw [Store.apply_var_bind confined.normal free success]
      exact advances.within (resolved.symm ▸ within)
    · rw [right, Term.within_var_iff] at within
      have advances := confined.advances_bind_loose within resolved success spare .var
      exact ⟨_, advances, advances.confined.within_var (Finset.mem_insert_self _ _)⟩

/-- A spare tail that is equated with a loose application becomes loose with its tail. -/
theorem concludes_spare_app (confined : engine.Confined names) {tail other : Name} {rhs : Term}
    {parts : Application Term} (spare : engine.Spare names tail)
    (loose : engine.Loose names other rhs) (shape : engine.store.apply rhs = .app parts)
    (different : tail ≠ other) :
    Concludes top engine [⟨.var tail, rhs⟩] fun final =>
      Advances [tail] engine names final names ∧ final.Loose names other (.var tail) := by
  have tailFree := Store.apply_var_of_free _ tail spare.free
  refine .of_variable confined.normal (Or.inl ⟨tail, tailFree⟩) ?_
    fun name term store sides free resolved success => ?_
  · rw [tailFree, shape]
    exact nofun
  · rw [tailFree] at sides
    rcases sides with ⟨left, rfl⟩ | ⟨-, right⟩
    · obtain rfl := Term.var.inj left
      have advances := confined.advances_bind_spare spare success
      have kept := advances.loose loose (fun member =>
        different (List.mem_singleton.mp member).symm)
      refine ⟨advances, kept.spare, ?_⟩
      change (store.apply (.var tail)).EndsIn names other
      rw [Store.apply_var_bind confined.normal free success]
      exact advances.refined rhs ▸ kept.ends
    · exact nomatch shape.symm.trans right

/-- A spare tail that is equated with a loose term keeps or takes a spare tail. -/
theorem concludes_spare_loose (confined : engine.Confined names) {tail other : Name} {rhs : Term}
    (spare : engine.Spare names tail) (loose : engine.Loose names other rhs)
    (different : tail ≠ other) :
    Concludes top engine [⟨.var tail, rhs⟩] fun final =>
      Advances [tail, other] engine names final names ∧
        (final.Loose names tail (.var tail) ∨ final.Loose names other (.var tail)) := by
  cases shape : engine.store.apply rhs with
  | app parts =>
    refine (confined.concludes_spare_app spare loose shape different).imp fun final outcome => ?_
    refine ⟨outcome.1.weaken fun name member _ => ?_, Or.inr outcome.2⟩
    exact List.mem_cons.mpr (Or.inl (List.mem_singleton.mp member))
  | var last =>
    obtain rfl : last = other := by
      have ends := loose.ends
      rw [shape] at ends
      cases ends
      rfl
    have tailFree := Store.apply_var_of_free _ tail spare.free
    refine .of_variable confined.normal (Or.inl ⟨tail, tailFree⟩) ?_
      fun name term store sides free resolved success => ?_
    · rw [tailFree, shape]
      exact fun same => different (Term.var.inj same)
    · rw [tailFree, shape] at sides
      rcases sides with ⟨left, rfl⟩ | ⟨rfl, right⟩
      · obtain rfl := Term.var.inj left
        have advances := confined.advances_bind_spare spare success
        have kept : Spare { engine with store } names last :=
          advances.untouched last loose.spare fun member =>
            different (List.mem_singleton.mp member).symm
        refine ⟨advances.weaken fun _ member _ => List.mem_cons.mpr
          (Or.inl (List.mem_singleton.mp member)), Or.inr ⟨kept, ?_⟩⟩
        change (store.apply (.var tail)).EndsIn names last
        rw [Store.apply_var_bind confined.normal free success,
          Store.apply_var_of_free store last kept.free]
        exact .var
      · obtain rfl := Term.var.inj right
        have advances := confined.advances_bind_spare loose.spare success
        have kept : Spare { engine with store } names tail :=
          advances.untouched tail spare fun member => different (List.mem_singleton.mp member)
        exact ⟨advances.weaken fun _ member _ => List.mem_cons.mpr (Or.inr member),
          Or.inl kept.loose⟩

/-- Rows that are names are exchanged for the two tails, and one of these is taken out of the
names again. -/
theorem concludes_extension_of_names (confined : engine.Confined names)
    {firstParts secondParts : Application Term} {firstRow secondRow firstTail secondTail : Name}
    (firstLoose : engine.Loose names firstTail (.app firstParts))
    (secondLoose : engine.Loose names secondTail (.app secondParts))
    (firstMember : firstRow ∈ names) (secondMember : secondRow ∈ names)
    (rows : firstRow ≠ secondRow) (tails : firstTail ≠ secondTail) :
    Concludes top engine [⟨.app firstParts, .var secondRow⟩, ⟨.app secondParts, .var firstRow⟩,
      ⟨.var firstTail, .var secondTail⟩] fun final =>
        ∃ laterNames, Advances [firstTail, secondTail] engine names final laterNames ∧
          laterNames.card < names.card := by
  have secondFree := Store.apply_var_of_free _ secondRow (confined.free secondRow secondMember)
  refine .andThen confined.active
    (confined.concludes_exchange firstLoose (Term.subst_app _ firstParts) secondFree secondMember)
    fun middle active near => ?_
  have firstKept : firstRow ∈ insert firstTail (names.erase secondRow) :=
    Finset.mem_insert_of_mem (Finset.mem_erase.mpr ⟨rows, firstMember⟩)
  have firstFree :=
    Store.apply_var_of_free _ firstRow (near.confined.free firstRow firstKept)
  have secondKept := near.loose secondLoose fun member =>
    tails (List.mem_singleton.mp member).symm
  refine .andThen active
    (near.confined.concludes_exchange secondKept (Term.subst_app _ secondParts) firstFree firstKept)
    fun last lastActive far => ?_
  have firstTailOther : firstTail ≠ firstRow := fun same =>
    firstLoose.spare.outside (same ▸ firstMember)
  refine (far.confined.concludes_names
    (Finset.mem_insert_of_mem (Finset.mem_erase.mpr
      ⟨firstTailOther, Finset.mem_insert_self firstTail _⟩))
    (Finset.mem_insert_self secondTail _) tails).imp ?_
  rintro final ⟨laterNames, advances, less⟩
  have both := near.trans [firstTail, secondTail] far (by simp)
  refine ⟨laterNames, both.trans _ advances (by simp), ?_⟩
  have fewer := both.fewer
  omega

/-- Rows that are spare tails become loose with the two tails, and these are equated. -/
theorem concludes_extension_of_spares (confined : engine.Confined names)
    {firstParts secondParts : Application Term} {firstRow secondRow firstTail secondTail : Name}
    (firstLoose : engine.Loose names firstTail (.app firstParts))
    (secondLoose : engine.Loose names secondTail (.app secondParts))
    (firstSpare : engine.Spare names firstRow) (secondSpare : engine.Spare names secondRow)
    (distinct : [firstRow, secondRow, firstTail, secondTail].Nodup) :
    Concludes top engine [⟨.app firstParts, .var secondRow⟩, ⟨.app secondParts, .var firstRow⟩,
      ⟨.var firstTail, .var secondTail⟩] fun final =>
        Advances [firstRow, secondRow, firstTail, secondTail] engine names final names := by
  simp only [List.nodup_cons, List.mem_cons, List.not_mem_nil, or_false, not_or, not_false_eq_true,
    List.nodup_nil, and_true] at distinct
  obtain ⟨⟨rows, firstOwn, firstCross⟩, ⟨secondCross, secondOwn⟩, tails⟩ := distinct
  refine .andThen confined.active (.swap confined.normal confined.active
    (confined.concludes_spare_app secondSpare firstLoose (Term.subst_app _ firstParts) secondCross))
    fun middle active near => ?_
  have firstSpareKept := near.1.untouched firstRow firstSpare (by simp [rows])
  have secondKept := near.1.loose secondLoose (by simp [Ne.symm secondOwn])
  refine .andThen active (.swap near.1.confined.normal active
    (near.1.confined.concludes_spare_app firstSpareKept secondKept (Term.subst_app _ secondParts)
      firstCross)) fun last lastActive far => ?_
  have both := near.1.trans [firstRow, secondRow] far.1 (by simp)
  have firstTailKept := both.untouched firstTail firstLoose.spare
    (by simp [Ne.symm firstOwn, Ne.symm secondCross])
  have secondTailKept := both.untouched secondTail secondLoose.spare
    (by simp [Ne.symm firstCross, Ne.symm secondOwn])
  refine (both.confined.concludes_spare_loose firstTailKept secondTailKept.loose tails).imp ?_
  rintro final ⟨advances, -⟩
  exact both.trans _ advances fun name member _ => by simpa [or_assoc] using member

/-- A spare tail that is equated with a trailing variable trails like it. -/
theorem concludes_spare_trails (confined : engine.Confined names) {own other : Name} {bound : Nat}
    (spare : engine.Spare names own) (below : own.IsBelow bound) (different : own ≠ other)
    (trails : Trails bound [other] engine names (.var other)) :
    Concludes top engine [⟨.var own, .var other⟩] fun final =>
      ∃ laterNames touched, Advances touched engine names final laterNames ∧
        (∀ name ∈ touched, name.IsBelow bound → name ∈ [own, other]) ∧
        Trails bound [own, other] final laterNames (.var own) := by
  rcases trails with within | ⟨last, loose, touchable⟩
  · refine (confined.concludes_spare_within spare within).imp ?_
    rintro final ⟨laterNames, advances, ownWithin⟩
    exact ⟨laterNames, [own], advances, by simp, Or.inl ownWithin⟩
  · have lastOther : own ≠ last := by
      rintro rfl
      exact different (List.mem_singleton.mp (touchable below))
    refine (confined.concludes_spare_loose spare loose lastOther).imp ?_
    have lastTouchable (known : last.IsBelow bound) : last ∈ [own, other] :=
      List.mem_cons_of_mem own (touchable known)
    have touchedKnown : ∀ name ∈ [own, last], name.IsBelow bound → name ∈ [own, other] := by
      intro name member known
      rcases List.mem_cons.mp member with rfl | isLast
      · exact List.mem_cons_self
      · obtain rfl := List.mem_singleton.mp isLast
        exact lastTouchable known
    rintro final ⟨advances, ownLoose | lastLoose⟩
    · exact ⟨names, _, advances, touchedKnown, Or.inr ⟨own, ownLoose, fun _ => List.mem_cons_self⟩⟩
    · exact ⟨names, _, advances, touchedKnown, Or.inr ⟨last, lastLoose, lastTouchable⟩⟩

section SpareRow

variable {ownParts : Application Term} {rowTerm row : Term} {own ownTail rowTail : Name}

/-- With the spare row loose with one tail and the other tail trailing, equating the tails
makes the spare row trail. -/
theorem concludes_tails {middle : Engine} {middleNames : Finset Name}
    (near : Advances [own, rowTail] engine names middle middleNames)
    (ownLoose : middle.Loose middleNames ownTail (.var own))
    (trails : Trails engine.supply.next [rowTail] middle middleNames (.var rowTail))
    (known : ownTail.IsBelow engine.supply.next) (different : ownTail ≠ rowTail) :
    Concludes top middle [⟨.var ownTail, .var rowTail⟩] fun final =>
      ∃ laterNames, Advances [own, ownTail, rowTail] engine names final laterNames ∧
        Trails engine.supply.next [ownTail, rowTail] final laterNames (.var own) := by
  refine (near.confined.concludes_spare_trails ownLoose.spare known different trails).imp ?_
  rintro final ⟨laterNames, touched, far, touchedKnown, ownTrails⟩
  refine ⟨laterNames, near.trans _ far fun name member below => ?_, ownLoose.trails far ownTrails⟩
  rcases member with early | late
  · rcases List.mem_cons.mp early with rfl | isRowTail
    · exact List.mem_cons_self
    · exact List.mem_cons_of_mem _ (List.mem_cons_of_mem _ isRowTail)
  · exact List.mem_cons_of_mem _ (touchedKnown name late below)

/-- A record with a spare row against an open one, the other row first. Whatever is known to
become of the other row, the spare row trails one of the tails in the end. -/
theorem concludes_extension_row_first (confined : engine.Confined names)
    (ownSpare : engine.Spare names own) (ownLoose : engine.Loose names ownTail (.app ownParts))
    (distinct : [own, ownTail, rowTail].Nodup)
    (solveRow : ∀ state, Advances [own] engine names state names →
      Concludes top state [⟨rowTerm, row⟩] fun final =>
        ∃ laterNames, Advances [rowTail] state names final laterNames ∧
          Trails state.supply.next [rowTail] final laterNames (.var rowTail)) :
    Concludes top engine [⟨rowTerm, row⟩, ⟨.app ownParts, .var own⟩,
      ⟨.var rowTail, .var ownTail⟩] fun final =>
        ∃ laterNames, Advances [own, ownTail, rowTail] engine names final laterNames ∧
          Trails engine.supply.next [ownTail, rowTail] final laterNames (.var own) := by
  simp only [List.nodup_cons, List.mem_cons, List.not_mem_nil, or_false, not_or, not_false_eq_true,
    List.nodup_nil, and_true] at distinct
  obtain ⟨⟨ownOther, ownRow⟩, tails⟩ := distinct
  refine .andThen confined.active (solveRow engine (confined.advances_self.weaken nofun))
    fun middle active outcome => ?_
  obtain ⟨middleNames, near, trails⟩ := outcome
  have ownKept := near.untouched own ownSpare (by simp [ownRow])
  have looseKept := near.loose ownLoose (by simp [tails])
  refine .andThen active (.swap near.confined.normal active
    (near.confined.concludes_spare_app ownKept looseKept (Term.subst_app _ ownParts) ownOther))
    fun last lastActive far => ?_
  have both := near.trans [own, rowTail] far.1 (by simp)
  have trailsKept := trails.advance far.1 fun tail loose touchable member => by
    obtain rfl := List.mem_singleton.mp member
    exact ownRow (List.mem_singleton.mp (touchable ownSpare.known))
  exact .swap both.confined.normal lastActive
    (concludes_tails both far.2 trailsKept ownLoose.spare.known tails)

/-- A record with a spare row against an open one, the spare row first. -/
theorem concludes_extension_spare_first (confined : engine.Confined names)
    (ownSpare : engine.Spare names own) (ownLoose : engine.Loose names ownTail (.app ownParts))
    (distinct : [own, ownTail, rowTail].Nodup)
    (solveRow : ∀ state, Advances [own] engine names state names →
      Concludes top state [⟨rowTerm, row⟩] fun final =>
        ∃ laterNames, Advances [rowTail] state names final laterNames ∧
          Trails state.supply.next [rowTail] final laterNames (.var rowTail)) :
    Concludes top engine [⟨.app ownParts, .var own⟩, ⟨rowTerm, row⟩,
      ⟨.var ownTail, .var rowTail⟩] fun final =>
        ∃ laterNames, Advances [own, ownTail, rowTail] engine names final laterNames ∧
          Trails engine.supply.next [ownTail, rowTail] final laterNames (.var own) := by
  simp only [List.nodup_cons, List.mem_cons, List.not_mem_nil, or_false, not_or, not_false_eq_true,
    List.nodup_nil, and_true] at distinct
  obtain ⟨⟨ownOther, ownRow⟩, tails⟩ := distinct
  refine .andThen confined.active (.swap confined.normal confined.active
    (confined.concludes_spare_app ownSpare ownLoose (Term.subst_app _ ownParts) ownOther))
    fun middle active near => ?_
  refine .andThen active (solveRow middle near.1) fun last lastActive outcome => ?_
  obtain ⟨lastNames, far, trails⟩ := outcome
  have both := near.1.trans [own, rowTail] far (by simp)
  have ownKept := far.loose near.2 (by simp [tails])
  exact concludes_tails both ownKept (trails.mono near.1.supply) ownLoose.spare.known tails

end SpareRow

end Confined

end RowUnification.Engine
