/-!
# Names

A name stands for a variable, a functor or a label. Names written by a user are
symbols; names made by the machine are numbered. The two kinds never meet, and
every symbol comes before every numbered name, so orienting a binding by the
order of names never replaces a user's variable by a machine-made one.
-/

namespace RowUnification

/-- The name of a variable, a functor or a label. -/
inductive Name where
  /-- A name written by a user. -/
  | symbol (text : String)
  /-- A name made from the index of a generator. -/
  | fresh (index : Nat)
deriving DecidableEq

namespace Name

/-- Symbols precede numbered names; symbols compare by code point and numbered
names by index. -/
protected def lt : Name → Name → Prop
  | symbol left, symbol right => left < right
  | symbol _, fresh _ => True
  | fresh _, symbol _ => False
  | fresh left, fresh right => left < right

instance : LT Name := ⟨Name.lt⟩

instance decidableLt : (left right : Name) → Decidable (left < right)
  | symbol left, symbol right => inferInstanceAs (Decidable (left < right))
  | symbol _, fresh _ => isTrue trivial
  | fresh _, symbol _ => isFalse id
  | fresh left, fresh right => inferInstanceAs (Decidable (left < right))

instance : Ord Name := ⟨fun left right => compareOfLessAndEq left right⟩

theorem lt_irrefl (name : Name) : ¬ name < name := by
  cases name with
  | symbol text => exact String.lt_irrefl text
  | fresh index => exact Nat.lt_irrefl index

theorem lt_trans {first second third : Name} (left : first < second) (right : second < third) :
    first < third := by
  cases first <;> cases second <;> cases third <;>
    first
      | exact String.lt_trans left right
      | exact Nat.lt_trans left right
      | trivial

/-- Two names of which neither precedes the other are the same name. -/
theorem eq_of_not_lt {left right : Name} (notBefore : ¬ left < right) (notAfter : ¬ right < left) :
    left = right := by
  cases left <;> cases right
  · exact congrArg symbol
      (String.le_antisymm (String.not_lt.mp notAfter) (String.not_lt.mp notBefore))
  · exact (notBefore trivial).elim
  · exact (notAfter trivial).elim
  · exact congrArg fresh (Nat.le_antisymm (Nat.not_lt.mp notAfter) (Nat.not_lt.mp notBefore))

theorem compare_eq_eq_iff (left right : Name) : compare left right = .eq ↔ left = right := by
  change compareOfLessAndEq left right = .eq ↔ left = right
  unfold compareOfLessAndEq
  constructor
  · intro equal
    split at equal
    · contradiction
    · split at equal
      · assumption
      · contradiction
  · rintro rfl
    simp [lt_irrefl]

/-- Symbols stand for themselves; the numbered name `7` is written `_r7`. -/
def render : Name → String
  | symbol text => text
  | fresh index => "_r" ++ toString index

end Name

end RowUnification
