/-!
# JSON values

Integers are kept apart from the numbers written with a fraction or an exponent,
because only integers name anything here. The members of an object keep their
order, and a key may be repeated.
-/

namespace RowUnification

/-- A JSON value. -/
inductive Json where
  /-- The value `null`. -/
  | null
  /-- A truth value. -/
  | bool (value : Bool)
  /-- A number written without fraction and exponent. -/
  | integer (value : Int)
  /-- Any other number, as it is written. -/
  | decimal (text : String)
  /-- A string. -/
  | string (text : String)
  /-- An array. -/
  | array (elements : List Json)
  /-- An object with its members in order. -/
  | object (members : List (String × Json))

end RowUnification
