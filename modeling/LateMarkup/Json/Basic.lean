/-! # JSON values

JSON texts are read as far as they go. Where a text stops being JSON, the value read so far has a
cut in place of what should have come, and nothing behind it. Whoever looks through the value in
the order of the text therefore meets a fault of its own before the cut if it stood before the cut,
and the cut if that came first.
-/

namespace LateMarkup

/-- A JSON value, as far as it could be read. -/
inductive Json where
  | null
  | bool (value : Bool)
  | number (literal : String)
  /-- A string. JSON lets a string hold one half of a surrogate pair, which no text can; such a
  string is `none`. -/
  | string (text : Option String)
  | array (items : List Json)
  /-- The members in the order of the text, each with its key as a string. -/
  | object (members : List (Option String × Json))
  /-- The text does not go on as JSON. -/
  | cut

namespace Json

abbrev Member := Option String × Json

mutual

/-- A value without a cut. -/
def isWhole : Json → Bool
  | null => true
  | bool _ => true
  | number _ => true
  | string _ => true
  | array items => areWhole items
  | object members => membersAreWhole members
  | cut => false

def areWhole : List Json → Bool
  | [] => true
  | item :: items => item.isWhole && areWhole items

def membersAreWhole : List Member → Bool
  | [] => true
  | (_, value) :: members => value.isWhole && membersAreWhole members

end

end Json

end LateMarkup
