/-! # Texts that name nothing

Refs, override kinds and class actions are written as short words. A word that is none of the
spellings its place allows is kept here with the place it stood in, so that whoever reports the
problem can still quote it.
-/

namespace LateMarkup

/-- A word that is none of the spellings its place allows. -/
inductive InvalidText where
  | ref (text : String)
  | attributeOverride (text : String)
  | classOverride (text : String)
deriving DecidableEq, Repr

namespace InvalidText

private def backticked (text : String) : String := "`" ++ text ++ "`"

def message : InvalidText → String
  | ref text => "malformed ref: " ++ backticked text
  | attributeOverride text => "unsupported override kind: " ++ backticked text
  | classOverride text => "unsupported class action: " ++ backticked text

end InvalidText

end LateMarkup
