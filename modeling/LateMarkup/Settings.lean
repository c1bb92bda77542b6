/-! # Settings

The names that generated code and annotated markup share with the run-time library. Every setting
has a default.
-/

namespace LateMarkup

/-- The names shared with the run-time library. -/
structure Settings where
  /-- The object that holds the run-time data. -/
  dataObject : String := "d"
  /-- The function that tells whether a run-time value is defined. -/
  definedHelper : String := "DS.e"
  /-- The tags whose children already stand in an expression. -/
  controlFlowTags : List String := ["desechIf", "desechFor", "desechIfFor", "desechForIf"]
  /-- The attribute by which a node asks, on its own, to be left out at first. -/
  unrenderAttribute : String := "data-ss-unrender"
  /-- The attribute that carries raw inner content. -/
  rawContentAttribute : String := "dangerouslySetInnerHTML"
deriving DecidableEq, Repr

namespace Settings

/-- Whether a tag is one of the control-flow tags. Only the case of ASCII letters is ignored. -/
def isControlFlow (settings : Settings) (tag : String) : Bool :=
  settings.controlFlowTags.any fun candidate => candidate.toLower == tag.toLower

def dataExpr (settings : Settings) (key : String) : String :=
  settings.dataObject ++ "." ++ key

def definedExpr (settings : Settings) (expression : String) : String :=
  settings.definedHelper ++ "(" ++ expression ++ ")"

end Settings

end LateMarkup
