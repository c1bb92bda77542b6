import LateMarkup.Jsx.Literal
import LateMarkup.Settings

/-! # Attributes in generated code

The forms in which an attribute or property may stand in generated code. An attribute is either
assigned, or spread into the element under a condition. Its value is read from the run-time data,
or written out, or chosen between the two.
-/

namespace LateMarkup.Jsx

/-- The value of an attribute. -/
inductive Value where
  | data (key : String)
  | literal (text : String)
  /-- What the run-time data has under a key, if that is defined, and else a fixed text. -/
  | choice (key : String) (text : String)
deriving DecidableEq, Repr

/-- The condition under which an attribute is spread in. -/
inductive Test where
  /-- The run-time data has a defined value under a key. -/
  | defined (key : String)
  /-- The flag under a key is not set. -/
  | kept (key : String)
deriving DecidableEq, Repr

/-- An attribute in generated code. -/
inductive Attribute where
  | assigned (name : String) (value : Value)
  /-- It is there when the test holds. -/
  | spread (test : Test) (name : String) (value : Value)
deriving DecidableEq, Repr

/-- Code that gives the value under `key` if it is defined, and `otherwise` if not. -/
def choose (settings : Settings) (key otherwise : String) : String :=
  settings.definedExpr (settings.dataExpr key) ++ " ? " ++ settings.dataExpr key ++ " : " ++
    otherwise

namespace Value

def render (settings : Settings) : Value → String
  | data key => settings.dataExpr key
  | literal text => Literal.single text
  | choice key text => choose settings key (Literal.single text)

end Value

namespace Test

def render (settings : Settings) : Test → String
  | defined key => settings.definedExpr (settings.dataExpr key)
  | kept key => "!" ++ settings.dataExpr key

end Test

namespace Attribute

/-- The code of an attribute. The name of a spread attribute is written between single quotes as it
stands. -/
def render (settings : Settings) : Attribute → String
  | assigned name value => name ++ "=\x7b" ++ value.render settings ++ "\x7d"
  | spread test name value =>
    "\x7b..." ++ test.render settings ++ " && \x7b'" ++ name ++ "': " ++
      value.render settings ++ "\x7d\x7d"

end Attribute

end LateMarkup.Jsx
