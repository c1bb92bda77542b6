import LateMarkup.Json.Basic
import LateMarkup.Json.Token

/-! # Reading JSON texts

The tokens of a text are taken one at a time. The reader keeps the brackets that are still open, the
innermost first, each with what has been read inside it, and knows what may come next. So a text may
nest as deeply as it likes, and wherever it goes wrong the value read so far is at hand.
-/

namespace LateMarkup.Json

/-- An open bracket, with what was read inside it in reverse. -/
inductive Frame where
  | array (items : List Json)
  | object (members : List Member) (key : Option String)

/-- What the reader waits for. -/
inductive Reader where
  | value (outer : List Frame)
  | firstItem (outer : List Frame)
  | afterItem (items : List Json) (outer : List Frame)
  | firstKey (outer : List Frame)
  | key (members : List Member) (outer : List Frame)
  | colon (members : List Member) (key : Option String) (outer : List Frame)
  | afterMember (members : List Member) (outer : List Frame)
  /-- Nothing more. `clean` says that there was nothing more. -/
  | done (value : Json) (clean : Bool)

namespace Reader

def complete (value : Json) : List Frame → Reader
  | [] => done value true
  | .array items :: outer => afterItem (value :: items) outer
  | .object members name :: outer => afterMember ((name, value) :: members) outer

/-- The whole value when `inner` is the last that could be read of it. -/
def close (inner : Json) : List Frame → Json
  | [] => inner
  | .array items :: outer => close (.array (items.reverse ++ [inner])) outer
  | .object members name :: outer => close (.object (members.reverse ++ [(name, inner)])) outer

/-- The whole value when the text does not go on. What was due is cut. -/
def abandon : Reader → Json
  | value outer => close .cut outer
  | firstItem outer => close (.array [.cut]) outer
  | afterItem items outer => close (.array (items.reverse ++ [.cut])) outer
  | firstKey outer => close (.object [(none, .cut)]) outer
  | key members outer => close (.object (members.reverse ++ [(none, .cut)])) outer
  | colon members name outer => close (.object (members.reverse ++ [(name, .cut)])) outer
  | afterMember members outer => close (.object (members.reverse ++ [(none, .cut)])) outer
  | done whole _ => whole

def takeValue (outer : List Frame) : Token → Reader
  | .null => complete .null outer
  | .bool b => complete (.bool b) outer
  | .number literal => complete (.number literal) outer
  | .string text => complete (.string text) outer
  | .openBracket => firstItem outer
  | .openBrace => firstKey outer
  | _ => done (close .cut outer) false

def takeKey (members : List Member) (outer : List Frame) : Token → Reader
  | .string text => colon members text outer
  | _ => done (abandon (key members outer)) false

def take : Reader → Token → Reader
  | value outer, token => takeValue outer token
  | firstItem outer, .closeBracket => complete (.array []) outer
  | firstItem outer, token => takeValue (.array [] :: outer) token
  | afterItem items outer, .comma => value (.array items :: outer)
  | afterItem items outer, .closeBracket => complete (.array items.reverse) outer
  | firstKey outer, .closeBrace => complete (.object []) outer
  | firstKey outer, token => takeKey [] outer token
  | key members outer, token => takeKey members outer token
  | colon members name outer, .colon => value (.object members name :: outer)
  | afterMember members outer, .comma => key members outer
  | afterMember members outer, .closeBrace => complete (.object members.reverse) outer
  | reader, _ => done (abandon reader) false

def takeAll : Reader → List Token → Reader
  | reader, [] => reader
  | reader, token :: tokens => takeAll (reader.take token) tokens

end Reader

structure Reading where
  value : Json
  /-- The text holds one value and nothing else. -/
  clean : Bool

/-- Reads a text as one JSON value. -/
def read (text : String) : Reading :=
  match (Reader.value []).takeAll (Token.tokens text.toList) with
  | .done value clean => ⟨value, clean⟩
  | reader => ⟨reader.abandon, false⟩

end LateMarkup.Json
