import LateMarkup.Declaration
import LateMarkup.Error
import LateMarkup.Json.Decode
import LateMarkup.Json.Encode
import LateMarkup.Json.Printer
import LateMarkup.Json.Reader

/-! # Declarations as JSON

A declaration is written as one object with a member for each part. Reading accepts any object that
mentions some of the parts; writing mentions them all.
-/

namespace LateMarkup

namespace Declaration

def fields : List (Json.Field Declaration) :=
  [Json.field "attributes" (Json.toNameMap (Json.toWord AttributeOverride.read))
      fun d value => { d with attributes := value },
   Json.field "tag" Json.toFlag fun d value => { d with tag := value },
   Json.field "component" Json.toFlag fun d value => { d with component := value },
   Json.field "inner" Json.toFlag fun d value => { d with inner := value },
   Json.field "unrender" Json.toFlag fun d value => { d with unrender := value },
   Json.field "classes" (Json.toNameMap (Json.toWord ClassOverride.read))
      fun d value => { d with classes := value },
   Json.field "properties" (Json.toNameMap (Json.toWord AttributeOverride.read))
      fun d value => { d with properties := value }]

def ofJson (value : Json) : Json.Decoded Declaration := Json.toRecord fields {} value

/-- The declaration that a text holds. What is wrong with the value comes before what follows it. -/
def read (text : String) : Except Error Declaration :=
  let reading := Json.read text
  match ofJson reading.value with
  | .error cause => .error (.declaration cause)
  | .ok declaration =>
    if reading.clean then .ok declaration else .error (.declaration none)

def toJson (d : Declaration) : Json :=
  .object
    [Json.member "attributes" (Json.ofNameMap (fun kind => Json.ofText kind.text) d.attributes),
     Json.member "tag" (.bool d.tag),
     Json.member "component" (.bool d.component),
     Json.member "inner" (.bool d.inner),
     Json.member "unrender" (.bool d.unrender),
     Json.member "classes" (Json.ofNameMap (fun action => Json.ofText action.text) d.classes),
     Json.member "properties" (Json.ofNameMap (fun kind => Json.ofText kind.text) d.properties)]

def write (d : Declaration) : String := d.toJson.pretty

end Declaration

end LateMarkup
