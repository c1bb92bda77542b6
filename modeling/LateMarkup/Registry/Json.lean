import LateMarkup.Json.Decode
import LateMarkup.Json.Encode
import LateMarkup.Json.Printer
import LateMarkup.Json.Reader
import LateMarkup.Registry

/-! # Registries as JSON

A registry travels from the annotation of a document to its resolution as a JSON text: the defaults
and the code, each as an object with an entry for every ref. Parts of an entry that hold nothing are
left out.
-/

namespace LateMarkup

namespace Guard

/-- A guard of which some pieces may not have been read yet. -/
structure Incomplete where
  opening : Option String := none
  closing : Option String := none

def fields : List (Json.Field Incomplete) :=
  [Json.field "start" Json.toText fun guard value => { guard with opening := some value },
   Json.field "end" Json.toText fun guard value => { guard with closing := some value }]

/-- The guard, once both pieces are there. -/
def Incomplete.finish : Incomplete → Json.Decoded Guard
  | ⟨some opening, some closing⟩ => .ok ⟨opening, closing⟩
  | _ => Json.wrongShape

def ofJson (value : Json) : Json.Decoded Guard := do
  let guard ← Json.toRecord fields {} value
  guard.finish

def toJson (guard : Guard) : Json :=
  .object
    [Json.member "start" (Json.ofText guard.opening), Json.member "end" (Json.ofText guard.closing)]

end Guard

namespace Defaults

def fields : List (Json.Field Defaults) :=
  [Json.field "tag" (Json.toOption Json.toText) fun d value => { d with tag := value },
   Json.field "component" (Json.toOption Json.toText) fun d value => { d with component := value },
   Json.field "unrender" (Json.toOption Json.toFlag) fun d value => { d with unrender := value }]

def ofJson (value : Json) : Json.Decoded Defaults := Json.toRecord fields {} value

def toJson (d : Defaults) : Json :=
  .object
    (Json.optional "tag" Json.ofText d.tag ++ Json.optional "component" Json.ofText d.component ++
      Json.optional "unrender" .bool d.unrender)

end Defaults

namespace Fragments

def fields : List (Json.Field Fragments) :=
  [Json.field "attributes" (Json.toNameMap Json.toText)
      fun code value => { code with attributes := value },
   Json.field "inner" (Json.toOption Json.toText) fun code value => { code with inner := value },
   Json.field "unrender" (Json.toOption Guard.ofJson)
      fun code value => { code with unrender := value },
   Json.field "classes" (Json.toNameMap Json.toText)
      fun code value => { code with classes := value }]

def ofJson (value : Json) : Json.Decoded Fragments := Json.toRecord fields {} value

def toJson (code : Fragments) : Json :=
  .object
    (Json.nonemptyMap "attributes" Json.ofText code.attributes ++
      Json.optional "inner" Json.ofText code.inner ++
      Json.optional "unrender" Guard.toJson code.unrender ++
      Json.nonemptyMap "classes" Json.ofText code.classes)

end Fragments

namespace Registry

def toRefMap {α : Type} (decode : Json → Json.Decoded α) (value : Json) : Json.Decoded (RefMap α) :=
  Json.toMap (Json.ofWord Ref.read) decode value

def fields : List (Json.Field Registry) :=
  [Json.field "defaults" (toRefMap Defaults.ofJson)
      fun registry value => { registry with defaults := value },
   Json.field "code" (toRefMap Fragments.ofJson)
      fun registry value => { registry with code := value }]

def ofJson (value : Json) : Json.Decoded Registry := Json.toRecord fields {} value

/-- The registry that a text holds. What is wrong with the value comes before what follows it. -/
def read (text : String) : Except Error Registry :=
  let reading := Json.read text
  match ofJson reading.value with
  | .error cause => .error (.registry cause)
  | .ok registry => if reading.clean then .ok registry else .error (.registry none)

def defaultsToJson (registry : Registry) : Json :=
  Json.ofEntries Ref.text Defaults.toJson registry.defaults.toList

def toJson (registry : Registry) : Json :=
  .object
    [Json.member "defaults" registry.defaultsToJson,
     Json.member "code" (Json.ofEntries Ref.text Fragments.toJson registry.code.toList)]

def write (registry : Registry) : String := registry.toJson.pretty

end Registry

end LateMarkup
