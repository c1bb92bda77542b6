import LateMarkup.Annotation

/-! # Emission

Properties and classes are not part of the markup that is annotated. Their overrides are applied to
the resolved page, when the code of a component is written out.
-/

namespace LateMarkup

namespace Declaration

/-- The code of a property that stands in the markup already, if it is overridden. -/
def presentProperty? (declaration : Declaration) (settings : Settings) (ref : Ref) (name : String)
    (value : Option String) : Option String :=
  declaration.properties[name]?.map fun kind =>
    Fragment.ofAttribute settings ref name value kind true true

/-- The code of the overridden properties that are not among the existing ones, in the order of
their names. -/
def absentProperties (declaration : Declaration) (settings : Settings) (ref : Ref)
    (existing : List String) : List String :=
  (declaration.properties.toList.filter fun (name, _) => !existing.contains name).map
    fun (name, kind) => Fragment.ofAttribute settings ref name none kind false true

/-- Goes through the overridden classes in the order of their names. The code of each is put behind
the code of those before, and the class is taken out of the static ones. -/
def overrideClasses (declaration : Declaration) (settings : Settings) (ref : Ref)
    (classes : List String) : List String × List String :=
  declaration.classes.toList.foldl
    (fun (fragments, classes) (name, action) =>
      (fragments ++ [Fragment.ofClass settings ref name action], classes.filter (· != name)))
    ([], classes)

end Declaration

/-- A document whose markers have all been resolved, with what its emission needs. -/
structure Page where
  code : String
  /-- The refs with code of which no marker was met. -/
  unconsumed : List Ref
  settings : Settings
  registry : Registry
deriving DecidableEq

/-- Resolves the text of an annotated document. Nothing can be annotated on the page. -/
def Draft.resolve (draft : Draft) (text : String) : Except Error Page := do
  let resolution ← draft.registry.resolve text
  return ⟨resolution.code, resolution.unconsumed, draft.settings, draft.registry⟩

namespace Fragments

def recordClasses (entry : Fragments) (fragments : List (String × String)) : Fragments :=
  { entry with classes := entry.classes.insertMany fragments }

end Fragments

namespace Page

def presentProperty? (page : Page) (ref : Ref) (name : String) (value : Option String)
    (declaration : Declaration) : Option String :=
  declaration.presentProperty? page.settings ref name value

def absentProperties (page : Page) (ref : Ref) (existing : List String)
    (declaration : Declaration) : List String :=
  declaration.absentProperties page.settings ref existing

/-- Records the code of the overridden classes, which is paired with their names again. Without any
code there is nothing to record. -/
def recordClasses (page : Page) (ref : Ref) (declaration : Declaration)
    (fragments : List String) : Page :=
  if fragments.isEmpty then page
  else
    { page with
      registry := page.registry.modifyCode ref
        (·.recordClasses (declaration.classes.keys.zip fragments)) }

structure ClassEmission where
  fragments : List String
  /-- The static classes that stay. -/
  classes : List String
  page : Page

def emitClasses (page : Page) (ref : Ref) (classes : List String) (declaration : Declaration) :
    ClassEmission :=
  let (fragments, remaining) := declaration.overrideClasses page.settings ref classes
  { fragments, classes := remaining, page := page.recordClasses ref declaration fragments }

end Page

end LateMarkup
