/-! # The two spellings of an attribute

Markup and the element objects of the run-time library do not always agree on the name of an
attribute: markup writes `readonly` where the object has `readOnly`. Declarations use the
structural spelling (that of the object), while the tree may carry either.
-/

namespace LateMarkup.AttributeName

/-- The attributes whose spellings differ, as (markup, structural). -/
def spellings : List (String × String) :=
  [("accept-charset", "acceptCharset"),
   ("accesskey", "accessKey"),
   ("autocomplete", "autoComplete"),
   ("autofocus", "autoFocus"),
   ("autoplay", "autoPlay"),
   ("checked", "defaultChecked"),
   ("class", "className"),
   ("colspan", "colSpan"),
   ("contenteditable", "contentEditable"),
   ("crossorigin", "crossOrigin"),
   ("datetime", "dateTime"),
   ("enctype", "encType"),
   ("for", "htmlFor"),
   ("formaction", "formAction"),
   ("http-equiv", "httpEquiv"),
   ("maxlength", "maxLength"),
   ("minlength", "minLength"),
   ("novalidate", "noValidate"),
   ("readonly", "readOnly"),
   ("rowspan", "rowSpan"),
   ("selected", "defaultSelected"),
   ("spellcheck", "spellCheck"),
   ("srcset", "srcSet"),
   ("tabindex", "tabIndex")]

def markup? (structural : String) : Option String :=
  (spellings.find? fun pair => pair.2 == structural).map Prod.fst

def structural? (markup : String) : Option String :=
  (spellings.find? fun pair => pair.1 == markup).map Prod.snd

end LateMarkup.AttributeName
