import UriTemplate.Regex.Match
import UriTemplate.Template

/-!
# Extraction

A template's regex matches its expansions, and its slots take the encoded values.
Extraction decodes them.  A variable that stands in several places has to decode
alike in all of them.
-/

namespace UriTemplate.Template

/-- The regexes of segments one after another. -/
def regexFrom (source : Text) (seen : Seen) : List Segment → Except Error Regex
  | [] => .ok []
  | .literal l :: rest => do
    return .literal l.text :: (← regexFrom source seen rest)
  | .expression e :: rest =>
    match e.regex seen with
    | .error cause => .error (.extractionNotSupported source cause)
    | .ok first => do
      return first ++ (← regexFrom source (seen ++ e.names) rest)

/-- The regex of the expansions, unless an exploded variable rules it out. -/
def regex (t : Template) : Except Error Regex :=
  regexFrom t.source [] t.segments

/-- Binds the variables of slots to their decoded texts. -/
def bindSlots (url : Text) (b : Bindings) : Regex.Captures → Except Error Bindings
  | [] => .ok b
  | (x, encoded) :: rest =>
    match Percent.decode encoded with
    | none => .error (.invalidPercentEncoding x.name.text encoded)
    | some t =>
      match (b.get x.name).scalar? with
      | none => bindSlots url (b.insert x.name (.scalar t)) rest
      | some earlier =>
        if earlier = t then bindSlots url b rest
        else .error (.mismatch url)

/-- The bindings that a URL is an expansion for. -/
def extract (t : Template) (url : Text) : Except Error Bindings := do
  let r ← t.regex
  match r.match? url with
  | none => .error (.mismatch url)
  | some captures => bindSlots url ∅ captures

/-- The bindings that a URL in its written form is an expansion for. -/
def extractUrl (t : Template) (url : Url) : Except Error Bindings :=
  t.extract url.text

end UriTemplate.Template
