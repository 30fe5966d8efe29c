import UriTemplate.Text
import UriTemplate.Url.Fault

/-!
# Errors

Why a template, a set of bindings or a URL is refused, and the sentence that
says so.

A regex engine may refuse the regex of a template, above all for its size
("failed to build matching regex").  Here a regex is matched as it stands, without
being built first, so it is never refused and `Error` has no case for that.
-/

namespace UriTemplate

/-- The cause of a refusal.  There is none for a regex that cannot be built, as
matching sets no bound to the size of a regex. -/
inductive Error where
  | invalidName (raw : Text)
  /-- A prefix limit outside the range that templates allow. -/
  | invalidLimit (limit : Int)
  | unrecognizedExpression (text : Text)
  /-- The expression with an exploded variable, which no regex describes. -/
  | unmatchable (pattern : Text)
  /-- The template holds an expression that extraction cannot handle. -/
  | extractionNotSupported (template : Text) (cause : Error)
  /-- The URL is not an expansion of the template. -/
  | mismatch (url : Text)
  | invalidPercentEncoding (name value : Text)
  | invalidUrl (fault : Url.Fault)
deriving DecidableEq

namespace Error

/-- The sentence for an error, without its cause. -/
def message : Error → Text
  | invalidName raw =>
    "invalid variable name '".toList ++ raw ++ "' (expected [A-Za-z0-9_]+)".toList
  | invalidLimit limit =>
    "invalid prefix limit ".toList ++ Text.ofInt limit ++ " (must be between 1 and 9999)".toList
  | unrecognizedExpression text =>
    "unrecognized expression '".toList ++ text ++ "'".toList
  | unmatchable pattern =>
    "expression '".toList ++ pattern ++
      "' cannot be matched: exploded values have no fixed shape".toList
  | extractionNotSupported template _ =>
    "template '".toList ++ template ++ "' does not support extraction".toList
  | mismatch url => "URL '".toList ++ url ++ "' doesn't match template".toList
  | invalidPercentEncoding name value =>
    "captured value '".toList ++ value ++ "' for '".toList ++ name ++
      "' is not valid percent-encoded UTF-8".toList
  | invalidUrl fault => "expansion is not a valid URL: ".toList ++ fault.message

/-- The messages of the causes of an error, outermost first. -/
def causes : Error → List Text
  | extractionNotSupported _ cause => cause.message :: cause.causes
  | invalidUrl fault => [fault.message]
  | _ => []

end Error

end UriTemplate
