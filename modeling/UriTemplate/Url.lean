import UriTemplate.Url.Host

/-!
# URLs

Absolute URLs and their one written form.  The schemes of the web resolve their
hosts, write their path from a `/` on and read a backslash as one; `file` takes
its path without a host; a scheme that this module does not know keeps host and
path as they are.  Dot segments are resolved but never climb above a drive
letter, a port that the scheme implies is left out, and characters outside of
each part's set are percent-encoded.  A user, a password or a port needs a host
that is not empty.
-/

namespace UriTemplate

/-- The path of a URL. -/
inductive Url.Path where
  /-- Segments after slashes. -/
  | segments (parts : List Text)
  /-- A text that does not begin with a slash. -/
  | rootless (text : Text)
deriving DecidableEq

/-- An absolute URL, its parts in their written forms. -/
structure Url where
  /-- What stands before the first colon. -/
  scheme : Text
  /-- The user before the host. -/
  username : Text
  password : Text
  host : Option Text
  /-- The port, unless the scheme implies it. -/
  port : Option Nat
  path : Url.Path
  /-- What stands after `?`. -/
  query : Option Text
  /-- What stands after `#`. -/
  fragment : Option Text
deriving DecidableEq

namespace Url

/-! ## Written form -/

/-- The path as it is written. -/
def Path.text : Path → Text
  | segments parts => parts.flatMap ('/' :: ·)
  | rootless text => text

/-- User and password as they are written. -/
def credentials (u : Url) : Text :=
  if u.username.isEmpty ∧ u.password.isEmpty then []
  else if u.password.isEmpty then u.username ++ ['@']
  else u.username ++ ':' :: u.password ++ ['@']

/-- What stands between the scheme and the path. -/
def authority (u : Url) : Text :=
  match u.host with
  | some host =>
    '/' :: '/' :: u.credentials ++ host ++
      match u.port with
      | some port => ':' :: Text.ofNat port
      | none => []
  | none =>
    match u.path with
    | .segments ([] :: _ :: _) => ['/', '.']
    | _ => []

/-- A part that may be there, after its mark. -/
def marked (mark : Char) : Option Text → Text
  | some t => mark :: t
  | none => []

/-- The URL as it is written. -/
def text (u : Url) : Text :=
  u.scheme ++ ':' :: u.authority ++ u.path.text ++ marked '?' u.query ++ marked '#' u.fragment

/-! ## Schemes -/

/-- How a scheme reads what follows it. -/
inductive Kind where
  /-- A scheme of the web, with the port that it implies. -/
  | web (port : Nat)
  | file
  | other
deriving DecidableEq

/-- The kind of a scheme in lower case. -/
def kindOf (scheme : Text) : Kind :=
  match String.ofList scheme with
  | "http" | "ws" => .web 80
  | "https" | "wss" => .web 443
  | "ftp" => .web 21
  | "file" => .file
  | _ => .other

/-- Whether a backslash is read as a slash. -/
def Kind.isSpecial : Kind → Bool
  | other => false
  | _ => true

/-- Whether a character ends a part that slashes end. -/
def Kind.isSlash (kind : Kind) (c : Char) : Bool :=
  c == '/' || (c == '\\' && kind.isSpecial)

/-- A character that may follow the first letter of a scheme. -/
def isSchemeChar (c : Char) : Bool :=
  c.isAlphanum || c == '+' || c == '-' || c == '.'

/-! ## What each part encodes -/

/-- The characters that a fragment encodes. -/
def escapedInFragment (c : Char) : Bool :=
  isControl c || [' ', '"', '<', '>', '\x60'].contains c

/-- The characters that a query encodes. -/
def escapedInQuery (special : Bool) (c : Char) : Bool :=
  isControl c || [' ', '"', '#', '<', '>'].contains c || (special && c == '\'')

/-- The characters that a path encodes. -/
def escapedInPath (c : Char) : Bool :=
  escapedInFragment c || ['#', '?', '{', '}'].contains c

/-- The characters that a user or a password encodes. -/
def escapedInUser (c : Char) : Bool :=
  escapedInPath c || ['/', ':', ';', '=', '@', '[', '\\', ']', '^', '|'].contains c

/-! ## Paths -/

/-- Whether a segment stands for its own place. -/
def isSingleDot (t : Text) : Bool :=
  ["." , "%2e"].contains (String.ofList (lower t))

/-- Whether a segment stands for the place above. -/
def isDoubleDot (t : Text) : Bool :=
  ["..", ".%2e", "%2e.", "%2e%2e"].contains (String.ofList (lower t))

/-- Whether a segment is a drive letter, such as `C:` or `C|`. -/
def isDrive : Text → Bool
  | [c, d] => c.isAlpha && (d == ':' || d == '|')
  | _ => false

/-- Whether a segment is a drive letter or has one before a backslash. -/
def beginsWithDrive (t : Text) : Bool :=
  isDrive (t.takeWhile (· != '\\'))

/-- The segments of the place above.  Nothing is above a drive, wherever it
stands. -/
def parent (parts : List Text) : List Text :=
  if parts.getLast?.any beginsWithDrive then parts else parts.dropLast

/-- The written form of a segment after others.  The first one of a `file` URL
names its drive with a colon. -/
def segmentAfter (kind : Kind) (done : List Text) (raw : Text) : Text :=
  match kind, done, raw with
  | .file, [], [c, '|'] => if c.isAlpha then [c, ':'] else encodeIf escapedInPath raw
  | _, _, _ => encodeIf escapedInPath raw

/-- Adds raw segments to resolved ones.  A dot segment at the end leaves an
empty one. -/
def resolve (kind : Kind) (done : List Text) : List Text → List Text
  | [] => done
  | raw :: rest =>
    let next :=
      if isDoubleDot raw then parent done ++ if rest.isEmpty then [[]] else []
      else if isSingleDot raw then done ++ if rest.isEmpty then [[]] else []
      else done ++ [segmentAfter kind done raw]
    resolve kind next rest

/-- The parts of a text between slashes; always at least one. -/
def slashFields (kind : Kind) : Text → List Text
  | [] => [[]]
  | c :: rest =>
    if kind.isSlash c then [] :: slashFields kind rest
    else match slashFields kind rest with
      | [] => [[c]]
      | part :: parts => (c :: part) :: parts

/-- The segments of a path, its first slash left out if it has one. -/
def segmentsOf (kind : Kind) (path : Text) : List Text :=
  match path with
  | c :: rest => resolve kind [] (slashFields kind (if kind.isSlash c then rest else c :: rest))
  | [] => if kind.isSpecial then [[]] else []

/-- The segments without empty ones at the front, but for the last. -/
def dropEmpty : List Text → List Text
  | [] :: part :: parts => dropEmpty (part :: parts)
  | parts => parts

/-! ## Authorities -/

/-- Splits a host from the colon and port after it.  A colon in brackets
belongs to the host. -/
def splitPort (inBrackets : Bool) : Text → Text × Option Text
  | [] => ([], none)
  | c :: rest =>
    if c = ':' ∧ !inBrackets then ([], some rest)
    else
      let inBrackets := if c = '[' then true else if c = ']' then false else inBrackets
      let (host, port) := splitPort inBrackets rest
      (c :: host, port)

/-- The port, unless it is empty or the one that the scheme implies. -/
def parsePort (kind : Kind) (digits : Text) : Except Fault (Option Nat) :=
  if digits.all Char.isDigit ∧ Text.toNat digits ≤ 65535 then
    if digits.isEmpty ∨ kind = .web (Text.toNat digits) then .ok none
    else .ok (some (Text.toNat digits))
  else .error .invalidPort

/-- The user and the password of an authority. -/
def parseUser (t : Text) : Text × Text :=
  match Text.splitOnce ':' t with
  | some (name, password) => (encodeIf escapedInUser name, encodeIf escapedInUser password)
  | none => (encodeIf escapedInUser t, [])

/-- A URL with an authority and what stands after it; `more` tells whether a
query or a fragment follows.  A host may be empty only where the scheme gives it
no meaning and neither user, password nor port comes with it; an `@` alone may
stand for it only where the URL ends.  A backslash ends the port. -/
def parseAuthority (kind : Kind) (scheme rest : Text) (more : Bool) : Except Fault Url := do
  let authority := rest.takeWhile (!kind.isSlash ·)
  let path := rest.dropWhile (!kind.isSlash ·)
  let (user, hostAndPort) := (Text.splitLast '@' authority).getD ([], authority)
  let (name, password) := parseUser user
  let (host, port) := splitPort false hostAndPort
  let isLoneAt := authority == ['@'] && (more || !path.isEmpty)
  if host.isEmpty ∧
      (kind.isSpecial ∨ port.isSome ∨ !name.isEmpty ∨ !password.isEmpty ∨ isLoneAt) then
    throw .emptyHost
  let host ← if kind.isSpecial then parseHost host else parsePlainHost host
  let afterColon := port.getD []
  let port ← parsePort kind (afterColon.takeWhile (· != '\\'))
  let path := afterColon.dropWhile (· != '\\') ++ path
  return ⟨scheme, name, password, some host, port, .segments (segmentsOf kind path), none, none⟩

/-- A `file` URL.  The local host is not written, nor is any host before a path
that begins with a drive. -/
def parseFile (scheme rest : Text) : Except Fault Url := do
  let make (host : Text) (parts : List Text) : Url :=
    ⟨scheme, [], [], some host, none, .segments (dropEmpty parts), none, none⟩
  match rest with
  | a :: b :: rest =>
    if Kind.isSlash .file a ∧ Kind.isSlash .file b then
      let host := rest.takeWhile (!Kind.isSlash .file ·)
      let path := rest.dropWhile (!Kind.isSlash .file ·)
      if isDrive host then return make [] (segmentsOf .file rest)
      else
        let host ← if host.isEmpty then pure [] else parseHost host
        if host.isEmpty ∨ host = "localhost".toList then
          return make [] (resolve .file [] (slashFields .file path))
        else
          let parts := segmentsOf .file path
          return make (if parts.head?.any isDrive then [] else host) parts
    else return make [] (segmentsOf .file (a :: b :: rest))
  | path => return make [] (segmentsOf .file path)

/-- A URL from its scheme and what stands between the colon and a query or
fragment; `more` tells whether one of those follows. -/
def parseAfterScheme (scheme rest : Text) (more : Bool) : Except Fault Url :=
  match kindOf scheme with
  | .web port =>
    parseAuthority (.web port) scheme (rest.dropWhile (Kind.isSlash (.web port))) more
  | .file => parseFile scheme rest
  | .other =>
    match rest with
    | '/' :: '/' :: rest => parseAuthority .other scheme rest more
    | '/' :: _ =>
      .ok ⟨scheme, [], [], none, none, .segments (segmentsOf .other rest), none, none⟩
    | _ => .ok ⟨scheme, [], [], none, none, .rootless (encodeIf isControl rest), none, none⟩

/-! ## Whole URLs -/

/-- A character that is dropped at both ends. -/
def isPadding (c : Char) : Bool :=
  c.toNat ≤ 0x20

/-- The text without padding, tabs and line ends. -/
def clean (t : Text) : Text :=
  ((t.dropWhile isPadding).reverse.dropWhile isPadding).reverse.filter fun c =>
    !(c == '\t' || c == '\n' || c == '\r')

/-- Splits off what stands after a mark. -/
def splitMarked (mark : Char) (t : Text) : Text × Option Text :=
  match Text.splitOnce mark t with
  | some (before, after) => (before, some after)
  | none => (t, none)

/-- Reads an absolute URL. -/
def parse (t : Text) : Except Fault Url := do
  let (front, fragment) := splitMarked '#' (clean t)
  let (front, query) := splitMarked '?' front
  match Text.splitOnce ':' front with
  | some (c :: scheme, rest) =>
    if c.isAlpha && scheme.all isSchemeChar then
      let u ← parseAfterScheme (lower (c :: scheme)) rest (query.isSome || fragment.isSome)
      let special := (kindOf u.scheme).isSpecial
      return { u with
        query := query.map (encodeIf (escapedInQuery special))
        fragment := fragment.map (encodeIf escapedInFragment) }
    else throw .relative
  | _ => throw .relative

end Url

end UriTemplate
