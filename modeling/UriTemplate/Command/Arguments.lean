import UriTemplate.Command

/-!
# Arguments

Arguments are read from left to right.  A word that starts with two hyphens is
an option with its long name, and one with a single hyphen is a row of options
with short names; the value of an option stands after `=`, in the rest of such a
row or in the next word.  The word `--` ends the options, and all other words
are operands.  The first operand names the command.
-/

namespace UriTemplate.Arguments

/-! ## Options -/

/-- An option. -/
inductive Switch where
  | noColor
  | help
  | version
  /-- Variables as a JSON object. -/
  | vars
  | var
  /-- The expansion has to be a URL. -/
  | url
  /-- The pattern that selects cases. -/
  | pattern
  | list
  | verbose
  /-- One suite after another, which is how they are always run. -/
  | sequential
deriving DecidableEq

namespace Switch

/-- The long name. -/
def long : Switch → Text
  | noColor => "no-color".toList
  | help => "help".toList
  | version => "version".toList
  | vars => "vars".toList
  | var => "var".toList
  | url => "url".toList
  | pattern => "pattern".toList
  | list => "list".toList
  | verbose => "verbose".toList
  | sequential => "sequential".toList

/-- The short name. -/
def short? : Switch → Option Char
  | help => some 'h'
  | version => some 'V'
  | pattern => some 'p'
  | list => some 'l'
  | verbose => some 'v'
  | sequential => some 's'
  | noColor | vars | var | url => none

/-- Whether the option has a value. -/
def takesValue : Switch → Bool
  | vars | var | pattern => true
  | _ => false

/-- Whether the option can be given more than once. -/
def repeats (s : Switch) : Bool :=
  s == var

end Switch

/-! ## Commands -/

/-- The name of a command. -/
inductive Verb where
  | expand
  | extract
  | check
deriving DecidableEq

namespace Verb

/-- The command with a name. -/
def named? (word : Text) : Option Verb :=
  if word = "expand".toList then some expand
  else if word = "extract".toList then some extract
  else if word = "check".toList then some check
  else none

/-- The options of a command. -/
def switches : Verb → List Switch
  | expand => [.vars, .var, .url, .noColor, .help]
  | extract => [.noColor, .help]
  | check => [.pattern, .list, .verbose, .sequential, .noColor, .help]

/-- The most operands that a command takes. -/
def maxOperands : Verb → Nat
  | expand | check => 1
  | extract => 2

/-- Whether a text can be an operand of a command.  The root of a check is not
empty. -/
def allows : Verb → Text → Bool
  | check, t => !t.isEmpty
  | _, _ => true

end Verb

/-- The options before the name of a command. -/
def leading : List Switch := [.noColor, .version, .help]

/-! ## Reading -/

/-- Why no command comes of arguments. -/
inductive Stop where
  /-- They are not as they should be. -/
  | misuse
  /-- They ask for the usage. -/
  | help
  /-- They ask for the version. -/
  | version
deriving DecidableEq

/-- What has been read. -/
structure Reading where
  /-- The options with their values, in order; a value that an option does not
  have is empty. -/
  given : List (Switch × Text)
  operands : List Text

namespace Reading

/-- What has been read before the first word. -/
def empty : Reading := ⟨[], []⟩

/-- Whether an option was given. -/
def has (r : Reading) (s : Switch) : Bool :=
  r.given.any (·.1 == s)

/-- The values of an option in order. -/
def values (r : Reading) (s : Switch) : List Text :=
  (r.given.filter (·.1 == s)).map Prod.snd

/-- Takes an option.  The usage and the version are answered at once. -/
def give (r : Reading) (s : Switch) (value : Text) : Except Stop Reading :=
  match s with
  | .help => .error .help
  | .version => .error .version
  | s =>
    if r.has s && !s.repeats then .error .misuse
    else .ok { r with given := r.given ++ [(s, value)] }

/-- Takes an operand of a command. -/
def operand (v : Verb) (r : Reading) (t : Text) : Except Stop Reading :=
  if r.operands.length < v.maxOperands && v.allows t then
    .ok { r with operands := r.operands ++ [t] }
  else .error .misuse

/-- Takes a row of options with short names.  Answers also with the last one if
its value is yet to come. -/
def row (known : List Switch) (r : Reading) : Text → Except Stop (Reading × Option Switch)
  | [] => .ok (r, none)
  | c :: rest =>
    match known.find? (·.short? == some c) with
    | none => .error .misuse
    | some s =>
      if s.takesValue then
        match rest with
        | [] => .ok (r, some s)
        | '=' :: value => do return (← r.give s value, none)
        | value => do return (← r.give s value, none)
      else do row known (← r.give s []) rest

/-- Takes an option with its long name.  Answers also with the option if its
value is yet to come. -/
def named (known : List Switch) (r : Reading) (t : Text) : Except Stop (Reading × Option Switch) :=
  let (name, value) := match t.splitOnce '=' with
    | some (name, value) => (name, some value)
    | none => (t, none)
  match known.find? (·.long == name), value with
  | none, _ => .error .misuse
  | some s, some value =>
    if s.takesValue then do return (← r.give s value, none) else .error .misuse
  | some s, none =>
    if s.takesValue then .ok (r, some s) else do return (← r.give s [], none)

end Reading

/-- What a word is. -/
inductive Word where
  /-- The end of the options. -/
  | ending
  /-- A long name, perhaps with a value. -/
  | long (t : Text)
  /-- A row of short names. -/
  | row (t : Text)
  /-- Any other word. -/
  | plain (t : Text)
deriving DecidableEq

/-- Tells words apart.  A single hyphen is a plain word. -/
def Word.ofText : Text → Word
  | ['-', '-'] => ending
  | '-' :: '-' :: t => long t
  | ['-'] => plain ['-']
  | '-' :: t => row t
  | t => plain t

/-- Reads the words after the name of a command. -/
def readWords (v : Verb) (r : Reading) : List Text → Except Stop Reading
  | [] => .ok r
  | word :: rest =>
    match Word.ofText word with
    | .ending => rest.foldlM (Reading.operand v) r
    | .plain t => do readWords v (← r.operand v t) rest
    | .long t => do continueWith (← r.named v.switches t) rest
    | .row t => do continueWith (← r.row v.switches t) rest
where
  /-- Reads the value that an option waits for, and the words after it. -/
  continueWith : Reading × Option Switch → List Text → Except Stop Reading
    | (r, none), words => readWords v r words
    | (_, some _), [] => .error .misuse
    | (r, some s), value :: rest =>
      match Word.ofText value with
      | .plain value => do readWords v (← r.give s value) rest
      | _ => .error .misuse

/-! ## Commands from arguments -/

/-- The command that has been read.  The variables of an expansion are given in
one way only, and a check without a root is a check of the current folder. -/
def command (v : Verb) (r : Reading) : Except Stop Command :=
  match v, r.operands with
  | .expand, [template] =>
    match r.values .vars, r.values .var with
    | [], items => .ok (.expand template (.assignments items) (r.has .url))
    | [json], [] => .ok (.expand template (.json json) (r.has .url))
    | _, _ => .error .misuse
  | .extract, [template, url] => .ok (.extract template url)
  | .check, operands =>
    .ok (.check {
      root := .ofText (operands.headD ['.'])
      pattern := (r.values .pattern).head?
      list := r.has .list
      verbose := r.has .verbose })
  | _, _ => .error .misuse

/-- A command with the way its output may look. -/
structure Invocation where
  command : Command
  /-- Whether the output may be coloured. -/
  colors : Bool
deriving DecidableEq

/-- Answers a request for the usage, which may name a command. -/
def readHelp : List Text → Stop
  | [] => .help
  | [word] => if (Verb.named? word).isSome || word == Switch.help.long then .help else .misuse
  | _ => .misuse

/-- Reads the words up to the end, when `r` has been read before them. -/
def readFrom (r : Reading) : List Text → Except Stop Invocation
  | [] => .error .misuse
  | word :: rest =>
    match Word.ofText word with
    | .ending => .error .misuse
    | .plain t =>
      match Verb.named? t with
      | some v => do
        let own ← readWords v .empty rest
        return ⟨← command v own, !(r.has .noColor || own.has .noColor)⟩
      | none => .error (if t = Switch.help.long then readHelp rest else .misuse)
    | .long t => do readFrom (← r.named leading t).1 rest
    | .row t => do readFrom (← r.row leading t).1 rest

/-- The command that arguments ask for. -/
def read (words : List Text) : Except Stop Invocation :=
  readFrom .empty words

/-! ## Answers without a command -/

/-- How the program is used. -/
def usage : Text :=
  ("Usage: uritmpl [--no-color] COMMAND\n\n" ++
    "Commands:\n" ++
    "  expand TEMPLATE [--vars JSON | --var NAME=VALUE ...] [--url]\n" ++
    "  extract TEMPLATE URL\n" ++
    "  check [ROOT] [-p PATTERN] [-l] [-v] [-s]\n").toList

/-- What is left behind when no command comes of the arguments. -/
def Stop.outcome : Stop → Command.Outcome
  | misuse => ⟨2, [], usage⟩
  | help => ⟨0, usage, []⟩
  | version => ⟨0, "uritmpl 0.1.0\n".toList, []⟩

end UriTemplate.Arguments
