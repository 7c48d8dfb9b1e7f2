import SurfaceTape.Axis
import SurfaceTape.Decimal.Literal
import SurfaceTape.Text.Blank
import SurfaceTape.Text.Plain

/-!
# Arguments

What the command line asks for. Switches and options may stand anywhere among the input files until
`--` ends them. A long name is written in full and may carry its value after `=`; short names may be
written together, and the value of a short option may follow it directly.

A value that stands alone is looked at when the next argument that needs attention has been
recognised. So an unknown name is reported before a bad value to its left, and a known name after
it.
-/

set_option autoImplicit false

namespace SurfaceTape.CommandLine

inductive Switch where
  | noSimplify
  | detailed
  | labelEdges
  | help
  | version
  deriving DecidableEq

inductive Setting where
  | dot
  | out
  | eval
  deriving DecidableEq

inductive Name where
  | switch (s : Switch)
  | setting (s : Setting)

structure Arguments where
  inputs : List String
  noSimplify : Bool
  detailed : Bool
  labelEdges : Bool
  dot : Option String
  out : Option String
  eval : Option (Point Float32)

inductive UsageError where
  | unexpectedArgument (text : String)
  | unexpectedValue (name value : String)
  | missingValue (name : String)
  | repeated (name : String)
  | invalidValue (name value reason : String)
  | missingRequired (name : String)

inductive Stop where
  | usage (e : UsageError)
  | help
  | version

namespace Switch

def label : Switch → String
  | .noSimplify => "--no-simplify"
  | .detailed => "--detailed"
  | .labelEdges => "--label-edges"
  | .help => "--help"
  | .version => "--version"

end Switch

namespace Setting

def label : Setting → String
  | .dot => "--dot <DOT>"
  | .out => "--out <OUT>"
  | .eval => "--eval <EVAL>"

end Setting

def inputsLabel : String := "[INPUTS]..."

namespace Name

def ofLong? (name : String) : Option Name :=
  if name = "no-simplify" then some (.switch .noSimplify)
  else if name = "detailed" then some (.switch .detailed)
  else if name = "label-edges" then some (.switch .labelEdges)
  else if name = "help" then some (.switch .help)
  else if name = "version" then some (.switch .version)
  else if name = "dot" then some (.setting .dot)
  else if name = "out" then some (.setting .out)
  else if name = "eval" then some (.setting .eval)
  else none

def ofShort? : Char → Option Name
  | 'd' => some (.switch .detailed)
  | 'h' => some (.switch .help)
  | 'V' => some (.switch .version)
  | 'o' => some (.setting .out)
  | _ => none

end Name

namespace UsageError

/-- The first line of the message. What the user wrote is repeated without commands for a
terminal. -/
def headline : UsageError → String
  | .unexpectedArgument text => "error: unexpected argument '" ++ Text.plain text ++ "' found"
  | .unexpectedValue name value =>
      "error: unexpected value '" ++ Text.plain value ++ "' for '" ++ name ++
        "' found; no more were expected"
  | .missingValue name => "error: a value is required for '" ++ name ++ "' but none was supplied"
  | .repeated name => "error: the argument '" ++ name ++ "' cannot be used multiple times"
  | .invalidValue name value reason =>
      "error: invalid value '" ++ Text.plain value ++ "' for '" ++ name ++ "': " ++ reason
  | .missingRequired _ => "error: the following required arguments were not provided:"

def message (e : UsageError) : String :=
  let missing := match e with
    | .missingRequired name => "\n  " ++ name
    | _ => ""
  e.headline ++ missing ++ "\n\nFor more information, try '--help'.\n"

end UsageError

def coordinate (text : String) : Except String Float32 :=
  let cs := Text.trim text.toList
  match Decimal.binary32? cs with
  | some v => .ok v
  | none =>
      if cs.isEmpty then .error "cannot parse float from empty string"
      else .error "invalid float literal"

/-- A point, written as four numbers with commas between them. Bad numbers are reported before a
wrong count. -/
def point (text : String) : Except String (Point Float32) := do
  match ← (text.splitOn ",").mapM coordinate with
  | [x, y, z, t] => return ⟨x, y, z, t⟩
  | values => throw ("expected 4 values, got " ++ toString values.length)

/-- Values that have been seen and not yet looked at. -/
inductive Pending where
  | nothing
  | inputs (paths : List String)
  | setting (s : Setting) (value : Option String)

structure Progress where
  arguments : Arguments
  pending : Pending

namespace Progress

def start : Progress :=
  { arguments :=
      { inputs := []
        noSimplify := false
        detailed := false
        labelEdges := false
        dot := none
        out := none
        eval := none }
    pending := .nothing }

end Progress

namespace Arguments

def refuse {τ : Type} (e : UsageError) : Except Stop τ := .error (.usage e)

def path (name value : String) : Except Stop String :=
  if value.isEmpty then refuse (.missingValue name) else .ok value

def addInputs (a : Arguments) (paths : List String) : Except Stop Arguments := do
  let paths ← paths.mapM (path inputsLabel)
  return { a with inputs := a.inputs ++ paths }

def turnOn (a : Arguments) (s : Switch) : Except Stop Arguments :=
  let once (isOn : Bool) (after : Arguments) : Except Stop Arguments :=
    if isOn then refuse (.repeated s.label) else .ok after
  match s with
  | .noSimplify => once a.noSimplify { a with noSimplify := true }
  | .detailed => once a.detailed { a with detailed := true }
  | .labelEdges => once a.labelEdges { a with labelEdges := true }
  | .help => .error .help
  | .version => .error .version

def assign (a : Arguments) (s : Setting) (value : String) : Except Stop Arguments :=
  let once (isSet : Bool) (after : Except Stop Arguments) : Except Stop Arguments :=
    if isSet then refuse (.repeated s.label) else after
  match s with
  | .dot => once a.dot.isSome do
      return { a with dot := some (← path s.label value) }
  | .out => once a.out.isSome do
      return { a with out := some (← path s.label value) }
  | .eval => once a.eval.isSome <|
      match point value with
      | .ok p => .ok { a with eval := some p }
      | .error reason => refuse (.invalidValue s.label value reason)

end Arguments

namespace Progress

def settle (p : Progress) : Except Stop Arguments :=
  match p.pending with
  | .nothing => .ok p.arguments
  | .inputs paths => p.arguments.addInputs paths
  | .setting s none => Arguments.refuse (.missingValue s.label)
  | .setting s (some value) => p.arguments.assign s value

def switch (p : Progress) (s : Switch) : Except Stop Progress := do
  let a ← p.settle
  return ⟨← a.turnOn s, .nothing⟩

def setting (p : Progress) (s : Setting) (attached : Option String) : Except Stop Progress := do
  let a ← p.settle
  match attached with
  | some value => return ⟨← a.assign s value, .nothing⟩
  | none => return ⟨a, .setting s none⟩

/-- Takes in an argument that is not a name. It belongs to an option that waits for its value, and
is an input file otherwise. -/
def value (p : Progress) (text : String) : Except Stop Progress :=
  match p.pending with
  | .setting s none => .ok { p with pending := .setting s (some text) }
  | .inputs paths => .ok { p with pending := .inputs (paths ++ [text]) }
  | _ => do
      let a ← p.settle
      return ⟨a, .inputs [text]⟩

def input (p : Progress) (text : String) : Except Stop Progress :=
  match p.pending with
  | .inputs paths => .ok { p with pending := .inputs (paths ++ [text]) }
  | _ => do
      let a ← p.settle
      return ⟨a, .inputs [text]⟩

/-- Takes in an argument that starts with two dashes, which are left off. -/
def long (p : Progress) (text : List Char) : Except Stop Progress :=
  let name := String.ofList (text.takeWhile (· ≠ '='))
  let attached := match text.dropWhile (· ≠ '=') with
    | _ :: value => some (String.ofList value)
    | [] => none
  match Name.ofLong? name, attached with
  | none, _ => Arguments.refuse (.unexpectedArgument ("--" ++ name))
  | some (.switch s), none => p.switch s
  | some (.switch s), some value => Arguments.refuse (.unexpectedValue s.label value)
  | some (.setting s), attached => p.setting s attached

def attachedToShort : List Char → Option String
  | [] => none
  | '=' :: value => some (String.ofList value)
  | value => some (String.ofList value)

def short : List Char → Progress → Except Stop Progress
  | [], p => .ok p
  | c :: rest, p =>
      match Name.ofShort? c with
      | none => Arguments.refuse (.unexpectedArgument (String.ofList ['-', c]))
      | some (.switch s) => do
          let p ← p.switch s
          short rest p
      | some (.setting s) => p.setting s (attachedToShort rest)

def take : List String → Progress → Except Stop Progress
  | [], p => .ok p
  | text :: rest, p =>
      match text.toList with
      | ['-', '-'] => rest.foldlM input p
      | '-' :: '-' :: long => do
          let p ← p.long long
          take rest p
      | '-' :: c :: shorts => do
          let p ← short (c :: shorts) p
          take rest p
      | _ => do
          let p ← p.value text
          take rest p

end Progress

namespace Arguments

/-- Reads a command line. Numbers on edges make sense only in a drawing. -/
def read (arguments : List String) : Except Stop Arguments := do
  let p ← Progress.start.take arguments
  let a ← p.settle
  if a.labelEdges && a.dot.isNone then refuse (.missingRequired Setting.dot.label) else return a

end Arguments

end SurfaceTape.CommandLine
