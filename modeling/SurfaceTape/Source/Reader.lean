import SurfaceTape.Decimal.Literal
import SurfaceTape.Graph.Build
import SurfaceTape.Text.Blank
import SurfaceTape.Text.Lines
import Std.Data.TreeMap.Lemmas

/-!
# Source text

An expression is written as a sequence of statements, one to a line. A statement gives a name to an
axis, a constant, or an operator over names that were given before. Lines without words and lines
that start with `#` are skipped. The last statement is the root.

A name may be given again; from then on it means the later statement. What follows the last
argument of a statement is ignored.
-/

set_option autoImplicit false

namespace SurfaceTape.Source

abbrev Scope := Std.TreeMap String Nat

structure Reader where
  graph : Graph Float
  scope : Scope
  root : Option Nat

namespace Reader

def start : Reader := ⟨.empty, ∅, none⟩

end Reader

def axisOfWord? (word : String) : Option Axis :=
  if word = "var-x" then some .x
  else if word = "var-y" then some .y
  else if word = "var-z" then some .z
  else if word = "var-t" then some .t
  else none

def nextWord (line : Nat) : List String → Except Error (String × List String)
  | [] => .error (.missingArgument line)
  | word :: rest => .ok (word, rest)

def nextNode (scope : Scope) (line : Nat) (words : List String) :
    Except Error (Nat × List String) := do
  let (word, rest) ← nextWord line words
  match scope[word]? with
  | some n => return (n, rest)
  | none => throw (.unknownVariable word)

/-- The term of a statement, from its operator and arguments. Faults are reported from left to
right. -/
def term (scope : Scope) (line : Nat) (opcode : String) (arguments : List String) :
    Except Error (Term Float Nat) :=
  if opcode = "const" then do
    let (text, _) ← nextWord line arguments
    match Decimal.binary64? text.toList with
    | some c => return .const c
    | none => throw (.badConstant text)
  else
    match axisOfWord? opcode, Operator.ofName? opcode with
    | some a, _ => return .axis a
    | none, some (.unary op) => do
        let (a, _) ← nextNode scope line arguments
        return .unary op a
    | none, some (.binary op) => do
        let (a, rest) ← nextNode scope line arguments
        let (b, _) ← nextNode scope line rest
        return .binary op a b
    | none, none => throw (.unknownOpcode opcode)

/-- The words of a line; none if the line is to be skipped. -/
def statementWords (cs : List Char) : List String :=
  match Text.words cs with
  | ('#' :: _) :: _ => []
  | words => words.map String.ofList

/-- Reads one line. Lines are numbered from one. -/
def Reader.line (number : Nat) (bytes : List UInt8) (r : Reader) : Except Error Reader :=
  match Text.decode? bytes with
  | none => .error (.stream .invalidUtf8)
  | some cs =>
      match statementWords cs with
      | [] => .ok r
      | name :: words => do
          let (opcode, arguments) ← nextWord number words
          let t ← term r.scope number opcode arguments
          if fits : t.Fits r.graph.size then
            let n := r.graph.size
            return ⟨r.graph.push t fits, r.scope.insert name n, some n⟩
          else throw .badNode

def Reader.lines : Nat → List (List UInt8) → Reader → Except Error Reader
  | _, [], r => .ok r
  | number, bytes :: rest, r => do
      let r ← r.line number bytes
      r.lines (number + 1) rest

def read (bytes : List UInt8) : Except Error (Graph Float × Nat) := do
  let r ← Reader.start.lines 1 (Text.lines bytes)
  match r.root with
  | some root => return (r.graph, root)
  | none => throw .emptyFile

end SurfaceTape.Source
