import SurfaceTape.CommandLine.Arguments
import SurfaceTape.CommandLine.Directory
import SurfaceTape.Compile
import SurfaceTape.Decimal.Shortest
import SurfaceTape.Graph.Drawing
import SurfaceTape.Scalar.Binary
import SurfaceTape.Source.Reader
import SurfaceTape.Tape.Codec
import SurfaceTape.Tape.Listing
import SurfaceTape.Tape.Run

/-!
# Reports

What a run does with its input files: it reads all of them, compiles all of them, and then prints
and writes. The last part is a list of actions, so that it can be carried out on files or on a
directory in memory alike.
-/

set_option autoImplicit false

namespace SurfaceTape.CommandLine

inductive Failure where
  | severalInputs
  | system (cause : SystemError)
  | library (cause : Error)

namespace Failure

/-- The message of a failed run. A failure below the reported one is added. -/
def message : Failure → String
  | .severalInputs => "Error: --dot and --out can only be used with a single input\n"
  | .system cause => "Error: " ++ cause.message ++ "\n"
  | .library cause =>
      let below := match cause.cause? with
        | some text => "\nCaused by:\n    " ++ text ++ "\n"
        | none => ""
      "Error: " ++ cause.message ++ "\n" ++ below

end Failure

inductive Action where
  | print (text : String)
  | write (path : String) (bytes : List UInt8)
  | fail (cause : Failure)

structure Job where
  name : String
  graph : Graph Float
  root : Nat

structure Compiled where
  name : String
  tape : Tape Float32
  drawing : Option String

def sphere : String :=
  "
_0 var-x
_1 mul _0 _0
_2 var-y
_3 mul _2 _2
_4 add _1 _3
_5 var-z
_6 mul _5 _5
_7 add _4 _6
_8 const 100
_9 sub _7 _8
"

namespace Job

def ofBytes (name : String) (bytes : List UInt8) : Except Failure Job :=
  match Source.read bytes with
  | .ok (graph, root) => .ok ⟨name, graph, root⟩
  | .error e => .error (.library e)

def ofInput (name : String) : Opened → Except Failure Job
  | .refused cause => .error (.system cause)
  | .unreadable cause => .error (.library (.stream (.system cause)))
  | .contents bytes => ofBytes name bytes

def draw (job : Job) (numbered : Bool) : Except Failure (String × Graph Float) :=
  match Build.unifyAxes job.root job.graph with
  | .error e _ => .error (.library e)
  | .ok merged graph =>
      match graph.draw merged numbered with
      | .error e => .error (.library e)
      | .ok text => .ok (text, graph)

def compile (a : Arguments) (job : Job) : Except Failure Compiled := do
  let (drawing, graph) ←
    if a.dot.isSome then do
      let (text, graph) ← job.draw a.labelEdges
      pure (some text, graph)
    else pure (none, job.graph)
  match Build.compile { Options.all with simplify := !a.noSimplify } job.root graph with
  | .error e _ => throw (.library e)
  | .ok tape _ => return ⟨job.name, tape, drawing⟩

end Job

def valueLine (p : Point Float32) (v : Float32) : String :=
  let text := Decimal.shortest32
  "f(" ++ text p.x ++ ", " ++ text p.y ++ ", " ++ text p.z ++ ", " ++ text p.t ++ ") = " ++
    text v ++ "\n"

namespace Compiled

def valueAction (c : Compiled) (p : Point Float32) : Action :=
  match c.tape.run p with
  | .ok v => .print (valueLine p v)
  | .error e => .fail (.library e)

/-- What is done with one compiled expression. Its name is printed if there are several. -/
def actions (a : Arguments) (several : Bool) (c : Compiled) : List Action :=
  let header := if several then "== " ++ c.name ++ " ==\n" else ""
  let drawing := match a.dot, c.drawing with
    | some path, some text => [Action.write path text.toUTF8.toList]
    | _, _ => []
  [.print (header ++ c.tape.listing a.detailed)] ++ (a.eval.map c.valueAction).toList ++ drawing ++
    (a.out.map fun path => Action.write path c.tape.encode).toList

end Compiled

/-- Reads and compiles the inputs, which are given in the order of the arguments. -/
def prepare (a : Arguments) (openInput : String → Opened) : Except Failure (List Compiled) := do
  if 1 < a.inputs.length && (a.dot.isSome || a.out.isSome) then
    throw .severalInputs
  let jobs ←
    if a.inputs.isEmpty then do
      let job ← Job.ofBytes "sphere" sphere.toUTF8.toList
      pure [job]
    else a.inputs.mapM fun path => Job.ofInput path (openInput path)
  jobs.mapM (Job.compile a)

def plan (a : Arguments) (openInput : String → Opened) : List Action :=
  match prepare a openInput with
  | .error cause => [.fail cause]
  | .ok compiled => compiled.flatMap (Compiled.actions a (1 < compiled.length))

def versionText : String := "frep-cli 0.1.0\n"

def helpText : String :=
  "Compiles implicit-surface expressions into tapes

Usage: frep-cli [OPTIONS] [INPUTS]...

Arguments:
  [INPUTS]...  Input files, in the flat text format (uses a sphere if empty)

Options:
      --no-simplify  Skip constant folding and algebraic simplification
  -d, --detailed     Print every instruction and constant
      --dot <DOT>    Name of a `.dot` file to write with the canonicalized graph
      --label-edges  Label graph edges with the input position
  -o, --out <OUT>    Name of a file to write with the serialized tape
      --eval <EVAL>  Evaluate the tape at a point, given as `x,y,z,t`
  -h, --help         Print help
  -V, --version      Print version
"

structure Outcome where
  exit : Nat
  stdout : String
  stderr : String
  directory : Directory

/-- Carries out actions in a directory, after what has been printed already. -/
def perform : List Action → String → Directory → Outcome
  | [], printed, d => ⟨0, printed, "", d⟩
  | .print text :: rest, printed, d => perform rest (printed ++ text) d
  | .fail cause :: _, printed, d => ⟨1, printed, cause.message, d⟩
  | .write path bytes :: rest, printed, d =>
      match d.write path bytes with
      | .ok d => perform rest printed d
      | .error cause => ⟨1, printed, (Failure.system cause).message, d⟩

def run (arguments : List String) (d : Directory) : Outcome :=
  match Arguments.read arguments with
  | .error (.usage e) => ⟨2, "", e.message, d⟩
  | .error .help => ⟨0, helpText, "", d⟩
  | .error .version => ⟨0, versionText, "", d⟩
  | .ok a => perform (plan a d.openInput) "" d

end SurfaceTape.CommandLine
