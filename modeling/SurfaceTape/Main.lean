import SurfaceTape.CommandLine.Report

/-!
# The command

Carries out a run on the files of the machine. All decisions are made elsewhere.
-/

set_option autoImplicit false

namespace SurfaceTape.CommandLine

/-- The number of a refusal. Some of them are reported with the sign reversed. -/
def errorNumber (code : UInt32) : Nat :=
  if code < 0x80000000 then code.toNat else (-code).toNat

def systemError : IO.Error → SystemError
  | .noFileOrDirectory .. => .noSuchFile
  | .permissionDenied .. => ⟨"Permission denied", 13⟩
  | .inappropriateType _ code _ => if errorNumber code = 20 then .notDirectory else .isDirectory
  | .invalidArgument _ code text =>
      if errorNumber code = 36 then .nameTooLong else ⟨text, errorNumber code⟩
  | e => ⟨toString e, 5⟩

def openFile (path : String) : IO Opened := do
  try
    let bytes ← IO.FS.readBinFile path
    return .contents bytes.toList
  catch e =>
    let cause := systemError e
    return if cause = .isDirectory then .unreadable cause else .refused cause

def carryOut : List Action → IO UInt32
  | [] => return 0
  | .print text :: rest => do
      IO.print text
      carryOut rest
  | .fail cause :: _ => do
      IO.eprint cause.message
      return 1
  | .write path bytes :: rest => do
      try
        IO.FS.writeBinFile path ⟨bytes.toArray⟩
      catch e =>
        IO.eprint (Failure.system (systemError e)).message
        return 1
      carryOut rest

def runOnFiles (arguments : List String) : IO UInt32 := do
  match Arguments.read arguments with
  | .error (.usage e) =>
      IO.eprint e.message
      return 2
  | .error .help =>
      IO.print helpText
      return 0
  | .error .version =>
      IO.print versionText
      return 0
  | .ok a =>
      let mut opened : List (String × Opened) := []
      for path in a.inputs do
        opened := (path, ← openFile path) :: opened
      carryOut (plan a fun path => (opened.lookup path).getD (.refused .noSuchFile))

end SurfaceTape.CommandLine

def main (arguments : List String) : IO UInt32 := SurfaceTape.CommandLine.runOnFiles arguments
