import SurfaceTape.Error

/-!
# Directories

The files that a run can see, and what happens when a path is opened or written. A run starts in a
directory without subdirectories. The directories above it and the root exist as well, and hold
nothing at first.

A path is followed step by step. The steps `.` and `..` lead from one directory to another; any
other step has to be the last one, since it leads to a file or to nothing.
-/

set_option autoImplicit false

namespace SurfaceTape.CommandLine

inductive Folder where
  | here
  /-- A directory above it; the next one has the number zero. -/
  | above (levels : Nat)
  | root
  deriving DecidableEq

structure Address where
  folder : Folder
  name : String
  deriving DecidableEq

/-- What comes of opening an input: a refusal, something that cannot be read, or its bytes. -/
inductive Opened where
  | refused (cause : SystemError)
  | unreadable (cause : SystemError)
  | contents (bytes : List UInt8)

/-- What a path leads to. A name followed by a slash is a name that only a directory may have. -/
inductive Target where
  | folder
  | entry (address : Address) (slashed : Bool)

structure Directory where
  files : List (Address × List UInt8)

def nameLimit : Nat := 255

def pathLimit : Nat := 4095

namespace Folder

/-- The directory above a directory. The root is above itself. -/
def parent : Folder → Folder
  | .here => .above 0
  | .above levels => .above (levels + 1)
  | .root => .root

end Folder

namespace Address

def tooLong (a : Address) : Bool := nameLimit < a.name.utf8ByteSize

end Address

namespace Directory

def ofFiles (files : List (String × List UInt8)) : Directory :=
  ⟨files.map fun (name, bytes) => (⟨.here, name⟩, bytes)⟩

def contents? (d : Directory) (a : Address) : Option (List UInt8) := d.files.lookup a

def find? (d : Directory) (name : String) : Option (List UInt8) := d.contents? ⟨.here, name⟩

def obstacle (d : Directory) (a : Address) : SystemError :=
  if a.tooLong then .nameTooLong
  else if (d.contents? a).isSome then .notDirectory
  else .noSuchFile

/-- Follows steps from a directory. The flag tells whether a slash follows the last of them. -/
def follow (d : Directory) (slashed : Bool) : Folder → List String → Except SystemError Target
  | _, [] => .ok .folder
  | folder, step :: rest =>
      if step = "." then d.follow slashed folder rest
      else if step = ".." then d.follow slashed folder.parent rest
      else if rest.isEmpty then .ok (.entry ⟨folder, step⟩ slashed)
      else .error (d.obstacle ⟨folder, step⟩)

/-- Follows a path. Its length is looked at first, and several slashes count as one. -/
def locate (d : Directory) (path : String) : Except SystemError Target :=
  if pathLimit < path.utf8ByteSize then .error .nameTooLong
  else if path.isEmpty then .error .noSuchFile
  else
    let start := if path.startsWith "/" then Folder.root else .here
    d.follow (path.endsWith "/") start ((path.splitOn "/").filter fun step => !step.isEmpty)

/-- Opens an input. A directory can be opened but not read. -/
def openInput (d : Directory) (path : String) : Opened :=
  match d.locate path with
  | .error cause => .refused cause
  | .ok .folder => .unreadable .isDirectory
  | .ok (.entry a true) => .refused (d.obstacle a)
  | .ok (.entry a false) =>
      match d.contents? a with
      | some bytes => .contents bytes
      | none => .refused (d.obstacle a)

/-- Writes a file and replaces what it held. Nothing is created under a name that only a directory
may have. -/
def write (d : Directory) (path : String) (bytes : List UInt8) : Except SystemError Directory :=
  match d.locate path with
  | .error cause => .error cause
  | .ok .folder => .error .isDirectory
  | .ok (.entry _ true) => .error .isDirectory
  | .ok (.entry a false) =>
      if a.tooLong then .error .nameTooLong
      else .ok ⟨(a, bytes) :: d.files.filter fun file => file.1 != a⟩

end Directory

end SurfaceTape.CommandLine
