import BinaryXml.CommandLine.Plan

/-!
# File systems

What is around a run: a standard input, a standard output, and files. Which files there can be and
where paths lead is up to a file system.

* `Target` is what a path leads to. `FileSystem` says where each path leads and which files are
  refused.
* `Surroundings` are a file system, what its files hold, and the standard streams.
* `Surroundings.read` reads at a place, `Surroundings.create` opens a file for writing, and
  `Surroundings.append` writes to what is open.
-/

namespace BinaryXml

set_option autoImplicit false

/-- Something that is read and written like a file and keeps nothing. -/
inductive Device where
  /-- It is always empty and takes everything. -/
  | null
  /-- The standard input. What is written to it is lost. -/
  | input
  /-- The standard output. It is empty when it is read. -/
  | output
deriving Repr, DecidableEq

/-- What a path leads to. -/
inductive Target (File : Type) where
  /-- A file, whether it is there or not. -/
  | file (file : File)
  | device (device : Device)
  /-- Nothing that can be opened, and why it can be neither read nor created. -/
  | closed (reading creating : FileFault)
deriving Repr, DecidableEq

/-- Where paths lead, and which files are refused. Both may depend on what is in the files. -/
structure FileSystem (File : Type) where
  target : (File → Option Bytes) → String → Target File
  /-- Why a file cannot be read, if it is not for want of the file. -/
  readingFault? : (File → Option Bytes) → File → Option FileFault := fun _ _ => none
  /-- Why a file can be neither made nor emptied. -/
  creatingFault? : (File → Option Bytes) → File → Option FileFault := fun _ _ => none

/-- The surroundings of a run. -/
structure Surroundings (File : Type) where
  system : FileSystem File
  stdin : Bytes := []
  stdout : Bytes := []
  files : List (File × Bytes) := []

/-- What has been opened for writing. -/
inductive Sink (File : Type) where
  | output
  | file (file : File)
  /-- A device that keeps nothing. -/
  | nothing
deriving Repr, DecidableEq

namespace Surroundings

variable {File : Type} [DecidableEq File]

/-- Files of which one has new bytes. A new file comes last. -/
def replace (file : File) (data : Bytes) : List (File × Bytes) → List (File × Bytes)
  | [] => [(file, data)]
  | (other, old) :: rest =>
    if other = file then (other, data) :: rest else (other, old) :: replace file data rest

/-- What is in a file, if it is there. -/
def contents (surroundings : Surroundings File) (file : File) : Option Bytes :=
  surroundings.files.lookup file

def target (surroundings : Surroundings File) (path : String) : Target File :=
  surroundings.system.target surroundings.contents path

def readingFault? (surroundings : Surroundings File) (file : File) : Option FileFault :=
  surroundings.system.readingFault? surroundings.contents file

def creatingFault? (surroundings : Surroundings File) (file : File) : Option FileFault :=
  surroundings.system.creatingFault? surroundings.contents file

/-! ## Reading -/

def readFile (surroundings : Surroundings File) (file : File) : Except FileFault Bytes :=
  match surroundings.readingFault? file with
  | some fault => .error fault
  | none =>
    match surroundings.contents file with
    | some data => .ok data
    | none => .error .notFound

def readPath (surroundings : Surroundings File) (path : String) : Except FileFault Bytes :=
  match surroundings.target path with
  | .file file => surroundings.readFile file
  | .device .input => .ok surroundings.stdin
  | .device .null | .device .output => .ok []
  | .closed reading _ => .error reading

def read (surroundings : Surroundings File) : Place → Except Error Bytes
  | .standard => .ok surroundings.stdin
  | .file path => (surroundings.readPath path).mapError .io

/-! ## Writing -/

/-- Opens what a path leads to for writing. A file that is opened is there, and empty. -/
def create (surroundings : Surroundings File) (path : String) :
    Except FileFault (Sink File × Surroundings File) :=
  match surroundings.target path with
  | .file file =>
    match surroundings.creatingFault? file with
    | some fault => .error fault
    | none =>
      .ok (.file file, { surroundings with files := replace file [] surroundings.files })
  | .device .output => .ok (.output, surroundings)
  | .device .null | .device .input => .ok (.nothing, surroundings)
  | .closed _ creating => .error creating

def append (surroundings : Surroundings File) (data : Bytes) : Sink File → Surroundings File
  | .output => { surroundings with stdout := surroundings.stdout ++ data }
  | .nothing => surroundings
  | .file file =>
    let old := (surroundings.contents file).getD []
    { surroundings with files := replace file (old ++ data) surroundings.files }

end Surroundings

end BinaryXml
