import BinaryXml.CommandLine.FileSystem

/-!
# Paths

The files in a tree of directories, where paths are walked name by name.

* `DirectoryTree` lists the directories, and `Location` is the place of a file in one of them.
* `Path.names` are the names along a path, and `DirectoryTree.walk` walks along them.
* `DirectoryTree.system` is the file system of a tree, and `DirectoryTree.standard` the tree with
  the directories that a system has at its top.
-/

namespace BinaryXml

set_option autoImplicit false

/-! ## Names -/

namespace Path

/-- The pieces between the slashes. Slashes that follow each other have an empty piece between
them. -/
def pieces : List Char → List (List Char)
  | [] => [[]]
  | c :: rest =>
    if c = '/' then [] :: pieces rest
    else match pieces rest with
      | [] => [[c]]
      | piece :: more => (c :: piece) :: more

/-- The names along a path: the pieces that are not empty. -/
def names (path : String) : List String :=
  ((pieces path.toList).filter (!·.isEmpty)).map String.ofList

def startsInSlash (path : String) : Bool :=
  path.toList.head? == some '/'

def endsInSlash (path : String) : Bool :=
  path.toList.getLast? == some '/'

/-- Whether a path is longer than the 4095 bytes that a path may have. -/
def isTooLong (path : String) : Bool :=
  4095 < path.utf8ByteSize

end Path

/-! ## Trees -/

/-- The place of a file: the names on the way from the top to its directory, and its name there. -/
structure Location where
  directory : List String
  name : String
deriving Repr, DecidableEq

/-- Whether the name is longer than the 255 bytes that a name may have. -/
def Location.isTooLong (location : Location) : Bool :=
  255 < location.name.utf8ByteSize

/-- Directories, each by the names on the way to it from the top. The top is always there. -/
structure DirectoryTree where
  directories : List (List String)
  devices : List (Location × Device) := []
  /-- The directory in which a run starts. -/
  home : List String := []

namespace DirectoryTree

variable (tree : DirectoryTree) (contents : Location → Option Bytes)

/-- The directory that a name stands for, seen from a directory. One dot is the directory itself,
and two dots are the one that holds it. The top holds itself. -/
def step? (directory : List String) (name : String) : Option (List String) :=
  if name = "." then some directory
  else if name = ".." then some directory.dropLast
  else if tree.directories.contains (directory ++ [name]) then some (directory ++ [name])
  else none

/-- Why a location cannot be used as a directory, which depends on whether anything is there. -/
def notEnterable (location : Location) : FileFault :=
  if location.isTooLong then .nameTooLong
  else if (tree.devices.lookup location).isSome || (contents location).isSome then .notDirectory
  else .notFound

/-- Walks along names. Each of them but the last has to stand for a directory. If the last one does,
too, there is no location at the end. -/
def walk : List String → List String → Except FileFault (Option Location)
  | _, [] => .ok none
  | directory, name :: rest =>
    match tree.step? directory name with
    | some next => walk next rest
    | none =>
      match rest with
      | [] => .ok (some ⟨directory, name⟩)
      | _ :: _ => .error (tree.notEnterable contents ⟨directory, name⟩)

/-- Walks along a path, from the top if it starts in a slash. The empty path leads nowhere. -/
def follow (path : String) : Except FileFault (Option Location) :=
  if path.isEmpty then .error .notFound
  else if path.toList.contains '\x00' then .error .nulInName
  else if Path.isTooLong path then .error .nameTooLong
  else
    tree.walk contents (if Path.startsInSlash path then [] else tree.home) (Path.names path)

/-- What a path leads to. Behind a slash at its end only a directory may be. -/
def target (path : String) : Target Location :=
  match tree.follow contents path with
  | .error fault => .closed fault fault
  | .ok none => .closed .isDirectory .isDirectory
  | .ok (some location) =>
    if Path.endsInSlash path then .closed (tree.notEnterable contents location) .isDirectory
    else
      match tree.devices.lookup location with
      | some device => .device device
      | none =>
        if location.isTooLong then .closed .nameTooLong .nameTooLong else .file location

/-- The file system of a tree. It refuses no file. -/
def system : FileSystem Location where
  target := tree.target

/-- The directories that a system has at its top, and a run in a directory of its own. -/
def standard : DirectoryTree where
  directories :=
    ["bin", "boot", "dev", "etc", "home", "lib", "media", "mnt", "opt", "proc", "root", "run",
      "sbin", "srv", "sys", "tmp", "usr", "var"].map ([·]) ++ [["tmp", "wbxml"]]
  devices := [(⟨["dev"], "null"⟩, .null), (⟨["dev"], "stdin"⟩, .input),
    (⟨["dev"], "stdout"⟩, .output)]
  home := ["tmp", "wbxml"]

end DirectoryTree

end BinaryXml
