import BinaryXml.CommandLine.Path
import BinaryXml.CommandLine.Report
import BinaryXml.CommandLine.Session

/-!
# Workspaces

Runs in a directory of a tree.

* `Workspace.ofFiles` are surroundings with files in the directory of the run and none elsewhere.
* `Workspace.execute` is a whole program run, with its exit code and what it says about itself.
-/

namespace BinaryXml

set_option autoImplicit false

/-- Surroundings whose files lie in the directories of a tree. -/
abbrev Workspace := Surroundings Location

namespace Workspace

/-- The surroundings with the given files in the directory of the run and none elsewhere. -/
def ofFiles (stdin : Bytes) (files : List (String × Bytes)) : Workspace where
  system := DirectoryTree.standard.system
  stdin := stdin
  files := files.map fun (name, data) => (⟨DirectoryTree.standard.home, name⟩, data)

instance : EmptyCollection Workspace :=
  ⟨ofFiles [] []⟩

/-- The files in the directory of the run. -/
def homeFiles (workspace : Workspace) : List (String × Bytes) :=
  workspace.files.filterMap fun (location, data) =>
    if location.directory = DirectoryTree.standard.home then some (location.name, data) else none

/-- Does what a command line asks for, with the surroundings behind it if that succeeds. -/
def run (workspace : Workspace) (arguments : Arguments) : Outcome Error Workspace :=
  match Action.perform arguments { surroundings := workspace } with
  | .ok _ session => ⟨.ok session.surroundings, session.events⟩
  | .error error session => ⟨.error error, session.events⟩

/-- The end of a program run. -/
structure Ending where
  exitCode : UInt32
  workspace : Workspace
  /-- The lines that were written about the run. -/
  lines : List String := []

/-- Runs a program with the words of a command line. -/
def execute (workspace : Workspace) (filter : LogFilter) (words : List String) : Ending :=
  match Arguments.parse words with
  | .error rejection => { exitCode := rejection.exitCode, workspace }
  | .ok arguments =>
    match Action.perform arguments { surroundings := workspace } with
    | .ok value session =>
      let outcome : Outcome Error Unit := ⟨.ok value, session.events⟩
      { exitCode := 0, workspace := session.surroundings, lines := outcome.report filter }
    | .error error session =>
      let outcome : Outcome Error Unit := ⟨.error error, session.events⟩
      { exitCode := 1, workspace := session.surroundings, lines := outcome.report filter }

end Workspace

end BinaryXml
