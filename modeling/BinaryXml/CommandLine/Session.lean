import BinaryXml.CommandLine.FileSystem

/-!
# Sessions

What a run does to its surroundings, whatever their file system is.

* `Action` is a part of a run, which may fail; what it has done until then stays done.
* `Action.follow` follows a plan, and `Action.perform` does what a command line asks for.
-/

namespace BinaryXml

set_option autoImplicit false

/-- A run under way: the surroundings as they are by now, and the reports so far. -/
structure Session (File : Type) where
  surroundings : Surroundings File
  events : List Event := []

/-- A part of a run. It may fail, and then what it has done until then stays done. -/
abbrev Action (File α : Type) := EStateM Error (Session File) α

namespace Action

variable {File : Type} [DecidableEq File]

/-- Reads at the source of a plan and converts what is there. -/
def convert (plan : Plan) : Action File Bytes := fun session =>
  let outcome := plan.convert (session.surroundings.read plan.source)
  let session := { session with events := session.events ++ outcome.events }
  match outcome.result with
  | .ok data => .ok data session
  | .error error => .error error session

def create : Place → Action File (Sink File)
  | .standard => pure .output
  | .file path => fun session =>
    match session.surroundings.create path with
    | .ok (sink, surroundings) => .ok sink { session with surroundings }
    | .error fault => .error (.io fault) session

def write (data : Bytes) (sink : Sink File) : Action File Unit :=
  modify fun session => { session with surroundings := session.surroundings.append data sink }

/-- Follows a plan. A file is emptied when it is opened, so that comes after the conversion. -/
def follow (plan : Plan) : Action File Unit := do
  let data ← convert plan
  let sink ← create plan.sink
  write data sink

/-- Does what a command line asks for. -/
def perform (arguments : Arguments) : Action File Unit :=
  match Plan.of arguments with
  | .error error => throw error
  | .ok plan => follow plan

end Action

end BinaryXml
