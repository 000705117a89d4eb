import BinaryXml.Error
import BinaryXml.Event

/-!
# Reports

What a program says about a run, apart from the output of the conversion.

* `Error.line` is the line for an error.
* `Outcome.report` lists the lines for the events of a run and for the error at its end.
-/

namespace BinaryXml

set_option autoImplicit false

/-- The line for an error: what happened, and the number and the meaning of its kind. -/
def Error.line (error : Error) : String :=
  "Error: " ++ error.message ++ " [" ++ Numeral.decimal error.kind.code ++ " " ++
    error.kind.describe ++ "]"

/-- The lines about a run: the events that the filter admits, and the error if there is one. -/
def Outcome.report {α : Type} (outcome : Outcome Error α) (filter : LogFilter) : List String :=
  (outcome.events.filter filter.admits).map (·.line) ++
    match outcome.result with
    | .ok _ => []
    | .error error => [error.line]

end BinaryXml
