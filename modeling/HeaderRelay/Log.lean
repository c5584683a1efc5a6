import HeaderRelay.Json.Basic

/-!
# Log events

An event is a level, a message and named values. Events of a sync engine carry its name under
`engine`, so that the output of one engine can be told from the rest.
-/
namespace HeaderRelay.Log

/-- How much an event matters, least first. -/
inductive Level where
  | debug
  | info
  | warn
  | error
  deriving DecidableEq, Repr, Inhabited

def Level.name : Level → String
  | .debug => "debug"
  | .info => "info"
  | .warn => "warn"
  | .error => "error"

structure Event where
  level : Level
  message : String
  fields : List (String × Json)
  deriving Inhabited

def ofEngine (engine : String) (level : Level) (message : String) (fields : List (String × Json)) : Event :=
  ⟨level, message, ("engine", .str engine) :: fields⟩

/-- An event of a sync engine about one header, given by its height and the text of its hash. -/
def ofHeader (engine : String) (level : Level) (message : String) (height : Nat) (hash : String)
    (fields : List (String × Json)) : Event :=
  ofEngine engine level message (("height", .nat height) :: ("hash", .str hash) :: fields)

def Event.toJson (e : Event) : Json := .arr [.str e.level.name, .str e.message, .obj e.fields]

end HeaderRelay.Log
