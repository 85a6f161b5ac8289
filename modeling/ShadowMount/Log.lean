/-!
# Log lines

What the library has to say to an operator is data: a level and a text. Every stateful part keeps
the lines it produced, oldest first, for its host to print.
-/

namespace ShadowMount.Log

/-- The weight of a line, gravest first. -/
inductive Level where
  | error
  | warn
  | info
  | debug
  | trace
  deriving DecidableEq, Inhabited

namespace Level

/-- The name of a level. -/
def name : Level → String
  | error => "error"
  | warn => "warn"
  | info => "info"
  | debug => "debug"
  | trace => "trace"

/-- The place of a level, counted from the gravest. -/
def rank : Level → Nat
  | error => 0
  | warn => 1
  | info => 2
  | debug => 3
  | trace => 4

end Level

/-- One line of the log. -/
structure Line where
  level : Level
  message : String
  deriving DecidableEq, Inhabited

/-- Whether a line is shown when lines up to `level` are. -/
def Line.isShownAt (line : Line) (level : Level) : Bool :=
  line.level.rank ≤ level.rank

/-- The line with its level in front. -/
def Line.text (line : Line) : String :=
  line.level.name ++ ": " ++ line.message

end ShadowMount.Log
