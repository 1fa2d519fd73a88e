import DiceExpr.Play
import DiceExpr.Tree.Text

namespace DiceExpr

/-- A step as it is told to a listener. -/
structure Entry where
  source : String
  subject : Text
  operation : Text
  result : Value
  /-- In the order of the names. -/
  extensions : List (String × Value)
  deriving DecidableEq

def Details.extensions : Details → List (String × Value)
  | plain => []
  | selected kept dropped => [("dropped", .clamp dropped), ("kept", .clamp kept)]
  | exploded rolls => [("total_rolls", .clamp rolls)]

def Step.entry (s : Step) : Entry where
  source := s.node.kind
  subject := s.node.text
  operation := s.roll.trace
  result := s.roll.value
  extensions := s.details.extensions

namespace Entry

def quoted (name : String) : Text := '"' :: name.toList ++ ['"']

def extensionsText (e : Entry) : Text :=
  '\x7b' :: Text.joined [',', ' ']
    (e.extensions.map fun (name, v) => quoted name ++ ':' :: ' ' :: v.text) ++ ['\x7d']

/-- What a log shows of an entry, by name. -/
def fields (e : Entry) : List (String × Text) :=
  [("source", quoted e.source), ("subject", e.subject), ("operation", e.operation),
    ("result", e.result.text), ("extensions", e.extensionsText)]

def event : String := "evaluated"

/-- The line of a log, less the time. -/
def logLine (e : Entry) : Text :=
  Text.joined [' '] ("DEBUG dicecup::trace:".toList :: event.toList ::
    e.fields.map fun (name, text) => name.toList ++ '=' :: text)

end Entry

end DiceExpr
