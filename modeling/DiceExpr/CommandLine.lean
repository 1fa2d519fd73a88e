import DiceExpr.Outcome
import DiceExpr.Tree.Bounds
import DiceExpr.Tree.Build
import DiceExpr.Tree.Evaluate

namespace DiceExpr.CommandLine

/-- Where the fault of a text lies. -/
structure Report where
  message : Text
  /-- The text as it was read. -/
  source : Text
  /-- The faulty characters of the source. -/
  start : Nat
  length : Nat
  deriving DecidableEq

namespace Report

def label : String := "in this part of the notation"

/-- How many characters at the end of the source a fault is about. -/
def faultyLength (source : Text) : Fault → Nat
  | .unreadable rest => rest.length
  | _ => source.length

def ofFault (text : Text) (fault : Fault) : Report :=
  let source := text.normal
  let start := source.length - faultyLength source fault
  ⟨"Error: ".toList ++ fault.message, source, start, source.length - start⟩

end Report

/-- What is told beside the results. -/
inductive Diagnosis where
  | log (lines : List Text)
  | report (r : Report)
  | complaint (line : String)
  deriving DecidableEq

structure Response where
  code : UInt32
  output : List Text
  diagnosis : Diagnosis
  deriving DecidableEq

def prompt : Text := "Enter dice notation: ".toList

def noText : String := "Unable to read input: stream did not contain valid UTF-8"

def isVerbose (arg : String) : Bool := arg = "-v" || arg = "--verbose"

/-- The text in the arguments, if there are any beside the options. -/
def textOfArgs (args : List String) : Option Text :=
  match args.filter fun arg => !isVerbose arg with
  | [] => none
  | words => some (Text.joined [' '] (words.map String.toList))

/-- The characters before the first line break. A carriage return there is white space. -/
def firstLine (input : ByteArray) : Option Text :=
  (String.fromUTF8? ⟨(input.toList.takeWhile (· ≠ 10)).toArray⟩).map String.toList

def labelled (label : String) (text : Text) : Text := label.toList ++ ':' :: ' ' :: text

def describe (t : Tree) (roll : Roll) : List Text :=
  [labelled "Notation" t.text,
    labelled "Range" (t.lowest.text ++ " to ".toList ++ t.highest.text),
    labelled "Trace" roll.trace,
    labelled "Total" roll.value.text]

/-- Builds the tree of a text and evaluates it once. -/
def respond (verbose : Bool) (text : Text) (supply : Supply) : Response :=
  match Tree.ofText? {} text with
  | .error fault => ⟨1, [], .report (.ofFault text fault)⟩
  | .ok t =>
    let outcome := t.evaluate.run Supply.feed (Listener.log verbose) supply #[]
    match outcome.result with
    | some roll => ⟨0, describe t roll, .log (outcome.listener.toList.map Entry.logLine)⟩
    | none => ⟨1, [], .complaint Supply.dryMessage⟩

/-- The response to a line of input, if it could be read. -/
def respondToLine (verbose : Bool) (line : Option Text) (supply : Supply) : Response :=
  match line with
  | some text => respond verbose text supply
  | none => ⟨1, [], .complaint noText⟩

/-- A whole run: the lines of the output, the first one after the prompt if there was one, and the
response. -/
def run (args : List String) (input : ByteArray) (supply : Supply) : List Text × Response :=
  let verbose := args.any isVerbose
  match textOfArgs args with
  | some text =>
    let response := respond verbose text supply
    (response.output, response)
  | none =>
    let response := respondToLine verbose (firstLine input) supply
    match response.output with
    | [] => ([prompt], response)
    | first :: rest => ((prompt ++ first) :: rest, response)

end DiceExpr.CommandLine
