import DiceExpr.CommandLine

namespace DiceExpr.CommandLine

/-- The bytes of a stream up to the first line break. -/
partial def readLine (stream : IO.FS.Stream) (line : ByteArray) : IO ByteArray := do
  let byte ← stream.read 1
  if byte.isEmpty || byte.toList.contains 10 then return line
  readLine stream (line ++ byte)

def showReport (r : Report) : List String :=
  [String.ofList r.message,
    "  at 1:" ++ toString (r.start + 1),
    "  | " ++ String.ofList r.source,
    "  | " ++ String.ofList (List.replicate r.start ' ' ++ List.replicate r.length '^') ++ " " ++
      Report.label]

def emit (response : Response) : IO UInt32 := do
  let err ← IO.getStderr
  match response.diagnosis with
  | .log lines => lines.forM fun line => err.putStrLn (String.ofList line)
  | .report r => (showReport r).forM err.putStrLn
  | .complaint line => err.putStrLn line
  response.output.forM fun line => IO.println (String.ofList line)
  return response.code

end DiceExpr.CommandLine

open DiceExpr CommandLine in
def main (args : List String) : IO UInt32 := do
  let verbose := args.any isVerbose
  let seed ← IO.getRandomBytes 8
  let supply := Supply.ofSeed (seed.toList.foldl (fun n byte => n * 256 + byte.toUInt64) 0)
  match textOfArgs args with
  | some text => emit (respond verbose text supply)
  | none =>
    let out ← IO.getStdout
    out.putStr (String.ofList prompt)
    out.flush
    let line ← readLine (← IO.getStdin) .empty
    emit (respondToLine verbose (firstLine line) supply)
