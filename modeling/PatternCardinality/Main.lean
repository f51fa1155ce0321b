import PatternCardinality.CommandLine.Session

/-! The program. It reads the files that a command names and prints what comes of it. -/

namespace PatternCardinality.CommandLine

def readFile (path : String) : IO (Except FileFault String) := do
  try
    return .ok (← IO.FS.readFile path)
  catch
    | .noFileOrDirectory .. => return .error .missing
    | .inappropriateType .. => return .error .directory
    | _ => return .error .notDirectory

def readFiles (paths : List String) : IO Files := do
  let contents ← paths.mapM (fun path => do return (path, ← readFile path))
  return fun path => (contents.lookup path).getD (.error .missing)

def usage : String :=
  "Usage: estimate PATTERN, subqueries PATTERN or stats, each with --stats FILE; version"

end PatternCardinality.CommandLine

open PatternCardinality CommandLine in
def main (words : List String) : IO UInt32 := do
  match Command.ofWords words with
  | .error .help =>
    IO.println usage
    return 0
  | .error .version =>
    IO.println versionText
    return 0
  | .error .misuse =>
    IO.eprintln usage
    return 2
  | .ok command =>
    match run (← readFiles command.paths) command with
    | .ok text =>
      IO.println text
      return 0
    | .error trouble =>
      IO.eprintln ("Error: " ++ trouble.message)
      return 1
