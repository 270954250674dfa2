import Equirec.Cli.Session

/-!
# The program

Reads the files that the arguments name, and writes out the response to them.
-/

namespace Equirec.Cli

/-- the content of a file, or why it cannot be read -/
def contentOf (file : String) : IO (String × Except String String) := do
  try
    return (file, .ok (← IO.FS.readFile file))
  catch
    | .noFileOrDirectory _ _ _ => return (file, .error noSuchFile)
    | e => return (file, .error (toString e))

def filesOf (args : List String) : IO Files := do
  match parse args with
  | .ok invocation =>
    let contents ← invocation.command.files.mapM contentOf
    return fun file => (contents.lookup file).getD (.error noSuchFile)
  | .error _ => return fun _ => .error noSuchFile

end Equirec.Cli

def main (args : List String) : IO UInt32 := do
  let files ← Equirec.Cli.filesOf args
  let stdout ← IO.getStdout
  let response := Equirec.Cli.respond files (← stdout.isTty) args
  stdout.putStr response.output
  (← IO.getStderr).putStr response.errors
  return UInt32.ofNat response.exitCode
