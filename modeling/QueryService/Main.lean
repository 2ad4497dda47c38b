import QueryService.Checker

/-!
# The command

The checker as a command: it reads the files that a run may ask for, and prints what the run answers.
-/

namespace QueryService.Checker

def bytesOf (text : String) : Bytes := text.toUTF8.toList

/-- The content of a file, if it can be read. -/
def content? (path : String) : IO (Option Bytes) := do
  try
    return some (← IO.FS.readBinFile path).toList
  catch _ =>
    return none

end QueryService.Checker

open QueryService.Checker in
def main (arguments : List String) : IO UInt32 := do
  let settingsPath ← IO.getEnv "SYNDRQL_CONFIG"
  let paths := arguments ++ settingsPath.toList
  let files ← paths.mapM fun path => return (bytesOf path, ← content? path)
  let outcome := run
    { arguments := arguments.map bytesOf
      settingsPath := settingsPath.map bytesOf
      content := fun path => (files.lookup path).join }
  (← IO.getStdout).write ⟨outcome.stdout.toArray⟩
  (← IO.getStderr).write ⟨outcome.stderr.toArray⟩
  return outcome.exitCode.toUInt32
