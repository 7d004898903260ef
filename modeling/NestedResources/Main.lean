import NestedResources.Cli.Run

/-! The command line: reads the files that a call names, runs it, and prints what it printed. -/
open NestedResources NestedResources.Cli

/-- The text of a file, if it can be read. -/
def readText? (file : String) : IO (Option String) := do
  try pure (some (← IO.FS.readFile file))
  catch _ => pure none

/-- The environment, as far as a text refers to it. -/
def environmentFor (text : String) : IO Environment := do
  let names := "REDIS_URL" :: Environment.names text.toList
  let values ← names.mapM fun name => do pure ((← IO.getEnv name).map (name, ·))
  pure (.ofList (values.filterMap id))

def main (args : List String) : IO UInt32 := do
  let result ← match Invocation.ofArguments? args with
    | none => pure usageResult
    | some call => do
      let settingsFile := call.config.getD ((← IO.getEnv "NESTQL_CONFIG").getD "nestql.toml")
      let settings ← readText? settingsFile
      let body ← match call.bodyFile with
        | some file => readText? file
        | none => pure none
      let env ← environmentFor (settings.getD "")
      pure (call.result { settingsFile, settings, body, env })
  (← IO.getStdout).putStr result.transcript.stdout
  (← IO.getStderr).putStr result.transcript.stderr
  pure result.code.toUInt32
