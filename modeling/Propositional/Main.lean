/-
The program. Formulas given as arguments are evaluated at once; otherwise lines
are read from the standard input and answered one by one.
-/
import Propositional.CommandLine

namespace Propositional.CommandLine

/-- The variables that hold settings, as far as they are set. -/
def readEnvironment : IO Environment := do
  let names := ["PLOGIC_STRICT_MATCH", "PLOGIC_DISPLAY", "PLOGIC_LOG_LEVEL"]
  let held ← names.filterMapM fun name => do
    return (← IO.getEnv name).map fun value => (name, value)
  return ⟨held⟩

/-- Answers the lines of the standard input until one quits or there are no more. -/
partial def readLines (env : Environment) (session : Session) : IO UInt32 := do
  let out ← IO.getStdout
  out.putStr prompt
  out.flush
  let line ← (← IO.getStdin).getLine
  if line.isEmpty then
    out.putStrLn ""
    return 0
  match Repl.respond session line (limit env) with
  | .error fault =>
    IO.eprintln fault.message
    return 1
  | .ok response =>
    IO.eprint (logText env response.events)
    match response.shown with
    | none => return 0
    | some shown =>
      out.putStr (Repl.printed shown)
      readLines env response.session

end Propositional.CommandLine

open Propositional

def main (arguments : List String) : IO UInt32 := do
  let env ← CommandLine.readEnvironment
  match CommandLine.request arguments with
  | .evaluate options =>
    if options.formulas.isEmpty then
      IO.println Repl.banner
      IO.println Repl.usage
      CommandLine.readLines env (CommandLine.initialSession options env)
    else
      match CommandLine.transcript options env "" with
      | .error fault =>
        IO.eprintln fault.message
        return 1
      | .ok done =>
        IO.eprint (CommandLine.logText env done.events)
        IO.print done.output
        return 0
  | .help =>
    IO.println Repl.usage
    return 0
  | .rejected =>
    IO.eprintln Repl.usage
    return 2
