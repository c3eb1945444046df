import HostedLisp.Console
import HostedLisp.Host.Sample

namespace HostedLisp.Main

open Console
open scoped Sample

/-- The text of a file, if it can be read. -/
def fileText? (name : String) : IO (Option String) := do
  try
    return some (← IO.FS.readFile name)
  catch _ =>
    return none

def filesOf (names : List String) : IO Files := do
  let files ← names.filterMapM fun name => do
    return (← fileText? name).map fun text => (name, text)
  return Files.ofList files

/-- Writes to both channels. -/
def write (out err : String) : IO Unit := do
  IO.print out
  (← IO.getStdout).flush
  IO.eprint err

/-- The status of an end. A failure is written down first. -/
def statusOf : Exit → IO UInt32
  | .status code => return UInt32.ofNat code
  | .failure f => do
      IO.eprintln (f.kind ++ ": " ++ f.message)
      return 1

/-- Answers lines until the dialogue or the input ends. -/
partial def converse (input : IO.FS.Stream) (r : Runner) : IO Unit := do
  write prompt ""
  let line ← input.getLine
  if line.isEmpty then write farewell ""
  else
    let (reply, r) := answer r line.toList
    write reply.out reply.err
    if !reply.ends then converse input r

end HostedLisp.Main

open HostedLisp HostedLisp.Console HostedLisp.Main in
open scoped HostedLisp.Sample in
/-- Runs a script file, or a dialogue when the arguments name none. -/
def main (arguments : List String) : IO UInt32 := do
  match Options.ofArguments? arguments with
  | none =>
      write "" usageText
      return 2
  | some options =>
      let files ← filesOf (options.globals.toList ++ options.script.toList)
      match options.script with
      | some script =>
          match runner Builtin.catalogue files options.globals with
          | .error f => statusOf (.failure f)
          | .ok r =>
              let t := runFile r files script
              write t.out t.err
              statusOf t.exit
      | none =>
          write banner ""
          match runner Builtin.catalogue files options.globals with
          | .error f => statusOf (.failure f)
          | .ok r =>
              converse (← IO.getStdin) r
              return 0
