import HostedLisp.Globals
import HostedLisp.Host.Builtin
import HostedLisp.Host.Reflection
import HostedLisp.Primitive.Library
import HostedLisp.Primitive.Standard
import HostedLisp.Script

/-!
The command line. A script file is run and its last value printed; without one, lines are read
and answered one by one until the word that ends the dialogue or the end of the input.
-/

namespace HostedLisp.Console

open Text

/-- How a run of the program ends: with a status, or by a failure that nothing handles. -/
inductive Exit where
  | status (code : Nat)
  | failure (cause : Failure)
deriving Repr, DecidableEq

/-- What a run of the program writes on its two channels, and how it ends. -/
structure Transcript where
  out : String
  err : String
  exit : Exit
deriving Repr, DecidableEq

/-- What the arguments ask for: a file of bindings and a script, both optional. -/
structure Options where
  globals : Option String
  script : Option String
deriving Repr, DecidableEq

/-- The argument before a file of bindings. -/
def globalsFlag : String := "--globals"

/-- The argument after the first occurrence of a flag, with the arguments that are left; nothing
follows a flag at the end. -/
def extract (flag : String) : List String → Option (Option String × List String)
  | [] => some (none, [])
  | a :: rest =>
      if a = flag then
        match rest with
        | file :: rest => some (some file, rest)
        | [] => none
      else (extract flag rest).map fun r => (r.1, a :: r.2)

/-- The options of arguments, unless the file of bindings is missing. A script is the first
argument left, if it does not begin like a flag. -/
def Options.ofArguments? (arguments : List String) : Option Options :=
  (extract globalsFlag arguments).map fun (globals, rest) =>
    ⟨globals, rest.head?.filter fun a => a.toList.head? != some '-'⟩

/-- The complaint about a missing file of bindings. -/
def usageText : String := "Error: --globals requires a file argument\n"

/-- The lines that begin a dialogue. -/
def banner : String := "MiniLISP REPL v0.1\nType 'exit' or press Ctrl+D to quit.\n"

/-- What stands before each line of input. -/
def prompt : String := ">> "

/-- What ends a dialogue at the end of the input. -/
def farewell : String := "\nExiting.\n"

def endWord : String := "exit"

variable [HostClasses]

/-- What the command line evaluates with: the members of values, and the library. No types are
registered, and no modules can be imported. -/
def setting (c : Catalogue) : Setting :=
  ⟨(Reflection.mk c [] false false).host, Primitive.standard ++ Primitive.library c⟩

/-- The runner of the command line, with the bindings of a file. -/
def runner (c : Catalogue) (files : Files) (globals : Option String) : Except Failure Runner := do
  let r := Runner.start (setting c) .empty
  match globals with
  | some name => r.bindAll (← Globals.load files name)
  | none => return r

/-- The answer to a line: what is written on the two channels, and whether the dialogue ends. -/
structure Reply where
  out : String
  err : String
  ends : Bool
deriving Repr, DecidableEq

/-- The line that prints a value; null is not printed. -/
def valueLine (v : Value) : Except Failure String :=
  if v.isNull then .ok "" else v.source?.map (· ++ "\n")

/-- The reply that reports a failure which the runner does not handle itself. -/
def complaint (f : Failure) : Reply := ⟨"", "Error: " ++ f.message ++ "\n", false⟩

/-- Answers a line. Blanks around it do not count, and an empty line has no answer. -/
def answer (r : Runner) (line : List Char) : Reply × Runner :=
  let source := String.ofList (trim line)
  if source.isEmpty then (⟨"", "", false⟩, r)
  else if source = endWord then (⟨"", "", true⟩, r)
  else
    let (result, r) := r.handleScript source
    match result with
    | .error f => (complaint f, r)
    | .ok (.success v) =>
        match valueLine v with
        | .ok text => (⟨text, "", false⟩, r)
        | .error f => (complaint f, r)
    | .ok report => (⟨"", report.errorReport ++ "\n", false⟩, r)

/-- The dialogue over the lines of the input. -/
def dialogue : Runner → List (List Char) → Transcript
  | _, [] => ⟨prompt ++ farewell, "", .status 0⟩
  | r, line :: lines =>
      let (reply, r) := answer r line
      if reply.ends then ⟨prompt ++ reply.out, reply.err, .status 0⟩
      else
        let t := dialogue r lines
        ⟨prompt ++ reply.out ++ t.out, reply.err ++ t.err, t.exit⟩

/-- Runs a script file. A file that does not exist and a failed script end with status one. -/
def runFile (r : Runner) (files : Files) (name : String) : Transcript :=
  let p := Path.ofText name
  match files.read p with
  | .error f =>
      if f = Files.missing p then ⟨"", "Error: file not found: " ++ name ++ "\n", .status 1⟩
      else ⟨"", "", .failure f⟩
  | .ok source =>
      match (r.handleScript (String.ofList source)).1 with
      | .error f => ⟨"", "", .failure f⟩
      | .ok (.success v) =>
          match valueLine v with
          | .ok text => ⟨text, "", .status 0⟩
          | .error f => ⟨"", "", .failure f⟩
      | .ok report => ⟨"", report.errorReport ++ "\n", .status 1⟩

/-- A run of the program over the members of a catalogue, with its arguments, the files it can
read, and its input. -/
def runOver (c : Catalogue) (arguments : List String) (files : Files) (input : List Char) :
    Transcript :=
  match Options.ofArguments? arguments with
  | none => ⟨"", usageText, .status 2⟩
  | some ⟨globals, some script⟩ =>
      match runner c files globals with
      | .error f => ⟨"", "", .failure f⟩
      | .ok r => runFile r files script
  | some ⟨globals, none⟩ =>
      match runner c files globals with
      | .error f => ⟨banner, "", .failure f⟩
      | .ok r =>
          let t := dialogue r (linesWithEnds input)
          ⟨banner ++ t.out, t.err, t.exit⟩

/-- A run over the members of plain values. -/
def run : List String → Files → List Char → Transcript := runOver Builtin.catalogue

end HostedLisp.Console
