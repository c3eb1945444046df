import HostedLisp.Failure
import HostedLisp.Text.Lines
import HostedLisp.Text.Quoted

namespace HostedLisp

open Text

/-- A path: the slashes that make it absolute, and its parts. -/
structure Path where
  root : String
  parts : List String
deriving Repr, DecidableEq

namespace Path

/-- The parts of a text between slashes. -/
def partsOf : List Char → List (List Char)
  | [] => [[]]
  | '/' :: rest => [] :: partsOf rest
  | c :: rest =>
      match partsOf rest with
      | part :: parts => (c :: part) :: parts
      | [] => [[c]]

/-- The root of a path that begins with slashes; two of them are different from one or more. -/
def rootOf (s : List Char) : String :=
  match (s.takeWhile (· == '/')).length with
  | 0 => ""
  | 2 => "//"
  | _ => "/"

def ofText (s : String) : Path :=
  let parts := (partsOf s.toList).map String.ofList
  ⟨rootOf s.toList, parts.filter fun p => !(p = "" || p = ".")⟩

def text (p : Path) : String :=
  if p.root.isEmpty && p.parts.isEmpty then "." else p.root ++ "/".intercalate p.parts

/-- The suffix of the last part, without its point; a point at an end of the part begins none. -/
def suffix (p : Path) : String :=
  match p.parts.getLast? with
  | none => ""
  | some name =>
      let tail := name.toList.reverse.takeWhile (· != '.')
      if tail.isEmpty || name.length ≤ tail.length + 1 then "" else String.ofList tail.reverse

end Path

/-- A folder of text files. -/
abbrev Files := List (Path × String)

namespace Files

/-- The files of names and texts; a later text of a file replaces an earlier one. -/
def ofList (files : List (String × String)) : Files :=
  files.reverse.map fun f => (.ofText f.1, f.2)

/-- The failure of reading a file that does not exist. -/
def missing (p : Path) : Failure :=
  .foreign "FileNotFoundError" ("[Errno 2] No such file or directory: " ++ quoted p.text)

def isFolder (p : Path) : Failure :=
  .foreign "IsADirectoryError" ("[Errno 21] Is a directory: " ++ quoted p.text)

/-- The text of a file, with each line end as a newline. -/
def read (files : Files) (p : Path) : Except Failure (List Char) :=
  match files.lookup p with
  | some text => .ok (normalizeNewlines text.toList)
  | none => .error (if p.parts.isEmpty then isFolder p else missing p)

end Files

end HostedLisp
