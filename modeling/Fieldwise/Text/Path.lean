/-!
# Paths

Names of files within directories, as text with slashes. The functions look at the text alone.
-/

namespace Fieldwise.Path

/-- The directory that a file is in: everything before the last slash, if there is one. -/
def directory (path : String) : String :=
  let cs := path.toList.reverse.dropWhile (· != '/')
  match cs.dropWhile (· == '/') with
  | [] => if cs.isEmpty then "" else "/"
  | rest => String.ofList rest.reverse

/-- A file in a directory. A file with an absolute path is in no other directory. -/
def join (dir file : String) : String :=
  if file.startsWith "/" || dir.isEmpty then file
  else if dir.endsWith "/" then dir ++ file
  else dir ++ "/" ++ file

/-- Adds a step to the steps of a path, innermost first. -/
def step (steps : List String) (part : String) : List String :=
  if part.isEmpty || part == "." then steps
  else if part == ".." then
    match steps with
    | s :: rest => if s == ".." then part :: steps else rest
    | [] => [part]
  else part :: steps

/-- The shortest path to the same file. -/
def normalize (path : String) : String :=
  let steps := (path.splitOn "/").foldl step []
  (if path.startsWith "/" then "/" else "") ++ "/".intercalate steps.reverse

end Fieldwise.Path
