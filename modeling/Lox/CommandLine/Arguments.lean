/-! The arguments of the command line.

A command is `tokenize FILE`, `run FILE`, or `run` for a conversation. The flag `--log` may stand
once before the command's name and once after it, and changes nothing that a command prints. After
`--` every argument is a file name. -/

namespace Lox

inductive Command where
  | tokenize (path : String)
  | run (path : String)
  | converse
  deriving DecidableEq, Repr

namespace Command

/-- The file names among the arguments after a command's name; `none` for a misused option. -/
def fileNames? (logged : Bool) : List String → Option (List String)
  | [] => some []
  | argument :: rest =>
    if argument = "--" then some rest
    else if argument = "--log" then if logged then none else fileNames? true rest
    else if argument.startsWith "-" && argument != "-" then none
    else (fileNames? logged rest).map (argument :: ·)

def ofFileNames? (name : String) (files : List String) : Option Command :=
  if files.contains "" then none else
  match name, files with
  | "tokenize", [path] => some (.tokenize path)
  | "run", [path] => some (.run path)
  | "run", [] => some .converse
  | _, _ => none

def ofName? : List String → Option Command
  | [] => none
  | name :: rest => (fileNames? false rest).bind (ofFileNames? name)

/-- The command that the arguments spell; `none` if they spell none. -/
def parse? : List String → Option Command
  | "--log" :: rest => ofName? rest
  | arguments => ofName? arguments

end Command

end Lox
