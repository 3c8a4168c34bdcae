import FiberMachine.Text.Split

/-!
# Paths

A path as the list of its components, which slashes separate in its text.
-/

namespace FiberMachine

/-- A path as the list of its components. -/
abbrev Path := List String

namespace Path

/-- The path with slashes between its components. -/
def text (p : Path) : String := "/".intercalate p

def ofText (s : String) : Path := (Text.split '/' s.toList).map String.ofList

/-- Goes on from `p` along the path of the text, or starts anew if that leads from the root. -/
def push (p : Path) (s : String) : Path :=
  if s.toList.head? == some '/' then ofText s else p ++ ofText s

end Path

/-- A file name with an extension. -/
def Finder.withExtension (name extension : String) : String :=
  if extension = "" then name else name ++ "." ++ extension

/-- A file name up to its last dot, unless it starts with that. -/
def Finder.fileStem (name : String) : String :=
  match name.toList.reverse.dropWhile (· != '.') with
  | [] | [_] => name
  | _ :: front => String.ofList front.reverse

/--
Gives the file at the end of the path another extension. Behind the file there may be slashes and
dots, which are dropped. A path that does not end in a file stays as it is.
-/
def Path.setExtension (p : Path) (extension : String) : Path :=
  match p.reverse.dropWhile fun component => component == "" || component == "." with
  | [] => p
  | file :: front =>
    if file = ".." then p
    else front.reverse ++ [Finder.withExtension (Finder.fileStem file) extension]

end FiberMachine
