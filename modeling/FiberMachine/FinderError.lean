import FiberMachine.LinkError

/-!
# Finder errors

Why a module that was looked for on disk could not be prepared.
-/

namespace FiberMachine

inductive FinderError where
  | invalidName (name : String)
  /-- A file could not be read. -/
  | unreadable (path : String) (reason : String)
  /-- There is a source file and no compiler. -/
  | noCompiler (name : String)
  /-- The compiler rejected the source. -/
  | compile (name : String) (reason : String)
  /-- The compiled source or the artifact could not be linked. -/
  | link (path : String) (error : LinkError)
deriving DecidableEq, Inhabited

namespace FinderError

/-- The name of the kind of error. -/
def kind : FinderError → String
  | invalidName _ => "invalid module name"
  | unreadable _ _ => "io"
  | noCompiler _ => "no compiler"
  | compile _ _ => "compile"
  | link _ _ => "link"

/-- The error in words. -/
def message : FinderError → String
  | invalidName name => "invalid module name `" ++ name ++ "`"
  | unreadable path reason => "error reading " ++ path ++ ": " ++ reason
  | noCompiler name => "no compiler is configured to compile `" ++ name ++ "`"
  | compile name reason => "error compiling `" ++ name ++ "`: " ++ reason
  | link path error => "error linking " ++ path ++ ": " ++ error.message

end FinderError

end FiberMachine
