import FiberMachine.Artifact.Decode
import FiberMachine.Bitcode.Link
import FiberMachine.Finder.Workspace
import FiberMachine.FinderError
import FiberMachine.ModuleName

/-!
# Finding modules

A finder looks for a module in its directories in order. In a directory, an artifact that is not
older than the source is read; otherwise, or when it cannot be read, the source is compiled and the
artifact is written for the next time.
-/

namespace FiberMachine

/-- Compiles the source text of a named module. -/
abbrev Compiler := String → String → Except String Bitcode.Module

structure Finder where
  standard : List Path := []
  search : List Path := []
  working : Path := []
  sourceExtension : String := "rf"
  artifactExtension : String := "rfc"
  compiler : Option Compiler := none
  /-- What module names are made of. -/
  alphabet : Text.Alphabet := .unicode
  /-- Whether artifacts are written. -/
  writesArtifacts : Bool := true
deriving Inhabited

namespace Finder

/-- The directories in the order in which they are searched. -/
def directories (f : Finder) : List Path := f.standard ++ f.search ++ [f.working]

/-- Where the module `name` is in a directory: along the parts of its name. -/
def modulePath (directory : Path) (name extension : String) : Path :=
  ((ModuleName.parts name).foldl Path.push directory).setExtension extension

/-- Reads the artifact at `p`. -/
def readArtifact (w : Workspace) (name : String) (p : Path) : Except FinderError LinkedModule :=
  match w.read p with
  | .error reason => .error (.unreadable p.text reason)
  | .ok bytes =>
    match Artifact.decode name bytes with
    | .ok m => .ok m
    | .error e => .error (.link p.text e)

/-- Writes the artifact of a module if it can be encoded. -/
def writeArtifact (f : Finder) (w : Workspace) (p : Path) (m : LinkedModule) : Workspace :=
  if f.writesArtifacts then
    match Artifact.encode m with
    | .ok bytes => w.write p bytes
    | .error _ => w
  else w

/-- Compiles the source at `source` and writes its artifact. -/
def compileAt (f : Finder) (w : Workspace) (name : String) (source artifact : Path) :
    Except FinderError LinkedModule × Workspace :=
  match f.compiler with
  | none => (.error (.noCompiler name), w)
  | some compiler =>
    match w.readText source with
    | .error reason => (.error (.unreadable source.text reason), w)
    | .ok text =>
      let w := { w with compilations := w.compilations + 1 }
      match compiler name text with
      | .error reason => (.error (.compile name reason), w)
      | .ok bitcode =>
        match bitcode.link with
        | .error e => (.error (.link source.text e), w)
        | .ok m =>
          let m := m.renamed name
          (.ok m, f.writeArtifact w artifact m)

/-- Looks for the module in one directory. -/
def resolveIn (f : Finder) (w : Workspace) (name : String) (directory : Path) :
    Except FinderError (Option LinkedModule) × Workspace :=
  let source := modulePath directory name f.sourceExtension
  let artifact := modulePath directory name f.artifactExtension
  let compiled := fun _ : Unit =>
    let (result, w) := f.compileAt w name source artifact
    (result.map some, w)
  match w.modified? source, w.modified? artifact with
  | none, none => (.ok none, w)
  | none, some _ => ((readArtifact w name artifact).map some, w)
  | some _, none => compiled ()
  | some sourceTime, some artifactTime =>
    if sourceTime.le artifactTime then
      match readArtifact w name artifact with
      | .ok m => (.ok (some m), w)
      | .error _ => compiled ()
    else compiled ()

/-- The module of the first directory that has it. -/
def resolveAmong (f : Finder) (name : String) :
    Workspace → List Path → Except FinderError (Option LinkedModule) × Workspace
  | w, [] => (.ok none, w)
  | w, directory :: rest =>
    match f.resolveIn w name directory with
    | (.ok none, w) => resolveAmong f name w rest
    | found => found

/-- Locates and links the module `name`; none if no directory has it. -/
def resolve (f : Finder) (w : Workspace) (name : String) :
    Except FinderError (Option LinkedModule) × Workspace :=
  if ModuleName.isValid f.alphabet name then f.resolveAmong name w f.directories
  else (.error (.invalidName name), w)

end Finder

end FiberMachine
