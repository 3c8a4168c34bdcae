import FiberMachine.Dict
import FiberMachine.Finder.Path

/-!
# Workspaces

The files that modules are found in: contents and modification times by path.
-/

namespace FiberMachine

/-- When a file was modified. -/
inductive Stamp where
  /-- At the given second. -/
  | at (seconds : Int)
  /-- While the workspace was in use, which is later than every given second. -/
  | recent
deriving DecidableEq, Inhabited

/-- Whether the second stamp is not earlier than the first. -/
def Stamp.le : Stamp → Stamp → Bool
  | .at a, .at b => a ≤ b
  | .recent, .at _ => false
  | _, .recent => true

inductive Node where
  | file (bytes : List UInt8) (stamp : Stamp)
  | directory (stamp : Stamp)
deriving Inhabited

def Node.stamp : Node → Stamp
  | .file _ stamp => stamp
  | .directory stamp => stamp

structure Workspace where
  /-- The files and directories by the text of their path. -/
  nodes : Dict Node := {}
  /-- How often a source was compiled. -/
  compilations : Nat := 0
deriving Inhabited

namespace Workspace

def node? (w : Workspace) (p : Path) : Option Node := w.nodes.get? p.text

/-- The modification time of what is at `p`. -/
def modified? (w : Workspace) (p : Path) : Option Stamp := (w.node? p).map Node.stamp

/-- The bytes of a file, or why it cannot be read. -/
def read (w : Workspace) (p : Path) : Except String (List UInt8) :=
  match w.node? p with
  | some (.file bytes _) => .ok bytes
  | some (.directory _) => .error "Is a directory (os error 21)"
  | none => .error "No such file or directory (os error 2)"

/-- The text of a file, or why it cannot be read. -/
def readText (w : Workspace) (p : Path) : Except String String := do
  match String.fromUTF8? (← w.read p).toByteArray with
  | some s => return s
  | none => throw "stream did not contain valid UTF-8"

def setNode (w : Workspace) (p : Path) (n : Node) : Workspace :=
  { w with nodes := w.nodes.insert p.text n }

/-- Marks the directory of a new entry at `p` as modified. -/
def touchParent (w : Workspace) (p : Path) : Workspace :=
  match w.node? p, w.node? p.dropLast with
  | none, some (.directory _) => w.setNode p.dropLast (.directory .recent)
  | _, _ => w

/-- Makes the directories along `p`, below those of `base`, that do not exist. -/
def makeDirectories (w : Workspace) (base : Path) : Path → Workspace
  | [] => w
  | part :: rest =>
    let here := base ++ [part]
    let w := match w.node? here with
      | some _ => w
      | none => (w.touchParent here).setNode here (.directory .recent)
    makeDirectories w here rest

/-- Puts a file or directory at `p`, with the directories it needs. -/
def place (w : Workspace) (p : Path) (n : Node) : Workspace :=
  let w := w.makeDirectories [] p.dropLast
  (w.touchParent p).setNode p n

/-- The greatest number of bytes in the name of a file. -/
def nameLimit : Nat := 255

/--
Writes a file next to an existing one. Nothing is written over a directory, or under a name that is
too long.
-/
def write (w : Workspace) (p : Path) (bytes : List UInt8) : Workspace :=
  match w.node? p with
  | some (.directory _) => w
  | _ =>
    if (p.getLastD "").utf8ByteSize ≤ nameLimit then
      (w.touchParent p).setNode p (.file bytes .recent)
    else w

end Workspace

end FiberMachine
