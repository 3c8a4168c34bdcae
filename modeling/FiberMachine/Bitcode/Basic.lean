import FiberMachine.Code.Basic

/-!
# Bitcode

Functions before linking. Their operations may mark labels, which jumps and try regions name, and
carry their literals, names and nested functions in place.
-/

namespace FiberMachine.Bitcode

/-- A position of a function that jumps and try regions can name. -/
abbrev Label := UInt32

/-- Operations from `start` up to, not including, `stop`, whose errors are handled at `handler`. -/
structure TryRegion where
  start : Label
  stop : Label
  handler : Label
deriving DecidableEq, Inhabited

mutual

/-- An operation: a label mark, or an opcode with an operand of the kind that it takes. -/
inductive Op where
  /-- Marks a label and occupies no instruction. -/
  | label (label : Label)
  | plain (opcode : Opcode) (kind : opcode.operandKind = .none)
  | slot (opcode : Opcode) (kind : opcode.operandKind = .slot) (slot : UInt32)
  | capture (opcode : Opcode) (kind : opcode.operandKind = .capture) (index : UInt32)
  | name (opcode : Opcode) (kind : opcode.operandKind = .name) (name : String)
  | jump (opcode : Opcode) (kind : opcode.operandKind = .target) (target : Label)
  /-- Loads a literal. -/
  | constant (literal : Literal)
  /-- Instantiates a closure. -/
  | closure (function : Function)

/-- A literal operand. -/
inductive Literal where
  | bool (value : Bool)
  | int (value : Int64)
  | float (value : Double)
  | string (value : String)
  | function (value : Function)
  | template (value : Template)

/-- An unlinked function body. `ranges` lists the source ranges of the operations and labels. -/
inductive Function where
  | mk (name : Option String) (signature : Signature) (captures : List Capture) (ops : List Op)
      (ranges : List SourceRange) (regions : List TryRegion)

/-- An unlinked template. -/
inductive Template where
  | mk (name : String) (sealed : Bool) (methods : List Function)

end

namespace Function

def name : Function → Option String
  | ⟨name, _, _, _, _, _⟩ => name

def signature : Function → Signature
  | ⟨_, signature, _, _, _, _⟩ => signature

def captures : Function → List Capture
  | ⟨_, _, captures, _, _, _⟩ => captures

def ops : Function → List Op
  | ⟨_, _, _, ops, _, _⟩ => ops

def ranges : Function → List SourceRange
  | ⟨_, _, _, _, ranges, _⟩ => ranges

def regions : Function → List TryRegion
  | ⟨_, _, _, _, _, regions⟩ => regions

/-- The function without operations. -/
def empty (name : Option String) : Function := ⟨name, {}, [], [], [], []⟩

instance : Inhabited Function := ⟨empty none⟩

end Function

/-- An unlinked module: a name and the function that initializes it. -/
structure Module where
  name : String
  body : Function
deriving Inhabited

/-- The label that an operation marks. -/
def Op.marked? : Op → Option Label
  | .label l => some l
  | _ => none

end FiberMachine.Bitcode
