import FiberMachine.Code.Signature
import FiberMachine.Double
import FiberMachine.Opcode

/-!
# Linked code

Instructions with resolved operands, code objects, constants, and the linked module: a pool of
constants whose last entry is the module's top-level code.
-/

namespace FiberMachine

/-- A line and a column of a source text, zero when unknown. -/
structure SourcePosition where
  line : UInt32 := 0
  column : UInt32 := 0
deriving DecidableEq, Inhabited

/-- The source that an instruction was generated from. -/
structure SourceRange where
  start : SourcePosition := {}
  stop : SourcePosition := {}
deriving DecidableEq, Inhabited

/-- Where a closure finds a captured variable when it is instantiated. -/
inductive Capture where
  /-- A local slot of the enclosing frame. -/
  | slot (index : UInt32)
  /-- A variable that the enclosing function captured itself. -/
  | outer (index : UInt32)
deriving DecidableEq, Inhabited

structure Instruction where
  opcode : Opcode
  /-- The operand, zero for an opcode without one. -/
  operand : UInt32 := 0
  /-- The instruction that handles an error raised here. -/
  handler : Option UInt32 := none
  range : SourceRange := {}
deriving DecidableEq, Inhabited

/-- A linked function body. -/
structure Code where
  name : Option String
  signature : Signature
  captures : List Capture
  instructions : Array Instruction
deriving DecidableEq, Inhabited

/-- The source range of the instruction at `index`. -/
def Code.sourceRange? (code : Code) (index : Nat) : Option SourceRange :=
  code.instructions[index]?.map (·.range)

/-- A linked template: a name, whether its instances are sealed, and their methods. -/
structure TemplateCode where
  name : String
  sealed : Bool
  methods : List Code
deriving DecidableEq, Inhabited

/-- An entry of a constant pool. -/
inductive Constant where
  | bool (value : Bool)
  | int (value : Int64)
  | float (value : Double)
  | string (value : String)
  | code (value : Code)
  | template (value : TemplateCode)
deriving DecidableEq, Inhabited

/-- A named constant pool. -/
structure LinkedModule where
  name : String
  pool : Array Constant
deriving DecidableEq, Inhabited

namespace LinkedModule

/-- The top-level code, which is the last entry of the pool. -/
def body? (m : LinkedModule) : Option Code :=
  match m.pool.back? with
  | some (.code code) => some code
  | _ => none

/-- The same pool under another name. -/
def renamed (m : LinkedModule) (name : String) : LinkedModule := { m with name }

end LinkedModule

/-- Equality of constants with floats compared as numbers, so that no NaN matches itself. -/
def Constant.equals : Constant → Constant → Bool
  | .float a, .float b => a.equals b
  | a, b => decide (a = b)

/-- Equality of modules with floats compared as numbers. -/
def LinkedModule.equals (m n : LinkedModule) : Bool :=
  m.name == n.name && m.pool.size == n.pool.size &&
    (m.pool.toList.zip n.pool.toList).all fun (a, b) => a.equals b

end FiberMachine
