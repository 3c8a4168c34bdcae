import FiberMachine.Code.Basic
import FiberMachine.LinkError

/-!
# Validation of linked modules

A valid module ends in its body, names every template method, and has no instruction whose operand
or error handler refers to something that does not exist.
-/

namespace FiberMachine

/-- Whether the operand of the instruction `i` of `code` refers to something that exists. -/
def Instruction.operandValid (pool : Array Constant) (code : Code) (i : Instruction) : Bool :=
  let operand := i.operand.toNat
  match i.opcode.operandKind with
  | .none | .slot => true
  | .constant => operand < pool.size
  | .name => match pool[operand]? with
    | some (.string _) => true
    | _ => false
  | .code => match pool[operand]? with
    | some (.code _) => true
    | _ => false
  | .capture => operand < code.captures.length
  | .target => operand ≤ code.instructions.size

/-- Whether the error handler of `i` is within `code` or just past its end. -/
def Instruction.handlerValid (code : Code) (i : Instruction) : Bool :=
  match i.handler with
  | none => true
  | some handler => handler.toNat ≤ code.instructions.size

/-- Checks the instructions from `index` on, the operand of each before its handler. -/
def Code.validateFrom (pool : Array Constant) (code : Code) (index : Nat) :
    List Instruction → Except LinkError Unit
  | [] => .ok ()
  | i :: rest =>
    if !i.operandValid pool code then .error (.invalidOperand index)
    else if !i.handlerValid code then .error (.invalidHandler index)
    else validateFrom pool code (index + 1) rest

def Code.validate (pool : Array Constant) (code : Code) : Except LinkError Unit :=
  code.validateFrom pool 0 code.instructions.toList

/-- Checks template methods: each has a name and valid instructions. -/
def Code.validateMethods (pool : Array Constant) : List Code → Except LinkError Unit
  | [] => .ok ()
  | method :: rest => do
    if method.name.isNone then throw .anonymousMethod
    method.validate pool
    validateMethods pool rest

def Constant.validate (pool : Array Constant) : Constant → Except LinkError Unit
  | .code body => body.validate pool
  | .template t => Code.validateMethods pool t.methods
  | _ => .ok ()

/-- Checks constants in order. -/
def Constant.validateAll (pool : Array Constant) : List Constant → Except LinkError Unit
  | [] => .ok ()
  | constant :: rest => do
    constant.validate pool
    validateAll pool rest

namespace LinkedModule

def validate (m : LinkedModule) : Except LinkError Unit := do
  if m.body?.isNone then throw .missingBody
  Constant.validateAll m.pool m.pool.toList

/-- The module with the given pool, if it is valid. -/
def ofPool (name : String) (pool : Array Constant) : Except LinkError LinkedModule := do
  let m : LinkedModule := { name, pool }
  m.validate
  return m

end LinkedModule

end FiberMachine
