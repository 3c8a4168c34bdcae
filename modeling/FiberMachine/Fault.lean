import FiberMachine.FinderError
import FiberMachine.Value

/-!
# Faults

What can go wrong while an instruction executes. Running out of budget or time and link errors are
fatal; every other fault is raised as an error envelope that guest code can handle.
-/

namespace FiberMachine

/-- The category of a raised error. -/
inductive Category where
  | thrown | binding | attribute | operator | module | stack
deriving DecidableEq, Inhabited

def Category.name : Category → String
  | .thrown => "thrown"
  | .binding => "binding"
  | .attribute => "attribute"
  | .operator => "operator"
  | .module => "module"
  | .stack => "stack"

inductive Fault where
  /-- The budget is used up. -/
  | noBudget
  /-- The deadline has passed. -/
  | timeout
  /-- A module could not be linked. -/
  | link (error : LinkError)
  /-- A value was raised. -/
  | exception (value : Value)
  /-- The number of positional arguments does not match the signature. -/
  | argumentCount
  /-- A keyword argument names no parameter. -/
  | unknownKeyword
  /-- The value called is not callable. -/
  | notInvokable
  /-- The attribute does not exist. -/
  | unknownAttribute
  /-- The attribute has not been assigned yet. -/
  | uninitialized
  /-- The attribute is not exported to the calling module. -/
  | forbidden
  /-- The const attribute was assigned before. -/
  | immutable
  /-- The attribute is locked. -/
  | locked
  /-- The object or array is sealed. -/
  | sealed
  /-- The index is outside the array. -/
  | outOfBounds
  /-- The operation does not support its operands. -/
  | unsupported
  /-- The divisor is zero. -/
  | dividedByZero
  /-- An integer result does not fit. -/
  | overflow
  /-- There is no module of that name. -/
  | moduleNotFound
  /-- The module's initialization failed. -/
  | moduleFailed
  /-- The name is not a module name. -/
  | invalidModuleName
  /-- The module was found and could not be read or compiled. -/
  | moduleUnavailable (error : FinderError)
  /-- Fibers wait for each other's modules. -/
  | circularImport
  /-- The call exceeds the depth limit. -/
  | stackOverflow
  /-- The instruction refers to something that does not exist. -/
  | invalidInstruction
  /-- A reference leads nowhere. -/
  | valueFreed
deriving DecidableEq, Inhabited

namespace Fault

/-- Whether guest code cannot handle the fault. -/
def isFatal : Fault → Bool
  | noBudget | timeout | link _ => true
  | _ => false

/-- The name of the fault, which is the value of the envelope it is raised as. -/
def symbol : Fault → String
  | noBudget => "no_budget"
  | timeout => "timeout"
  | link _ => "link"
  | exception _ => "exception"
  | argumentCount => "args"
  | unknownKeyword => "unknown_keyword"
  | notInvokable => "not_invokable"
  | unknownAttribute => "undefined"
  | uninitialized => "uninitialized"
  | forbidden => "forbidden"
  | immutable => "immutable"
  | locked => "locked"
  | sealed => "sealed"
  | outOfBounds => "out_of_bounds"
  | unsupported => "unsupported"
  | dividedByZero => "divided_by_zero"
  | overflow => "overflow"
  | moduleNotFound => "module_not_found"
  | moduleFailed => "module_failed"
  | invalidModuleName => "invalid_module_name"
  | moduleUnavailable _ => "module_unavailable"
  | circularImport => "circular_import"
  | stackOverflow => "stack_overflow"
  | invalidInstruction => "invalid_instruction"
  | valueFreed => "value_freed"

/-- The category of the envelope that the fault is raised as. -/
def category : Fault → Category
  | noBudget | timeout | link _ | exception _ => .thrown
  | argumentCount | unknownKeyword | notInvokable => .binding
  | unknownAttribute | uninitialized | forbidden | immutable | locked | sealed | outOfBounds
  | valueFreed => .attribute
  | unsupported | dividedByZero | overflow | invalidInstruction => .operator
  | moduleNotFound | moduleFailed | invalidModuleName | moduleUnavailable _ | circularImport =>
    .module
  | stackOverflow => .stack

/-- The fault in words. -/
def message : Fault → String
  | noBudget => "budget exhausted"
  | timeout => "timed out"
  | link error => error.message
  | exception _ => "a value was thrown"
  | argumentCount => "wrong number of arguments"
  | unknownKeyword => "unexpected keyword argument"
  | notInvokable => "value is not callable"
  | unknownAttribute => "undefined attribute"
  | uninitialized => "attribute read before it was initialized"
  | forbidden => "attribute is not exported"
  | immutable => "const attribute already assigned"
  | locked => "attribute is locked"
  | sealed => "value is sealed"
  | outOfBounds => "index out of bounds"
  | unsupported => "unsupported operation"
  | dividedByZero => "divided by zero"
  | overflow => "integer overflow"
  | moduleNotFound => "module not found"
  | moduleFailed => "module failed to initialize"
  | invalidModuleName => "invalid module name"
  | moduleUnavailable error => error.message
  | circularImport => "circular import between fibers"
  | stackOverflow => "maximum call depth exceeded"
  | invalidInstruction => "invalid instruction"
  | valueFreed => "value was freed"

/-- The value of the envelope that the fault is raised as. -/
def raised : Fault → Value
  | exception value => value
  | fault => .string fault.symbol

/--
The fault with the given symbol. The faults that hold something hold `thrown`, an error of size,
and a missing compiler for a module `m`.
-/
def ofSymbol? (thrown : Value) (name : String) : Option Fault :=
  [noBudget, timeout, link .tooLarge, exception thrown, argumentCount, unknownKeyword, notInvokable,
    unknownAttribute, uninitialized, forbidden, immutable, locked, sealed, outOfBounds, unsupported,
    dividedByZero, overflow, moduleNotFound, moduleFailed, invalidModuleName,
    moduleUnavailable (.noCompiler "m"), circularImport, stackOverflow, invalidInstruction,
    valueFreed].find? (·.symbol == name)

end Fault

/-- Why an execution stopped without a value. -/
inductive Failure where
  /-- The budget is used up; the execution can be resumed. -/
  | noBudget
  /-- The deadline has passed; the execution can be resumed. -/
  | timeout
  /-- An error envelope was raised and not handled. -/
  | exception (envelope : Value)
  /-- A module could not be linked. -/
  | link (error : LinkError)
deriving DecidableEq, Inhabited

namespace Failure

/-- The fault that a failure is to a native function. -/
def fault : Failure → Fault
  | noBudget => .noBudget
  | timeout => .timeout
  | exception envelope => .exception envelope
  | link error => .link error

/-- The name of the kind of failure. -/
def kind : Failure → String
  | noBudget => "no budget"
  | timeout => "timeout"
  | exception _ => "exception"
  | link error => error.kind

/-- The failure in words. -/
def message : Failure → String
  | noBudget => "execution budget exhausted"
  | timeout => "execution timed out"
  | exception envelope => "unhandled error: " ++ envelope.typeName ++ "(..)"
  | link error => error.message

end Failure

end FiberMachine
