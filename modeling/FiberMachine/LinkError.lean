import FiberMachine.Version

/-!
# Link errors

Why bitcode could not be linked, or an artifact could not be decoded.
-/

namespace FiberMachine

inductive LinkError where
  /-- A jump or a try region names a label that is not marked. -/
  | unresolvedLabel (label : UInt32)
  /-- A label is marked more than once in one function. -/
  | duplicateLabel (label : UInt32)
  /-- A template method has no name. -/
  | anonymousMethod
  /-- A template method captures variables. -/
  | capturingMethod (name : String)
  /-- A count, length or index does not fit its encoding. -/
  | tooLarge
  /-- The last entry of the pool is not code. -/
  | missingBody
  /-- The operand of the instruction refers to nothing. -/
  | invalidOperand (instruction : Nat)
  /-- The error handler of the instruction is out of bounds. -/
  | invalidHandler (instruction : Nat)
  /-- The artifact has an incompatible version. -/
  | versionMismatch (version : Version)
  /-- The artifact ends early. -/
  | unexpectedEof
  /-- A constant has an unknown tag. -/
  | invalidTag (tag : UInt8)
  /-- An instruction has an unknown opcode. -/
  | invalidOpcode (ordinal : UInt8)
  /-- A string is not UTF-8. -/
  | invalidUtf8
  /-- A length is negative. -/
  | invalidLength
  /-- There are bytes after the end. -/
  | trailingBytes
deriving DecidableEq, Inhabited

namespace LinkError

/-- The name of the kind of error. -/
def kind : LinkError → String
  | unresolvedLabel _ => "unresolved_label"
  | duplicateLabel _ => "duplicate_label"
  | anonymousMethod => "anonymous_method"
  | capturingMethod _ => "capturing_method"
  | tooLarge => "too_large"
  | missingBody => "missing_body"
  | invalidOperand _ => "invalid_operand"
  | invalidHandler _ => "invalid_handler"
  | versionMismatch _ => "version_mismatch"
  | unexpectedEof => "unexpected_eof"
  | invalidTag _ => "invalid_tag"
  | invalidOpcode _ => "invalid_opcode"
  | invalidUtf8 => "invalid_utf8"
  | invalidLength => "invalid_length"
  | trailingBytes => "trailing_bytes"

/-- The error in words. -/
def message : LinkError → String
  | unresolvedLabel label => "label " ++ toString label.toNat ++ " was never marked"
  | duplicateLabel label => "label " ++ toString label.toNat ++ " was marked twice"
  | anonymousMethod => "template methods must be named"
  | capturingMethod name => "template method " ++ name ++ " cannot capture variables"
  | tooLarge => "code is too large to link"
  | missingBody => "module has no top-level code"
  | invalidOperand i => "instruction " ++ toString i ++ " has an invalid operand"
  | invalidHandler i => "instruction " ++ toString i ++ " has an invalid error handler"
  | versionMismatch version => "artifact was compiled by version " ++ version.text
  | unexpectedEof => "unexpected end of artifact"
  | invalidTag tag => "invalid constant tag " ++ toString tag.toNat
  | invalidOpcode ordinal => "invalid opcode " ++ toString ordinal.toNat
  | invalidUtf8 => "invalid utf-8 in string"
  | invalidLength => "invalid length"
  | trailingBytes => "unexpected bytes after constant pool"

end LinkError

end FiberMachine
