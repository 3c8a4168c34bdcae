import FiberMachine.Bitcode.Basic
import FiberMachine.LinkError

/-!
# Linking

Linking resolves the labels of every function to instruction indices and moves literals, names and
nested functions into one constant pool. Primitive literals and names share one entry each; nested
functions and templates always get an entry of their own, after the constants they use.
-/

namespace FiberMachine.Bitcode

/-- A number as an unsigned 32-bit word. -/
def encodable (n : Nat) : Except LinkError UInt32 :=
  if n < UInt32.size then .ok n.toUInt32 else .error .tooLarge

/-! ## Labels and try regions -/

/-- Where labels are marked: the number of instructions before each. -/
abbrev Labels := List (Label × Nat)

/-- The labels that `ops` mark, when `count` instructions come before them. -/
def markedLabels (count : Nat) : List Op → Labels
  | [] => []
  | .label l :: rest => (l, count) :: markedLabels count rest
  | _ :: rest => markedLabels (count + 1) rest

/-- The first label that is in `seen` or is marked twice. -/
def firstRepeated (seen : List Label) : Labels → Option Label
  | [] => none
  | (l, _) :: rest => if l ∈ seen then some l else firstRepeated (l :: seen) rest

/-- The labels of a function, each of which may be marked only once. -/
def labelsOf (ops : List Op) : Except LinkError Labels :=
  let labels := markedLabels 0 ops
  match firstRepeated [] labels with
  | some l => .error (.duplicateLabel l)
  | none => .ok labels

/-- The number of instructions before the mark of `l`. -/
def resolve (labels : Labels) (l : Label) : Except LinkError Nat :=
  match labels.lookup l with
  | some n => .ok n
  | none => .error (.unresolvedLabel l)

/-- A try region between instruction indices. -/
structure Region where
  start : Nat
  stop : Nat
  handler : UInt32
deriving DecidableEq, Inhabited

namespace Region

def width (r : Region) : Nat := r.stop - r.start

def covers (r : Region) (i : Nat) : Bool := r.start ≤ i && i < r.stop

/-- Widest regions first; regions of equal width keep their order. -/
def sort (regions : List Region) : List Region :=
  regions.mergeSort fun a b => decide (b.width ≤ a.width)

end Region

/-- The labels of a try region as instruction indices. -/
def resolveRegion (labels : Labels) (r : TryRegion) : Except LinkError Region := do
  let start ← resolve labels r.start
  let stop ← resolve labels r.stop
  let handler ← resolve labels r.handler
  return { start, stop, handler := ← encodable handler }

/-- Gives the instructions in the region its handler. -/
def Region.overwrite (handlers : Array (Option UInt32)) (r : Region) : Array (Option UInt32) :=
  handlers.mapIdx fun i handler => if r.covers i then some r.handler else handler

/-- The handlers of `count` instructions: regions overwrite those that come before them. -/
def handlersOf (count : Nat) (regions : List Region) : Array (Option UInt32) :=
  regions.foldl Region.overwrite (Array.replicate count none)

/-! ## The constant pool -/

/-- A constant that has one entry, however often it is used. -/
inductive Interned where
  | bool (value : Bool)
  | int (value : Int64)
  | float (value : Double)
  | string (value : String)
deriving DecidableEq

namespace Interned

def constant : Interned → Constant
  | bool value => .bool value
  | int value => .int value
  | float value => .float value
  | string value => .string value

theorem constant_inj {key key' : Interned} (h : key.constant = key'.constant) : key = key' := by
  cases key <;> cases key' <;> cases h <;> rfl

theorem constant_ne_code (code : Code) (key : Interned) : key.constant ≠ .code code := by
  cases key <;> rintro ⟨⟩

theorem constant_ne_template (t : TemplateCode) (key : Interned) :
    key.constant ≠ .template t := by
  cases key <;> rintro ⟨⟩

end Interned

/-- The constants of a module, with the indices of those that are shared. -/
structure Pool where
  constants : Array Constant
  interned : List (Interned × UInt32)
  size_le : constants.size ≤ UInt32.size
  /-- A shared constant is where the index says, and nowhere else. -/
  lookup_iff (key : Interned) (index : UInt32) :
    interned.lookup key = some index ↔ constants[index.toNat]? = some key.constant

namespace Pool

def empty : Pool where
  constants := #[]
  interned := []
  size_le := Nat.zero_le _
  lookup_iff _ _ := by simp

variable (pool : Pool) (hsize : pool.constants.size < UInt32.size)

/-- Appends a constant that is not shared. -/
def push (c : Constant) (hc : ∀ key : Interned, key.constant ≠ c) : Pool where
  constants := pool.constants.push c
  interned := pool.interned
  size_le := by rwa [Array.size_push]
  lookup_iff key index := by
    rw [pool.lookup_iff, Array.getElem?_push]
    split
    · rename_i hindex
      rw [hindex, Array.getElem?_size, Option.some.injEq]
      exact iff_of_false (by rintro ⟨⟩) (Ne.symm (hc key))
    · exact Iff.rfl

/-- Appends a shared constant that the pool does not have yet. -/
def note (key : Interned) (hkey : pool.interned.lookup key = none) : Pool where
  constants := pool.constants.push key.constant
  interned := (key, pool.constants.size.toUInt32) :: pool.interned
  size_le := by rwa [Array.size_push]
  lookup_iff key' index := by
    have hvalue : pool.constants.size.toUInt32.toNat = pool.constants.size := Nat.mod_eq_of_lt hsize
    have hnew : pool.constants.size.toUInt32 = index ↔ index.toNat = pool.constants.size := by
      rw [← UInt32.toNat_inj, hvalue, eq_comm]
    rw [Array.getElem?_push, List.lookup_cons]
    by_cases hkeys : key' = key
    · subst hkeys
      rw [beq_self_eq_true]
      dsimp only
      split
      · rename_i hindex
        exact iff_of_true (congrArg some (hnew.mpr hindex)) rfl
      · rename_i hindex
        rw [← pool.lookup_iff, hkey, Option.some.injEq, hnew]
        exact iff_of_false hindex (by rintro ⟨⟩)
    · rw [beq_false_of_ne hkeys]
      dsimp only
      rw [pool.lookup_iff]
      split
      · rename_i hindex
        rw [hindex, Array.getElem?_size, Option.some.injEq]
        exact iff_of_false (by rintro ⟨⟩) fun h => hkeys (Interned.constant_inj h.symm)
      · exact Iff.rfl

end Pool

/-- Linking in a growing pool of constants. -/
abbrev Linker := StateT Pool (Except LinkError)

/-- Appends a constant and returns its index. -/
def append (c : Constant) (hc : ∀ key : Interned, key.constant ≠ c) : Linker UInt32 := fun pool =>
  if hsize : pool.constants.size < UInt32.size then
    .ok (pool.constants.size.toUInt32, pool.push hsize c hc)
  else .error .tooLarge

/-- The index of a constant, which is appended unless the pool has it. -/
def intern (key : Interned) : Linker UInt32 := fun pool =>
  match hkey : pool.interned.lookup key with
  | some index => .ok (index, pool)
  | none =>
    if hsize : pool.constants.size < UInt32.size then
      .ok (pool.constants.size.toUInt32, pool.note hsize key hkey)
    else .error .tooLarge

/-! ## Functions -/

/-- What the operations of one function are linked against. -/
structure Layout where
  labels : Labels
  handlers : Array (Option UInt32)

/-- The handler of the instruction `index`. -/
def Layout.handlerAt (layout : Layout) (index : Nat) : Option UInt32 :=
  layout.handlers[index]?.getD none

/-- Whether the operation becomes an instruction. -/
def Op.isInstruction (op : Op) : Bool := op.marked?.isNone

def layoutOf (f : Function) : Except LinkError Layout := do
  let labels ← labelsOf f.ops
  let regions ← f.regions.mapM (resolveRegion labels)
  let handlers := handlersOf (f.ops.countP Op.isInstruction) (Region.sort regions)
  return { labels, handlers }

mutual

/-- The code of a function. -/
def linkFunction : Function → Linker Code
  | ⟨name, signature, captures, ops, ranges, regions⟩ => do
    let layout ← layoutOf ⟨name, signature, captures, ops, ranges, regions⟩
    let instructions ← linkOps layout 0 ranges ops
    return { name, signature, captures, instructions := instructions.toArray }

/--
The instructions of `ops`, when `index` instructions come before them and `ranges` are the source
ranges of the operations; missing ranges are unknown.
-/
def linkOps (layout : Layout) (index : Nat) (ranges : List SourceRange) :
    List Op → Linker (List Instruction)
  | [] => return []
  | .label _ :: rest => linkOps layout index ranges.tail rest
  | op :: rest => do
    let (opcode, operand) ← linkOp layout.labels op
    let instruction : Instruction :=
      { opcode, operand, handler := layout.handlerAt index, range := ranges.headD {} }
    return instruction :: (← linkOps layout (index + 1) ranges.tail rest)

/-- The opcode and the operand of an operation. -/
def linkOp (labels : Labels) : Op → Linker (Opcode × UInt32)
  | .label _ => return (.nop, 0)
  | .plain opcode _ => return (opcode, 0)
  | .slot opcode _ slot => return (opcode, slot)
  | .capture opcode _ index => return (opcode, index)
  | .name opcode _ name => return (opcode, ← intern (.string name))
  | .jump opcode _ target => return (opcode, ← encodable (← resolve labels target))
  | .constant literal => return (.loadConst, ← linkLiteral literal)
  | .closure function => do
    let code ← linkFunction function
    return (.makeFunction, ← append (.code code) (Interned.constant_ne_code code))

/-- The index of a literal in the pool. -/
def linkLiteral : Literal → Linker UInt32
  | .bool value => intern (.bool value)
  | .int value => intern (.int value)
  | .float value => intern (.float value)
  | .string value => intern (.string value)
  | .function function => do
    let code ← linkFunction function
    append (.code code) (Interned.constant_ne_code code)
  | .template ⟨name, sealed, methods⟩ => do
    let methods ← linkMethods methods
    let t : TemplateCode := { name, sealed, methods }
    append (.template t) (Interned.constant_ne_template t)

/-- The code of template methods, which have names and capture nothing. -/
def linkMethods : List Function → Linker (List Code)
  | [] => return []
  | method :: rest => do
    match method.name with
    | none => throw .anonymousMethod
    | some name =>
      if !method.captures.isEmpty then throw (.capturingMethod name)
      let code ← linkFunction method
      return code :: (← linkMethods rest)

end

namespace Module

/-- Links a module; its body becomes the last entry of the pool. -/
def link (m : Module) : Except LinkError LinkedModule := do
  let (body, pool) ← (linkFunction m.body).run .empty
  let (_, pool) ← (append (.code body) (Interned.constant_ne_code body)).run pool
  return { name := m.name, pool := pool.constants }

end Module

end FiberMachine.Bitcode
