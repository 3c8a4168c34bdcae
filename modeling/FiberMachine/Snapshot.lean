import FiberMachine.Code.Document
import FiberMachine.Heap

/-!
# Snapshots

A snapshot is a document of values together with the part of the heap that they lead to. What is
referred to is numbered in the order in which references are written: first those of the values,
then those within the entries of the heap, one entry after the other. So the number does not depend
on where a thing is in the heap, and equal references have equal numbers.
-/

namespace FiberMachine

/-- What a reference leads to, whatever its kind. -/
structure Target where
  kind : Kind
  index : Nat
deriving DecidableEq, Inhabited

def Ref.target {k : Kind} (r : Ref k) : Target := ⟨k, r.index⟩

/-- The numbered targets in the order of their numbers. -/
abbrev Numbering := Array Target

/-- A computation that numbers the references it writes. -/
abbrev Snapshot := StateM Numbering

namespace Snapshot

open Document

/-- The number of a target, which is the next one when it has none yet. -/
def number (t : Target) : Snapshot Nat := fun numbers =>
  match numbers.findIdx? (· = t) with
  | some n => (n, numbers)
  | none => (numbers.size, numbers.push t)

def reference {k : Kind} (r : Ref k) : Snapshot Document := do
  return record [("ref", nat (← number r.target))]

/-- Floats are the digits of their bits, but a NaN has no payload. -/
def double (d : Double) : Document := if d.isNaN then text "nan" else ofBits d

def value : Value → Snapshot Document
  | .null => return .null
  | .bool b => return .bool b
  | .int i => return record [("int", .int i.toInt)]
  | .float d => return record [("float", double d)]
  | .string s => return record [("str", text s)]
  | .array r => reference r
  | .object r => reference r
  | .template r => reference r
  | .code r => reference r
  | .function r => reference r
  | .error r => reference r

def values (vs : List Value) : Snapshot Document := return list (← vs.mapM value)

/-! ## Backtraces -/

/-- The code, the instruction and its source range, null past the end of the code. -/
def stackFrame (f : StackFrame) : Document :=
  list [ofOption text f.code.name, nat f.instruction,
    ofOption (·.range.writeNumbers) f.code.instructions[f.instruction]?]

/-- Above this number of frames a backtrace shows only the outermost and innermost ones. -/
def longestBacktrace : Nat := 20

def backtrace (frames : List StackFrame) : Document :=
  let depth := frames.length
  if depth ≤ longestBacktrace then list (frames.map stackFrame)
  else
    let shown := longestBacktrace / 2
    record [
      ("depth", nat depth),
      ("outer", list ((frames.take shown).map stackFrame)),
      ("inner", list ((frames.drop (depth - shown)).map stackFrame))]

/-! ## Entries of the heap -/

def moduleId (id : ModuleId) : Document := nat id.index

def array (s : Sequence) : Snapshot Document := do
  return record [("array", ← values s.values.toList), ("sealed", .bool s.sealed)]

def field : String × Attribute → Snapshot Document
  | (name, a) => do
    let v ← if a.assigned then value a.value else pure (text "unassigned")
    return list ([text name, v] ++ if a.exported then [text "exported"] else [])

def object (o : Object) : Snapshot Document := do
  let attributes ← o.attributes.sorted.mapM field
  let owner := match o.module with
    | some id => [("module", moduleId id)]
    | none => []
  return record ([("object", list attributes), ("sealed", .bool o.sealed)] ++ owner)

def template (t : Template) : Document :=
  record [
    ("template", text t.name),
    ("sealed", .bool t.sealed),
    ("methods", list (t.methods.map (text ·.1))),
    ("module", moduleId t.module)]

def code (c : Code) : Document :=
  record [("code", ofOption text c.name), ("instructions", nat c.instructions.size)]

def function (f : FunctionObject) : Snapshot Document := do
  let receiver ← value f.receiver
  let captures ← match f.body with
    | .interpreted _ cells => list <$> cells.mapM reference
    | .native _ _ => pure (text "native")
  return record [
    ("function", ofOption text f.name?),
    ("receiver", receiver),
    ("captures", captures),
    ("module", ofOption moduleId f.module)]

def envelope (e : Envelope) : Snapshot Document := do
  return record [
    ("error", ← value e.value),
    ("kind", text e.category.name),
    ("message", text e.message),
    ("backtrace", backtrace e.backtrace)]

/-- Describes what is found, if anything is. -/
def describe {α : Type} (f : α → Snapshot Document) : Option α → Snapshot Document
  | some a => f a
  | none => return .null

/-- The entry of a target. -/
def entry (h : Heap) (t : Target) : Snapshot Document :=
  match t.kind with
  | .array => describe array (h.array? ⟨t.index⟩)
  | .object => describe object (h.object? ⟨t.index⟩)
  | .template => describe (pure ∘ template) (h.template? ⟨t.index⟩)
  | .code => describe (pure ∘ code) (h.code? ⟨t.index⟩)
  | .function => describe function (h.function? ⟨t.index⟩)
  | .error => describe envelope (h.error? ⟨t.index⟩)
  | .cell => describe (fun v => return record [("cell", ← value v)]) (h.cell? ⟨t.index⟩)

/-- The entries from number `n` on, at most `bound` of them. -/
def entries (h : Heap) : Nat → Nat → Snapshot (List Document)
  | 0, _ => return []
  | bound + 1, n => do
    match (← get)[n]? with
    | none => return []
    | some t =>
      let first ← entry h t
      return first :: (← entries h bound (n + 1))

/-- The most entries that are written. -/
def entryLimit : Nat := 100

/-- A record of written values with the entries of the heap that they lead to, if any. -/
def complete (h : Heap) (fields : Snapshot (List (String × Document))) : Document :=
  let snapshot : Snapshot Document := do
    let fields ← fields
    match ← entries h entryLimit 0 with
    | [] => return record fields
    | heap => return record (fields ++ [("heap", list heap)])
  (snapshot.run #[]).1

/-! ## Answers -/

def fault (f : Fault) : Document :=
  record [
    ("error", text f.symbol),
    ("message", text f.message),
    ("category", text f.category.name)]

/-- The value that was raised, without its envelope. -/
def thrown (h : Heap) : Value → Value
  | .error r => ((h.error? r).map Envelope.value).getD (.error r)
  | other => other

/-- The outcome of an entry. Of an error, first the raised value is written, then its envelope. -/
def outcome (h : Heap) : Except Failure Value → Document
  | .ok v => complete h do return [("value", ← value v)]
  | .error failure => complete h do
    let fields := [("error", text failure.kind), ("message", text failure.message)]
    match failure with
    | .exception e =>
      return fields ++ [("thrown", ← value (thrown h e)), ("envelope", ← value e)]
    | _ => return fields

end Snapshot

end FiberMachine
