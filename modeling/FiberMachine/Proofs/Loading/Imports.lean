import Mathlib.Data.List.Nodup
import FiberMachine.Proofs.Execution.Turn
import FiberMachine.Proofs.Loading.Transition
import FiberMachine.Proofs.World.History

/-!
# Code that loads modules

The modules whose code does nothing but load other modules make a graph of imports
(`Catalog.imports`), which loading leaves alone. What a run executes and which modules it completes
is in `Context.Runs`, and the lemmas `Context.runs_...` say it of the transitions that such code
goes through: a module is asked for, it is known or entered, its frame returns, and what was
asked for is dropped.
-/

namespace FiberMachine

/-! ## Catalogs -/

/-- What loading leaves alone: what names stand for, and the modules apart from their states. -/
structure Catalog where
  names : Dict ModuleId
  modules : ModuleId → Option ModuleEntry

namespace Machine

def catalog (m : Machine) : Catalog :=
  ⟨m.names, fun id => (m.module? id).map ({ · with state := .registered })⟩

theorem catalog_setState (m : Machine) (id : ModuleId) (s : ModuleState) :
    (m.setState id s).catalog = m.catalog := by
  have hmodules : (m.setState id s).catalog.modules = m.catalog.modules := by
    funext other
    simp only [catalog, module?, setState, Array.getElem?_modify]
    split
    · rw [Option.map_map]
      rfl
    · rfl
  exact congrArg (Catalog.mk m.names) hmodules

theorem isApart_catalog : IsApart catalog := ⟨fun _ _ => rfl, catalog_setState⟩

/-- A module is what the catalog has of it, in its state. -/
theorem module?_of_catalog {m : Machine} {id : ModuleId} {entry : ModuleEntry}
    {s : ModuleState} (hentry : m.catalog.modules id = some entry) (hs : m.state? id = some s) :
    m.module? id = some { entry with state := s } := by
  obtain ⟨entry', hentry', rfl⟩ := Option.map_eq_some_iff.mp hentry
  obtain ⟨entry'', hentry'', rfl⟩ := Option.map_eq_some_iff.mp hs
  cases hentry'.symm.trans hentry''
  exact hentry'

end Machine

namespace Catalog

/--
The modules that the instructions load, if they load a module and drop it, any number of times, and
then return.
-/
def loads? (k : Catalog) (constants : Array Value) : List Instruction → Option (List ModuleId)
  | [] => none
  | [i] => if i.opcode = .return then some [] else none
  | i :: j :: rest =>
    if i.opcode = .loadModule ∧ j.opcode = .pop then do
      let name ← constants[i.operand.toNat]?.bind Value.asString?
      let id ← k.names.get? name
      return id :: (← k.loads? constants rest)
    else none

/-- The modules that a module loads, if that is all its code does and it takes no arguments. -/
def imports? (k : Catalog) (id : ModuleId) : Option (List ModuleId) := do
  let entry ← k.modules id
  let code ← entry.body
  if (code.signature.mismatch? {}).isNone then
    k.loads? entry.constants code.instructions.toList
  else none

def imports (k : Catalog) (id : ModuleId) : List ModuleId := (k.imports? id).getD []

variable {k : Catalog} {constants : Array Value} {is : List Instruction} {id : ModuleId}
  {ids : List ModuleId}

theorem loads?_eq_nil (h : k.loads? constants is = some []) :
    ∃ i : Instruction, is = [i] ∧ i.opcode = .return := by
  unfold loads? at h
  split at h
  case h_1 => cases h
  case h_2 i =>
    split at h
    case isTrue hop => exact ⟨i, rfl, hop⟩
    case isFalse => cases h
  case h_3 =>
    split at h
    case isTrue =>
      simp only [Option.bind_eq_bind, Option.bind_eq_some_iff, Option.pure_def] at h
      obtain ⟨_, _, _, _, _, _, h⟩ := h
      cases h
    case isFalse => cases h

theorem loads?_eq_cons (h : k.loads? constants is = some (id :: ids)) :
    ∃ (i j : Instruction) (rest : List Instruction) (name : String), is = i :: j :: rest ∧
      i.opcode = .loadModule ∧ j.opcode = .pop ∧
      (∃ value, constants[i.operand.toNat]? = some value ∧ value.asString? = some name) ∧
      k.names.get? name = some id ∧ k.loads? constants rest = some ids := by
  unfold loads? at h
  split at h
  case h_1 => cases h
  case h_2 =>
    split at h
    case isTrue => cases h
    case isFalse => cases h
  case h_3 i j rest =>
    split at h
    case isTrue hops =>
      simp only [Option.bind_eq_bind, Option.bind_eq_some_iff, Option.pure_def] at h
      obtain ⟨name, hname, _, hid, _, hids, h⟩ := h
      cases h
      exact ⟨i, j, rest, name, rfl, hops.1, hops.2, hname, hid, hids⟩
    case isFalse => cases h

/-- A load takes two instructions, and the return one. -/
theorem length_of_loads? (h : k.loads? constants is = some ids) :
    is.length = 2 * ids.length + 1 := by
  induction ids generalizing is with
  | nil =>
    obtain ⟨i, rfl, -⟩ := loads?_eq_nil h
    rfl
  | cons id ids ih =>
    obtain ⟨i, j, rest, _, rfl, -, -, -, -, hrest⟩ := loads?_eq_cons h
    rw [List.length_cons, List.length_cons, ih hrest, List.length_cons]
    omega

theorem imports_of_imports? (h : k.imports? id = some ids) : k.imports id = ids := by
  rw [imports, h, Option.getD_some]

theorem imports?_eq_some (h : k.imports? id = some ids) :
    ∃ (entry : ModuleEntry) (code : Code), k.modules id = some entry ∧ entry.body = some code ∧
      code.signature.mismatch? {} = none ∧
      k.loads? entry.constants code.instructions.toList = some ids := by
  simp only [imports?, Option.bind_eq_bind, Option.bind_eq_some_iff] at h
  obtain ⟨entry, hentry, code, hcode, h⟩ := h
  split at h
  case isTrue hmatch => exact ⟨entry, code, hentry, hcode, Option.isNone_iff_eq_none.mp hmatch, h⟩
  case isFalse => cases h

end Catalog

/-! ## What a run does -/

namespace Context

/-- The module and the index of the instruction that the next transition executes. -/
def executes (c : Context) : List (ModuleId × Nat) :=
  match c.fiber.activity, c.fiber.frames with
  | .running _ _, frame :: _ => [(frame.scope.module, frame.instruction)]
  | _, _ => []

/-- The modules that the next transition makes loaded. -/
def completes (c : Context) : List ModuleId :=
  ((List.range c.machine.modules.size).map ModuleId.mk).filter fun id =>
    c.machine.state? id ≠ some .loaded ∧ c.advance.machine.state? id = some .loaded

/-- What is seen of the transitions until the fiber is settled. -/
def log {α : Type} (view : Context → List α) : Nat → Context → List α
  | 0, _ => []
  | fuel + 1, c => if c.isSettled then [] else view c ++ log view fuel c.advance

/-- Transitions from one context to another, with what they execute and complete. -/
inductive Runs : Context → List (ModuleId × Nat) → List ModuleId → Context → Prop where
  | refl (c : Context) : Runs c [] [] c
  | step {c d : Context} {executed : List (ModuleId × Nat)} {completed : List ModuleId} :
      c.isSettled = false → Runs c.advance executed completed d →
      Runs c (c.executes ++ executed) (c.completes ++ completed) d

namespace Runs

variable {c d e : Context} {executed executed' : List (ModuleId × Nat)}
  {completed completed' : List ModuleId}

theorem trans (H : Runs c executed completed d) (H' : Runs d executed' completed' e) :
    Runs c (executed ++ executed') (completed ++ completed') e := by
  induction H with
  | refl => exact H'
  | step hsettled _ ih =>
    rw [List.append_assoc, List.append_assoc]
    exact .step hsettled (ih H')

/-- A transition that executes and completes what is said. -/
theorem single (hsettled : c.isSettled = false) (hadvance : c.advance = d)
    (hexecutes : c.executes = executed) (hcompletes : c.completes = completed) :
    Runs c executed completed d := by
  subst hadvance hexecutes hcompletes
  have hstep := Runs.step hsettled (.refl c.advance)
  rwa [List.append_nil, List.append_nil] at hstep

/-- A run to a settled context is what driving the fiber far enough comes to. -/
theorem drive_eq (H : Runs c executed completed d) (hd : d.isSettled) :
    ∃ n, ∀ fuel ≥ n, drive fuel c = d ∧ log executes fuel c = executed ∧
      log completes fuel c = completed := by
  induction H with
  | refl c =>
    refine ⟨0, fun fuel _ => ⟨drive_of_isSettled hd fuel, ?_⟩⟩
    cases fuel with
    | zero => exact ⟨rfl, rfl⟩
    | succ fuel => exact ⟨if_pos hd, if_pos hd⟩
  | @step c _ _ _ hsettled _ ih =>
    obtain ⟨n, hn⟩ := ih hd
    have hunsettled : ¬ c.isSettled = true := by simp [hsettled]
    refine ⟨n + 1, fun fuel hfuel => ?_⟩
    obtain ⟨fuel, rfl⟩ := Nat.exists_eq_add_of_lt hfuel
    obtain ⟨hdrive, hexecuted, hcompleted⟩ := hn (n + fuel) (Nat.le_add_right n fuel)
    rw [drive, log, log, if_neg hunsettled, if_neg hunsettled, if_neg hunsettled]
    exact ⟨hdrive, congrArg _ hexecuted, congrArg _ hcompleted⟩

end Runs

/-- A transition after which no more modules are loaded than before completes none. -/
theorem completes_eq_nil {c : Context}
    (h : ∀ id, c.advance.machine.state? id = some .loaded → c.machine.state? id = some .loaded) :
    c.completes = [] := by
  rw [completes, List.filter_eq_nil_iff]
  intro id _ hid
  obtain ⟨hbefore, hafter⟩ := of_decide_eq_true hid
  exact hbefore (h id hafter)

/-- A transition that ends the load of a module completes just this one. -/
theorem completes_of_update {c : Context} {id : ModuleId} {fiber : FiberId}
    (hid : c.machine.state? id = some (.loading fiber))
    (h : c.advance.machine.state? = Ledger.update c.machine.state? id .loaded) :
    c.completes = [id] := by
  have hmem : id ∈ (List.range c.machine.modules.size).map ModuleId.mk := by
    obtain ⟨entry, hentry, -⟩ := Option.map_eq_some_iff.mp hid
    exact List.mem_map.mpr
      ⟨id.index, List.mem_range.mpr (Array.getElem?_eq_some_iff.mp hentry).1, rfl⟩
  have hnodup : ((List.range c.machine.modules.size).map ModuleId.mk).Nodup :=
    List.nodup_range.map fun a b hab => congrArg ModuleId.index hab
  have hpredicate (other : ModuleId) : decide (c.machine.state? other ≠ some .loaded ∧
      c.advance.machine.state? other = some .loaded) = (other == id) := by
    rw [h, Ledger.update]
    by_cases heq : other = id
    · subst heq
      simp [hid]
    · simp [heq]
  rw [completes, List.filter_congr fun other _ => hpredicate other, List.filter_beq,
    List.count_eq_one_of_mem hnodup hmem]
  rfl

end Context

/-! ## Instructions -/

namespace Exec

variable {l : Local} {i : Instruction}

theorem step_loadModule {value : Value} {name : String}
    (hi : l.frame.code.instructions[l.frame.instruction]? = some i)
    (hop : i.opcode = .loadModule)
    (hvalue : l.frame.scope.constants[i.operand.toNat]? = some value)
    (hname : value.asString? = some name) : step.run l = (.ok (.load name), l) := by
  rw [step_of_some hi, instruction, hop]
  exact run_name_bind _ hvalue hname

theorem step_pop {value : Value} {rest : List Value}
    (hi : l.frame.code.instructions[l.frame.instruction]? = some i) (hop : i.opcode = .pop)
    (hstack : l.frame.stack = value :: rest) :
    step.run l = (.ok .next, { l with frame := { l.frame with
      stack := rest, instruction := l.frame.instruction + 1 } }) := by
  rw [step_of_some hi, instruction, hop]
  exact run_pop_bind _ hstack

theorem step_return (hi : l.frame.code.instructions[l.frame.instruction]? = some i)
    (hop : i.opcode = .return) :
    step.run l = (.ok (.return (l.frame.stack.headD .null)), l) := by
  rw [step_of_some hi, instruction, hop]
  rfl

end Exec

/-! ## Transitions -/

/-- The frame has the given modules left to load. -/
def Frame.Awaits (k : Catalog) (f : Frame) (ids : List ModuleId) : Prop :=
  k.loads? f.scope.constants (f.code.instructions.toList.drop f.instruction) = some ids

namespace Frame.Awaits

variable {k : Catalog} {f : Frame} {id : ModuleId} {ids : List ModuleId}

/-- The instructions of a frame that has a module left to load. -/
theorem cons (h : f.Awaits k (id :: ids)) :
    ∃ (i j : Instruction) (name : String),
      f.code.instructions[f.instruction]? = some i ∧ i.opcode = .loadModule ∧
      (∃ value, f.scope.constants[i.operand.toNat]? = some value ∧ value.asString? = some name) ∧
      k.names.get? name = some id ∧
      f.code.instructions[f.instruction + 1]? = some j ∧ j.opcode = .pop ∧
      { f with instruction := f.instruction + 2 }.Awaits k ids := by
  obtain ⟨i, j, rest, name, hdrop, hi, hj, hname, hid, hrest⟩ := Catalog.loads?_eq_cons h
  have hat (n : Nat) : f.code.instructions[f.instruction + n]? = (i :: j :: rest)[n]? := by
    rw [← hdrop, List.getElem?_drop, Array.getElem?_toList]
  have hdrop' : f.code.instructions.toList.drop (f.instruction + 2) = rest := by
    rw [← List.drop_drop, hdrop]
    rfl
  refine ⟨i, j, name, hat 0, hi, hname, hid, hat 1, hj, ?_⟩
  rw [Awaits, hdrop']
  exact hrest

/-- The last instruction of a frame that has no module left to load. -/
theorem nil (h : f.Awaits k []) :
    ∃ i : Instruction, f.code.instructions[f.instruction]? = some i ∧ i.opcode = .return := by
  obtain ⟨i, hdrop, hi⟩ := Catalog.loads?_eq_nil h
  refine ⟨i, ?_, hi⟩
  have hat : f.code.instructions[f.instruction + 0]? = [i][0]? := by
    rw [← hdrop, List.getElem?_drop, Array.getElem?_toList]
  exact hat

end Frame.Awaits

theorem Meter.admit?_of_budget {meter : Meter} (h : meter.budget = none) :
    ∃ meter' charged, meter.admit? = some (meter', charged) ∧ meter'.budget = none := by
  unfold admit?
  split
  case isTrue => exact ⟨_, false, rfl, h⟩
  case isFalse =>
    rw [charge?, h]
    exact ⟨_, true, rfl, rfl⟩

/-- A frame can be made for arguments that fit. -/
theorem Frame.bind_of_fits (made : Ref .function × Heap) {code : Code}
    (captures : List (Ref .cell)) (scope : Scope) (receiver : Value) {args : Arguments}
    (hfits : code.signature.mismatch? args = none) :
    ∃ slots heap, Frame.bind made.2 made.1 code captures scope receiver args =
      (.ok { code, scope, captures, slots }, heap) := by
  rcases Frame.bind_cases made.2 made.1 code captures scope receiver args with
    ⟨fault, hfault, -⟩ | ⟨-, _, _, heap, -, -, hbind⟩
  · cases hfits.symm.trans hfault
  · exact ⟨_, heap, hbind⟩

namespace Machine

theorem state?_finishModule_none (m : Machine) (id : ModuleId) :
    (m.finishModule id none).state? = Ledger.update m.state? id .loaded :=
  m.state?_finishModule_eq id none

/-- A module that is loaded for its object ends with that. -/
theorem conclude_ok {m : Machine} {id : ModuleId} {entry : ModuleEntry} {s : ModuleState}
    (value : Value) (hentry : m.catalog.modules id = some entry) (hstate : m.state? id = some s) :
    m.conclude (.module id true) (.ok value) =
      (.ok (.object entry.object), m.finishModule id none) := by
  have hentry' : (m.finishModule id none).catalog.modules id = some entry := by
    rw [isApart_catalog.finishModule, hentry]
  have hstate' : (m.finishModule id none).state? id = some .loaded := by
    rw [state?_finishModule_none, Ledger.update_self hstate]
  simp only [conclude, module?_of_catalog hentry' hstate']

end Machine

namespace Context

/-- A fiber without limits. -/
def free (m : Machine) (id : FiberId) (frames : List Frame) (meter : Meter)
    (activity : Activity) : Context :=
  ⟨m, id, ⟨frames, meter, none, none, activity⟩⟩

section Free

variable {m : Machine} {fiber : FiberId} {frames : List Frame} {meter : Meter} {base : Nat}
  {caller : Caller}

theorem advance_running (hbudget : meter.budget = none) :
    ∃ meter' : Meter, meter'.budget = none ∧
      (free m fiber frames meter (.running base caller)).advance =
        (free m fiber frames meter' (.running base caller)).instruct base caller := by
  obtain ⟨meter', charged, hadmits, hbudget'⟩ := Meter.admit?_of_budget hbudget
  refine ⟨meter', hbudget', ?_⟩
  show run _ base caller = _
  have hmeter : (free m fiber frames meter (.running base caller)).fiber.meter.admit? =
      some (meter', charged) := hadmits
  rw [run, hmeter]
  exact if_neg (by simp [isLate])

theorem find_of_names {name : String} {id : ModuleId} {pending : Pending}
    (h : m.names.get? name = some id) :
    (free m fiber frames meter (.finding name pending)).advance =
      free m fiber frames meter (.entering id true pending) := by
  show find _ name pending = _
  rw [find]
  simp only [free, h]
  rfl

/-- A transition to another activity that leaves the machine alone. -/
theorem Runs.quiet {c d : Context} (hsettled : c.isSettled = false) (hadvance : c.advance = d)
    (hstates : d.machine.state? = c.machine.state?) : Runs c c.executes [] d :=
  .single hsettled hadvance rfl (completes_eq_nil fun id h => by rwa [hadvance, hstates] at h)

variable {k : Catalog} {top : Frame} {rest : List Frame} {id : ModuleId} {ids : List ModuleId}
  {entry : ModuleEntry}

/-- A frame asks for the next module that it has left to load. -/
theorem runs_request (fiber : FiberId) (rest : List Frame) (base : Nat) (caller : Caller)
    (hbudget : meter.budget = none) (h : top.Awaits m.catalog (id :: ids)) :
    ∃ meter' : Meter, meter'.budget = none ∧
      Runs (free m fiber (top :: rest) meter (.running base caller))
        [(top.scope.module, top.instruction)] []
        (free m fiber (top :: rest) meter'
          (.entering id true (.instruction base false caller))) := by
  obtain ⟨i, _, name, hi, hop, ⟨value, hvalue, hname⟩, hid, -⟩ := h.cons
  obtain ⟨meter', hbudget', hadvance⟩ := advance_running hbudget
  refine ⟨meter', hbudget', ?_⟩
  have hstep : Exec.step.run ⟨m.heap, top⟩ = (.ok (.load name), ⟨m.heap, top⟩) :=
    Exec.step_loadModule hi hop hvalue hname
  have hrun : (free m fiber (top :: rest) meter (.running base caller)).advance =
      free m fiber (top :: rest) meter' (.finding name (.instruction base false caller)) := by
    rw [hadvance]
    simp only [free, instruct, Machine.onHeap, hstep]
    rfl
  have hfind : (free m fiber (top :: rest) meter'
      (.finding name (.instruction base false caller))).advance =
        free m fiber (top :: rest) meter' (.entering id true (.instruction base false caller)) :=
    find_of_names hid
  exact (Runs.quiet rfl hrun rfl).trans (Runs.quiet rfl hfind rfl)

/-- A frame drops the module that it received. -/
theorem runs_pop (fiber : FiberId) (rest : List Frame) (base : Nat) (caller : Caller)
    (hbudget : meter.budget = none) (h : top.Awaits m.catalog (id :: ids)) (value : Value) :
    ∃ meter' : Meter, meter'.budget = none ∧
      Runs (free m fiber (top.deliver value :: rest) meter (.running base caller))
        [(top.scope.module, top.instruction + 1)] []
        (free m fiber ({ top with instruction := top.instruction + 2 } :: rest) meter'
          (.running base caller)) := by
  obtain ⟨_, j, _, -, -, -, -, hj, hop, -⟩ := h.cons
  obtain ⟨meter', hbudget', hadvance⟩ := advance_running hbudget
  refine ⟨meter', hbudget', ?_⟩
  have hstep : Exec.step.run ⟨m.heap, top.deliver value⟩ =
      (.ok .next, ⟨m.heap, { top with instruction := top.instruction + 2 }⟩) :=
    Exec.step_pop hj hop rfl
  have hrun : (free m fiber (top.deliver value :: rest) meter (.running base caller)).advance =
      free m fiber ({ top with instruction := top.instruction + 2 } :: rest) meter'
        (.running base caller) := by
    rw [hadvance]
    simp only [free, instruct, Machine.onHeap, hstep]
  exact Runs.quiet rfl hrun rfl

/-- A module that is loaded, or loading in this fiber, is handed over as it is. -/
theorem runs_known (top : Frame) (rest : List Frame) (meter : Meter) (base : Nat) (caller : Caller)
    (hentry : m.catalog.modules id = some entry)
    (hstate : m.state? id = some .loaded ∨ m.state? id = some (.loading fiber)) :
    Runs (free m fiber (top :: rest) meter (.entering id true (.instruction base false caller)))
      [] []
      (free m fiber (top.deliver (.object entry.object) :: rest) meter (.running base caller)) := by
  have hanswer : (free m fiber (top :: rest) meter
      (.entering id true (.instruction base false caller))).advance =
        free m fiber (top :: rest) meter
          (.answered (.ok (.object entry.object)) (.instruction base false caller)) := by
    show enterModule _ id true _ = _
    rcases hstate with hstate | hstate
    all_goals
      have hmodule := Machine.module?_of_catalog hentry hstate
      rw [enterModule]
      simp only [free, hmodule]
      rfl
  exact (Runs.quiet rfl hanswer rfl).trans (Runs.quiet rfl rfl rfl)

/-- A registered module starts to load: its code is entered in a new frame. -/
theorem runs_enter (m : Machine) (fiber : FiberId) (meter : Meter) {pending : Pending} {code : Code}
    (hpending : pending = .instruction base false caller ∨
      pending = .entry caller ∧ base = frames.length)
    (hstate : m.state? id = some .registered) (hentry : m.catalog.modules id = some entry)
    (hbody : entry.body = some code) (hmatch : code.signature.mismatch? {} = none) :
    ∃ m' frame, m'.catalog = m.catalog ∧
      m'.state? = Ledger.update m.state? id (.loading fiber) ∧ frame.code = code ∧
      frame.scope = ⟨id, entry.constants, entry.object⟩ ∧ frame.instruction = 0 ∧
      frame.continuation = .module id true ∧
      Runs (free m fiber frames meter (.entering id true pending)) [] []
        (free m' fiber (frame :: frames) meter (.running base caller)) := by
  have hmodule := Machine.module?_of_catalog hentry hstate
  obtain ⟨slots, heap, hbind⟩ := Frame.bind_of_fits
    ((m.setState id (.loading fiber)).heap.newFunction {
      module := some id, receiver := .object entry.object, body := .interpreted code [] })
    [] ⟨id, entry.constants, entry.object⟩ (.object entry.object) hmatch
  have hadvance : (free m fiber frames meter (.entering id true pending)).advance =
      free { m.setState id (.loading fiber) with heap } fiber
        ({ code, scope := ⟨id, entry.constants, entry.object⟩, captures := [], slots
           continuation := .module id true } :: frames) meter (.running base caller) := by
    show enterModule _ id true pending = _
    rw [enterModule]
    simp only [free, hmodule]
    rw [load]
    simp only [hbody, Machine.onHeap, hbind]
    rcases hpending with rfl | ⟨rfl, rfl⟩ <;> rfl
  have hstates := m.state?_setState id (.loading fiber)
  refine ⟨{ m.setState id (.loading fiber) with heap }, _, m.catalog_setState id (.loading fiber),
    hstates, rfl, rfl, rfl, rfl, .single rfl hadvance rfl (completes_eq_nil fun other h => ?_)⟩
  have hloaded : (m.setState id (.loading fiber)).state? other = some .loaded := by
    rw [hadvance] at h
    exact h
  rw [hstates] at hloaded
  rcases Ledger.of_update_eq_some hloaded with ⟨-, h⟩ | ⟨-, h⟩
  · cases h
  · exact h

/-- The frame of a module without any module left to load returns. -/
theorem advance_return (hbudget : meter.budget = none) (h : top.Awaits m.catalog []) :
    ∃ (meter' : Meter) (value : Value), meter'.budget = none ∧
      (free m fiber (top :: rest) meter (.running base caller)).advance =
        (free m fiber (top :: rest) meter' (.running base caller)).complete (.ok value) base
          caller := by
  obtain ⟨i, hi, hop⟩ := h.nil
  obtain ⟨meter', hbudget', hadvance⟩ := advance_running hbudget
  refine ⟨meter', top.stack.headD .null, hbudget', ?_⟩
  have hstep : Exec.step.run ⟨m.heap, top⟩ =
      (.ok (.return (top.stack.headD .null)), ⟨m.heap, top⟩) := Exec.step_return hi hop
  rw [hadvance]
  simp only [free, instruct, Machine.onHeap, hstep]

section Return

variable (hbudget : meter.budget = none) (h : top.Awaits m.catalog [])
  (hcontinuation : top.continuation = .module id true)
  (hentry : m.catalog.modules id = some entry) (hstate : m.state? id = some (.loading fiber))

include hbudget h hcontinuation hentry hstate

/-- A module that a frame asked for is handed over when it is loaded. -/
theorem runs_return_frame (frame : Frame) {below : List Frame} (hbase : base ≤ below.length)
    (caller : Caller) :
    ∃ meter' : Meter, meter'.budget = none ∧
      Runs (free m fiber (top :: frame :: below) meter (.running base caller))
        [(top.scope.module, top.instruction)] [id]
        (free (m.finishModule id none) fiber (frame.deliver (.object entry.object) :: below) meter'
          (.running base caller)) := by
  obtain ⟨meter', value, hbudget', hadvance⟩ := advance_return hbudget h
  have hbelow : ((frame :: below).drop base).isEmpty = false := by
    simp only [List.isEmpty_eq_false_iff, ne_eq, List.drop_eq_nil_iff, List.length_cons]
    omega
  have hrun : (free m fiber (top :: frame :: below) meter (.running base caller)).advance =
      free (m.finishModule id none) fiber (frame.deliver (.object entry.object) :: below) meter'
        (.running base caller) := by
    have hcomplete : Machine.complete base m (.ok value) (top :: frame :: below) =
        ⟨m.finishModule id none, frame.deliver (.object entry.object) :: below, none⟩ := by
      rw [Machine.complete, hcontinuation, Machine.conclude_ok value hentry hstate]
      exact if_neg (by simp [hbelow])
    rw [hadvance]
    simp only [free, complete, hcomplete]
  exact ⟨meter', hbudget', .single rfl hrun rfl (completes_of_update hstate
    (hrun ▸ m.state?_finishModule_none id))⟩

/-- The module that the fiber was asked for is the answer when it is loaded. -/
theorem runs_return_entry (rest : List Frame) (caller : Caller) :
    ∃ meter' : Meter, meter'.budget = none ∧
      Runs (free m fiber (top :: rest) meter (.running rest.length caller))
        [(top.scope.module, top.instruction)] [id]
        (free (m.finishModule id none) fiber rest meter'
          (.replied (.ok (.object entry.object)) caller)) := by
  obtain ⟨meter', value, hbudget', hadvance⟩ := advance_return hbudget h
  have hbelow : (rest.drop rest.length).isEmpty = true := by
    rw [List.drop_length, List.isEmpty_nil]
  have hrun : (free m fiber (top :: rest) meter (.running rest.length caller)).advance =
      free (m.finishModule id none) fiber rest meter'
        (.replied (.ok (.object entry.object)) caller) := by
    have hcomplete : Machine.complete rest.length m (.ok value) (top :: rest) =
        ⟨m.finishModule id none, rest, some (.ok (.object entry.object))⟩ := by
      rw [Machine.complete, hcontinuation, Machine.conclude_ok value hentry hstate]
      exact if_pos hbelow
    rw [hadvance]
    simp only [free, complete, hcomplete, finish, ite_self]
  exact ⟨meter', hbudget', .single rfl hrun rfl (completes_of_update hstate
    (hrun ▸ m.state?_finishModule_none id))⟩

end Return

end Free

end Context

end FiberMachine
