import FiberMachine.Proofs.Code.Accepted
import FiberMachine.Proofs.Execution.Turn
import FiberMachine.Proofs.Loading.Transition
import FiberMachine.Proofs.World.History

/-!
# The registry of modules

Which module a name stands for, and which object each module has. A transition leaves both alone for
all modules that there are, apart from the name of a module that the host hands over
(`Context.preserves_advance`): a module that was found in files is registered only if its name is
not known by then. What a load by name yields is the object of the module (`Context.Yields.object`).
-/

namespace FiberMachine

/-- Which module a name stands for, and which object each module has. -/
structure Registry where
  names : Dict ModuleId
  objects : ModuleId → Option (Ref .object)

/-- A module is added under a name. -/
structure Registry.Enrolls (r : Registry) (name : String) (id : ModuleId) (r' : Registry) :
    Prop where
  names : r'.names = r.names.insert name id
  objects : ∀ other o, r.objects other = some o → r'.objects other = some o

/-- Modules keep their objects, and names that are not given again stand for the same modules. -/
structure Registry.Keeps (r : Registry) (supplied : Option LinkedModule) (r' : Registry) :
    Prop where
  names : ∀ name id, r.names.get? name = some id → (∀ linked ∈ supplied, linked.name ≠ name) →
    r'.names.get? name = some id
  objects : ∀ id o, r.objects id = some o → r'.objects id = some o

section Registry

variable {r r' : Registry} {supplied : Option LinkedModule}

theorem Registry.Keeps.of_eq (h : r' = r) : r.Keeps supplied r' :=
  h ▸ ⟨fun _ _ hid _ => hid, fun _ _ ho => ho⟩

/-- A new module has a name that is unknown or given again as told. -/
theorem Registry.Enrolls.keeps {name : String} {id : ModuleId} (H : r.Enrolls name id r')
    (hname : r.names.get? name = none ∨ ∃ linked ∈ supplied, linked.name = name) :
    r.Keeps supplied r' := by
  refine ⟨fun other known hknown hne => ?_, H.objects⟩
  have hother : other ≠ name := by
    rintro rfl
    rcases hname with hnone | ⟨linked, hlinked, heq⟩
    · exact nomatch hnone.symm.trans hknown
    · exact hne linked hlinked heq
  rw [H.names, Dict.get?_insert, if_neg hother]
  exact hknown

end Registry

/-! ## Machines -/

namespace Machine

def registry (m : Machine) : Registry := ⟨m.names, fun id => (m.module? id).map ModuleEntry.object⟩

variable (m : Machine)

theorem registry_setState (id : ModuleId) (s : ModuleState) :
    (m.setState id s).registry = m.registry := by
  have hobjects : (m.setState id s).registry.objects = m.registry.objects := by
    funext other
    simp only [registry, module?, setState, Array.getElem?_modify]
    split
    · rw [Option.map_map]
      rfl
    · rfl
  exact congrArg (Registry.mk m.names) hobjects

theorem isApart_registry : IsApart registry := ⟨fun _ _ => rfl, registry_setState⟩

/-- The modules that are new in the second machine are registered. -/
def Freshens (m m' : Machine) : Prop :=
  ∀ id s, m.state? id = none → m'.state? id = some s → s = .registered

variable {m} in
theorem freshens_of_registry {m' : Machine} (h : m'.registry = m.registry) : m.Freshens m' := by
  intro id s hnone hs
  have hobjects : (m'.module? id).map ModuleEntry.object = (m.module? id).map ModuleEntry.object :=
    congrArg (·.objects id) h
  obtain ⟨entry, hentry, _⟩ := Option.map_eq_some_iff.mp hs
  rw [hentry, Option.map_eq_none_iff.mp hnone] at hobjects
  exact nomatch hobjects

variable {m} in
theorem freshens_of_add {m' : Machine}
    (h : ∃ id, m.state? id = none ∧ m'.state? = Ledger.add m.state? id) : m.Freshens m' := by
  intro id s hnone hs
  obtain ⟨new, _, heq⟩ := h
  rw [heq, Ledger.add] at hs
  split at hs
  · exact (Option.some.inj hs).symm
  · cases hnone.symm.trans hs

theorem enrolls_addModule (entry : ModuleEntry) :
    m.registry.Enrolls entry.name (m.addModule entry).1 (m.addModule entry).2.registry := by
  refine ⟨rfl, fun other o ho => ?_⟩
  obtain ⟨old, hold, rfl⟩ := Option.map_eq_some_iff.mp ho
  have hne : other.index ≠ m.modules.size := Nat.ne_of_lt (Array.getElem?_eq_some_iff.mp hold).1
  have hold' : (m.addModule entry).2.module? other = some old := by
    simpa only [module?, addModule, Array.getElem?_push, if_neg hne] using hold
  exact Option.map_eq_some_iff.mpr ⟨old, hold', rfl⟩

theorem enrolls_register (linked : LinkedModule) :
    m.registry.Enrolls linked.name (m.register linked).1 (m.register linked).2.registry := by
  unfold register
  exact ⟨rfl, (enrolls_addModule _ _).objects⟩

theorem enrolls_registerNative (name : String) :
    m.registry.Enrolls name (m.registerNative name).1 (m.registerNative name).2.registry := by
  unfold registerNative
  exact ⟨rfl, (enrolls_addModule _ _).objects⟩

end Machine

/-! ## Contexts -/

/-- What was found has the name that it was looked for by. -/
def Activity.Named : Activity → Prop
  | .found name result _ => ∀ linked, result = .ok (some linked) → linked.name = name
  | _ => True

/-- The fiber executes, or an entry has an outcome. -/
def Activity.isUnderWay : Activity → Bool
  | .running _ _ | .replied _ _ => true
  | _ => false

namespace Context

/-- `c'` follows on `c` with the same registry, and the fiber executes or an entry has ended. -/
structure Goes (c c' : Context) : Prop where
  registry : c'.machine.registry = c.machine.registry
  activity : c'.fiber.activity.isUnderWay

/-- `c'` follows on `c` with the same registry. -/
structure Stays (c c' : Context) : Prop where
  registry : c'.machine.registry = c.machine.registry
  named : c'.fiber.activity.Named

/-- `c'` follows on `c`, and the registry is kept apart from the names that are given again. -/
structure Preserves (c : Context) (supplied : Option LinkedModule) (c' : Context) : Prop where
  registry : c.machine.registry.Keeps supplied c'.machine.registry
  fresh : c.machine.Freshens c'.machine
  named : c'.fiber.activity.Named

variable {c c' c'' : Context}

theorem Goes.after (H : c'.Goes c'') (h : c'.machine.registry = c.machine.registry) : c.Goes c'' :=
  ⟨H.registry.trans h, H.activity⟩

theorem Stays.after (H : c'.Stays c'') (h : c'.machine.registry = c.machine.registry) :
    c.Stays c'' := ⟨H.registry.trans h, H.named⟩

theorem Goes.stays (H : c.Goes c') : c.Stays c' := by
  refine ⟨H.registry, ?_⟩
  have hactivity := H.activity
  cases h : c'.fiber.activity with
  | found name result pending => exact nomatch h ▸ hactivity
  | _ => trivial

theorem Preserves.of_registry {supplied : Option LinkedModule}
    (h : c'.machine.registry = c.machine.registry) (hnamed : c'.fiber.activity.Named) :
    c.Preserves supplied c' := ⟨.of_eq h, Machine.freshens_of_registry h, hnamed⟩

theorem Stays.preserves (H : c.Stays c') (supplied : Option LinkedModule) :
    c.Preserves supplied c' := .of_registry H.registry H.named

theorem Goes.finish (c : Context) (result : Except Fault Value) (caller : Caller) :
    c.Goes (c.finish result caller) := by
  unfold Context.finish
  split <;> exact ⟨rfl, rfl⟩

theorem Goes.complete (c : Context) (result : Except Value Value) (base : Nat) (caller : Caller) :
    c.Goes (c.complete result base caller) := by
  obtain ⟨m, id, ⟨frames, meter, deadline, maxDepth, activity⟩⟩ := c
  have h := Machine.isApart_registry.complete m base result frames
  unfold Context.complete
  dsimp only
  generalize Machine.complete base m result frames = unwound at h
  obtain ⟨m', frames', finished⟩ := unwound
  match finished with
  | none => exact ⟨h, rfl⟩
  | some (.ok value) => exact (Goes.finish _ (.ok value) caller).after h
  | some (.error e) => exact (Goes.finish _ (.error (.exception e)) caller).after h

theorem Goes.raise (c : Context) (fault : Fault) (base : Nat) (caller : Caller) :
    c.Goes (c.raise fault base caller) := by
  unfold Context.raise
  dsimp only [envelope]
  split
  · split
    · exact ⟨rfl, rfl⟩
    · exact (Goes.complete ..).after rfl
  · exact (Goes.complete ..).after rfl

theorem Goes.abandon (c : Context) (fault : Fault) (base : Nat) (caller : Caller) :
    c.Goes (c.abandon fault base caller) := by
  unfold Context.abandon
  split
  · exact .finish ..
  · exact (Goes.finish ..).after (Machine.isApart_registry.discard c.machine base c.fiber.frames)

theorem Goes.fail (c : Context) (fault : Fault) (base : Nat) (caller : Caller) :
    c.Goes (c.fail fault base caller) := by
  unfold Context.fail
  split
  · exact .abandon ..
  · exact .raise ..

theorem Goes.deliver (c : Context) (value : Value) (base : Nat) (caller : Caller) :
    c.Goes (c.deliver value base caller) := by
  unfold Context.deliver
  split
  · exact ⟨rfl, rfl⟩
  · exact .raise ..

theorem Goes.enter (c : Context) (frame : Frame) (pending : Pending) :
    c.Goes (c.enter frame pending) := by
  unfold Context.enter
  split
  · split
    · exact .raise ..
    · exact ⟨rfl, rfl⟩
  · split
    · exact .finish ..
    · exact ⟨rfl, rfl⟩

theorem Stays.proceed (c : Context) (invocation : Machine.Invocation) (pending : Pending) :
    c.Stays (c.proceed invocation pending) := by
  cases invocation with
  | complete value => exact ⟨rfl, trivial⟩
  | enter frame => exact (Goes.enter c frame pending).stays
  | run program => exact ⟨rfl, trivial⟩
  | fail fault => exact ⟨rfl, trivial⟩

theorem Stays.call (c : Context) (callable receiver : Value) (args : Arguments)
    (pending : Pending) : c.Stays (c.call callable receiver args pending) :=
  (Stays.proceed ⟨_, c.id, c.fiber⟩ _ pending).after
    (Machine.isApart_registry.prepareCall c.machine callable receiver args)

theorem Stays.invoke (c : Context) (target : Value) (name : String) (args : Arguments)
    (pending : Pending) : c.Stays (c.invoke target name args pending) :=
  (Stays.proceed ⟨_, c.id, c.fiber⟩ _ pending).after
    (Machine.isApart_registry.prepareInvoke c.machine target name args c.fiber.currentModule?)

theorem Stays.instruct (c : Context) {base : Nat} {caller : Caller}
    (h : c.fiber.activity = .running base caller) : c.Stays (c.instruct base caller) := by
  obtain ⟨m, id, ⟨frames, meter, deadline, maxDepth, activity⟩⟩ := c
  cases h
  cases frames with
  | nil =>
    unfold Context.instruct
    exact (Goes.raise ..).stays
  | cons frame rest =>
    simp only [Context.instruct, Machine.onHeap]
    generalize Exec.step.run ⟨m.heap, frame⟩ = stepped
    obtain ⟨action, ⟨heap, frame'⟩⟩ := stepped
    cases action with
    | error fault => exact (Goes.fail ..).stays.after rfl
    | ok action =>
      cases action with
      | next | load name => exact ⟨rfl, trivial⟩
      | call callable receiver args negate => exact (Stays.call ..).after rfl
      | invoke target name args => exact (Stays.invoke ..).after rfl
      | «return» value => exact (Goes.complete ..).stays.after rfl

theorem Stays.run (c : Context) {base : Nat} {caller : Caller}
    (h : c.fiber.activity = .running base caller) : c.Stays (c.run base caller) := by
  unfold Context.run
  split
  · exact (Goes.abandon ..).stays
  · rename_i meter charged _
    dsimp only
    split
    · exact (Goes.abandon ..).stays.after rfl
    · exact (Stays.instruct ⟨c.machine, c.id, { c.fiber with meter }⟩ h).after rfl

/-! ### Entries and programs -/

theorem preserves_start (c : Context) (entry : Entry) (caller : Caller) :
    c.Preserves entry.supplied? (c.start entry caller) := by
  cases entry with
  | execute linked limit =>
    have H := c.machine.enrolls_register linked
    have hfresh := Machine.freshens_of_add (c.machine.state?_register linked)
    cases limit with
    | unrepresentable => exact .of_registry rfl trivial
    | unlimited | deadline d => exact ⟨H.keeps (.inr ⟨linked, rfl, rfl⟩), hfresh, trivial⟩
  | load name => exact .of_registry rfl trivial
  | call callable receiver args => exact (Stays.call ..).preserves _
  | invoke target name args => exact (Stays.invoke ..).preserves _
  | resume limit =>
    have resumed (deadline : Option Deadline) : c.Stays ⟨c.machine, c.id, { c.fiber with
        deadline
        activity := if c.fiber.frames.isEmpty then .replied (.ok .null) caller
          else .running 0 caller }⟩ := by
      cases c.fiber.frames.isEmpty <;> exact ⟨rfl, trivial⟩
    cases limit with
    | unrepresentable => exact .of_registry rfl trivial
    | unlimited | deadline d => exact (resumed _).preserves _

theorem preserves_step (c : Context) (program : Program) (purpose : Purpose) :
    c.Preserves program.supplied? (c.step program purpose) := by
  cases program with
  | finish result =>
    refine Stays.preserves ?_ _
    cases purpose with
    | call pending => exact ⟨rfl, trivial⟩
    | load id pending =>
      cases result with
      | ok value => exact ⟨Machine.isApart_registry.finishModule c.machine id none, trivial⟩
      | error fault =>
        let raised := c.envelope (if fault.isFatal then .moduleFailed else fault)
        exact ⟨Machine.isApart_registry.finishModule raised.2.machine id (some raised.1), trivial⟩
  | enter entry next => exact c.preserves_start entry (.program next purpose)
  | newArray values next | newObject next | newFunction name module routine next
  | read target next | backtrace next => exact .of_registry rfl trivial
  | configure setting next => cases setting <;> exact .of_registry rfl trivial
  | update target update next =>
    simp only [Context.step]
    split <;> exact .of_registry rfl trivial

/-! ### Modules -/

theorem preserves_find (c : Context) (name : String) (pending : Pending) :
    c.Preserves none (c.find name pending) := by
  unfold Context.find
  split
  · exact .of_registry rfl trivial
  · rename_i hnone
    dsimp only
    split
    · exact ⟨(c.machine.enrolls_registerNative name).keeps (.inl hnone),
        Machine.freshens_of_add (c.machine.state?_registerNative name), trivial⟩
    · exact .of_registry rfl fun _ h => (Finder.finds_of_resolve h).2

theorem preserves_adopt (c : Context) {name : String}
    {result : Except FinderError (Option LinkedModule)} (pending : Pending)
    (h : ∀ linked, result = .ok (some linked) → linked.name = name) :
    c.Preserves none (c.adopt name result pending) := by
  unfold Context.adopt
  split
  · rename_i linked
    split
    · exact .of_registry rfl trivial
    · -- Nobody has registered the name since the search began.
      rename_i hnone
      refine ⟨(c.machine.enrolls_register linked).keeps (.inl ?_),
        Machine.freshens_of_add (c.machine.state?_register linked), trivial⟩
      exact h linked rfl ▸ hnone
  all_goals exact .of_registry rfl trivial

/-- A module that starts to load is not answered with a value at once. -/
theorem stays_load (c : Context) (id : ModuleId) (entry : ModuleEntry) (object : Bool)
    (pending : Pending) : c.Stays (c.load id entry object pending) ∧
      ∀ value pending',
        (c.load id entry object pending).fiber.activity ≠ .answered (.ok value) pending' := by
  have hloading := c.machine.registry_setState id (.loading c.id)
  unfold Context.load
  cases entry.body with
  | none => exact ⟨⟨hloading, trivial⟩, fun _ _ h => nomatch h⟩
  | some code =>
    dsimp only [Machine.onHeap]
    generalize Heap.newFunction _ _ = allocated
    generalize Frame.bind allocated.2 _ _ _ _ _ _ = bound
    obtain ⟨bound, heap⟩ := bound
    cases bound with
    | ok frame =>
      have H := Goes.enter ⟨{ c.machine.setState id (.loading c.id) with heap }, c.id, c.fiber⟩
        { frame with continuation := .module id object } pending
      refine ⟨H.stays.after hloading, fun value pending' h => ?_⟩
      exact nomatch h ▸ H.activity
    | error fault =>
      let m := { c.machine.setState id (.loading c.id) with heap }
      let raised := envelope ⟨m, c.id, c.fiber⟩ fault
      have hfinished := Machine.isApart_registry.finishModule raised.2.machine id (some raised.1)
      exact ⟨⟨hfinished.trans hloading, trivial⟩, fun _ _ h => nomatch h⟩

theorem stays_enterModule (c : Context) (id : ModuleId) (object : Bool) (pending : Pending) :
    c.Stays (c.enterModule id object pending) := by
  unfold Context.enterModule
  split
  · exact ⟨rfl, trivial⟩
  · split
    · exact ⟨rfl, trivial⟩
    · exact ⟨rfl, trivial⟩
    · split
      · exact ⟨rfl, trivial⟩
      · split <;> exact ⟨rfl, trivial⟩
    · exact (stays_load ..).1

/-- **A transition keeps modules under their names**, if the host does not give the names again. -/
theorem preserves_advance (c : Context) (h : c.fiber.activity.Named) :
    c.Preserves c.supplied? c.advance := by
  obtain ⟨m, id, ⟨frames, meter, deadline, maxDepth, activity⟩⟩ := c
  cases activity with
  | idle => exact .of_registry rfl trivial
  | running base caller => exact (Stays.run _ rfl).preserves _
  | program program purpose => exact preserves_step _ program purpose
  | finding name pending => exact preserves_find _ name pending
  | found name result pending => exact preserves_adopt _ pending h
  | entering module object pending => exact (stays_enterModule ..).preserves _
  | waiting module object pending =>
    refine Stays.preserves ?_ _
    simp only [Context.advance, Context.wake]
    split <;> exact ⟨rfl, trivial⟩
  | answered result pending =>
    refine (Goes.stays ?_).preserves _
    cases pending with
    | entry caller =>
      cases result with
      | ok value => exact .finish _ (.ok value) caller
      | error fault => exact .finish _ (.error fault) caller
    | instruction base negate caller =>
      cases result with
      | ok value => exact .deliver ..
      | error fault => exact .fail ..
  | replied outcome caller => cases caller <;> exact .of_registry rfl trivial

/-! ## Resolving names -/

/-- The module that the next transition resolves a name to. -/
def resolved? (c : Context) : Option (String × ModuleId) :=
  match c.fiber.activity, c.advance.fiber.activity with
  | .finding name _, .entering id _ _ => some (name, id)
  | .found name _ _, .entering id _ _ => some (name, id)
  | _, _ => none

theorem not_isSettled_of_resolved? {name : String} {id : ModuleId}
    (h : c.resolved? = some (name, id)) : ¬ c.isSettled := by
  unfold resolved? at h
  split at h
  · rename_i hactivity _
    simp only [isSettled, hactivity, Bool.false_eq_true, not_false_eq_true]
  · rename_i hactivity _
    simp only [isSettled, hactivity, Bool.false_eq_true, not_false_eq_true]
  · cases h

theorem find_entering {name : String} {pending pending' : Pending} {id : ModuleId} {object : Bool}
    (h : (c.find name pending).fiber.activity = .entering id object pending') :
    (∀ known, c.machine.names.get? name = some known → known = id) ∧
      (c.find name pending).machine.names.get? name = some id := by
  unfold Context.find at h ⊢
  split at h
  · rename_i known hknown
    cases h
    simp only [hknown]
    exact ⟨fun _ h => (Option.some.inj h).symm, hknown⟩
  · rename_i hnone
    simp only [hnone]
    refine ⟨nofun, ?_⟩
    dsimp only at h ⊢
    split at h
    · rename_i hnative
      cases h
      simp only [if_pos hnative]
      exact (congrArg (Dict.get? · name) (c.machine.enrolls_registerNative name).names).trans
        (Dict.get?_insert_self ..)
    · exact nomatch h

theorem adopt_entering {name : String} {result : Except FinderError (Option LinkedModule)}
    {pending pending' : Pending} {id : ModuleId} {object : Bool}
    (hnamed : ∀ linked, result = .ok (some linked) → linked.name = name)
    (h : (c.adopt name result pending).fiber.activity = .entering id object pending') :
    (∀ known, c.machine.names.get? name = some known → known = id) ∧
      (c.adopt name result pending).machine.names.get? name = some id := by
  unfold Context.adopt at h ⊢
  split at h
  · rename_i linked
    split at h
    · rename_i known hknown
      cases h
      simp only [hknown]
      exact ⟨fun _ h => (Option.some.inj h).symm, hknown⟩
    · rename_i hnone
      cases h
      simp only [hnone]
      refine ⟨nofun, ?_⟩
      have henrolls := (c.machine.enrolls_register linked).names
      rw [hnamed linked rfl] at henrolls
      exact (congrArg (Dict.get? · name) henrolls).trans (Dict.get?_insert_self ..)
  all_goals exact nomatch h

/-- A name is resolved to the module that it stands for, and stands for this module then. -/
theorem resolved_names (hnamed : c.fiber.activity.Named) {name : String} {id : ModuleId}
    (h : c.resolved? = some (name, id)) :
    (∀ known, c.machine.names.get? name = some known → known = id) ∧
      c.advance.machine.names.get? name = some id := by
  unfold resolved? at h
  unfold Context.advance at h ⊢
  split at h
  · rename_i hactivity hentering
    cases h
    simp only [hactivity] at hentering ⊢
    exact find_entering hentering
  · rename_i hactivity hentering
    cases h
    simp only [hactivity] at hentering ⊢
    rw [hactivity] at hnamed
    exact adopt_entering hnamed hentering
  · cases h

/-! ## What loads yield -/

/-- A load of the module by name ends successfully in the next transition, and yields the value. -/
inductive Yields (c : Context) (id : ModuleId) (value : Value) : Prop where
  /-- The module is loaded, or the fiber itself is loading it. -/
  | entered {pending pending' : Pending} : c.fiber.activity = .entering id true pending →
      c.advance.fiber.activity = .answered (.ok value) pending' → c.Yields id value
  /-- The native initializer ends. -/
  | initialized {result : Value} {pending pending' : Pending} :
      c.fiber.activity = .program (.finish (.ok result)) (.load id pending) →
      c.advance.fiber.activity = .answered (.ok value) pending' → c.Yields id value
  /-- The top-level code returns to who started the run. -/
  | returned {base : Nat} {caller caller' : Caller} {top : Frame} {rest : List Frame}
      {result : Value} : c.fiber.activity = .running base caller → c.fiber.frames = top :: rest →
      top.continuation = .module id true →
      (Exec.step.run ⟨c.machine.heap, top⟩).1 = .ok (.return result) →
      c.advance.fiber.activity = .replied (.ok value) caller' → c.Yields id value
  /-- The top-level code returns to the instruction that loads the module. -/
  | delivered {base base' : Nat} {caller caller' : Caller} {top frame : Frame} {below : List Frame}
      {result : Value} : c.fiber.activity = .running base caller →
      c.fiber.frames = top :: frame :: below → top.continuation = .module id true →
      (Exec.step.run ⟨c.machine.heap, top⟩).1 = .ok (.return result) →
      c.advance.fiber.activity = .running base' caller' →
      c.advance.fiber.frames = frame.deliver value :: below → c.Yields id value

/-- The module that is entered in the next transition, and the value that it yields at once. -/
def entered? (c : Context) : Option (ModuleId × Value) :=
  match c.fiber.activity, c.advance.fiber.activity with
  | .entering id true _, .answered (.ok value) _ => some (id, value)
  | _, _ => none

theorem yields_of_entered? {id : ModuleId} {value : Value} (h : c.entered? = some (id, value)) :
    c.Yields id value := by
  unfold entered? at h
  split at h
  · rename_i hactivity hanswered
    cases h
    exact .entered hactivity hanswered
  · exact nomatch h

/-- A module that is entered with success is there. -/
theorem objects_of_answered {id : ModuleId} {object : Bool} {pending pending' : Pending}
    {value : Value} (hactivity : c.fiber.activity = .entering id object pending)
    (hanswered : c.advance.fiber.activity = .answered (.ok value) pending') :
    ∃ o, c.machine.registry.objects id = some o := by
  cases hentry : c.machine.module? id with
  | none =>
    simp only [Context.advance, hactivity, Context.enterModule, hentry] at hanswered
    exact nomatch hanswered
  | some entry => exact ⟨entry.object, Option.map_eq_some_iff.mpr ⟨entry, hentry, rfl⟩⟩

theorem conclude_module {m : Machine} {id : ModuleId} {o : Ref .object}
    (h : m.registry.objects id = some o) (result : Value) :
    (m.conclude (.module id true) (.ok result)).1 = .ok (.object o) := by
  have hfinished : (m.finishModule id none).registry.objects id = some o :=
    (congrArg (·.objects id) (Machine.isApart_registry.finishModule m id none)).trans h
  obtain ⟨entry, hentry, rfl⟩ := Option.map_eq_some_iff.mp hfinished
  simp only [Machine.conclude, hentry]

/-- A module's frame that returns hands the module object to who started the run or waits for it. -/
theorem complete_module {m : Machine} {id : ModuleId} {top : Frame} {o : Ref .object}
    (h : m.registry.objects id = some o) (htop : top.continuation = .module id true)
    (rest : List Frame) (base : Nat) (result : Value) :
    (∃ m', Machine.complete base m (.ok result) (top :: rest) =
      ⟨m', rest, some (.ok (.object o))⟩) ∨
    ∃ m' frame below, rest = frame :: below ∧ Machine.complete base m (.ok result) (top :: rest) =
      ⟨m', frame.deliver (.object o) :: below, none⟩ := by
  have hconcluded := conclude_module h result
  rw [← htop] at hconcluded
  unfold Machine.complete
  generalize m.conclude top.continuation (.ok result) = concluded at hconcluded
  obtain ⟨result, m'⟩ := concluded
  cases hconcluded
  dsimp only
  split
  · exact .inl ⟨m', rfl⟩
  · cases rest with
    | nil => exact .inl ⟨m', rfl⟩
    | cons frame below => exact .inr ⟨m', frame, below, rfl, rfl⟩

/-- A run that is interrupted ends its entry with an error. -/
theorem abandon_replied (c : Context) {fault : Fault} (h : fault = .noBudget ∨ fault = .timeout)
    (base : Nat) (caller : Caller) :
    ∃ failure, (c.abandon fault base caller).fiber.activity = .replied (.error failure) caller := by
  unfold Context.abandon
  rcases h with rfl | rfl
  · exact ⟨.noBudget, by split <;> rfl⟩
  · exact ⟨.timeout, by split <;> rfl⟩

/-- What a run does whose top frame, of a module, is about to return. -/
theorem run_returning {base : Nat} {caller : Caller} {top : Frame} {rest : List Frame}
    {id : ModuleId} {o : Ref .object} {result : Value} (hframes : c.fiber.frames = top :: rest)
    (hobject : c.machine.registry.objects id = some o) (htop : top.continuation = .module id true)
    (hstep : (Exec.step.run ⟨c.machine.heap, top⟩).1 = .ok (.return result)) :
    (∃ failure, (c.run base caller).fiber.activity = .replied (.error failure) caller) ∨
    (c.run base caller).fiber.activity = .replied (.ok (.object o)) caller ∨
    ∃ frame below, rest = frame :: below ∧
      (c.run base caller).fiber.activity = .running base caller ∧
      (c.run base caller).fiber.frames = frame.deliver (.object o) :: below := by
  unfold Context.run
  split
  · exact .inl (c.abandon_replied (.inl rfl) base caller)
  · dsimp only
    split
    · exact .inl (abandon_replied _ (.inr rfl) base caller)
    · refine .inr ?_
      obtain ⟨m, self, ⟨frames, meter, deadline, maxDepth, activity⟩⟩ := c
      cases hframes
      have hsame := (Exec.keeps_step.same ⟨m.heap, top⟩).continuation
      simp only [Context.instruct, Machine.onHeap]
      rcases hstepped : Exec.step.run ⟨m.heap, top⟩ with ⟨action, ⟨heap, top'⟩⟩
      rw [hstepped] at hstep hsame
      cases hstep
      simp only [Context.complete]
      have hobject' : Registry.objects (Machine.registry { m with heap }) id = some o := hobject
      rcases complete_module hobject' (hsame.trans htop) rest base result with
        ⟨m', heq⟩ | ⟨m', frame, below, rfl, heq⟩
      · rw [heq]
        exact .inl rfl
      · rw [heq]
        exact .inr ⟨frame, below, rfl, rfl, rfl⟩

/-- **A load by name yields the object of the module.** -/
theorem Yields.object {id : ModuleId} {value : Value} {o : Ref .object}
    (h : c.Yields id value) (ho : c.machine.registry.objects id = some o) :
    value = .object o := by
  cases h with
  | @entered pending pending' hactivity hanswered =>
    obtain ⟨entry, hentry, rfl⟩ := Option.map_eq_some_iff.mp ho
    simp only [Context.advance, hactivity, Context.enterModule, hentry] at hanswered
    split at hanswered
    · cases hanswered
      rfl
    · cases hanswered
    · split at hanswered
      · cases hanswered
        rfl
      · split at hanswered <;> cases hanswered
    · exact absurd hanswered ((c.stays_load id entry true pending).2 value pending')
  | @initialized result pending pending' hactivity hanswered =>
    have hfinished : (c.machine.finishModule id none).registry.objects id = some o :=
      (congrArg (·.objects id) (Machine.isApart_registry.finishModule c.machine id none)).trans ho
    obtain ⟨entry, hentry, rfl⟩ := Option.map_eq_some_iff.mp hfinished
    simp only [Context.advance, hactivity, Context.step, hentry] at hanswered
    cases hanswered
    rfl
  | @returned base caller caller' top rest result hactivity hframes htop hstep hreplied =>
    have hrun : c.advance = c.run base caller := by rw [Context.advance, hactivity]
    rw [hrun] at hreplied
    rcases run_returning hframes ho htop hstep with
      ⟨failure, hfailed⟩ | hobject | ⟨_, _, _, hrunning, _⟩
    · cases hfailed.symm.trans hreplied
    · cases hobject.symm.trans hreplied
      rfl
    · cases hrunning.symm.trans hreplied
  | @delivered base base' caller caller' top frame below result hactivity hframes htop hstep
      hrunning hdelivered =>
    have hrun : c.advance = c.run base caller := by rw [Context.advance, hactivity]
    rw [hrun] at hrunning hdelivered
    rcases run_returning hframes ho htop hstep with
      ⟨failure, hfailed⟩ | hobject | ⟨_, _, hrest, _, hframes'⟩
    · cases hfailed.symm.trans hrunning
    · cases hobject.symm.trans hrunning
    · cases hrest
      have hframe := (List.cons.inj (hframes'.symm.trans hdelivered)).1
      exact (List.cons.inj (congrArg Frame.stack hframe)).1.symm

end Context

end FiberMachine
