import FiberMachine.Proofs.Execution.Instruction
import FiberMachine.Proofs.Execution.Slots
import FiberMachine.Proofs.Loading.Ledger

/-!
# Transitions and the ledger of loads

Each part of a transition comes down to moves of the fiber's ledger. A transition as a whole refuses
at most the one module that `Context.refused?` tells beforehand (`Context.advance_leads`).
-/

namespace FiberMachine

open Ledger (Moves)

/-! ## Module states -/

namespace Machine

variable (m : Machine)

theorem state?_setState (id : ModuleId) (s : ModuleState) :
    (m.setState id s).state? = Ledger.update m.state? id s := by
  funext other
  simp only [state?, module?, setState, Ledger.update, Array.getElem?_modify]
  by_cases h : other = id
  · subst h
    simp [Function.comp_def]
  · have hne : id.index ≠ other.index := fun h' => h (by cases other; cases id; simp_all)
    simp [h, hne]

/-- A module whose load has ended is loaded, or it failed with the error that there was. -/
theorem state?_finishModule_eq (id : ModuleId) (error : Option Value) :
    (m.finishModule id error).state? = Ledger.update m.state? id (error.elim .loaded .failed) := by
  rw [← state?_setState]
  cases error with
  | none | some =>
    unfold finishModule
    dsimp only
    split <;> rfl

theorem state?_finishModule (id : ModuleId) (error : Option Value) :
    ∃ s : ModuleState, s.Ended ∧
      (m.finishModule id error).state? = Ledger.update m.state? id s := by
  refine ⟨error.elim .loaded .failed, ?_, m.state?_finishModule_eq id error⟩
  cases error <;> trivial

theorem state?_addModule (entry : ModuleEntry) (h : entry.state = .registered) :
    m.state? (m.addModule entry).1 = none ∧
      (m.addModule entry).2.state? = Ledger.add m.state? (m.addModule entry).1 := by
  refine ⟨by simp [state?, module?, addModule], funext fun other => ?_⟩
  simp only [state?, module?, addModule, Ledger.add, Array.getElem?_push]
  by_cases hother : other = ⟨m.modules.size⟩
  · simp [hother, h]
  · have hne : other.index ≠ m.modules.size := fun h' => hother (by cases other; simp_all)
    simp [hother, hne]

theorem state?_register (linked : LinkedModule) :
    ∃ id, m.state? id = none ∧ (m.register linked).2.state? = Ledger.add m.state? id := by
  unfold register
  refine ⟨_, state?_addModule _ _ ?_⟩
  rfl

theorem state?_registerNative (name : String) :
    ∃ id, m.state? id = none ∧ (m.registerNative name).2.state? = Ledger.add m.state? id := by
  unfold registerNative
  refine ⟨_, state?_addModule _ _ ?_⟩
  rfl

end Machine

/-! ## Frames -/

theorem frameLoads_cons (top : Frame) (rest : List Frame) :
    frameLoads (top :: rest) = top.load?.toList ++ frameLoads rest := by
  unfold frameLoads
  cases h : top.load? <;> simp [h]

theorem Frame.SameActivation.load?_eq {f g : Frame} (H : f.SameActivation g) :
    g.load? = f.load? := by
  rw [Frame.load?, H.continuation, Frame.load?]

theorem frameLoads_cons_congr {f g : Frame} (h : g.load? = f.load?) (rest : List Frame) :
    frameLoads (g :: rest) = frameLoads (f :: rest) := by
  rw [frameLoads_cons, frameLoads_cons, h]

theorem Frame.load?_of_handle? {f g : Frame} {e : Value} (h : f.handle? e = some g) :
    g.load? = f.load? := by
  obtain ⟨_, _, rfl⟩ := Option.map_eq_some_iff.mp h
  rfl

/-- A new frame, if the arguments fit, loads nothing. -/
theorem Frame.load?_of_bind (h : Heap) (function : Ref .function) (code : Code)
    (captures : List (Ref .cell)) (scope : Scope) (receiver : Value) (args : Arguments) :
    (∃ fault, (Frame.bind h function code captures scope receiver args).1 = .error fault ∧
      code.signature.mismatch? args = some fault) ∨
    ∃ frame, (Frame.bind h function code captures scope receiver args).1 = .ok frame ∧
      frame.load? = none ∧ code.signature.mismatch? args = none := by
  rcases Frame.bind_cases h function code captures scope receiver args with
    ⟨fault, hfault, hbind⟩ | ⟨hfits, _, _, _, -, -, hbind⟩
  · rw [hbind]
    exact .inl ⟨fault, rfl, hfault⟩
  · rw [hbind]
    exact .inr ⟨_, rfl, rfl, hfits⟩

namespace Machine

variable {f : FiberId} {loads : List ModuleId}

/-- The load that the top frame carries ends. -/
theorem finishModule_moves (m : Machine) {top : Frame} (rest : List Frame) {id : ModuleId}
    (h : top.load? = some id) (error : Option Value) :
    Moves f ⟨m.state?, loads ++ frameLoads (top :: rest)⟩ []
      ⟨(m.finishModule id error).state?, loads ++ frameLoads rest⟩ := by
  obtain ⟨s, hs, heq⟩ := m.state?_finishModule id error
  rw [heq, frameLoads_cons, h]
  exact .finish .refl List.perm_middle hs

/-- A frame that completes ends the load that it carries. -/
theorem conclude_moves (m : Machine) (top : Frame) (rest : List Frame)
    (result : Except Value Value) :
    Moves f ⟨m.state?, loads ++ frameLoads (top :: rest)⟩ []
      ⟨(m.conclude top.continuation result).2.state?, loads ++ frameLoads rest⟩ := by
  have none_moves (h : top.load? = none) :
      Moves f ⟨m.state?, loads ++ frameLoads (top :: rest)⟩ []
        ⟨m.state?, loads ++ frameLoads rest⟩ := by
    rw [frameLoads_cons, h]
    exact .refl
  cases hc : top.continuation with
  | result => exact none_moves (by rw [Frame.load?, hc])
  | negated =>
    have h := none_moves (by rw [Frame.load?, hc])
    cases result <;> exact h
  | module id object =>
    have hload : top.load? = some id := by rw [Frame.load?, hc]
    cases result with
    | error e => exact m.finishModule_moves rest hload (some e)
    | ok value =>
      simp only [conclude]
      split <;> exact m.finishModule_moves rest hload none

theorem complete_moves (base : Nat) (m : Machine) (result : Except Value Value)
    (frames : List Frame) :
    Moves f ⟨m.state?, loads ++ frameLoads frames⟩ []
      ⟨(complete base m result frames).machine.state?,
        loads ++ frameLoads (complete base m result frames).frames⟩ := by
  induction frames generalizing m result with
  | nil => exact .refl
  | cons top rest ih =>
    have h : Moves f ⟨m.state?, loads ++ frameLoads (top :: rest)⟩ [] _ :=
      m.conclude_moves top rest result
    unfold complete
    generalize m.conclude top.continuation result = concluded at h
    obtain ⟨result, m'⟩ := concluded
    dsimp only at h ⊢
    split
    · exact h
    · cases rest with
      | nil => cases result <;> exact h
      | cons frame below =>
        cases result with
        | ok value => exact h
        | error e =>
          dsimp only
          split
          · rename_i frame' hframe
            rw [frameLoads_cons_congr (Frame.load?_of_handle? hframe)]
            exact h
          · exact h.trans (ih m' (.error e))

theorem discard_moves (base : Nat) (m : Machine) (frames : List Frame) :
    Moves f ⟨m.state?, loads ++ frameLoads frames⟩ []
      ⟨(discard base m frames).1.state?, loads ++ frameLoads (discard base m frames).2⟩ := by
  induction frames generalizing m with
  | nil => exact .refl
  | cons top rest ih =>
    unfold discard
    split
    · exact .refl
    · cases hc : top.continuation with
      | result | negated =>
        rw [frameLoads_cons, Frame.load?, hc]
        exact ih m
      | module id object =>
        have hload : top.load? = some id := by rw [Frame.load?, hc]
        refine Moves.trans ?_ (ih _)
        exact finishModule_moves (m.onHeap (·.envelope rest .moduleFailed)).2 rest hload _

theorem register_moves (m : Machine) (linked : LinkedModule) :
    Moves f ⟨m.state?, loads⟩ [] ⟨(m.register linked).2.state?, loads⟩ := by
  obtain ⟨id, hnew, heq⟩ := m.state?_register linked
  rw [heq]
  exact .register .refl hnew

theorem registerNative_moves (m : Machine) (name : String) :
    Moves f ⟨m.state?, loads⟩ [] ⟨(m.registerNative name).2.state?, loads⟩ := by
  obtain ⟨id, hnew, heq⟩ := m.state?_registerNative name
  rw [heq]
  exact .register .refl hnew

/-- The frame that a call executes, if it does, loads nothing. -/
def Invocation.Loadless : Invocation → Prop
  | .enter frame => frame.load? = none
  | _ => True

theorem prepareCall_loadless (m : Machine) (callable receiver : Value) (args : Arguments) :
    (m.prepareCall callable receiver args).1.Loadless ∧
      (m.prepareCall callable receiver args).2.state? = m.state? := by
  cases callable with
  | function r =>
    simp only [prepareCall]
    cases m.heap.function? r with
    | none => exact ⟨trivial, rfl⟩
    | some f =>
      dsimp only
      cases f.body with
      | native name routine => exact ⟨trivial, rfl⟩
      | interpreted code captures =>
        dsimp only
        cases f.module.bind m.scope? with
        | none => exact ⟨trivial, rfl⟩
        | some scope =>
          dsimp only [onHeap]
          have hbind := Frame.load?_of_bind m.heap r code captures scope
            (if f.receiver.isNull then receiver else f.receiver) args
          generalize Frame.bind m.heap r code captures scope _ args = bound at hbind
          obtain ⟨bound, heap⟩ := bound
          rcases hbind with ⟨fault, rfl, _⟩ | ⟨frame, rfl, hload, _⟩
          · exact ⟨trivial, rfl⟩
          · exact ⟨hload, rfl⟩
  | template r =>
    simp only [prepareCall]
    cases m.heap.template? r with
    | none => exact ⟨trivial, rfl⟩
    | some t =>
      dsimp only [onHeap]
      split <;> (rename_i h; obtain ⟨_, rfl⟩ := Prod.mk.inj h; exact ⟨trivial, rfl⟩)
  | _ => exact ⟨trivial, rfl⟩

theorem prepareInvoke_loadless (m : Machine) (target : Value) (name : String) (args : Arguments)
    (caller : Option ModuleId) :
    (m.prepareInvoke target name args caller).1.Loadless ∧
      (m.prepareInvoke target name args caller).2.state? = m.state? := by
  unfold prepareInvoke
  split
  · split
    · exact ⟨trivial, rfl⟩
    · split
      · exact m.prepareCall_loadless ..
      · exact ⟨trivial, rfl⟩
  · split <;> exact ⟨trivial, rfl⟩

end Machine

/-! ## Contexts -/

/-- The result is not negated before it is delivered. -/
def Pending.Plain : Pending → Prop
  | .instruction _ negate _ => negate = false
  | .entry _ => True

def Pending.caller : Pending → Caller
  | .instruction _ _ caller | .entry caller => caller

theorem Pending.loads_caller (pending : Pending) : pending.caller.loads = pending.loads := by
  cases pending <;> rfl

/-- Modules are entered for results that are not negated, and only some are waited for. -/
def Activity.Plain (awaited : ModuleId → Prop) : Activity → Prop
  | .finding _ pending | .found _ _ pending | .entering _ _ pending => pending.Plain
  | .waiting id _ pending => awaited id ∧ pending.Plain
  | _ => True

theorem Activity.Plain.mono {P Q : ModuleId → Prop} (h : ∀ id, P id → Q id) {activity : Activity}
    (H : activity.Plain P) : activity.Plain Q := by
  cases activity with
  | waiting id object pending => exact ⟨h id H.1, H.2⟩
  | _ => exact H

/-- Whether a module's frame, if it loads now, is refused by the fiber's depth limit. -/
def ModuleEntry.isRefused (entry : ModuleEntry) (f : Fiber) : Bool :=
  match entry.body with
  | some code => (code.signature.mismatch? {}).isNone && f.isFull
  | none => false

namespace Context

def ledger (c : Context) : Ledger := ⟨c.machine.state?, c.fiber.loads⟩

/-- The ledger of a fiber that is about to go on inside the given native initializers. -/
def ledgerWith (c : Context) (loads : List ModuleId) : Ledger :=
  ⟨c.machine.state?, loads ++ frameLoads c.fiber.frames⟩

/--
`c'` follows on `c` with moves of the ledger, `loads` being the native loads in between. If it waits
then for a module that another fiber is loading.
-/
structure Leads (c : Context) (loads refused : List ModuleId) (c' : Context) : Prop where
  id : c'.id = c.id
  moves : Moves c.id (c.ledgerWith loads) refused c'.ledger
  plain : c'.fiber.activity.Plain fun id =>
    ∃ g, g ≠ c'.id ∧ c'.machine.state? id = some (.loading g)

variable {c c' c'' : Context} {loads refused : List ModuleId}

/-- Moves that come before. -/
theorem Leads.after {loads' refused' : List ModuleId} (H : c'.Leads loads' refused' c'')
    (hid : c'.id = c.id) (h : Moves c.id (c.ledgerWith loads) refused (c'.ledgerWith loads')) :
    c.Leads loads (refused' ++ refused) c'' :=
  ⟨H.id.trans hid, h.trans (hid ▸ H.moves), H.plain⟩

/-- A change that comes before and leaves the ledger as it is. -/
theorem Leads.of_eq (H : c'.Leads loads refused c'') (hid : c'.id = c.id)
    (h : c'.ledgerWith loads = c.ledgerWith loads) : c.Leads loads refused c'' :=
  List.append_nil refused ▸ H.after hid (h ▸ .refl)

theorem Leads.answer (c : Context) (result : Except Fault Value) (pending : Pending) :
    c.Leads pending.loads [] (c.answer result pending) := ⟨rfl, .refl, trivial⟩

theorem Leads.finish (c : Context) (result : Except Fault Value) (caller : Caller) :
    c.Leads caller.loads [] (c.finish result caller) := by
  unfold Context.finish
  split <;> exact ⟨rfl, .refl, trivial⟩

theorem Leads.complete (c : Context) (result : Except Value Value) (base : Nat) (caller : Caller) :
    c.Leads caller.loads [] (c.complete result base caller) := by
  obtain ⟨m, id, ⟨frames, meter, deadline, maxDepth, activity⟩⟩ := c
  have h : Moves id ⟨m.state?, caller.loads ++ frameLoads frames⟩ [] _ :=
    m.complete_moves base result frames
  unfold Context.complete
  dsimp only
  generalize Machine.complete base m result frames = unwound at h
  obtain ⟨m', frames', finished⟩ := unwound
  match finished with
  | none => exact ⟨rfl, h, trivial⟩
  | some (.ok value) => exact (Leads.finish _ (.ok value) caller).after rfl h
  | some (.error e) => exact (Leads.finish _ (.error (.exception e)) caller).after rfl h

theorem Leads.raise (c : Context) (fault : Fault) (base : Nat) (caller : Caller) :
    c.Leads caller.loads [] (c.raise fault base caller) := by
  obtain ⟨m, id, ⟨frames, meter, deadline, maxDepth, activity⟩⟩ := c
  unfold Context.raise
  dsimp only [envelope]
  cases frames with
  | nil => exact (Leads.complete ..).of_eq rfl rfl
  | cons frame rest =>
    dsimp only
    split
    · rename_i frame' hframe
      refine ⟨rfl, ?_, trivial⟩
      simp only [ledger, Fiber.loads, frameLoads_cons_congr (Frame.load?_of_handle? hframe)]
      exact .refl
    · exact (Leads.complete ..).of_eq rfl rfl

theorem Leads.abandon (c : Context) (fault : Fault) (base : Nat) (caller : Caller) :
    c.Leads caller.loads [] (c.abandon fault base caller) := by
  obtain ⟨m, id, f⟩ := c
  unfold Context.abandon
  split
  · exact .finish ..
  · exact (Leads.finish _ (.error fault) caller).after rfl (m.discard_moves base f.frames)

theorem Leads.fail (c : Context) (fault : Fault) (base : Nat) (caller : Caller) :
    c.Leads caller.loads [] (c.fail fault base caller) := by
  unfold Context.fail
  split
  · exact .abandon ..
  · exact .raise ..

theorem Leads.deliver (c : Context) (value : Value) (base : Nat) (caller : Caller) :
    c.Leads caller.loads [] (c.deliver value base caller) := by
  obtain ⟨m, id, ⟨frames, meter, deadline, maxDepth, activity⟩⟩ := c
  cases frames with
  | nil =>
    unfold Context.deliver
    exact .raise ..
  | cons frame rest => exact ⟨rfl, .refl, trivial⟩

theorem Leads.enter_full (c : Context) (frame : Frame) (pending : Pending) (h : c.fiber.isFull) :
    c.Leads pending.loads [] (c.enter frame pending) := by
  cases pending with
  | instruction base negate caller =>
    simp only [Context.enter, h, if_true]
    exact .raise ..
  | entry caller =>
    simp only [Context.enter, h, if_true]
    exact .finish ..

/-- A frame that the depth limit admits becomes the top frame, with what its result is for. -/
theorem enter_admitted (c : Context) (frame : Frame) (pending : Pending)
    (h : c.fiber.isFull = false) :
    ∃ base continuation, c.enter frame pending = ⟨c.machine, c.id, { c.fiber with
        frames := { frame with continuation } :: c.fiber.frames
        activity := .running base pending.caller }⟩ ∧
      (continuation = frame.continuation ∨ continuation = .negated ∧ ¬ pending.Plain) := by
  cases pending with
  | instruction base negate caller =>
    simp only [Context.enter, h]
    cases negate with
    | false => exact ⟨base, _, rfl, .inl rfl⟩
    | true => exact ⟨base, .negated, rfl, .inr ⟨rfl, Bool.noConfusion⟩⟩
  | entry caller =>
    simp only [Context.enter, h]
    exact ⟨_, _, rfl, .inl rfl⟩

/-- A new frame that loads nothing. -/
theorem Leads.enter (c : Context) {frame : Frame} (h : frame.load? = none) (pending : Pending) :
    c.Leads pending.loads [] (c.enter frame pending) := by
  cases hfull : c.fiber.isFull with
  | true => exact .enter_full c frame pending hfull
  | false =>
    obtain ⟨base, continuation, heq, hc⟩ := c.enter_admitted frame pending hfull
    have hload : Frame.load? { frame with continuation } = none := by
      rcases hc with rfl | ⟨rfl, _⟩
      · exact h
      · rfl
    rw [heq, ← pending.loads_caller]
    refine ⟨rfl, ?_, trivial⟩
    simp only [ledger, Fiber.loads, frameLoads_cons, hload]
    exact .refl

theorem Leads.proceed (c : Context) {invocation : Machine.Invocation} (h : invocation.Loadless)
    (pending : Pending) : c.Leads pending.loads [] (c.proceed invocation pending) := by
  cases invocation with
  | complete value => exact .answer ..
  | enter frame => exact .enter c h pending
  | run program => exact ⟨rfl, .refl, trivial⟩
  | fail fault => exact .answer ..

theorem Leads.call (c : Context) (callable receiver : Value) (args : Arguments)
    (pending : Pending) : c.Leads pending.loads [] (c.call callable receiver args pending) := by
  obtain ⟨m, id, f⟩ := c
  obtain ⟨hload, hstates⟩ := m.prepareCall_loadless callable receiver args
  rcases hprepared : m.prepareCall callable receiver args with ⟨invocation, m'⟩
  rw [hprepared] at hload hstates
  simp only [Context.call, hprepared]
  exact (Leads.proceed ⟨m', id, f⟩ hload pending).of_eq rfl (by simp only [ledgerWith, hstates])

theorem Leads.invoke (c : Context) (target : Value) (name : String) (args : Arguments)
    (pending : Pending) : c.Leads pending.loads [] (c.invoke target name args pending) := by
  obtain ⟨m, id, f⟩ := c
  obtain ⟨hload, hstates⟩ := m.prepareInvoke_loadless target name args f.currentModule?
  rcases hprepared : m.prepareInvoke target name args f.currentModule? with ⟨invocation, m'⟩
  rw [hprepared] at hload hstates
  simp only [Context.invoke, hprepared]
  exact (Leads.proceed ⟨m', id, f⟩ hload pending).of_eq rfl (by simp only [ledgerWith, hstates])

theorem Leads.instruct (c : Context) {base : Nat} {caller : Caller}
    (h : c.fiber.activity = .running base caller) :
    c.Leads caller.loads [] (c.instruct base caller) := by
  obtain ⟨m, id, ⟨frames, meter, deadline, maxDepth, activity⟩⟩ := c
  cases h
  cases frames with
  | nil =>
    unfold Context.instruct
    exact .raise ..
  | cons frame rest =>
    have hsame := (Exec.keeps_step.same ⟨m.heap, frame⟩).load?_eq
    simp only [Context.instruct, Machine.onHeap]
    generalize Exec.step.run ⟨m.heap, frame⟩ = stepped at hsame
    obtain ⟨action, ⟨heap, frame'⟩⟩ := stepped
    -- the instruction itself changes the heap and the top frame, but no load
    have before {loads refused : List ModuleId} {c' : Context}
        (H : Leads ⟨{ m with heap }, id,
          ⟨frame' :: rest, meter, deadline, maxDepth, .running base caller⟩⟩ loads refused c') :
        Leads ⟨m, id, ⟨frame :: rest, meter, deadline, maxDepth, .running base caller⟩⟩
          loads refused c' := by
      refine H.of_eq rfl ?_
      simp only [ledgerWith, frameLoads_cons_congr hsame]
      rfl
    match action with
    | .ok .next => exact before ⟨rfl, .refl, trivial⟩
    | .ok (.call callable receiver args negate) =>
      exact before (.call _ callable receiver args (.instruction base negate caller))
    | .ok (.invoke target name args) =>
      exact before (.invoke _ target name args (.instruction base false caller))
    | .ok (.load name) => exact before ⟨rfl, .refl, rfl⟩
    | .ok (.return value) => exact before (.complete _ (.ok value) base caller)
    | .error fault => exact before (.fail _ fault base caller)

theorem Leads.run (c : Context) {base : Nat} {caller : Caller}
    (h : c.fiber.activity = .running base caller) :
    c.Leads caller.loads [] (c.run base caller) := by
  unfold Context.run
  split
  · exact .abandon ..
  · rename_i meter charged _
    dsimp only
    split
    · exact (Leads.abandon ..).of_eq rfl rfl
    · exact (Leads.instruct ⟨c.machine, c.id, { c.fiber with meter }⟩ h).of_eq rfl rfl

/-! ### Entries and programs -/

theorem Leads.start (c : Context) (entry : Entry) (caller : Caller) :
    c.Leads caller.loads [] (c.start entry caller) := by
  cases entry with
  | execute linked limit =>
    cases limit with
    | unrepresentable => exact ⟨rfl, .refl, trivial⟩
    | unlimited | deadline d => exact ⟨rfl, c.machine.register_moves linked, trivial⟩
  | load name => exact ⟨rfl, .refl, trivial⟩
  | call callable receiver args => exact .call c callable receiver args (.entry caller)
  | invoke target name args => exact .invoke c target name args (.entry caller)
  | resume limit =>
    have h (deadline : Option Deadline) : c.Leads caller.loads [] ⟨c.machine, c.id, { c.fiber with
        deadline
        activity := if c.fiber.frames.isEmpty then .replied (.ok .null) caller
          else .running 0 caller }⟩ := by
      cases c.fiber.frames.isEmpty <;> exact ⟨rfl, .refl, trivial⟩
    cases limit with
    | unrepresentable => exact ⟨rfl, .refl, trivial⟩
    | unlimited => exact h _
    | deadline d => exact h _

/-- A native initializer that ends ends the load of its module. -/
theorem Leads.answer_load (c : Context) (id : ModuleId) (error : Option Value)
    (result : Except Fault Value) (pending : Pending) :
    c.Leads (id :: pending.loads) []
      (Context.answer ⟨c.machine.finishModule id error, c.id, c.fiber⟩ result pending) := by
  obtain ⟨s, hs, heq⟩ := c.machine.state?_finishModule id error
  refine ⟨rfl, ?_, trivial⟩
  simp only [ledger, Context.answer, setActivity, heq]
  exact .finish .refl (.refl _) hs

theorem Leads.step (c : Context) (program : Program) (purpose : Purpose) :
    c.Leads purpose.loads [] (c.step program purpose) := by
  cases program with
  | finish result =>
    cases purpose with
    | call pending => exact .answer ..
    | load id pending =>
      cases result with
      | ok value => exact .answer_load ..
      | error fault =>
        let envelope := c.envelope (if fault.isFatal then .moduleFailed else fault)
        exact (Leads.answer_load envelope.2 id (some envelope.1) _ pending).of_eq rfl rfl
  | enter entry next => exact .start c entry (.program next purpose)
  | newArray values next | newObject next | newFunction name module routine next
  | read target next | backtrace next => exact ⟨rfl, .refl, trivial⟩
  | configure setting next => cases setting <;> exact ⟨rfl, .refl, trivial⟩
  | update target update next =>
    simp only [Context.step]
    split <;> exact ⟨rfl, .refl, trivial⟩

/-! ### Modules -/

theorem Leads.find (c : Context) (name : String) {pending : Pending} (h : pending.Plain) :
    c.Leads pending.loads [] (c.find name pending) := by
  unfold Context.find
  split
  · exact ⟨rfl, .refl, h⟩
  · dsimp only
    split
    · exact ⟨rfl, c.machine.registerNative_moves name, h⟩
    · exact ⟨rfl, .refl, h⟩

theorem Leads.adopt (c : Context) (name : String)
    (result : Except FinderError (Option LinkedModule)) {pending : Pending} (h : pending.Plain) :
    c.Leads pending.loads [] (c.adopt name result pending) := by
  unfold Context.adopt
  split
  · rename_i linked
    split
    · exact ⟨rfl, .refl, h⟩
    · exact ⟨rfl, c.machine.register_moves linked, h⟩
  all_goals exact .answer ..

/-- A module starts to load, and its native initializer or its frame carries the load. -/
theorem Leads.load (c : Context) {id : ModuleId} {entry : ModuleEntry} (object : Bool)
    {pending : Pending} (hid : c.machine.state? id = some .registered)
    (h : pending.Plain) :
    c.Leads pending.loads (if entry.isRefused c.fiber then [id] else [])
      (c.load id entry object pending) := by
  obtain ⟨m, self, f⟩ := c
  have started {loads : List ModuleId}
      (hp : loads.Perm (id :: (pending.loads ++ frameLoads f.frames))) :
      Moves self ⟨m.state?, pending.loads ++ frameLoads f.frames⟩ []
        ⟨(m.setState id (.loading self)).state?, loads⟩ := by
    rw [m.state?_setState]
    exact .start .refl hid hp
  have refused :
      Moves self ⟨m.state?, pending.loads ++ frameLoads f.frames⟩ [id]
        ⟨(m.setState id (.loading self)).state?, pending.loads ++ frameLoads f.frames⟩ := by
    rw [m.state?_setState]
    exact .refuse .refl hid
  unfold Context.load ModuleEntry.isRefused
  cases hbody : entry.body with
  | none => exact ⟨rfl, started (.refl _), trivial⟩
  | some code =>
    dsimp only [Machine.onHeap]
    generalize Heap.newFunction _ _ = allocated
    have hbind := Frame.load?_of_bind allocated.2 allocated.1 code []
      { module := id, constants := entry.constants, globals := entry.object }
      (.object entry.object) {}
    generalize Frame.bind allocated.2 _ _ _ _ _ _ = bound at hbind
    obtain ⟨bound, heap⟩ := bound
    rcases hbind with ⟨fault, rfl, hm⟩ | ⟨frame, rfl, -, hm⟩
    · simp only [hm]
      exact (Leads.answer_load _ id _ _ pending).after rfl (started (.refl _))
    · simp only [hm]
      cases hfull : f.isFull with
      | true => exact (Leads.enter_full _ _ pending hfull).after rfl refused
      | false =>
        obtain ⟨base, continuation, heq, hc⟩ := enter_admitted
          ⟨{ m.setState id (.loading self) with heap }, self, f⟩
          { frame with continuation := .module id object } pending hfull
        obtain rfl := hc.resolve_right fun hc => hc.2 h
        rw [heq]
        refine ⟨rfl, ?_, trivial⟩
        simp only [ledger, Fiber.loads, Activity.loads, frameLoads_cons, pending.loads_caller]
        exact started List.perm_middle

/-- The module whose frame the depth limit refuses in the next transition. -/
def refused? (c : Context) : Option ModuleId :=
  match c.fiber.activity with
  | .entering id _ _ =>
    match c.machine.module? id with
    | some entry => if entry.state = .registered ∧ entry.isRefused c.fiber then some id else none
    | none => none
  | _ => none

theorem refused?_of_isSettled (c : Context) (h : c.isSettled) : c.refused? = none := by
  unfold refused?
  split
  · rename_i hactivity
    simp only [isSettled, hactivity, Bool.false_eq_true] at h
  · rfl

theorem Leads.enterModule (c : Context) {id : ModuleId} {object : Bool} {pending : Pending}
    (hactivity : c.fiber.activity = .entering id object pending) (h : pending.Plain) :
    c.Leads pending.loads c.refused?.toList (c.enterModule id object pending) := by
  simp only [refused?, hactivity]
  unfold Context.enterModule
  cases hentry : c.machine.module? id with
  | none => exact .answer ..
  | some entry =>
    have hid : c.machine.state? id = some entry.state := by rw [Machine.state?, hentry]; rfl
    dsimp only
    cases hs : entry.state with
    | loaded => exact .answer ..
    | failed e => exact .answer ..
    | loading loader =>
      simp only [reduceCtorEq, false_and, if_false]
      split
      · exact .answer ..
      · split
        · exact .answer ..
        · exact ⟨rfl, .refl, ⟨loader, ‹_›, hid.trans (congrArg some hs)⟩, h⟩
    | registered =>
      have hload : c.Leads pending.loads _ (c.load id entry object pending) :=
        .load c object (hid.trans (congrArg some hs)) h
      cases hr : entry.isRefused c.fiber <;> simpa [hr] using hload

theorem Leads.wake (c : Context) (id : ModuleId) (object : Bool) {pending : Pending}
    (h : pending.Plain) : c.Leads pending.loads [] (c.wake id object pending) := by
  unfold Context.wake
  dsimp only
  split
  · exact ⟨rfl, .refl, trivial⟩
  · exact ⟨rfl, .refl, h⟩

/-- **A transition moves the ledger**, and refuses no module but the one told beforehand. -/
theorem advance_leads (c : Context) {awaited : ModuleId → Prop}
    (h : c.fiber.activity.Plain awaited) :
    c.Leads c.fiber.activity.loads c.refused?.toList c.advance := by
  obtain ⟨m, id, ⟨frames, meter, deadline, maxDepth, activity⟩⟩ := c
  cases activity with
  | idle => exact ⟨rfl, .refl, trivial⟩
  | running base caller => exact .run _ rfl
  | program program purpose => exact .step ..
  | finding name pending => exact .find _ name h
  | found name result pending => exact .adopt _ name result h
  | entering module object pending => exact .enterModule _ rfl h
  | waiting module object pending => exact .wake _ module object h.2
  | answered result pending =>
    cases pending with
    | entry caller =>
      cases result with
      | ok value => exact .finish _ (.ok value) caller
      | error fault => exact .finish _ (.error fault) caller
    | instruction base negate caller =>
      cases result with
      | ok value => exact .deliver ..
      | error fault => exact .fail ..
  | replied outcome caller =>
    cases caller with
    | host => exact ⟨rfl, .refl, trivial⟩
    | program next purpose => exact ⟨rfl, .refl, trivial⟩

end Context

end FiberMachine
