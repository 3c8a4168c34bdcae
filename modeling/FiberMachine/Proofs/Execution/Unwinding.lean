import FiberMachine.Proofs.Loading.Transition
import FiberMachine.Proofs.Provenance.Position
import FiberMachine.Routine

/-!
# Unwinding

A fault that is not fatal becomes an error envelope, which goes from the top frame of a run down to
the innermost one that handles it. What that leaves of the frames is `Unwinds`, a relation on lists
of frames only. Every fault that a run raises leads there, and the modules whose frames are
discarded on the way are the ones that fail (`Context.unwinds_of_raises`).

The frames are those that there are when the fault is raised. A native function may have resumed the
frames that wait for it, and when it ends these may be gone, with their handlers
(`Context.handler_is_gone_after_resume`). A run may then have no frames of its own any more. What is
left of the others has at most its top frame unwound.
-/

namespace FiberMachine

/--
An error that is raised in the top one of `frames`, in a run of those above the first `base`,
discards the frames `discarded` and leaves `left`, and the flag tells whether a frame has handled
it.
-/
inductive Unwinds (error : Value) (base : Nat) :
    (frames discarded left : List Frame) → (handled : Bool) → Prop where
  /-- The innermost frame of the run with a handler goes on there. -/
  | handled {discarded below : List Frame} {frame : Frame} {handler : Nat}
      (unguarded : ∀ f ∈ discarded, f.handler? = none) (above : base ≤ below.length)
      (guarded : frame.handler? = some handler) :
      Unwinds error base (discarded ++ frame :: below) discarded
        ({ frame with stack := [], args := [], pending := some error, instruction := handler } ::
          below) true
  /-- No frame of the run has a handler. -/
  | unhandled {discarded below : List Frame} (unguarded : ∀ f ∈ discarded, f.handler? = none)
      (bottom : below.length = base) :
      Unwinds error base (discarded ++ below) discarded below false

/--
The value is the envelope of a fault that is raised in the given frames: the envelope that was
raised itself, or a new one behind those that there are.
-/
inductive Enveloped (frames : List Frame) (errors : Array Envelope) :
    Fault → Value → Array Envelope → Prop where
  | itself {r : Ref .error} : Enveloped frames errors (.exception (.error r)) (.error r) errors
  | new {fault : Fault} (other : ∀ r, fault ≠ .exception (.error r)) :
      Enveloped frames errors fault (.error ⟨errors.size⟩) (errors.push {
        value := fault.raised, category := fault.category, message := fault.message
        backtrace := backtraceOf frames })

/-- The states in which the given modules have failed. -/
def Ledger.fail (states : ModuleId → Option ModuleState) (ids : List ModuleId) (error : Value) :
    ModuleId → Option ModuleState :=
  fun id => if id ∈ ids then (states id).map fun _ => .failed error else states id

variable {error : Value} {base : Nat} {fault : Fault}

/-! ## Frames -/

namespace Unwinds

variable {frames discarded left : List Frame} {handled : Bool} {top : Frame}

/-- A frame without a handler goes the way of those below it. -/
theorem cons (H : Unwinds error base frames discarded left handled) (htop : top.handler? = none) :
    Unwinds error base (top :: frames) (top :: discarded) left handled := by
  have hall {fs : List Frame} (h : ∀ f ∈ fs, f.handler? = none) :
      ∀ f ∈ top :: fs, f.handler? = none := by
    intro f hf
    rcases List.mem_cons.mp hf with rfl | hf
    · exact htop
    · exact h f hf
  cases H with
  | handled unguarded above guarded => exact .handled (hall unguarded) above guarded
  | unhandled unguarded bottom => exact .unhandled (hall unguarded) bottom

/-- The top frame handles the error. -/
theorem of_handle? {rest : List Frame} {frame : Frame} (hbase : base ≤ rest.length)
    (h : top.handle? error = some frame) :
    Unwinds error base (top :: rest) [] (frame :: rest) true := by
  obtain ⟨handler, hhandler, rfl⟩ := Option.map_eq_some_iff.mp h
  have unguarded : ∀ f ∈ ([] : List Frame), f.handler? = none := by simp
  exact .handled unguarded hbase hhandler

/-- There are no frames of the run any more. -/
theorem bottom {below : List Frame} (h : below.length = base) :
    Unwinds error base below [] below false := by
  have unguarded : ∀ f ∈ ([] : List Frame), f.handler? = none := by simp
  exact .unhandled unguarded h

end Unwinds

theorem Frame.handler?_of_handle? {f : Frame} (h : f.handle? error = none) : f.handler? = none :=
  Option.map_eq_none_iff.mp h

theorem Heap.enveloped (h : Heap) (frames : List Frame) (fault : Fault) :
    Enveloped frames h.errors fault (h.envelope frames fault).1
      (h.envelope frames fault).2.errors := by
  unfold Heap.envelope
  split
  · exact .itself
  · rename_i hother
    exact .new fun r h => hother r h

theorem Enveloped.isError {frames : List Frame} {errors errors' : Array Envelope}
    (H : Enveloped frames errors fault error errors') : ∃ r, error = .error r := by
  cases H with
  | itself => exact ⟨_, rfl⟩
  | new => exact ⟨_, rfl⟩

/-! ## Machines -/

namespace Ledger

variable {states : ModuleId → Option ModuleState}

theorem fail_nil : fail states [] error = states := by
  funext id
  simp [fail]

theorem fail_cons (id : ModuleId) (ids : List ModuleId) :
    fail (update states id (.failed error)) ids error = fail states (id :: ids) error := by
  funext other
  by_cases hother : other = id
  · simp [fail, update, hother, Function.comp_def]
  · simp [fail, update, hother]

end Ledger

namespace Machine

/-- A frame that completes with an error fails the module that it loads. -/
theorem conclude_error (m : Machine) (top : Frame) (error : Value) :
    ∃ m' : Machine, m.conclude top.continuation (.error error) = (.error error, m') ∧
      m'.state? = Ledger.fail m.state? top.load?.toList error ∧
      m'.heap.errors = m.heap.errors := by
  unfold Frame.load?
  cases top.continuation with
  | result | negated => exact ⟨m, rfl, Ledger.fail_nil.symm, rfl⟩
  | module id object =>
    refine ⟨m.finishModule id (some error), rfl, ?_, m.finishModule_errors id _⟩
    rw [Option.toList_some, ← Ledger.fail_cons, Ledger.fail_nil]
    exact m.state?_finishModule_eq id (some error)

/--
Completing the top frame with an error discards it and goes on below. The induction is on the frames
below the top one, whose handler does not count.
-/
theorem complete_error (m : Machine) {top : Frame} {rest : List Frame} (error : Value)
    (hbase : base ≤ rest.length) (htop : top.handler? = none) :
    ∃ m' discarded left handled, Unwinds error base (top :: rest) discarded left handled ∧
      complete base m (.error error) (top :: rest) =
        ⟨m', left, if handled then none else some (.error error)⟩ ∧
      m'.state? = Ledger.fail m.state? (frameLoads discarded) error ∧
      m'.heap.errors = m.heap.errors := by
  induction rest generalizing m top with
  | nil =>
    obtain ⟨m', hm', hstate, herrors⟩ := m.conclude_error top error
    have hbottom : ([] : List Frame).length = base := (Nat.le_zero.mp hbase).symm
    refine ⟨m', [top], [], false, ?_, ?_, ?_, herrors⟩
    · exact (Unwinds.bottom hbottom).cons htop
    · rw [complete, hm']
      simp
    · rw [hstate, frameLoads_cons, frameLoads, List.filterMap_nil, List.append_nil]
  | cons frame below ih =>
    obtain ⟨m₁, hm₁, hstate₁, herrors₁⟩ := m.conclude_error top error
    by_cases hbottom : (frame :: below).length = base
    · refine ⟨m₁, [top], frame :: below, false, ?_, ?_, ?_, herrors₁⟩
      · exact (Unwinds.bottom hbottom).cons htop
      · rw [complete, hm₁]
        simp [← hbottom]
      · rw [hstate₁, frameLoads_cons, frameLoads, List.filterMap_nil, List.append_nil]
    · have habove : base ≤ below.length := by
        rw [List.length_cons] at hbase hbottom
        omega
      have hmore : ((frame :: below).drop base).isEmpty = false := by
        rw [List.isEmpty_eq_false_iff]
        intro hnil
        have := List.drop_eq_nil_iff.mp hnil
        rw [List.length_cons] at this
        omega
      cases hhandle : frame.handle? error with
      | some frame' =>
        refine ⟨m₁, [top], frame' :: below, true, ?_, ?_, ?_, herrors₁⟩
        · exact (Unwinds.of_handle? habove hhandle).cons htop
        · rw [complete, hm₁]
          simp [hmore, hhandle]
        · rw [hstate₁, frameLoads_cons, frameLoads, List.filterMap_nil, List.append_nil]
      | none =>
        obtain ⟨m', discarded, left, handled, H, hcomplete, hstate, herrors⟩ :=
          ih m₁ habove (Frame.handler?_of_handle? hhandle)
        refine ⟨m', top :: discarded, left, handled, H.cons htop, ?_, ?_, herrors.trans herrors₁⟩
        · rw [← hcomplete, complete, hm₁]
          simp [hmore, hhandle]
        · rw [hstate, hstate₁, frameLoads_cons]
          cases top.load? with
          | none => rw [Option.toList_none, Ledger.fail_nil, List.nil_append]
          | some id =>
            rw [Option.toList_some, List.singleton_append, ← Ledger.fail_cons,
              ← Ledger.fail_cons, Ledger.fail_nil]

end Machine

/-! ## Fibers -/

namespace Context

variable {c d : Context} {caller : Caller}

/--
In the next transition the top frame of `c` executes an instruction with the given result, in a run
of the frames above the first `base`, and `d` is what that leaves.
-/
inductive Instructs (c : Context) (base : Nat) (caller : Caller) (result : Except Fault Action) :
    Context → Prop where
  | intro {frame : Frame} {rest : List Frame} {meter : Meter} {charged : Bool} {left : Local} :
      c.fiber.activity = .running base caller → c.fiber.frames = frame :: rest →
      c.fiber.meter.admit? = some (meter, charged) → (charged && c.isLate) = false →
      Exec.step.run ⟨c.machine.heap, frame⟩ = (result, left) →
      Instructs c base caller result ⟨{ c.machine with heap := left.heap }, c.id,
        { c.fiber with frames := left.frame :: rest, meter }⟩

/--
In the next transition the fault is raised in the top frame of `d`, in a run of the frames above the
first `base`. `d` has what `c` has apart from what an instruction did before it faulted.
-/
inductive Raises (c : Context) : Fault → Nat → Caller → Context → Prop where
  /-- The instruction of the top frame faults. -/
  | instruction {fault : Fault} {base : Nat} {caller : Caller} {d : Context} :
      c.Instructs base caller (.error fault) d → Raises c fault base caller d
  /-- What the instruction of the top frame waits for ends with the fault. -/
  | answer {fault : Fault} {base : Nat} {negate : Bool} {caller : Caller} :
      c.fiber.activity = .answered (.error fault) (.instruction base negate caller) →
      Raises c fault base caller c
  /-- The depth limit refuses the frame of the function that is called. -/
  | call {base : Nat} {caller : Caller} {callable receiver : Value} {args : Arguments}
      {negate : Bool} {d : Context} {frame : Frame} {m : Machine} :
      c.Instructs base caller (.ok (.call callable receiver args negate)) d →
      d.machine.prepareCall callable receiver args = (.enter frame, m) → d.fiber.isFull →
      Raises c .stackOverflow base caller ⟨m, d.id, d.fiber⟩
  /-- The depth limit refuses the frame of the method that is called. -/
  | invoke {base : Nat} {caller : Caller} {target : Value} {name : String} {args : Arguments}
      {d : Context} {frame : Frame} {m : Machine} :
      c.Instructs base caller (.ok (.invoke target name args)) d →
      d.machine.prepareInvoke target name args d.fiber.currentModule? = (.enter frame, m) →
      d.fiber.isFull → Raises c .stackOverflow base caller ⟨m, d.id, d.fiber⟩
  /-- The depth limit refuses the frame of the module that is loaded. -/
  | load {base : Nat} {negate : Bool} {caller : Caller} {module : ModuleId} {object : Bool}
      {frame : Frame} {m : Machine} :
      c.fiber.activity = .entering module object (.instruction base negate caller) →
      c.advance = enter ⟨m, c.id, c.fiber⟩ frame (.instruction base negate caller) →
      c.fiber.isFull → Raises c .stackOverflow base caller ⟨m, c.id, c.fiber⟩
  /-- There is no frame any more that the result could go to. -/
  | undelivered {value : Value} {base : Nat} {negate : Bool} {caller : Caller} :
      c.fiber.activity = .answered (.ok value) (.instruction base negate caller) →
      c.fiber.frames = [] → Raises c .invalidInstruction base caller c
  /-- There is no frame that could be executed. -/
  | frameless {base : Nat} {caller : Caller} {meter : Meter} {charged : Bool} :
      c.fiber.activity = .running base caller → c.fiber.frames = [] →
      c.fiber.meter.admit? = some (meter, charged) → (charged && c.isLate) = false →
      Raises c .invalidInstruction base caller ⟨c.machine, c.id, { c.fiber with meter }⟩

namespace Instructs

variable {result : Except Fault Action}

theorem running (h : c.Instructs base caller result d) :
    c.fiber.activity = .running base caller := by
  cases h with
  | intro hrun => exact hrun

theorem length_frames (h : c.Instructs base caller result d) :
    d.fiber.frames.length = c.fiber.frames.length := by
  cases h with
  | intro _ hframes => simp [hframes]

/-- The transition goes on as the result says. -/
theorem advance_eq (h : c.Instructs base caller result d) :
    c.advance = match result with
      | .ok .next => d
      | .ok (.call callable receiver args negate) =>
        d.call callable receiver args (.instruction base negate caller)
      | .ok (.invoke target name args) =>
        d.invoke target name args (.instruction base false caller)
      | .ok (.load name) => d.setActivity (.finding name (.instruction base false caller))
      | .ok (.return value) => d.complete (.ok value) base caller
      | .error fault => d.fail fault base caller := by
  cases h with
  | intro hrun hframes hadmit hlate hstep =>
    obtain ⟨m, id, ⟨frames, meter, deadline, maxDepth, activity⟩⟩ := c
    cases hframes
    cases hrun
    simp only [isLate] at hadmit hlate hstep
    simp only [advance, run, hadmit, isLate, hlate, instruct, Machine.onHeap, hstep,
      Bool.false_eq_true, if_false]
    cases result with
    | error fault => rfl
    | ok action => cases action <;> rfl

end Instructs

theorem advance_of_raises (h : c.Raises fault base caller d) (hfault : fault.isFatal = false) :
    c.advance = d.raise fault base caller := by
  cases h with
  | instruction hinstructs =>
    rw [hinstructs.advance_eq]
    exact if_neg (by simp [hfault])
  | answer hanswer =>
    rw [advance, hanswer]
    exact if_neg (by simp [hfault])
  | call hinstructs hprepared hfull =>
    rw [hinstructs.advance_eq]
    simp only [call, hprepared, proceed]
    exact if_pos hfull
  | invoke hinstructs hprepared hfull =>
    rw [hinstructs.advance_eq]
    simp only [invoke, hprepared, proceed]
    exact if_pos hfull
  | load _ hadvance hfull =>
    rw [hadvance]
    exact if_pos hfull
  | undelivered hanswer hframes =>
    obtain ⟨m, id, ⟨frames, meter, deadline, maxDepth, activity⟩⟩ := c
    cases hframes
    cases hanswer
    rfl
  | frameless hrun hframes hadmit hlate =>
    obtain ⟨m, id, ⟨frames, meter, deadline, maxDepth, activity⟩⟩ := c
    cases hframes
    cases hrun
    simp only [isLate] at hadmit hlate
    simp only [advance, run, hadmit, isLate, hlate, instruct, Bool.false_eq_true, if_false]

/-- Where the frames of runs are in order, a run that raises a fault has frames of its own. -/
theorem lt_length_of_raises (h : c.Raises fault base caller d) (horderly : c.fiber.Orderly) :
    base < d.fiber.frames.length := by
  unfold Fiber.Orderly at horderly
  cases h with
  | instruction hinstructs =>
    rw [hinstructs.running] at horderly
    exact hinstructs.length_frames ▸ horderly.lt_length
  | call hinstructs =>
    rw [hinstructs.running] at horderly
    exact hinstructs.length_frames ▸ horderly.lt_length
  | invoke hinstructs =>
    rw [hinstructs.running] at horderly
    exact hinstructs.length_frames ▸ horderly.lt_length
  | answer hanswer =>
    rw [hanswer] at horderly
    exact (Pending.Orderly.conducts horderly).lt_length
  | load hentering =>
    rw [hentering] at horderly
    exact (Pending.Orderly.conducts horderly).lt_length
  | undelivered hanswer hframes =>
    rw [hanswer] at horderly
    exact absurd hframes (Pending.Orderly.conducts horderly).ne_nil
  | frameless hrun hframes =>
    rw [hrun] at horderly
    exact absurd hframes horderly.ne_nil

/-- Raising a fault in the top frame unwinds the frames of the run. -/
theorem raise_unwinds (c : Context) (fault : Fault) (base : Nat) (caller : Caller) :
    ∃ error discarded left handled,
      Unwinds error (min base (c.fiber.frames.length - 1)) c.fiber.frames discarded left handled ∧
      Enveloped c.fiber.frames c.machine.heap.errors fault error
        (c.raise fault base caller).machine.heap.errors ∧
      (c.raise fault base caller).fiber = { c.fiber with
        frames := left
        activity := if handled then .running base caller
          else .replied (.error (.exception error)) caller } ∧
      (c.raise fault base caller).machine.state? =
        Ledger.fail c.machine.state? (frameLoads discarded) error := by
  obtain ⟨m, id, ⟨frames, meter, deadline, maxDepth, activity⟩⟩ := c
  have henveloped := m.heap.enveloped frames fault
  simp only [raise, envelope, Machine.onHeap]
  generalize m.heap.envelope frames fault = enveloped at henveloped
  obtain ⟨error, heap⟩ := enveloped
  obtain ⟨r, rfl⟩ := henveloped.isError
  dsimp only at henveloped ⊢
  cases frames with
  | nil =>
    exact ⟨_, [], [], false, .bottom (Nat.min_eq_right (Nat.zero_le base)).symm, henveloped, rfl,
      Ledger.fail_nil.symm⟩
  | cons top rest =>
    have hle : min base rest.length ≤ rest.length := Nat.min_le_right ..
    have hsame (m : Machine) (result : Except Value Value) :
        Machine.complete base m result (top :: rest) =
          Machine.complete (min base rest.length) m result (top :: rest) := by
      rcases Nat.le_total base rest.length with h | h
      · rw [Nat.min_eq_left h]
      · rw [Nat.min_eq_right h, Machine.complete_of_le h, Machine.complete_of_le (Nat.le_refl _)]
    cases hhandle : top.handle? (.error r) with
    | some frame =>
      simp only [hhandle]
      exact ⟨_, [], frame :: rest, true, .of_handle? hle hhandle, henveloped, rfl,
        Ledger.fail_nil.symm⟩
    | none =>
      obtain ⟨m', discarded, left, handled, H, hcomplete, hstate, herrors⟩ :=
        Machine.complete_error { m with heap } (.error r) hle (Frame.handler?_of_handle? hhandle)
      refine ⟨_, discarded, left, handled, H, ?_⟩
      simp only [hhandle, complete, hsame, hcomplete]
      cases handled with
      | true => exact ⟨herrors ▸ henveloped, rfl, hstate⟩
      | false => exact ⟨herrors ▸ henveloped, rfl, hstate⟩

/--
**A raised error goes to the innermost frame of the run that handles it.** The frames above that one
are discarded, or all frames of the run if there is none, and then the run ends with the error. The
frames below are what they were. The modules whose frames are discarded fail with the error, and no
other module changes its state. The frames are those that there are when the fault is raised. Where
they are in order, which no transition changes but a native function that resumes the frames which
wait for it, some of them belong to the run. Otherwise the top frame, if there is one, stands for
them.
-/
theorem unwinds_of_raises (h : c.Raises fault base caller d) (hfault : fault.isFatal = false) :
    (∃ error discarded left handled,
      Unwinds error (min base (d.fiber.frames.length - 1)) d.fiber.frames discarded left handled ∧
      Enveloped d.fiber.frames d.machine.heap.errors fault error c.advance.machine.heap.errors ∧
      c.advance.fiber = { d.fiber with
        frames := left
        activity := if handled then .running base caller
          else .replied (.error (.exception error)) caller } ∧
      c.advance.machine.state? = Ledger.fail d.machine.state? (frameLoads discarded) error) ∧
    (c.fiber.Orderly → base < d.fiber.frames.length) := by
  rw [advance_of_raises h hfault]
  exact ⟨d.raise_unwinds fault base caller, lt_length_of_raises h⟩

/-- A function throws a number, called by the module 0, which the module 1 loads. -/
def throwing (stack : List Value) (meter : Meter) : Context where
  machine.modules := #[
    { name := "inner", object := ⟨0⟩, body := none, constants := #[], state := .loading ⟨0⟩ },
    { name := "outer", object := ⟨1⟩, body := none, constants := #[], state := .loading ⟨0⟩ }]
  id := ⟨0⟩
  fiber.frames := [
    frame { opcode := .throw } stack .result,
    frame { opcode := .call } [] (.module ⟨0⟩ true),
    frame { opcode := .loadModule, handler := some 1 } [.null] (.module ⟨1⟩ true),
    frame { opcode := .call, handler := some 1 } [.null] .result]
  fiber.meter := meter
  fiber.activity := .running 1 .host
where
  /-- A frame at the first of two instructions. -/
  frame (i : Instruction) (stack : List Value) (continuation : Continuation) : Frame :=
    { code := {
        name := none, signature := {}, captures := [], instructions := #[i, { opcode := .return }] }
      scope := { module := ⟨0⟩, constants := #[], globals := ⟨0⟩ }
      captures := [], slots := #[], stack, continuation }

/-- The frame that loads the module 1 handles the error, and only the module 0 fails. -/
theorem unwinds_throwing :
    let c := throwing [.int 5] {}
    let d := throwing [] { counter := 15 }
    c.Raises (.exception (.int 5)) 1 .host d ∧ c.fiber.Orderly ∧ 1 < d.fiber.frames.length ∧
      (∃ error discarded left handled, Unwinds error 1 d.fiber.frames discarded left handled ∧
        c.advance.fiber.frames = left ∧
        c.advance.machine.state? = Ledger.fail d.machine.state? (frameLoads discarded) error) ∧
      c.advance.fiber.frames.map (fun f => (f.stack, f.instruction)) = [([], 1), ([.null], 0)] ∧
      c.advance.machine.state? ⟨0⟩ = some (.failed (.error ⟨0⟩)) ∧
      c.advance.machine.state? ⟨1⟩ = some (.loading ⟨0⟩) := by
  intro c d
  have hraises : c.Raises (.exception (.int 5)) 1 .host d :=
    .instruction (Instructs.intro (c := c) rfl rfl rfl rfl rfl)
  have hwaits (i : Instruction) (stack : List Value) (continuation : Continuation) :
      (throwing.frame i stack continuation).Waits := Nat.zero_lt_two
  have horderly : c.fiber.Orderly := by
    refine @Caller.Conducts.intro _ _ _ (c.fiber.frames.take 3) (c.fiber.frames.drop 3) rfl rfl
      (by simp [c, throwing]) ⟨(hwaits ..).placed, ?_⟩ (.host ⟨(hwaits ..).placed, by simp⟩)
    simp [hwaits]
  obtain ⟨⟨error, discarded, left, handled, H, -, hfiber, hstate⟩, hbase⟩ :=
    unwinds_of_raises hraises rfl
  refine ⟨hraises, horderly, hbase horderly, ⟨error, discarded, left, handled, H, ?_, hstate⟩, rfl,
    rfl, rfl⟩
  rw [hfiber]

/-- The host executes a frame that calls a native function, which resumes the frame. -/
def resumed : Context where
  machine.heap.functions := #[{
    module := none, receiver := .null, body := .native "resume" Routine.resume }]
  id := ⟨0⟩
  fiber.frames := [{
    code := {
      name := none, signature := {}, captures := []
      instructions := #[{ opcode := .call, handler := some 1 }, { opcode := .return }] }
    scope := { module := ⟨0⟩, constants := #[], globals := ⟨0⟩ }
    captures := [], slots := #[], stack := [.null, .function ⟨0⟩], args := [{}] }]
  fiber.activity := .running 0 .host

/--
The call is an invalid instruction, at first when the frame is resumed, which goes on at its handler
and returns, and again when the native function returns. The frame is then gone. The run ends with
the error, although the instruction that raised it has a handler.
-/
theorem handler_is_gone_after_resume :
    (drive 20 resumed).fiber.outcome? = some (.error (.exception (.error ⟨1⟩))) ∧
      (drive 20 resumed).fiber.frames = [] ∧
      ∀ error discarded left handled,
        Unwinds error 0 resumed.fiber.frames discarded left handled →
          handled ∧ (drive 20 resumed).fiber.frames ≠ left := by
  have hgone : (drive 20 resumed).fiber.frames = [] := List.isEmpty_iff.mp (by decide +kernel)
  refine ⟨by decide +kernel, hgone, fun error discarded left handled H => ?_⟩
  rw [hgone]
  generalize hframes : resumed.fiber.frames = frames at H
  cases H with
  | handled => exact ⟨rfl, by simp⟩
  | @unhandled discarded below unguarded bottom =>
    obtain rfl := List.eq_nil_of_length_eq_zero bottom
    rw [List.append_nil] at hframes
    subst hframes
    cases unguarded _ List.mem_cons_self

end Context

end FiberMachine
