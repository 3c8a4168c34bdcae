import FiberMachine.Proofs.Execution.Nesting
import FiberMachine.Routine

/-!
# Pauses inside native calls

An execution that runs out of budget or time can be resumed. If that happens in guest code that a
native function runs, the frame that called the native function pauses at the instruction of the
call, but without the operands and the argument vector that the instruction took
(`Context.pause_in_native_call`): the call cannot be made again.
-/

namespace FiberMachine

/-- Whether the fiber runs a program of the host. -/
def Activity.isProgram : Activity → Bool
  | .program .. => true
  | _ => false

namespace Context

variable {base : Nat} {caller : Caller} {failure : Failure}

/-- The outermost run keeps its frames. -/
theorem fail_pause (c : Context) (h : failure.isPause) :
    c.fail failure.fault 0 caller = c.setActivity (.replied (.error failure) caller) := by
  cases failure with
  | noBudget | timeout => rfl
  | exception | link => exact nomatch h

/-- Resuming runs the frames that are there. -/
theorem start_resume {c : Context} (hframes : c.fiber.frames ≠ []) {limit : Limit}
    (h : limit ≠ .unrepresentable) (caller : Caller) :
    ∃ deadline, c.start (.resume limit) caller =
      ⟨c.machine, c.id, { c.fiber with deadline, activity := .running 0 caller }⟩ := by
  have hne : c.fiber.frames.isEmpty = false := by
    cases hc : c.fiber.frames with
    | nil => exact absurd hc hframes
    | cons frame rest => rfl
  cases limit with
  | unrepresentable => exact absurd rfl h
  | unlimited => exact ⟨c.fiber.deadline, by simp [start, hne]⟩
  | deadline d => exact ⟨some d, by simp [start, hne]⟩

/-! ## What calls native functions -/

theorem finish_isProgram (c : Context) (result : Except Fault Value) (caller : Caller) :
    (c.finish result caller).fiber.activity.isProgram = false := by
  unfold finish
  split <;> rfl

theorem complete_isProgram (c : Context) (result : Except Value Value) (base : Nat)
    (caller : Caller) : (c.complete result base caller).fiber.activity.isProgram = false := by
  obtain ⟨m, id, ⟨frames, meter, deadline, maxDepth, activity⟩⟩ := c
  unfold complete
  dsimp only
  split
  · rfl
  · exact finish_isProgram ..
  · exact finish_isProgram ..

theorem raise_isProgram (c : Context) (fault : Fault) (base : Nat) (caller : Caller) :
    (c.raise fault base caller).fiber.activity.isProgram = false := by
  unfold raise
  dsimp only
  split
  · split
    · rfl
    · exact complete_isProgram ..
  · exact complete_isProgram ..

theorem abandon_isProgram (c : Context) (fault : Fault) (base : Nat) (caller : Caller) :
    (c.abandon fault base caller).fiber.activity.isProgram = false := by
  unfold abandon
  split <;> exact finish_isProgram ..

theorem fail_isProgram (c : Context) (fault : Fault) (base : Nat) (caller : Caller) :
    (c.fail fault base caller).fiber.activity.isProgram = false := by
  unfold fail
  split
  · exact abandon_isProgram ..
  · exact raise_isProgram ..

theorem enter_isProgram (c : Context) (frame : Frame) (pending : Pending) :
    (c.enter frame pending).fiber.activity.isProgram = false := by
  cases pending with
  | instruction base negate caller =>
    simp only [enter]
    split
    · exact raise_isProgram ..
    · rfl
  | entry caller =>
    simp only [enter]
    split
    · exact finish_isProgram ..
    · rfl

/-- A call that runs a program changes no frame. -/
theorem proceed_frames {c : Context} {invocation : Machine.Invocation} {pending : Pending}
    (h : (c.proceed invocation pending).fiber.activity.isProgram) :
    (c.proceed invocation pending).fiber.frames = c.fiber.frames := by
  cases invocation with
  | enter frame => exact nomatch (enter_isProgram c frame pending).symm.trans h
  | _ => rfl

/-- An instruction that runs a program has taken the operands of the call. -/
theorem instruct_frames {c : Context} {frame : Frame} {rest : List Frame}
    (hframes : c.fiber.frames = frame :: rest) (hactivity : c.fiber.activity.isProgram = false)
    (h : (c.instruct base caller).fiber.activity.isProgram) :
    ∃ left, frame.CallLeaves left ∧ (c.instruct base caller).fiber.frames = left :: rest := by
  obtain ⟨m, id, ⟨frames, meter, deadline, maxDepth, activity⟩⟩ := c
  cases hframes
  simp only [instruct, Machine.onHeap] at h ⊢
  rcases hstep : Exec.step.run ⟨m.heap, frame⟩ with ⟨action, ⟨heap, left⟩⟩
  simp only [hstep] at h ⊢
  cases action with
  | error fault => cases (fail_isProgram ..).symm.trans h
  | ok action =>
    cases action with
    | next => cases hactivity.symm.trans h
    | call callable receiver args negate =>
      exact ⟨left, Exec.step_call hstep rfl, proceed_frames h⟩
    | invoke target name args => exact ⟨left, Exec.step_call hstep rfl, proceed_frames h⟩
    | load name => cases h
    | «return» value => cases (complete_isProgram ..).symm.trans h

theorem run_frames {c : Context} {frame : Frame} {rest : List Frame}
    (hframes : c.fiber.frames = frame :: rest) (hactivity : c.fiber.activity.isProgram = false)
    (h : (c.run base caller).fiber.activity.isProgram) :
    ∃ left, frame.CallLeaves left ∧ (c.run base caller).fiber.frames = left :: rest := by
  unfold run at h ⊢
  cases hmeter : c.fiber.meter.admit? with
  | none =>
    simp only [hmeter] at h
    exact nomatch (abandon_isProgram ..).symm.trans h
  | some admitted =>
    obtain ⟨meter, charged⟩ := admitted
    simp only [hmeter] at h ⊢
    split at h
    · exact nomatch (abandon_isProgram ..).symm.trans h
    · rename_i hlate
      rw [if_neg hlate]
      exact instruct_frames (c := ⟨c.machine, c.id, { c.fiber with meter }⟩) hframes hactivity h

/--
**A pause in a native call loses the operands of the call.** An instruction of the outermost run
calls a native function, and the answer that arrives after any nested execution is that the budget
or the time is used up. Then the execution pauses at the instruction, and its frame has lost the
operands and the argument vector that the instruction took, at least one operand in every case. To
resume it means to execute the instruction on what is left.
-/
theorem pause_in_native_call {c c' : Context} {frame : Frame} {rest : List Frame}
    {program : Program} {negate : Bool} (hrun : c.fiber.activity = .running 0 .host)
    (hframes : c.fiber.frames = frame :: rest)
    (hcall : c.advance.fiber.activity = .program program (.call (.instruction 0 negate .host)))
    (hpasses : Passes (.pending (.instruction 0 negate .host)) c.advance c')
    (hpause : failure.isPause)
    (hanswer : c'.fiber.activity = .answered (.error failure.fault) (.instruction 0 negate .host)) :
    c'.advance.fiber.activity = .replied (.error failure) .host ∧
    ∃ i operands vectors, frame.code.instructions[frame.instruction]? = some i ∧
      i.opcode.taken? = some (operands, vectors) ∧ 0 < operands ∧
      operands ≤ frame.stack.length ∧ vectors ≤ frame.args.length ∧
      c'.advance.fiber.frames = { frame with
        stack := frame.stack.drop operands, args := frame.args.drop vectors } :: rest ∧
      (∀ limit, limit ≠ .unrepresentable →
        (c'.advance.start (.resume limit) .host).fiber.activity = .running 0 .host ∧
        (c'.advance.start (.resume limit) .host).fiber.frames = c'.advance.fiber.frames) := by
  have hadvance : c.advance = c.run 0 .host := by rw [advance, hrun]
  obtain ⟨left, hleaves, hleft⟩ : ∃ left, frame.CallLeaves left ∧
      c.advance.fiber.frames = left :: rest := by
    rw [hadvance] at hcall ⊢
    exact run_frames hframes (by rw [hrun]; rfl) (by rw [hcall]; rfl)
  have hnested : c.advance.Nested (fun _ => True) (.pending (.instruction 0 negate .host))
      (left :: rest) := by
    refine ⟨?_, hleft ▸ List.suffix_refl _⟩
    rw [hcall, hleft]
    exact .root rfl
  have hback : c'.fiber.frames = left :: rest := by
    refine (hpasses.nested (List.cons_ne_nil left rest) hnested).frames_eq ?_
    rw [hanswer]
    rfl
  have hpaused : c'.advance = c'.setActivity (.replied (.error failure) .host) := by
    rw [advance, hanswer]
    exact c'.fail_pause hpause
  obtain ⟨i, operands, vectors, hi, htaken, ⟨hs, ha⟩, rfl⟩ := hleaves
  rw [hpaused]
  refine ⟨rfl, i, operands, vectors, hi, htaken, Opcode.operands_pos htaken, hs, ha, hback,
    fun limit hlimit => ?_⟩
  have hne : (c'.setActivity (.replied (.error failure) .host)).fiber.frames ≠ [] :=
    hback ▸ List.cons_ne_nil _ _
  obtain ⟨deadline, hresume⟩ := start_resume hne hlimit .host
  rw [hresume]
  exact ⟨rfl, rfl⟩

/-- About to call a native function that calls its argument, with budget for one instruction. -/
def applying : Context where
  machine.heap.functions := #[
    { module := none, receiver := .null, body := .native "apply" (Routine.apply .ofOutcome) },
    { module := some ⟨0⟩, receiver := .null, body := .interpreted {
        name := some "f", signature := {}, captures := []
        instructions := #[{ opcode := .pushNull }, { opcode := .return }] } [] }]
  machine.modules := #[{ name := "m", object := ⟨0⟩, body := none, constants := #[] }]
  id := ⟨0⟩
  fiber.frames := [{
    code := {
      name := none, signature := {}, captures := []
      instructions := #[{ opcode := .call }, { opcode := .return }] }
    scope := { module := ⟨0⟩, constants := #[], globals := ⟨0⟩ }
    captures := [], slots := #[], stack := [.null, .function ⟨0⟩]
    args := [{ positional := [.function ⟨1⟩] }] }]
  fiber.meter := { budget := some 1, counter := 1, stepsPerCharge := 1 }
  fiber.activity := .running 0 .host

/-- The fiber after `n` transitions. -/
def applyingAfter : Nat → Context
  | 0 => applying
  | n + 1 => (applyingAfter n).advance

/-- The native function calls its argument, which pauses, and the function ends with that. -/
theorem passes_applying :
    Passes (.pending (.instruction 0 false .host)) (applyingAfter 1) (applyingAfter 5) := by
  have step {n : Nat} (H : Passes (.pending (.instruction 0 false .host)) (applyingAfter 1)
      (applyingAfter n)) (hreturns : ¬ (applyingAfter n).fiber.activity.Returns _)
      (hresumes : ¬ (applyingAfter n).fiber.Resumes) :
      Passes (.pending (.instruction 0 false .host)) (applyingAfter 1) (applyingAfter (n + 1)) :=
    .advance _ H hreturns hresumes
  have h2 := step .refl not_false (fun ⟨_, _, _, _, _, h⟩ => nomatch h)
  have h3 := step h2 not_false (fun ⟨_, _, _, _, _, h⟩ => nomatch h)
  have h4 := step h3 nofun (fun ⟨_, _, _, _, _, h⟩ => nomatch h)
  exact step h4 not_false (fun ⟨_, _, _, _, _, h⟩ => nomatch h)

theorem pause_applying :
    (applyingAfter 5).fiber.activity = .answered (.error .noBudget) (.instruction 0 false .host) ∧
      (applyingAfter 6).fiber.activity = .replied (.error .noBudget) .host ∧
      ∃ operands, 0 < operands ∧
        (applyingAfter 6).fiber.frames.map Frame.stack =
          applying.fiber.frames.map (·.stack.drop operands) := by
  have hanswer : (applyingAfter 5).fiber.activity =
      .answered (.error Failure.noBudget.fault) (.instruction 0 false .host) := rfl
  obtain ⟨hpaused, i, operands, vectors, _, _, hpos, _, _, hframes, _⟩ :=
    pause_in_native_call (c := applying) rfl rfl rfl passes_applying rfl hanswer
  refine ⟨hanswer, hpaused, operands, hpos, ?_⟩
  rw [show applyingAfter 6 = (applyingAfter 5).advance from rfl, hframes]
  rfl

/-- After more budget, resuming ends with an error instead of making the call. -/
theorem resume_applying :
    (applyingAfter 6).fiber.frames ≠ applying.fiber.frames ∧
      let c := (applyingAfter 6).start (.resume .unlimited) .host
      let more : Context := ⟨c.machine, c.id, c.fiber.configure (.budget 100)⟩
      ∃ e, more.advance.fiber.activity = .replied (.error (.exception (.error e))) .host ∧
        (more.advance.machine.heap.error? e).map Envelope.value =
          some Fault.invalidInstruction.raised := by
  refine ⟨fun h => ?_, ⟨0⟩, rfl, rfl⟩
  have hlength : [0] = [2] := congrArg (List.map fun f : Frame => f.stack.length) h
  exact nomatch hlength

end Context

end FiberMachine
