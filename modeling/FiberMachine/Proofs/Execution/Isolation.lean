import FiberMachine.Proofs.Execution.Nesting

/-!
# Isolation of entries

An entry runs above the frames that a fiber has. It leaves them as they are, and when it has an
outcome they are all that there is (`Context.entry_isolated`). On a fiber without frames there is an
exception. A run that pauses keeps its frames for the host to resume, and a program between the run
and the host may take no notice of the pause (`Context.frames_after_ignored_pause`).
-/

namespace FiberMachine

namespace Context

variable {c c' : Context} {caller : Caller} {entry : Entry}

/--
**An entry leaves the frames below alone.** At every moment until its caller goes on, the frames
that were there when it started are at the bottom of the stack and are what they were: none of them
is executed, handles an error or is discarded. When the caller goes on, no other frame is left. This
holds for native code that starts entries of its own to any depth, but does not resume. Only where
there were no frames, some can be left behind, by a run that has paused on the way.
-/
theorem entry_isolated (hentry : ∀ limit, entry ≠ .resume limit)
    (H : Passes (.caller caller) (c.start entry caller) c') :
    (c.fiber.frames <:+ c'.fiber.frames ∧
      (c'.fiber.activity.Returns (.caller caller) → c'.fiber.frames = c.fiber.frames)) ∨
    c.fiber.frames = [] ∧ ∃ paused, Passes (.caller caller) (c.start entry caller) paused ∧
      paused.fiber.activity.Pauses := by
  rcases (c.start entry caller).admits_or_pauses c.fiber.frames with hadmits | ⟨hnil, hpauses⟩
  · have hstart : (c.start entry caller).Nested (fun _ => True) (.caller caller) c.fiber.frames :=
      Nested.start c (List.suffix_refl _) (.root rfl)
        (fun limit heq _ => absurd heq (hentry limit)) hadmits
    refine (H.nested_or_pauses hstart).imp_left fun hnested => ?_
    exact ⟨hnested.frames, hnested.frames_eq⟩
  · exact .inr ⟨hnil, _, .refl, hpauses⟩

/-- A native function that calls its argument and takes no notice of the outcome. -/
def ignore : Routine := fun _ args =>
  .enter (.call (args.positional.headD .null) .null {}) fun _ => .finish (.ok .null)

/-- The host calls the function with one that runs out of budget, on a fiber without frames. -/
def ignoring : Context where
  machine.heap.functions := #[
    { module := none, receiver := .null, body := .native "ignore" ignore },
    { module := some ⟨0⟩, receiver := .null, body := .interpreted {
        name := some "f", signature := {}, captures := []
        instructions := #[{ opcode := .pushNull }, { opcode := .return }] } [] }]
  machine.modules := #[{ name := "m", object := ⟨0⟩, body := none, constants := #[] }]
  id := ⟨0⟩
  fiber.meter := { budget := some 0, counter := 1 }

/-- The call ends with a value, and the frame of the function that has paused is left behind. -/
theorem frames_after_ignored_pause :
    let c := drive 10 (ignoring.start
      (.call (.function ⟨0⟩) .null { positional := [.function ⟨1⟩] }) .host)
    ignoring.fiber.frames = [] ∧ c.fiber.activity = .replied (.ok .null) .host ∧
      c.fiber.frames.length = 1 :=
  ⟨rfl, rfl, rfl⟩

end Context

end FiberMachine
