import FiberMachine.Proofs.Execution.Nesting
import FiberMachine.Proofs.Provenance.Transition

/-!
# Where frames are in their code

A frame that executes is at an instruction or just past the last one, and a frame that waits for the
result of a call is at the instruction that made the call. `Fiber.Orderly` says so of all frames of
a fiber, those of suspended runs included. Every transition keeps it but one (`Fiber.intrudes`):
while an instruction waits for a program of the host, the program resumes the very frames that the
instruction belongs to. These frames may then be anywhere, or gone, when the result arrives.
-/

namespace FiberMachine

/-- The jump targets and handlers of the code are within it or just past its end. -/
structure Code.Bounded (code : Code) : Prop where
  targets : ∀ i ∈ code.instructions, ∀ target ∈ i.targets, target ≤ code.instructions.size
  handlers : ∀ i ∈ code.instructions, ∀ handler, i.handler = some handler →
    handler.toNat ≤ code.instructions.size

theorem LinkedModule.Grounded.bounded {m : LinkedModule} (h : m.Grounded) {code : Code}
    (hcode : m.Has code) : code.Bounded := by
  refine ⟨fun i hi target htarget => ?_, fun i hi handler hhandler => ?_⟩
  · unfold Instruction.targets at htarget
    split at htarget
    · rename_i hkind
      have hvalid := (h code hcode i hi).operand (by rw [hkind]; nofun)
      simp only [Instruction.operandValid, hkind, decide_eq_true_eq] at hvalid
      exact List.mem_singleton.mp htarget ▸ hvalid
    · exact nomatch htarget
  · have hvalid := (h code hcode i hi).handler
    simpa only [Instruction.handlerValid, hhandler, decide_eq_true_eq] using hvalid

namespace Frame

/-- The frame is at an instruction, which waits for a result. -/
def Waits (f : Frame) : Prop := f.instruction < f.code.instructions.size

/-- The frame is at an instruction or just past the last one. -/
def Placed (f : Frame) : Prop := f.instruction ≤ f.code.instructions.size

variable {f g : Frame}

theorem Waits.placed (h : f.Waits) : f.Placed := Nat.le_of_lt h

theorem Waits.deliver (h : f.Waits) (value : Value) : (f.deliver value).Placed := h

theorem placed_of_handle? (h : f.code.Bounded) {e : Value} (hg : f.handle? e = some g) :
    g.Placed := by
  obtain ⟨handler, hhandler, rfl⟩ := Option.map_eq_some_iff.mp hg
  unfold Frame.handler? at hhandler
  split at hhandler
  · rename_i i hi
    obtain ⟨index, hindex, rfl⟩ := Option.map_eq_some_iff.mp hhandler
    exact h.handlers i (Array.mem_of_getElem? hi) index hindex
  · exact nomatch hhandler

theorem Sound.bounded {m : Machine} (h : f.Sound m) : f.code.Bounded := by
  obtain ⟨_, linked, _, _, hholds, hmakes⟩ := h.holds
  exact hholds.accepted.grounded.bounded hmakes.has

end Frame

/-- The top frame goes on, and each of the others waits for the one above it. -/
def Stacked : List Frame → Prop
  | [] => True
  | top :: rest => top.Placed ∧ ∀ frame ∈ rest, frame.Waits

theorem Stacked.of_waits {frames : List Frame} (h : ∀ frame ∈ frames, frame.Waits) :
    Stacked frames := by
  cases frames with
  | nil => trivial
  | cons top rest =>
    obtain ⟨htop, hrest⟩ := List.forall_mem_cons.mp h
    exact ⟨htop.placed, hrest⟩

theorem Stacked.placed {frames : List Frame} (h : Stacked frames) :
    ∀ frame ∈ frames, frame.Placed := by
  cases frames with
  | nil => exact List.forall_mem_nil _
  | cons top rest => exact List.forall_mem_cons.mpr ⟨h.1, fun frame hf => (h.2 frame hf).placed⟩

mutual

/-- The frames are those of what receives the result, with a frame that waits for it. -/
inductive Pending.Orderly : Pending → List Frame → Prop where
  | instruction {base : Nat} {negate : Bool} {caller : Caller} {own below frames : List Frame} :
      frames = own ++ below → below.length = base → own ≠ [] → (∀ frame ∈ own, frame.Waits) →
      Caller.Orderly caller below → Pending.Orderly (.instruction base negate caller) frames
  | entry {frames : List Frame} {caller : Caller} : Caller.Orderly caller frames →
      Pending.Orderly (.entry caller) frames

inductive Caller.Orderly : Caller → List Frame → Prop where
  | host {frames : List Frame} : Stacked frames → Caller.Orderly .host frames
  | program {frames : List Frame} {next : Except Failure Value → Program} {purpose : Purpose} :
      Pending.Orderly purpose.pending frames → Caller.Orderly (.program next purpose) frames

end

/-- The frames above the first `base` run for `caller`, whose frames the others are. -/
inductive Caller.Conducts (caller : Caller) (base : Nat) (frames : List Frame) : Prop where
  | intro {own below : List Frame} : frames = own ++ below → below.length = base → own ≠ [] →
      Stacked own → caller.Orderly below → caller.Conducts base frames

def Activity.Orderly (frames : List Frame) : Activity → Prop
  | .idle => Stacked frames
  | .running base caller => caller.Conducts base frames
  | .program _ purpose => purpose.pending.Orderly frames
  | .finding _ pending | .found _ _ pending | .entering _ _ pending | .waiting _ _ pending
  | .answered _ pending => pending.Orderly frames
  | .replied _ caller => caller.Orderly frames

/-- Frames are at an instruction or just past the last one, those that wait at an instruction. -/
def Fiber.Orderly (f : Fiber) : Prop := f.activity.Orderly f.frames

/-! ## Frames of suspended runs -/

mutual

/-- Whether an instruction waits for the result, directly or not. -/
def Pending.isAwaited : Pending → Bool
  | .instruction _ _ _ => true
  | .entry caller => caller.isAwaited

def Caller.isAwaited : Caller → Bool
  | .host => false
  | .program _ purpose => purpose.isAwaited

def Purpose.isAwaited : Purpose → Bool
  | .call pending | .load _ pending => pending.isAwaited

end

/-- A program is about to resume the frames of an instruction that waits for the program. -/
def Fiber.intrudes (f : Fiber) : Bool :=
  match f.activity with
  | .program (.enter (.resume limit) _) purpose =>
    limit != .unrepresentable && !f.frames.isEmpty && purpose.isAwaited
  | _ => false

theorem Purpose.isAwaited_pending (purpose : Purpose) :
    purpose.pending.isAwaited = purpose.isAwaited := by
  cases purpose <;> rfl

mutual

/-- Without frames nothing waits, so frames that were paused can take their place. -/
theorem Pending.Orderly.paused {pending : Pending} {none frames : List Frame} (hnone : none = [])
    (hframes : Stacked frames) : pending.Orderly none → pending.Orderly frames
  | .instruction heq _ hown _ _ =>
    absurd (List.append_eq_nil_iff.mp (heq.symm.trans hnone)).1 hown
  | .entry H => .entry (H.paused hnone hframes)

theorem Caller.Orderly.paused {caller : Caller} {none frames : List Frame} (hnone : none = [])
    (hframes : Stacked frames) : caller.Orderly none → caller.Orderly frames
  | .host _ => .host hframes
  | .program H => .program (H.paused hnone hframes)

end

mutual

/-- Where no instruction waits, all frames are paused. -/
theorem Pending.Orderly.unawaited {pending : Pending} {frames : List Frame}
    (h : pending.isAwaited = false) : pending.Orderly frames → Stacked frames ∧ pending.Orderly []
  | .instruction _ _ _ _ _ => nomatch h
  | .entry H => (H.unawaited h).imp_right .entry

theorem Caller.Orderly.unawaited {caller : Caller} {frames : List Frame}
    (h : caller.isAwaited = false) : caller.Orderly frames → Stacked frames ∧ caller.Orderly []
  | .host hframes => ⟨hframes, .host trivial⟩
  | @Caller.Orderly.program _ _ purpose H =>
    (H.unawaited (purpose.isAwaited_pending.trans h)).imp_right .program

end

mutual

theorem Pending.Orderly.placed {pending : Pending} {frames : List Frame} :
    pending.Orderly frames → ∀ frame ∈ frames, frame.Placed
  | .instruction heq _ _ hown H => heq ▸ List.forall_mem_append.mpr
    ⟨fun frame hframe => (hown frame hframe).placed, H.placed⟩
  | .entry H => H.placed

theorem Caller.Orderly.placed {caller : Caller} {frames : List Frame} :
    caller.Orderly frames → ∀ frame ∈ frames, frame.Placed
  | .host hframes => hframes.placed
  | .program H => H.placed

end

theorem Pending.Orderly.conducts {base : Nat} {negate : Bool} {caller : Caller}
    {frames : List Frame} (H : Pending.Orderly (.instruction base negate caller) frames) :
    caller.Conducts base frames := by
  cases H with
  | instruction heq hbase hown hwaits H => exact ⟨heq, hbase, hown, .of_waits hwaits, H⟩

theorem Caller.Conducts.ne_nil {base : Nat} {caller : Caller} {frames : List Frame}
    (H : caller.Conducts base frames) : frames ≠ [] := by
  obtain ⟨heq, _, hown, _, _⟩ := H
  exact fun hnil => hown (List.append_eq_nil_iff.mp (heq.symm.trans hnil)).1

theorem Caller.Conducts.lt_length {base : Nat} {caller : Caller} {frames : List Frame}
    (H : caller.Conducts base frames) : base < frames.length := by
  obtain ⟨heq, hbase, hown, _, _⟩ := H
  rw [heq, List.length_append, ← hbase]
  exact Nat.lt_add_of_pos_left (List.length_pos_of_ne_nil hown)

theorem Fiber.Orderly.placed {f : Fiber} (H : f.Orderly) : ∀ frame ∈ f.frames, frame.Placed := by
  unfold Fiber.Orderly at H
  cases hactivity : f.activity with
  | idle =>
    rw [hactivity] at H
    exact Stacked.placed H
  | running base caller =>
    rw [hactivity] at H
    obtain ⟨heq, _, _, hown, H⟩ := H
    rw [heq]
    exact List.forall_mem_append.mpr ⟨hown.placed, H.placed⟩
  | replied outcome caller =>
    rw [hactivity] at H
    exact Caller.Orderly.placed H
  | _ =>
    rw [hactivity] at H
    exact Pending.Orderly.placed H

/-! ## Completing frames -/

namespace Machine

variable {base : Nat} {caller : Caller} {own below : List Frame}

/-- The frames that are left when some of a run's frames have completed. -/
theorem complete_orderly (m : Machine) (result : Except Value Value) (top : Frame)
    (hbase : below.length = base) (hwaits : ∀ frame ∈ own, frame.Waits)
    (hbounded : ∀ frame ∈ own, frame.code.Bounded) (H : caller.Orderly below) :
    match (complete base m result (top :: own ++ below)).result with
    | none => caller.Conducts base (complete base m result (top :: own ++ below)).frames
    | some _ => (complete base m result (top :: own ++ below)).frames = below := by
  -- An error that a frame does not handle completes this frame too, so `top` and `result` vary.
  induction own generalizing m result top with
  | nil =>
    unfold complete
    generalize m.conclude top.continuation result = concluded
    have hempty : (([] ++ below).drop base).isEmpty := by
      rw [List.isEmpty_iff, List.nil_append, List.drop_eq_nil_iff]
      exact Nat.le_of_eq hbase
    obtain ⟨result, m'⟩ := concluded
    simp only [List.cons_append, hempty, if_true]
    rfl
  | cons frame own ih =>
    obtain ⟨hframe, hwaits⟩ := List.forall_mem_cons.mp hwaits
    obtain ⟨hcode, hbounded⟩ := List.forall_mem_cons.mp hbounded
    have hmore : ((frame :: own ++ below).drop base).isEmpty = false := by
      rw [List.isEmpty_eq_false_iff, Ne, List.drop_eq_nil_iff]
      simp only [List.length_append, List.length_cons]
      omega
    have conducts {frame' : Frame} (hplaced : frame'.Placed) :
        caller.Conducts base (frame' :: own ++ below) :=
      ⟨rfl, hbase, List.cons_ne_nil _ _, ⟨hplaced, hwaits⟩, H⟩
    rw [List.cons_append]
    unfold complete
    generalize m.conclude top.continuation result = concluded
    obtain ⟨result, m'⟩ := concluded
    simp only [hmore, Bool.false_eq_true, if_false]
    cases result with
    | ok value => exact conducts (hframe.deliver value)
    | error e =>
      simp only [List.cons_append]
      cases hhandle : frame.handle? e with
      | some frame' => exact conducts (Frame.placed_of_handle? hcode hhandle)
      | none => exact ih m' (.error e) frame hwaits hbounded

end Machine

/-! ## Transitions -/

namespace Context

variable {c : Context} {base : Nat} {caller : Caller} {pending : Pending} {frames : List Frame}

abbrev Orderly (c : Context) : Prop := c.fiber.Orderly

theorem Ready.bounded (h : c.Ready) : ∀ frame ∈ c.fiber.frames, frame.code.Bounded :=
  fun frame hframe => (h.frames frame hframe).bounded

namespace Orderly

theorem finish (c : Context) (result : Except Fault Value) (H : caller.Orderly c.fiber.frames) :
    (c.finish result caller).Orderly := by
  unfold Context.finish
  split <;> exact H

theorem complete (c : Context) (hc : ∀ frame ∈ c.fiber.frames, frame.code.Bounded)
    (result : Except Value Value) (H : caller.Conducts base c.fiber.frames) :
    (c.complete result base caller).Orderly := by
  obtain ⟨m, id, ⟨frames, meter, deadline, maxDepth, activity⟩⟩ := c
  obtain @⟨own, below, rfl, hbase, hown, hstacked, H⟩ := H
  obtain ⟨top, own, rfl⟩ := List.exists_cons_of_ne_nil hown
  have hbounded : ∀ frame ∈ own, frame.code.Bounded := fun frame hframe =>
    hc frame (List.mem_append_left _ (List.mem_cons_of_mem _ hframe))
  have hleft := m.complete_orderly result top hbase hstacked.2 hbounded H
  unfold Context.complete
  dsimp only
  generalize Machine.complete base m result (top :: own ++ below) = unwound at hleft
  obtain ⟨m', frames', finished⟩ := unwound
  match finished with
  | none => exact hleft
  | some (.ok value) =>
    cases hleft
    exact finish _ _ H
  | some (.error e) =>
    cases hleft
    exact finish _ _ H

theorem raise (c : Context) (hc : ∀ frame ∈ c.fiber.frames, frame.code.Bounded) (fault : Fault)
    (H : caller.Conducts base c.fiber.frames) : (c.raise fault base caller).Orderly := by
  obtain ⟨m, id, ⟨frames, meter, deadline, maxDepth, activity⟩⟩ := c
  obtain @⟨own, below, rfl, hbase, hown, hstacked, H⟩ := H
  obtain ⟨top, own, rfl⟩ := List.exists_cons_of_ne_nil hown
  have hconducts : caller.Conducts base (top :: own ++ below) := ⟨rfl, hbase, hown, hstacked, H⟩
  unfold Context.raise
  simp only [envelope, List.cons_append]
  split
  · rename_i frame' hframe
    have hcode := hc top (List.mem_cons_self ..)
    exact ⟨(List.cons_append ..).symm, hbase, List.cons_ne_nil _ _,
      ⟨Frame.placed_of_handle? hcode hframe, hstacked.2⟩, H⟩
  · refine complete _ ?_ _ hconducts
    exact hc

/-- A run that pauses has no frames below its own; any other leaves those of its caller. -/
theorem abandon (c : Context) (fault : Fault) (H : caller.Conducts base c.fiber.frames) :
    (c.abandon fault base caller).Orderly := by
  obtain ⟨m, id, f⟩ := c
  obtain @⟨own, below, heq, hbase, hown, hstacked, H⟩ := H
  dsimp only at heq
  unfold Context.abandon
  split
  · rename_i hpause
    obtain rfl := List.eq_nil_of_length_eq_zero (hbase.trans hpause.1)
    rw [List.append_nil] at heq
    refine finish _ _ ?_
    rw [heq]
    exact H.paused rfl hstacked
  · obtain ⟨hsuffix, hlength⟩ := m.discard_frames (Nat.le_of_eq hbase)
      (heq ▸ List.suffix_append own below) (by rw [heq, List.length_append]; omega)
    refine finish _ _ ?_
    rw [← hsuffix.eq_of_length (hbase.trans hlength.symm)]
    exact H

theorem fail (c : Context) (hc : ∀ frame ∈ c.fiber.frames, frame.code.Bounded) (fault : Fault)
    (H : caller.Conducts base c.fiber.frames) : (c.fail fault base caller).Orderly := by
  unfold Context.fail
  split
  · exact abandon c fault H
  · exact raise c hc fault H

theorem deliver (c : Context) (value : Value) {negate : Bool}
    (H : Pending.Orderly (.instruction base negate caller) c.fiber.frames) :
    (c.deliver value base caller).Orderly := by
  obtain ⟨m, id, ⟨frames, meter, deadline, maxDepth, activity⟩⟩ := c
  cases H with
  | @instruction _ _ _ own below _ heq hbase hown hwaits H =>
    cases heq
    obtain ⟨top, own, rfl⟩ := List.exists_cons_of_ne_nil hown
    obtain ⟨htop, hwaits⟩ := List.forall_mem_cons.mp hwaits
    exact ⟨(List.cons_append ..).symm, hbase, List.cons_ne_nil _ _, ⟨htop.deliver value, hwaits⟩, H⟩

theorem enter (c : Context) (hc : ∀ frame ∈ c.fiber.frames, frame.code.Bounded)
    (frame : Frame) (hframe : frame.instruction = 0) (H : pending.Orderly c.fiber.frames) :
    (c.enter frame pending).Orderly := by
  have hplaced {frame' : Frame} (h : frame'.instruction = frame.instruction) : frame'.Placed := by
    rw [Frame.Placed, h, hframe]
    exact Nat.zero_le _
  cases hpending : pending with
  | instruction base negate caller =>
    subst hpending
    simp only [Context.enter]
    split
    · exact raise c hc .stackOverflow H.conducts
    · have hnew : (if negate then { frame with continuation := .negated } else frame).instruction =
          frame.instruction := by split <;> rfl
      cases H with
      | instruction heq hbase hown hwaits H =>
        exact ⟨(congrArg _ heq).trans (List.cons_append ..).symm, hbase, List.cons_ne_nil _ _,
          ⟨hplaced hnew, hwaits⟩, H⟩
  | entry caller =>
    subst hpending
    cases H with
    | entry H =>
      simp only [Context.enter]
      split
      · exact finish c _ H
      · exact ⟨(List.singleton_append).symm, rfl, List.cons_ne_nil _ _,
          ⟨hplaced rfl, List.forall_mem_nil _⟩, H⟩

theorem proceed (hc : c.Ready) {invocation : Machine.Invocation}
    (hinvocation : invocation.Sound c.machine) (H : pending.Orderly c.fiber.frames) :
    (c.proceed invocation pending).Orderly := by
  cases invocation with
  | complete value => exact H
  | enter frame => exact enter c hc.bounded frame hinvocation.2 H
  | run program => exact H
  | fail fault => exact H

theorem call (hc : c.Ready) (callable receiver : Value) (args : Arguments)
    (H : pending.Orderly c.fiber.frames) : (c.call callable receiver args pending).Orderly := by
  have hprepared := hc.machine.prepareCall callable receiver args
  have hready : Ready ⟨(c.machine.prepareCall callable receiver args).2, c.id, c.fiber⟩ :=
    hc.of_advances hprepared.advances rfl
  exact proceed hready hprepared.invocation H

theorem invoke (hc : c.Ready) (target : Value) (name : String) (args : Arguments)
    (H : pending.Orderly c.fiber.frames) : (c.invoke target name args pending).Orderly := by
  have hprepared := hc.machine.prepareInvoke target name args c.fiber.currentModule?
  have hready : Ready ⟨(c.machine.prepareInvoke target name args c.fiber.currentModule?).2, c.id,
      c.fiber⟩ := hc.of_advances hprepared.advances rfl
  exact proceed hready hprepared.invocation H

/-- Where the top frame is after an instruction. -/
theorem placed_step {m : Machine} {frame : Frame} (h : frame.Sound m) (hplaced : frame.Placed)
    {result : Except Fault Action} {heap : Heap} {frame' : Frame}
    (hstep : Exec.step.run ⟨m.heap, frame⟩ = (result, ⟨heap, frame'⟩)) :
    match result with
    | .ok .next | .ok (.return _) => frame'.Placed
    | _ => frame'.Waits := by
  have hcode : frame'.code = frame.code := by
    have hsame := Exec.keeps_step.same ⟨m.heap, frame⟩
    rw [hstep] at hsame
    exact hsame.code
  cases hi : frame.code.instructions[frame.instruction]? with
  | none =>
    rw [Exec.step_of_none hi] at hstep
    cases hstep
    exact hplaced
  | some i =>
    have harrives := (Exec.arrives_step h.closes hi).instruction
    have hlt := (Array.getElem?_eq_some_iff.mp hi).1
    rw [hstep] at harrives
    have waits (heq : frame'.instruction = frame.instruction) : frame'.Waits := by
      rw [Frame.Waits, heq, hcode]
      exact hlt
    match result with
    | .ok .next =>
      rw [Frame.Placed, hcode]
      rcases harrives with heq | htarget
      · exact heq ▸ hlt
      · exact h.bounded.targets i (Array.mem_of_getElem? hi) _ htarget
    | .ok (.return value) => exact (waits harrives).placed
    | .ok (.call ..) | .ok (.invoke ..) | .ok (.load _) | .error fault => exact waits harrives

theorem instruct (hc : c.Ready) (hactivity : c.fiber.activity = .running base caller)
    (H : caller.Conducts base c.fiber.frames) : (c.instruct base caller).Orderly := by
  obtain ⟨m, id, ⟨frames, meter, deadline, maxDepth, activity⟩⟩ := c
  cases hactivity
  obtain @⟨own, below, rfl, hbase, hown, hstacked, H⟩ := H
  obtain ⟨top, own, rfl⟩ := List.exists_cons_of_ne_nil hown
  have htop := hc.frames top (List.mem_cons_self ..)
  simp only [Context.instruct, Machine.onHeap, List.cons_append]
  rcases hstep : Exec.step.run ⟨m.heap, top⟩ with ⟨action, ⟨heap, top'⟩⟩
  obtain ⟨_, hready⟩ := hc.executed rfl (congrArg Prod.snd hstep)
  have hplaced := placed_step htop hstacked.1 hstep
  have conducts (h : top'.Placed) : caller.Conducts base (top' :: (own ++ below)) :=
    ⟨(List.cons_append ..).symm, hbase, List.cons_ne_nil _ _, ⟨h, hstacked.2⟩, H⟩
  have waits (negate : Bool) (h : top'.Waits) :
      Pending.Orderly (.instruction base negate caller) (top' :: (own ++ below)) :=
    .instruction (List.cons_append ..).symm hbase (List.cons_ne_nil _ _)
      (List.forall_mem_cons.mpr ⟨h, hstacked.2⟩) H
  cases action with
  | error fault => exact fail _ hready.bounded fault (conducts hplaced.placed)
  | ok action =>
    cases action with
    | next => exact conducts hplaced
    | call callable receiver args negate =>
      exact call hready callable receiver args (waits negate hplaced)
    | invoke target name args => exact invoke hready target name args (waits false hplaced)
    | load name => exact waits false hplaced
    | «return» value => exact complete _ hready.bounded (.ok value) (conducts hplaced)

theorem run (hc : c.Ready) (hactivity : c.fiber.activity = .running base caller)
    (H : caller.Conducts base c.fiber.frames) : (c.run base caller).Orderly := by
  unfold Context.run
  split
  · exact abandon c .noBudget H
  · rename_i meter charged _
    dsimp only
    split
    · exact abandon _ .timeout H
    · have hmeter : Ready ⟨c.machine, c.id, { c.fiber with meter }⟩ := ⟨hc.machine, hc.frames⟩
      exact instruct hmeter hactivity H

/-- An entry that resumes frames is given all of them. -/
theorem start (hc : c.Ready) {entry : Entry} (H : caller.Orderly c.fiber.frames)
    (hresume : ∀ limit, entry = .resume limit → limit ≠ .unrepresentable → c.fiber.frames ≠ [] →
      Stacked c.fiber.frames ∧ caller.Orderly []) : (c.start entry caller).Orderly := by
  cases entry with
  | execute linked limit => cases limit <;> first | exact .entry H | exact H
  | load name => exact .entry H
  | call callable receiver args => exact call hc callable receiver args (.entry H)
  | invoke target name args => exact invoke hc target name args (.entry H)
  | resume limit =>
    have resumed (hlimit : limit ≠ .unrepresentable) :
        Activity.Orderly c.fiber.frames
          (if c.fiber.frames.isEmpty then .replied (.ok .null) caller else .running 0 caller) := by
      split
      · exact H
      · rename_i hempty
        have hframes : c.fiber.frames ≠ [] := fun h => hempty (List.isEmpty_iff.mpr h)
        obtain ⟨hstacked, H⟩ := hresume limit rfl hlimit hframes
        exact ⟨(List.append_nil _).symm, rfl, hframes, hstacked, H⟩
    cases limit with
    | unrepresentable => exact H
    | unlimited => exact resumed nofun
    | deadline d => exact resumed nofun

theorem step (hc : c.Ready) {program : Program} {purpose : Purpose}
    (hactivity : c.fiber.activity = .program program purpose)
    (hintrudes : c.fiber.intrudes = false) (H : purpose.pending.Orderly c.fiber.frames) :
    (c.step program purpose).Orderly := by
  cases program with
  | finish result =>
    cases purpose with
    | call pending => exact H
    | load id pending => cases result <;> exact H
  | enter entry next =>
    refine start hc (.program H) fun limit hentry hlimit hframes => ?_
    subst hentry
    have hawaited : purpose.isAwaited = false := by
      simpa [Fiber.intrudes, hactivity, hlimit, hframes] using hintrudes
    exact (H.unawaited (purpose.isAwaited_pending.trans hawaited)).imp_right .program
  | newArray values next | newObject next | newFunction name module routine next
  | read target next | backtrace next => exact H
  | configure setting next => cases setting <;> exact H
  | update target update next =>
    simp only [Context.step]
    split <;> exact H

theorem find (c : Context) (name : String) (H : pending.Orderly c.fiber.frames) :
    (c.find name pending).Orderly := by
  unfold Context.find
  split
  · exact H
  · dsimp only
    split <;> exact H

theorem adopt (c : Context) (name : String) (result : Except FinderError (Option LinkedModule))
    (H : pending.Orderly c.fiber.frames) : (c.adopt name result pending).Orderly := by
  unfold Context.adopt
  split
  · split <;> exact H
  all_goals exact H

theorem load (hc : ∀ frame ∈ c.fiber.frames, frame.code.Bounded) (id : ModuleId)
    (entry : ModuleEntry) (object : Bool) (H : pending.Orderly c.fiber.frames) :
    (c.load id entry object pending).Orderly := by
  obtain ⟨m, self, f⟩ := c
  unfold Context.load
  cases entry.body with
  | none => exact H
  | some code =>
    dsimp only [Machine.onHeap]
    generalize Heap.newFunction _ _ = allocated
    have hbound := (Frame.bind_spec (fun _ _ _ => True) allocated.2 allocated.1 code []
      { module := id, constants := entry.constants, globals := entry.object }
      (.object entry.object) {}).2
    generalize Frame.bind allocated.2 _ _ _ _ _ _ = bound at hbound
    obtain ⟨fault | frame, heap⟩ := bound
    · exact H
    · refine enter _ ?_ _ ?_ H
      · exact hc
      · exact hbound.2.2.2

theorem enterModule (hc : ∀ frame ∈ c.fiber.frames, frame.code.Bounded) (id : ModuleId)
    (object : Bool) (H : pending.Orderly c.fiber.frames) :
    (c.enterModule id object pending).Orderly := by
  unfold Context.enterModule
  split
  · exact H
  · split
    · exact H
    · exact H
    · split
      · exact H
      · split <;> exact H
    · exact load hc id _ object H

theorem wake (c : Context) (id : ModuleId) (object : Bool) (H : pending.Orderly c.fiber.frames) :
    (c.wake id object pending).Orderly := by
  unfold Context.wake
  dsimp only
  split <;> exact H

/-- **A transition leaves frames in order** that are in order, unless it intrudes. -/
theorem advance (hc : c.Ready) (hintrudes : c.fiber.intrudes = false) (H : c.Orderly) :
    c.advance.Orderly := by
  obtain ⟨m, id, ⟨frames, meter, deadline, maxDepth, activity⟩⟩ := c
  cases activity with
  | idle => exact H
  | running base caller => exact run hc rfl H
  | program program purpose => exact step hc rfl hintrudes H
  | finding name pending => exact find _ name H
  | found name result pending => exact adopt _ name result H
  | entering module object pending => exact enterModule hc.bounded module object H
  | waiting module object pending => exact wake _ module object H
  | answered result pending =>
    cases pending with
    | entry caller =>
      cases H with
      | entry H =>
        cases result with
        | ok value => exact finish _ (.ok value) H
        | error fault => exact finish _ (.error fault) H
    | instruction base negate caller =>
      cases result with
      | ok value => exact deliver _ _ H
      | error fault => exact fail _ hc.bounded fault H.conducts
  | replied outcome caller =>
    cases caller with
    | host => exact H
    | program next purpose =>
      cases H with
      | program H => exact H

end Orderly

end Context

end FiberMachine
