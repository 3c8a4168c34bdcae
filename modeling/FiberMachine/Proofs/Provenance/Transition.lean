import FiberMachine.Proofs.Provenance.Machine
import FiberMachine.Proofs.World.History

/-!
# Transitions keep code in its module

A transition of a sound context leads to a sound context, whatever the fiber is doing
(`Context.Ready.advance`). It raises `invalidInstruction` only if it is not `Context.Quiet`
beforehand: the top frame lacks something, or is not there, or a program of the host has ended with
that fault.
-/

namespace FiberMachine

/-! ## Envelopes -/

/-- Whether the envelope is that of the fault, wherever it was raised. -/
def Envelope.isOf (e : Envelope) (fault : Fault) : Bool :=
  e.value = fault.raised && e.category = fault.category && e.message = fault.message

/-- How often a fault was raised. -/
def Heap.raisings (h : Heap) (fault : Fault) : Nat := h.errors.countP (·.isOf fault)

theorem Heap.raisings_of_errors {h h' : Heap} (heq : h'.errors = h.errors) (fault : Fault) :
    h'.raisings fault = h.raisings fault := by rw [raisings, heq, raisings]

/-- Raising another fault is not taken for an invalid instruction. -/
theorem Heap.raisings_envelope (h : Heap) (frames : List Frame) {fault : Fault}
    (hne : fault ≠ .invalidInstruction) :
    (h.envelope frames fault).2.raisings .invalidInstruction = h.raisings .invalidInstruction := by
  unfold Heap.envelope
  split
  · rfl
  · simp only [newError, raisings, Array.countP_push]
    rw [if_neg, Nat.add_zero]
    cases fault with
    | invalidInstruction => exact absurd rfl hne
    | _ => simp [Envelope.isOf, Fault.raised, Fault.symbol, Fault.category]

/-! ## Machines -/

namespace Machine

variable {m m' m'' : Machine}

/-- What a sound machine becomes when no instruction is invalid. -/
structure Advances (m m' : Machine) : Prop where
  grows : m.Grows m'
  calm : m'.heap.raisings .invalidInstruction = m.heap.raisings .invalidInstruction

theorem Advances.trans (H : m.Advances m') (H' : m'.Advances m'') : m.Advances m'' :=
  ⟨H.grows.trans H'.grows, H'.calm.trans H.calm⟩

theorem Advances.sound (H : m.Advances m') : m'.Sound := H.grows.sound

theorem Grows.advances (H : m.Grows m') (he : m'.heap.errors = m.heap.errors) : m.Advances m' :=
  ⟨H, Heap.raisings_of_errors he _⟩

theorem Sound.advances (h : m.Sound) : m.Advances m := ⟨h.refl, rfl⟩

theorem finishModule_errors (m : Machine) (id : ModuleId) (error : Option Value) :
    (m.finishModule id error).heap.errors = m.heap.errors := by
  unfold Machine.finishModule
  dsimp only
  split
  · rfl
  · dsimp only [onHeap]
    split <;> rfl

theorem Sound.advances_finishModule (h : m.Sound) (id : ModuleId) (error : Option Value) :
    m.Advances (m.finishModule id error) :=
  (h.finishModule id error).advances (m.finishModule_errors id error)

theorem Sound.advances_envelope (h : m.Sound) (frames : List Frame) {fault : Fault}
    (hne : fault ≠ .invalidInstruction) : m.Advances (m.onHeap (·.envelope frames fault)).2 :=
  ⟨h.envelope frames fault, m.heap.raisings_envelope frames hne⟩

theorem register_errors (m : Machine) (linked : LinkedModule) :
    (m.register linked).2.heap.errors = m.heap.errors :=
  (instantiateAll_instantiates ⟨m.modules.size⟩ m.heap linked.pool.toList).errors

theorem Sound.advances_register (h : m.Sound) {linked : LinkedModule} (hlinked : linked.Accepted) :
    m.Advances (m.register linked).2 := (h.register hlinked).advances (m.register_errors linked)

theorem Prepares.advances {prepared : Invocation × Machine} (H : m.Prepares prepared) :
    m.Advances prepared.2 := H.grows.advances H.errors

theorem Sound.conclude (h : m.Sound) (continuation : Continuation) (result : Except Value Value) :
    m.Advances (m.conclude continuation result).2 := by
  cases continuation with
  | result => exact h.advances
  | negated => cases result <;> exact h.advances
  | module id object =>
    cases result with
    | error e => exact h.advances_finishModule id (some e)
    | ok value =>
      simp only [Machine.conclude]
      split <;> exact h.advances_finishModule id none

/-- Completing frames leaves frames that are sound. -/
theorem Sound.complete (h : m.Sound) (base : Nat) (result : Except Value Value)
    {frames : List Frame} (hframes : ∀ frame ∈ frames, frame.Sound m) :
    m.Advances (complete base m result frames).machine ∧
      ∀ frame ∈ (complete base m result frames).frames,
        frame.Sound (complete base m result frames).machine := by
  induction frames generalizing m result with
  | nil => exact ⟨h.advances, List.forall_mem_nil _⟩
  | cons top rest ih =>
    have hadvances := h.conclude top.continuation result
    unfold Machine.complete
    generalize m.conclude top.continuation result = concluded at hadvances
    obtain ⟨result, m'⟩ := concluded
    have hrest : ∀ frame ∈ rest, frame.Sound m' := fun frame hframe =>
      (hframes frame (List.mem_cons_of_mem _ hframe)).mono hadvances.grows.extend
    dsimp only
    split
    · exact ⟨hadvances, hrest⟩
    · cases rest with
      | nil => cases result <;> exact ⟨hadvances, List.forall_mem_nil _⟩
      | cons frame below =>
        obtain ⟨hframe, hbelow⟩ := List.forall_mem_cons.mp hrest
        cases result with
        | ok value => exact ⟨hadvances, List.forall_mem_cons.mpr ⟨hframe.deliver value, hbelow⟩⟩
        | error e =>
          dsimp only
          split
          · exact ⟨hadvances, List.forall_mem_cons.mpr ⟨hframe.handle? ‹_›, hbelow⟩⟩
          · obtain ⟨hnext, hall⟩ := ih hadvances.sound (.error e) hrest
            exact ⟨hadvances.trans hnext, hall⟩

theorem Sound.discard (h : m.Sound) (base : Nat) {frames : List Frame}
    (hframes : ∀ frame ∈ frames, frame.Sound m) :
    m.Advances (discard base m frames).1 ∧
      ∀ frame ∈ (discard base m frames).2, frame.Sound (discard base m frames).1 := by
  induction frames generalizing m with
  | nil => exact ⟨h.advances, List.forall_mem_nil _⟩
  | cons top rest ih =>
    have hrest : ∀ frame ∈ rest, frame.Sound m := (List.forall_mem_cons.mp hframes).2
    unfold Machine.discard
    split
    · exact ⟨h.advances, hframes⟩
    · split
      · rename_i id _ _
        have henvelope : m.Advances (m.onHeap (·.envelope rest .moduleFailed)).2 :=
          h.advances_envelope rest (by decide)
        have hfailed := henvelope.trans (henvelope.sound.advances_finishModule id
          (some (m.onHeap (·.envelope rest .moduleFailed)).1))
        obtain ⟨hnext, hall⟩ := ih hfailed.sound fun frame hframe =>
          (hrest frame hframe).mono hfailed.grows.extend
        exact ⟨hfailed.trans hnext, hall⟩
      · exact ih h hrest

end Machine

/-! ## Contexts -/

/-- What a fiber is about to register or enter is accepted or known. -/
def Activity.Sound (m : Machine) : Activity → Prop
  | .found name result _ => ∀ linked, result = .ok (some linked) → Finder.Finds name linked
  | .entering id _ _ | .waiting id _ _ => (m.module? id).isSome
  | _ => True

theorem Activity.Sound.mono {m m' : Machine} {activity : Activity} (h : activity.Sound m)
    (H : m.Extends m') : activity.Sound m' := by
  unfold Activity.Sound at h ⊢
  split
  · exact h
  · exact H.known h
  · exact H.known h
  · trivial

/-- An invocation has ended as an invalid instruction. -/
def Activity.isInvalid : Activity → Bool
  | .answered (.error .invalidInstruction) _ => true
  | _ => false

theorem Activity.isInvalid_answered {result : Except Fault Value}
    (h : result ≠ .error .invalidInstruction) (pending : Pending) :
    (Activity.answered result pending).isInvalid = false := by
  unfold Activity.isInvalid
  split
  · rename_i heq
    cases heq
    exact absurd rfl h
  · rfl

namespace Context

/-- The machine and the fiber's frames are sound. -/
structure Ready (c : Context) : Prop where
  machine : c.machine.Sound
  frames : ∀ frame ∈ c.fiber.frames, frame.Sound c.machine

/--
`c'` follows on `c`. If `quiet` no invalid instruction was raised, and if `valid` no invocation has
ended as one.
-/
structure Reaches (quiet valid : Prop) (c c' : Context) : Prop where
  extend : c.machine.Extends c'.machine
  ready : c'.Ready
  activity : c'.fiber.activity.Sound c'.machine
  calm : quiet →
    c'.machine.heap.raisings .invalidInstruction = c.machine.heap.raisings .invalidInstruction
  valid : valid → c'.fiber.activity.isInvalid = false

variable {c c' c'' : Context} {quiet quiet' valid : Prop}

/-- A change of the machine that comes before. -/
theorem Reaches.after (H : c'.Reaches quiet valid c'') (h : c.machine.Advances c'.machine) :
    c.Reaches quiet valid c'' :=
  { H with
    extend := h.grows.extend.trans H.extend
    calm := fun hquiet => (H.calm hquiet).trans h.calm }

theorem Reaches.weaken (H : c.Reaches quiet valid c') (h : quiet' → quiet) :
    c.Reaches quiet' valid c' := { H with calm := fun hquiet => H.calm (h hquiet) }

theorem Reaches.of_valid (H : c.Reaches quiet valid c') (h : valid) : c.Reaches quiet True c' :=
  { H with valid := fun _ => H.valid h }

/-- Nothing was invalid, whatever is asked for. -/
theorem Reaches.always (H : c.Reaches True True c') : c.Reaches quiet valid c' :=
  { H with calm := fun _ => H.calm trivial, valid := fun _ => H.valid trivial }

namespace Ready

theorem of_advances (h : c.Ready) (H : c.machine.Advances c'.machine)
    (hframes : c'.fiber.frames = c.fiber.frames) : c'.Ready :=
  ⟨H.sound, fun frame hframe => (h.frames frame (hframes ▸ hframe)).mono H.grows.extend⟩

/-- The fiber goes on with the same frames. -/
theorem goes (h : c.Ready) (H : c.machine.Advances c'.machine)
    (hframes : c'.fiber.frames = c.fiber.frames)
    (hactivity : c'.fiber.activity.Sound c'.machine)
    (hinvalid : c'.fiber.activity.isInvalid = false) : c.Reaches True True c' :=
  ⟨H.grows.extend, h.of_advances H hframes, hactivity, fun _ => H.calm, fun _ => hinvalid⟩

theorem answer (h : c.Ready) (result : Except Fault Value) (pending : Pending) :
    c.Reaches True (result ≠ .error .invalidInstruction) (c.answer result pending) :=
  ⟨.refl _, ⟨h.machine, h.frames⟩, trivial, fun _ => rfl, fun hne =>
    Activity.isInvalid_answered hne pending⟩

theorem envelope (h : c.Ready) (fault : Fault) : (c.envelope fault).2.Ready :=
  have H := h.machine.envelope c.fiber.frames fault
  ⟨H.sound, fun frame hframe => (h.frames frame hframe).mono H.extend⟩

theorem advances_envelope (h : c.Ready) {fault : Fault} (hne : fault ≠ .invalidInstruction) :
    c.machine.Advances (c.envelope fault).2.machine :=
  h.machine.advances_envelope c.fiber.frames hne

/-- A fault is made an envelope before. -/
theorem after_envelope (h : c.Ready) (fault : Fault)
    (H : (c.envelope fault).2.Reaches True True c') :
    c.Reaches (fault ≠ .invalidInstruction) True c' :=
  { H with
    extend := (h.machine.envelope c.fiber.frames fault).extend.trans H.extend
    calm := fun hne => (H.after (h.advances_envelope hne)).calm trivial }

theorem finish (h : c.Ready) (result : Except Fault Value) (caller : Caller) :
    c.Reaches (result ≠ .error .invalidInstruction) True (c.finish result caller) := by
  unfold Context.finish
  split
  · exact .always (h.goes h.machine.advances rfl trivial rfl)
  · exact .always (h.goes h.machine.advances rfl trivial rfl)
  · exact .always (h.goes h.machine.advances rfl trivial rfl)
  · exact .always (h.goes h.machine.advances rfl trivial rfl)
  · rename_i fault _ _ _
    have henvelope := h.envelope fault
    refine (h.after_envelope fault ?_).weaken fun hne heq => hne (congrArg _ heq)
    exact henvelope.goes henvelope.machine.advances rfl trivial rfl

theorem complete (h : c.Ready) (result : Except Value Value) (base : Nat) (caller : Caller) :
    c.Reaches True True (c.complete result base caller) := by
  obtain ⟨m, id, ⟨frames, meter, deadline, maxDepth, activity⟩⟩ := c
  obtain ⟨hadvances, hframes⟩ := h.machine.complete base result h.frames
  unfold Context.complete
  dsimp only at hadvances hframes ⊢
  generalize Machine.complete base m result frames = unwound at hadvances hframes
  obtain ⟨m', frames', finished⟩ := unwound
  have hready (activity : Activity) :
      Ready ⟨m', id, ⟨frames', meter, deadline, maxDepth, activity⟩⟩ :=
    ⟨hadvances.sound, hframes⟩
  match finished with
  | none =>
    exact ⟨hadvances.grows.extend, hready _, trivial, fun _ => hadvances.calm, fun _ => rfl⟩
  | some (.ok value) =>
    exact (((hready _).finish (.ok value) caller).weaken fun _ => by simp).after hadvances
  | some (.error e) =>
    have hfinish := (hready (.running base caller)).finish (.error (.exception e)) caller
    exact (hfinish.weaken fun _ => by simp).after hadvances

theorem raise (h : c.Ready) (fault : Fault) (base : Nat) (caller : Caller) :
    c.Reaches (fault ≠ .invalidInstruction) True (c.raise fault base caller) := by
  have henvelope := h.envelope fault
  refine h.after_envelope fault ?_
  obtain ⟨m, id, ⟨frames, meter, deadline, maxDepth, activity⟩⟩ := c
  unfold Context.raise
  dsimp only [Context.envelope] at henvelope ⊢
  cases frames with
  | nil => exact henvelope.complete ..
  | cons frame rest =>
    dsimp only
    split
    · rename_i frame' hframe
      obtain ⟨htop, hrest⟩ := List.forall_mem_cons.mp henvelope.frames
      exact ⟨.refl _, ⟨henvelope.machine, List.forall_mem_cons.mpr ⟨htop.handle? hframe, hrest⟩⟩,
        trivial, fun _ => rfl, fun _ => rfl⟩
    · exact henvelope.complete ..

theorem abandon (h : c.Ready) (fault : Fault) (base : Nat) (caller : Caller) :
    c.Reaches (fault ≠ .invalidInstruction) True (c.abandon fault base caller) := by
  have hne (hne : fault ≠ .invalidInstruction) :
      (.error fault : Except Fault Value) ≠ .error .invalidInstruction :=
    fun heq => hne (Except.error.inj heq)
  unfold Context.abandon
  split
  · exact (h.finish (.error fault) caller).weaken hne
  · obtain ⟨hadvances, hframes⟩ := h.machine.discard base h.frames
    have hready : Ready ⟨(Machine.discard base c.machine c.fiber.frames).1, c.id,
        { c.fiber with frames := (Machine.discard base c.machine c.fiber.frames).2 }⟩ :=
      ⟨hadvances.sound, hframes⟩
    exact ((hready.finish (.error fault) caller).weaken hne).after hadvances

theorem fail (h : c.Ready) (fault : Fault) (base : Nat) (caller : Caller) :
    c.Reaches (fault ≠ .invalidInstruction) True (c.fail fault base caller) := by
  unfold Context.fail
  split
  · exact h.abandon fault base caller
  · exact h.raise fault base caller

theorem deliver (h : c.Ready) (value : Value) (base : Nat) (caller : Caller) :
    c.Reaches (c.fiber.frames ≠ []) True (c.deliver value base caller) := by
  obtain ⟨m, id, ⟨frames, meter, deadline, maxDepth, activity⟩⟩ := c
  cases frames with
  | nil =>
    unfold Context.deliver
    exact (h.raise .invalidInstruction base caller).weaken fun hne => absurd rfl hne
  | cons frame rest =>
    obtain ⟨htop, hrest⟩ := List.forall_mem_cons.mp h.frames
    exact ⟨.refl _, ⟨h.machine, List.forall_mem_cons.mpr ⟨htop.deliver value, hrest⟩⟩, trivial,
      fun _ => rfl, fun _ => rfl⟩

/-- A frame that is sound is executed or refused. -/
theorem enter (h : c.Ready) {frame : Frame} (hframe : frame.Sound c.machine) (pending : Pending) :
    c.Reaches True True (c.enter frame pending) := by
  have pushed (frame : Frame) (hframe : frame.Sound c.machine) (base : Nat) (caller : Caller) :
      c.Reaches True True ⟨c.machine, c.id, { c.fiber with
        frames := frame :: c.fiber.frames, activity := .running base caller }⟩ :=
    ⟨.refl _, ⟨h.machine, List.forall_mem_cons.mpr ⟨hframe, h.frames⟩⟩, trivial,
      fun _ => rfl, fun _ => rfl⟩
  cases pending with
  | instruction base negate caller =>
    simp only [Context.enter]
    split
    · exact (h.raise .stackOverflow base caller).weaken fun _ => by simp
    · refine pushed _ ?_ base caller
      split
      · exact hframe.of_eq rfl rfl rfl
      · exact hframe
  | entry caller =>
    simp only [Context.enter]
    split
    · exact (h.finish (.error .stackOverflow) caller).weaken fun _ => by simp
    · exact pushed frame hframe _ caller

theorem proceed (h : c.Ready) {invocation : Machine.Invocation}
    (hinvocation : invocation.Sound c.machine) (pending : Pending) :
    c.Reaches True True (c.proceed invocation pending) := by
  cases invocation with
  | complete value => exact (h.answer (.ok value) pending).of_valid (by simp)
  | enter frame => exact h.enter hinvocation.1 pending
  | run program => exact h.goes h.machine.advances rfl trivial rfl
  | fail fault =>
    exact (h.answer (.error fault) pending).of_valid fun heq => hinvocation (Except.error.inj heq)

theorem call (h : c.Ready) (callable receiver : Value) (args : Arguments) (pending : Pending) :
    c.Reaches True True (c.call callable receiver args pending) := by
  have H := h.machine.prepareCall callable receiver args
  have hready : Ready ⟨(c.machine.prepareCall callable receiver args).2, c.id, c.fiber⟩ :=
    h.of_advances H.advances rfl
  exact (hready.proceed H.invocation pending).after H.advances

theorem invoke (h : c.Ready) (target : Value) (name : String) (args : Arguments)
    (pending : Pending) : c.Reaches True True (c.invoke target name args pending) := by
  have H := h.machine.prepareInvoke target name args c.fiber.currentModule?
  have hready : Ready ⟨(c.machine.prepareInvoke target name args c.fiber.currentModule?).2, c.id,
      c.fiber⟩ := h.of_advances H.advances rfl
  exact (hready.proceed H.invocation pending).after H.advances

end Ready

end Context

namespace Context

variable {c c' : Context}

/-- There is a top frame, and it does not lack anything for its current instruction. -/
def Executes (c : Context) : Prop :=
  ∃ frame rest, c.fiber.frames = frame :: rest ∧
    (Exec.step.run ⟨c.machine.heap, frame⟩).1 ≠ .error .invalidInstruction

namespace Ready

/-- The top frame has executed an instruction. -/
theorem executed (h : c.Ready) {frame : Frame} {rest : List Frame}
    (hframes : c.fiber.frames = frame :: rest) {heap : Heap} {frame' : Frame}
    (hstep : (Exec.step.run ⟨c.machine.heap, frame⟩).2 = ⟨heap, frame'⟩) :
    c.machine.Advances { c.machine with heap } ∧
      Ready ⟨{ c.machine with heap }, c.id, { c.fiber with frames := frame' :: rest }⟩ := by
  obtain ⟨hframe, hrest⟩ := List.forall_mem_cons.mp (hframes ▸ h.frames)
  have hsame := Exec.keeps_step.same ⟨c.machine.heap, frame⟩
  have hadds := Exec.adds_step hframe.closes
  rw [hstep] at hsame hadds
  have hgrows : c.machine.Grows { c.machine with heap } := h.machine.of_adds rfl rfl hadds.2
  refine ⟨hgrows.advances hadds.2.errors, hgrows.sound, List.forall_mem_cons.mpr ⟨?_, ?_⟩⟩
  · exact (hframe.mono hgrows.extend).of_eq hsame.code hadds.1 hsame.captures
  · exact fun frame hframe => (hrest frame hframe).mono hgrows.extend

theorem instruct (h : c.Ready) {base : Nat} {caller : Caller}
    (hactivity : c.fiber.activity = .running base caller) :
    c.Reaches c.Executes True (c.instruct base caller) := by
  obtain ⟨m, id, ⟨frames, meter, deadline, maxDepth, activity⟩⟩ := c
  cases hactivity
  cases frames with
  | nil =>
    unfold Context.instruct
    refine (h.raise .invalidInstruction base caller).weaken ?_
    rintro ⟨_, _, hframes, _⟩
    cases hframes
  | cons frame rest =>
    have hquiet :
        Executes ⟨m, id, ⟨frame :: rest, meter, deadline, maxDepth, .running base caller⟩⟩ →
        (Exec.step.run ⟨m.heap, frame⟩).1 ≠ .error .invalidInstruction := by
      rintro ⟨_, _, hframes, hne⟩
      cases hframes
      exact hne
    simp only [Context.instruct, Machine.onHeap]
    rcases hstep : Exec.step.run ⟨m.heap, frame⟩ with ⟨action, ⟨heap, frame'⟩⟩
    rw [hstep] at hquiet
    obtain ⟨hadvances, hready⟩ := h.executed rfl (congrArg Prod.snd hstep)
    have before {quiet : Prop} {c' : Context} (H : Reaches quiet True ⟨{ m with heap }, id,
        ⟨frame' :: rest, meter, deadline, maxDepth, .running base caller⟩⟩ c') :
        Reaches quiet True
          ⟨m, id, ⟨frame :: rest, meter, deadline, maxDepth, .running base caller⟩⟩ c' :=
      H.after hadvances
    cases action with
    | error fault =>
      refine before ((hready.fail fault base caller).weaken fun hexecutes heq => ?_)
      exact hquiet hexecutes (congrArg _ heq)
    | ok action =>
      cases action with
      | next | load name =>
        exact before (.always (hready.goes hadvances.sound.advances rfl trivial rfl))
      | call callable receiver args negate =>
        exact before
          (.always (hready.call callable receiver args (.instruction base negate caller)))
      | invoke target name args =>
        exact before (.always (hready.invoke target name args (.instruction base false caller)))
      | «return» value => exact before (.always (hready.complete (.ok value) base caller))

theorem run (h : c.Ready) {base : Nat} {caller : Caller}
    (hactivity : c.fiber.activity = .running base caller) :
    c.Reaches c.Executes True (c.run base caller) := by
  have abandoned {c' : Context} (h' : c'.Ready) {fault : Fault}
      (hne : fault ≠ .invalidInstruction) :
      c'.Reaches c.Executes True (c'.abandon fault base caller) :=
    (h'.abandon fault base caller).weaken fun _ => hne
  unfold Context.run
  split
  · exact abandoned h (by decide)
  · rename_i meter charged _
    have hmeter : Ready ⟨c.machine, c.id, { c.fiber with meter }⟩ := ⟨h.machine, h.frames⟩
    dsimp only
    split
    · have hlate : Ready ⟨c.machine, c.id, { c.fiber with meter, deadline := none }⟩ :=
        ⟨h.machine, h.frames⟩
      exact (abandoned hlate (by decide)).after h.machine.advances
    · exact (hmeter.instruct hactivity).after h.machine.advances

/-! ### Entries and programs -/

/-- An entry that executes a module is given an accepted one. -/
theorem start (h : c.Ready) {entry : Entry} (caller : Caller)
    (hentry : ∀ linked ∈ entry.supplied?, linked.Accepted) :
    c.Reaches True True (c.start entry caller) := by
  cases entry with
  | execute linked limit =>
    have registered (hlinked : linked.Accepted) (deadline : Option Deadline) :
        c.Reaches True True ⟨(c.machine.register linked).2, c.id, { c.fiber with
          deadline, activity := .entering (c.machine.register linked).1 false (.entry caller) }⟩ :=
      h.goes (h.machine.advances_register hlinked) rfl (c.machine.register_module? linked) rfl
    cases limit with
    | unrepresentable => exact h.goes h.machine.advances rfl trivial rfl
    | unlimited | deadline d => exact registered (hentry linked rfl) _
  | load name => exact h.goes h.machine.advances rfl trivial rfl
  | call callable receiver args => exact h.call callable receiver args (.entry caller)
  | invoke target name args => exact h.invoke target name args (.entry caller)
  | resume limit =>
    have resumed (deadline : Option Deadline) : c.Reaches True True ⟨c.machine, c.id, { c.fiber with
        deadline
        activity := if c.fiber.frames.isEmpty then .replied (.ok .null) caller
          else .running 0 caller }⟩ := by
      cases c.fiber.frames.isEmpty <;> exact h.goes h.machine.advances rfl trivial rfl
    cases limit with
    | unrepresentable => exact h.goes h.machine.advances rfl trivial rfl
    | unlimited | deadline d => exact resumed _

/-- The initialization of a native module ends. -/
theorem answer_load (h : c.Ready) (id : ModuleId) (error : Option Value)
    (result : Except Fault Value) (pending : Pending) :
    c.Reaches True (result ≠ .error .invalidInstruction)
      (Context.answer ⟨c.machine.finishModule id error, c.id, c.fiber⟩ result pending) :=
  have H := h.machine.advances_finishModule id error
  have hready : Ready ⟨c.machine.finishModule id error, c.id, c.fiber⟩ := h.of_advances H rfl
  (hready.answer result pending).after H

/-- A program adds something to the heap that is not code. -/
theorem adds (h : c.Ready) {heap : Heap} {program : Program} {purpose : Purpose}
    (H : c.machine.heap.Adds c.machine.Owns heap) :
    c.Reaches True True ⟨{ c.machine with heap }, c.id, { c.fiber with
      activity := .program program purpose }⟩ :=
  have hgrows : c.machine.Grows { c.machine with heap } := h.machine.of_adds rfl rfl H
  h.goes (hgrows.advances H.errors) rfl trivial rfl

theorem step (h : c.Ready) {program : Program} (purpose : Purpose)
    (hprogram : ∀ linked ∈ program.supplied?, linked.Accepted) :
    c.Reaches
      (∀ id pending, purpose = .load id pending → program ≠ .finish (.error .invalidInstruction))
      (∀ pending, purpose = .call pending → program ≠ .finish (.error .invalidInstruction))
      (c.step program purpose) := by
  cases program with
  | finish result =>
    cases purpose with
    | call pending =>
      have H : c.Reaches True _ (c.answer result pending) := h.answer result pending
      exact { H with
        calm := fun _ => H.calm trivial
        valid := fun hvalid => H.valid fun heq => hvalid pending rfl (congrArg _ heq) }
    | load id pending =>
      cases result with
      | ok value => exact .always ((h.answer_load id none _ pending).of_valid (by simp))
      | error fault =>
        let raised := if fault.isFatal then .moduleFailed else fault
        let envelope := (c.envelope raised).1
        have hvalid : (.error (if fault.isFatal then fault else .exception envelope) :
            Except Fault Value) ≠ .error .invalidInstruction := by
          split
          · rename_i hfatal
            rintro ⟨⟩
            exact nomatch hfatal
          · simp
        have H := h.after_envelope raised
          (((h.envelope raised).answer_load id (some envelope) _ pending).of_valid hvalid)
        refine { H with calm := fun hquiet => H.calm ?_, valid := fun _ => H.valid trivial }
        unfold raised
        split
        · decide
        · exact fun heq => hquiet id pending rfl (by rw [heq])
  | enter entry next => exact .always (h.start (.program next purpose) hprogram)
  | newArray values next => exact .always (h.adds (.of_eq rfl rfl rfl rfl))
  | newObject next => exact .always (h.adds (.of_eq rfl rfl rfl rfl))
  | newFunction name module routine next =>
    exact .always (h.adds (.newFunction fun _ => FunctionObject.owned_native rfl))
  | read target next | backtrace next => exact .always (h.goes h.machine.advances rfl trivial rfl)
  | configure setting next =>
    cases setting <;> exact .always (h.goes h.machine.advances rfl trivial rfl)
  | update target update next =>
    simp only [Context.step]
    split
    · exact .always (h.goes h.machine.advances rfl trivial rfl)
    · exact .always (h.adds (.of_eq rfl rfl rfl rfl))

/-! ### Modules -/

theorem find (h : c.Ready) (name : String) (pending : Pending) :
    c.Reaches True True (c.find name pending) := by
  unfold Context.find
  split
  · exact h.goes h.machine.advances rfl (h.machine.names name _ ‹_›) rfl
  · dsimp only
    split
    · have hgrows := h.machine.registerNative name
      exact h.goes (hgrows.advances rfl) rfl (c.machine.registerNative_module? name) rfl
    · have hgrows : c.machine.Grows { c.machine with
          workspace := (c.machine.finder.resolve c.machine.workspace name).2 } :=
        h.machine.of_data rfl rfl rfl rfl rfl
      exact h.goes (hgrows.advances rfl) rfl (fun _ => Finder.finds_of_resolve) rfl

theorem adopt (h : c.Ready) {name : String} {result : Except FinderError (Option LinkedModule)}
    (pending : Pending)
    (hresult : ∀ linked, result = .ok (some linked) → Finder.Finds name linked) :
    c.Reaches True True (c.adopt name result pending) := by
  have answered {fault : Fault} (hne : fault ≠ .invalidInstruction) :
      c.Reaches True True (c.answer (.error fault) pending) :=
    (h.answer (.error fault) pending).of_valid fun heq => hne (Except.error.inj heq)
  unfold Context.adopt
  split
  · rename_i linked
    split
    · exact h.goes h.machine.advances rfl (h.machine.names name _ ‹_›) rfl
    · have hadvances := h.machine.advances_register (hresult linked rfl).1
      exact h.goes hadvances rfl (c.machine.register_module? linked) rfl
  · exact answered (by decide)
  · exact answered (by decide)
  · exact answered nofun
  · exact answered nofun

theorem load (h : c.Ready) {id : ModuleId} {entry : ModuleEntry} (object : Bool)
    (pending : Pending) (hentry : c.machine.module? id = some entry) :
    c.Reaches True True (c.load id entry object pending) := by
  obtain ⟨m, self, f⟩ := c
  have hloading : m.Advances (m.setState id (.loading self)) :=
    (h.machine.setState id (.loading self)).advances rfl
  have hready : Ready ⟨m.setState id (.loading self), self, f⟩ := h.of_advances hloading rfl
  unfold Context.load
  cases hbody : entry.body with
  | none => exact h.goes hloading rfl trivial rfl
  | some code =>
    have howns := hloading.grows.extend.owns (h.machine.bodies id entry code hentry hbody)
    have hscope : (m.setState id (.loading self)).scope? id =
        some ⟨id, entry.constants, entry.object⟩ := by
      refine hloading.grows.extend.scope? ?_
      rw [Machine.scope?, hentry]
      rfl
    dsimp only [Machine.onHeap]
    generalize m.setState id (.loading self) = m' at hloading hready howns hscope
    -- the function of the module body, then the frame that executes it
    have hfunction : m'.heap.Adds m'.Owns (m'.heap.newFunction {
        module := some id, receiver := .object entry.object, body := .interpreted code [] }).2 := by
      refine .newFunction fun _ code' captures hbody => ?_
      cases hbody
      exact howns
    generalize m'.heap.newFunction _ = allocated at hfunction
    obtain ⟨hbind, hbound⟩ := Frame.bind_spec m'.Owns allocated.2 allocated.1 code []
      { module := id, constants := entry.constants, globals := entry.object }
      (.object entry.object) {}
    generalize Frame.bind allocated.2 _ _ _ _ _ _ = bound at hbind hbound
    obtain ⟨bound, heap⟩ := bound
    have hgrows : m'.Grows { m' with heap } :=
      hready.machine.of_adds rfl rfl (hfunction.trans hbind)
    have hadvances := hgrows.advances (hfunction.trans hbind).errors
    have hready' : Ready ⟨{ m' with heap }, self, f⟩ := hready.of_advances hadvances rfl
    have before {c' : Context} (H : Reaches True True ⟨{ m' with heap }, self, f⟩ c') :
        Reaches True True ⟨m, self, f⟩ c' := H.after (hloading.trans hadvances)
    cases bound with
    | ok frame =>
      obtain ⟨hcode, hscope', hcaptures, -⟩ := hbound
      have hframe : Frame.Sound { m' with heap }
          { frame with continuation := .module id object } := by
        refine ⟨?_, ?_⟩
        · rw [hscope']
          exact hgrows.extend.scope? hscope
        · rw [hscope', hcode, hcaptures]
          exact hgrows.extend.owns howns
      exact before (hready'.enter hframe pending)
    | error fault =>
      refine before ((hready'.after_envelope fault ?_).weaken fun _ => hbound)
      exact ((hready'.envelope fault).answer_load id _ _ pending).of_valid (by simp)

theorem enterModule (h : c.Ready) {id : ModuleId} (object : Bool) (pending : Pending)
    (hid : (c.machine.module? id).isSome) :
    c.Reaches True True (c.enterModule id object pending) := by
  have answered {result : Except Fault Value} (hne : result ≠ .error .invalidInstruction) :
      c.Reaches True True (c.answer result pending) := (h.answer result pending).of_valid hne
  unfold Context.enterModule
  split
  · rename_i hnone
    rw [hnone] at hid
    exact nomatch hid
  · rename_i entry hentry
    split
    · exact answered (by simp)
    · exact answered (by simp)
    · split
      · exact answered (by simp)
      · split
        · exact answered (by simp)
        · have hgrows : c.machine.Grows (c.machine.setWait c.id (some id)) :=
            h.machine.of_data rfl rfl rfl rfl rfl
          exact h.goes (hgrows.advances rfl) rfl hid rfl
    · exact h.load object pending hentry

theorem wake (h : c.Ready) {id : ModuleId} (object : Bool) (pending : Pending)
    (hid : (c.machine.module? id).isSome) : c.Reaches True True (c.wake id object pending) := by
  have hgrows : c.machine.Grows (c.machine.setWait c.id none) :=
    h.machine.of_data rfl rfl rfl rfl rfl
  have hadvances := hgrows.advances rfl
  unfold Context.wake
  dsimp only
  split
  · exact h.goes hadvances rfl trivial rfl
  · exact h.goes hadvances rfl hid rfl

end Ready

/-- What the next transition executes or makes an envelope of is not an invalid instruction. -/
def Quiet (c : Context) : Prop :=
  match c.fiber.activity with
  | .running _ _ => c.Executes
  | .answered (.ok _) (.instruction _ _ _) => c.fiber.frames ≠ []
  | .answered (.error fault) _ => fault ≠ .invalidInstruction
  | .program program (.load _ _) => program ≠ .finish (.error .invalidInstruction)
  | _ => True

/-- What a native function ends with in the next transition is not an invalid instruction. -/
def Valid (c : Context) : Prop :=
  ∀ pending, c.fiber.activity ≠ .program (.finish (.error .invalidInstruction)) (.call pending)

/--
**A transition keeps code in its module.** It raises an invalid instruction only if it is not quiet,
and leads to an invocation that has ended as one only if a native function ended as one.
-/
theorem Ready.advance (h : c.Ready) (hactivity : c.fiber.activity.Sound c.machine)
    (hsupplied : ∀ linked ∈ c.supplied?, linked.Accepted) :
    c.Reaches c.Quiet c.Valid c.advance := by
  obtain ⟨m, id, ⟨frames, meter, deadline, maxDepth, activity⟩⟩ := c
  have valid {quiet valid : Prop} {c c' : Context} (H : c.Reaches quiet True c') :
      c.Reaches quiet valid c' := { H with valid := fun _ => H.valid trivial }
  cases activity with
  | idle => exact .always (h.goes h.machine.advances rfl trivial rfl)
  | running base caller => exact valid (h.run rfl)
  | program program purpose =>
    have H := h.step purpose hsupplied
    refine { H with calm := fun hquiet => H.calm ?_, valid := fun hvalid => H.valid ?_ }
    · rintro _ _ rfl
      exact hquiet
    · rintro pending rfl rfl
      exact hvalid pending rfl
  | finding name pending => exact .always (h.find name pending)
  | found name result pending => exact .always (h.adopt pending hactivity)
  | entering module object pending => exact .always (h.enterModule object pending hactivity)
  | waiting module object pending => exact .always (h.wake object pending hactivity)
  | answered result pending =>
    cases pending with
    | entry caller =>
      cases result with
      | ok value => exact valid ((h.finish (.ok value) caller).weaken fun _ => by simp)
      | error fault =>
        refine valid ((h.finish (.error fault) caller).weaken fun hquiet heq => ?_)
        exact hquiet (Except.error.inj heq)
    | instruction base negate caller =>
      cases result with
      | ok value => exact valid (h.deliver _ base caller)
      | error fault => exact valid (h.fail fault base caller)
  | replied outcome caller =>
    cases caller with
    | host => exact .always (h.goes h.machine.advances rfl trivial rfl)
    | program next purpose => exact .always (h.goes h.machine.advances rfl trivial rfl)

end Context

end FiberMachine
