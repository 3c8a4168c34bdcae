import FiberMachine.Proofs.Provenance.Position
import FiberMachine.Routine

/-!
# Histories with accepted modules

In a history in which all modules were linked, validated or decoded (`World.Certified`), every frame
executes code of its own module and finds the constants, names and code objects that its
instructions refer to (`World.instructions_find_constants`), and it has the captured cells of its
code unless it executes a module body or a template method (`World.captures_unless_capturing_root`).
-/

namespace FiberMachine

/-- What a host may do to a heap that does not make code, templates and closures itself. -/
structure Heap.Edits (h h' : Heap) : Prop where
  codes : h'.codes = h.codes
  templates : h'.templates = h.templates
  /-- A function that executes code was there, maybe with another receiver. -/
  functions : ∀ f ∈ h'.functions, ∀ code captures, f.body = .interpreted code captures →
    ∃ receiver, f.bind receiver ∈ h.functions

/-- What executes on the fiber is code of its module. -/
structure Fiber.Sound (m : Machine) (f : Fiber) : Prop where
  frames : ∀ frame ∈ f.frames, frame.Sound m
  activity : f.activity.Sound m

/-- The top frame executes, but lacks an operand, an argument vector or a captured cell. -/
def Fiber.Starves (h : Heap) (f : Fiber) : Prop :=
  ∃ base caller frame rest i, f.activity = .running base caller ∧ f.frames = frame :: rest ∧
    frame.code.instructions[frame.instruction]? = some i ∧
    (frame.stack.length < i.opcode.operands ∨ frame.args.length < i.opcode.vectors ∨
      Local.MissesCell ⟨h, frame⟩ i)

/-- The code is the body of the module or a method of one of its templates. -/
def LinkedModule.Roots (m : LinkedModule) (code : Code) : Prop :=
  m.body? = some code ∨ ∃ t, .template t ∈ m.pool ∧ code ∈ t.methods

theorem LinkedModule.Makes.captures {m : LinkedModule} {code : Code} {captures : List (Ref .cell)}
    (h : m.Makes code captures) :
    captures.length = code.captures.length ∨ captures = [] ∧ m.Roots code := by
  cases h with
  | closure _ hlength => exact .inl hlength
  | body hbody => exact .inr ⟨rfl, .inl hbody⟩
  | method ht hcode => exact .inr ⟨rfl, .inr ⟨_, ht, hcode⟩⟩

namespace World

/-- A module that is handed over is an accepted one, and the host makes no code in other ways. -/
structure Admits (w : World) (e : Event) : Prop where
  supplied : ∀ linked ∈ w.supplied? e, linked.Accepted
  edits : ∀ change, e = .edit change → w.machine.heap.Edits (change w.machine.heap)

/-- All modules that are handed over are accepted ones. -/
def Certified (w : World) (events : List Event) : Prop := w.Throughout Admits events

theorem certified_of_allSupplied {w : World} {events : List Event}
    (hedit : ∀ e ∈ events, e.isEdit = false)
    (h : ∀ linked ∈ w.allSupplied events, linked.Accepted) : w.Certified events := by
  induction events generalizing w with
  | nil => trivial
  | cons e events ih =>
    obtain ⟨he, hedit⟩ := List.forall_mem_cons.mp hedit
    obtain ⟨hfirst, hrest⟩ := List.forall_mem_append.mp h
    refine ⟨⟨fun linked hlinked => hfirst linked (Option.mem_toList.mpr hlinked), ?_⟩,
      ih hedit hrest⟩
    rintro change rfl
    exact nomatch he

theorem certified_of_single {w : World} {events : List Event} (linked : LinkedModule)
    (hedit : ∀ e ∈ events, e.isEdit = false) (h : w.allSupplied events = [linked])
    (hlinked : LinkedModule.ofPool linked.name linked.pool = .ok linked) : w.Certified events := by
  refine certified_of_allSupplied hedit fun other hother => ?_
  rw [h] at hother
  exact List.mem_singleton.mp hother ▸ .ofPool hlinked

/-- The fiber whose waiting frames are resumed in an event. -/
def intrusions (w : World) : Event → List FiberId
  | .advance f =>
    match w.fiber? f with
    | some fiber => if fiber.intrudes then [f] else []
    | none => []
  | _ => []

/-- The intrusions in all events, the last event first. -/
def allIntrusions : World → List Event → List FiberId
  | _, [] => []
  | w, e :: events => allIntrusions (w.perform e) events ++ w.intrusions e

/-- Code stays in its module, and the frames of fibers are in order that were not intruded on. -/
structure Sound (w : World) (intruded : List FiberId) : Prop where
  machine : w.machine.Sound
  fibers : ∀ f fiber, w.fiber? f = some fiber → fiber.Sound w.machine
  orderly : ∀ f fiber, w.fiber? f = some fiber → f ∉ intruded → fiber.Orderly

variable {w w' : World} {e : Event} {intruded : List FiberId} {f : FiberId} {fiber : Fiber}

theorem Sound.empty : Sound {} [] :=
  ⟨.empty, (fun _ _ h => by simp [fiber?] at h), fun _ _ h => by simp [fiber?] at h⟩

theorem Sound.ready (h : w.Sound intruded) (hf : w.fiber? f = some fiber) :
    Context.Ready ⟨w.machine, f, fiber⟩ := ⟨h.machine, (h.fibers f fiber hf).frames⟩

/-! ## Events -/

/-- What an event makes of a sound world. -/
inductive Proceeds (w : World) : Event → World → Prop where
  /-- No fiber makes a transition. -/
  | aside {e : Event} {w' : World} (grows : w.machine.Grows w'.machine)
      (calm : (∀ change, e ≠ .edit change) → w'.machine.heap.raisings .invalidInstruction =
        w.machine.heap.raisings .invalidInstruction)
      (fibers : w.Spares w') : Proceeds w e w'
  /-- A fiber starts an entry or wakes up, which raises no invalid instruction. -/
  | calmly {e : Event} {f : FiberId} {fiber : Fiber} {c : Context} (hf : w.fiber? f = some fiber)
      (H : Context.Reaches True True ⟨w.machine, f, fiber⟩ c)
      (orderly : fiber.Orderly → c.Orderly) : Proceeds w e (w.update f c)
  | advance {f : FiberId} {fiber : Fiber} {c : Context} (hf : w.fiber? f = some fiber)
      (H : Context.Reaches (Context.Quiet ⟨w.machine, f, fiber⟩)
        (Context.Valid ⟨w.machine, f, fiber⟩) ⟨w.machine, f, fiber⟩ c)
      (orderly : fiber.intrudes = false → fiber.Orderly → c.Orderly) :
      Proceeds w (.advance f) (w.update f c)

namespace Proceeds

/-- Fibers are left alone. -/
theorem machine {m : Machine} (H : w.machine.Advances m) :
    Proceeds w e { w with machine := m } :=
  .aside H.grows (fun _ => H.calm) (w.spares_machine m)

theorem refl (h : w.Sound intruded) : Proceeds w e w := machine h.machine.advances

theorem edit (h : w.Sound intruded) {change : Heap → Heap}
    (H : w.machine.heap.Edits (change w.machine.heap)) :
    Proceeds w (.edit change) (w.perform (.edit change)) := by
  refine .aside ?_ (fun hne => absurd rfl (hne change)) (w.spares_machine _)
  refine h.machine.of_states rfl H.codes H.templates (fun ho g hg code captures hbody => ?_)
    fun _ => rfl
  obtain ⟨receiver, hmem⟩ := H.functions g hg code captures hbody
  exact ho _ hmem code captures hbody

theorem spawn (h : w.Sound intruded) : Proceeds w .spawn w.spawn.2 := by
  have hgrows : w.machine.Grows w.spawn.2.machine := h.machine.of_data rfl rfl rfl rfl rfl
  exact .aside hgrows (fun _ => rfl) w.spares_spawn

theorem advances_failAll {m : Machine} (h : m.Sound) (ids : List ModuleId) :
    m.Advances (failAll m ids) := by
  induction ids generalizing m with
  | nil => exact h.advances
  | cons id rest ih =>
    have hraised := h.advances_envelope [] (show Fault.moduleFailed ≠ _ by decide)
    have hfailed := hraised.sound.advances_finishModule id
      (some (m.onHeap (·.envelope [] .moduleFailed)).1)
    exact (hraised.trans hfailed).trans (ih hfailed.sound)

theorem drop (h : w.Sound intruded) (f : FiberId) : Proceeds w (.drop f) (w.drop f) := by
  have hwait : w.machine.Grows (w.machine.setWait f none) :=
    h.machine.of_data rfl rfl rfl rfl rfl
  have H : w.machine.Advances (w.drop f).machine :=
    (hwait.advances rfl).trans (advances_failAll hwait.sound _)
  exact .aside H.grows (fun _ => H.calm) (w.spares_drop f)

theorem configure (h : w.Sound intruded) (f : FiberId) (setting : Setting) :
    Proceeds w (.configure f setting) (w.modifyFiber f (·.configure setting)) := by
  have hadvances : w.machine.Advances w.machine := h.machine.advances
  exact .aside hadvances.grows (fun _ => rfl) (w.spares_configure f setting)

theorem expire (h : w.Sound intruded) (f : FiberId) :
    Proceeds w (.expire f) (w.modifyFiber f Fiber.expire) := by
  have hadvances : w.machine.Advances w.machine := h.machine.advances
  exact .aside hadvances.grows (fun _ => rfl) (w.spares_expire f)

/-- The frames of a fiber at rest are all there is. -/
theorem orderly_of_isAtRest (hrest : fiber.activity.isAtRest) (H : fiber.Orderly) :
    Stacked fiber.frames := by
  unfold Fiber.Orderly at H
  cases hactivity : fiber.activity with
  | idle =>
    rw [hactivity] at H
    exact H
  | replied outcome caller =>
    rw [hactivity] at H hrest
    cases caller with
    | program next purpose => exact nomatch hrest
    | host =>
      cases H with
      | host hframes => exact hframes
  | _ =>
    rw [hactivity] at hrest
    exact nomatch hrest

theorem perform_start (h : w.Sound intruded) {entry : Entry}
    (hsupplied : ∀ linked ∈ w.supplied? (.start f entry), linked.Accepted) :
    Proceeds w (.start f entry) (w.perform (.start f entry)) := by
  rcases w.perform_start_cases f entry with heq | ⟨fiber, hf, hrest, hentry, heq⟩
  · rw [heq]
    exact .refl h
  · rw [heq]
    rw [hentry] at hsupplied
    refine .calmly hf ((h.ready hf).start .host hsupplied) fun H => ?_
    have hframes := orderly_of_isAtRest hrest H
    exact Context.Orderly.start (h.ready hf) (.host hframes) fun _ _ _ _ => ⟨hframes, .host trivial⟩

theorem perform_advance (h : w.Sound intruded)
    (hsupplied : ∀ linked ∈ w.supplied? (.advance f), linked.Accepted) :
    Proceeds w (.advance f) (w.perform (.advance f)) := by
  rcases w.perform_advance_cases f with heq | ⟨fiber, hf, _, hprogram, heq⟩
  · rw [heq]
    exact .refl h
  · rw [heq]
    rw [hprogram] at hsupplied
    exact .advance hf ((h.ready hf).advance (h.fibers f fiber hf).activity hsupplied)
      fun hintrudes => Context.Orderly.advance (h.ready hf) hintrudes

theorem perform_rouse (h : w.Sound intruded) (f : FiberId) :
    Proceeds w (.rouse f) (w.perform (.rouse f)) := by
  rcases w.perform_rouse_cases f with heq | ⟨fiber, hf, hwaiting, heq⟩
  · rw [heq]
    exact .refl h
  · obtain ⟨id, object, pending, hactivity⟩ := Activity.exists_of_isWaiting hwaiting
    have hquiet : Context.Quiet ⟨w.machine, f, fiber⟩ := by simp only [Context.Quiet, hactivity]
    have hvalid : Context.Valid ⟨w.machine, f, fiber⟩ := by
      simp only [Context.Valid, hactivity]
      exact fun _ => Activity.noConfusion
    have hintrudes : fiber.intrudes = false := by simp only [Fiber.intrudes, hactivity]
    have H := (h.ready hf).advance (h.fibers f fiber hf).activity (fun linked hlinked => by
      simp only [Context.supplied?, hactivity] at hlinked
      cases hlinked)
    rw [heq]
    exact .calmly hf { H with calm := fun _ => H.calm hquiet, valid := fun _ => H.valid hvalid }
      (Context.Orderly.advance (h.ready hf) hintrudes)

/-- What any event makes of a sound world. -/
theorem perform (h : w.Sound intruded) (hadmits : w.Admits e) : Proceeds w e (w.perform e) := by
  cases e with
  | register linked => exact machine (h.machine.advances_register (hadmits.supplied linked rfl))
  | registerNative name initializer =>
    have hgrows : w.machine.Grows { w.machine with
        natives := w.machine.natives.insert name initializer } :=
      h.machine.of_data rfl rfl rfl rfl rfl
    exact machine (hgrows.advances rfl)
  | relocate finder workspace =>
    have hgrows : w.machine.Grows { w.machine with finder, workspace } :=
      h.machine.of_data rfl rfl rfl rfl rfl
    exact machine (hgrows.advances rfl)
  | edit change => exact edit h (hadmits.edits change rfl)
  | spawn => exact spawn h
  | drop f => exact drop h f
  | configure f setting => exact configure h f setting
  | start f entry => exact perform_start h hadmits.supplied
  | advance f => exact perform_advance h hadmits.supplied
  | rouse f => exact perform_rouse h f
  | expire f => exact expire h f

/-- A transition of one fiber leaves the world sound. -/
theorem sound_update (h : w.Sound intruded) (hf : w.fiber? f = some fiber) {c : Context}
    {quiet valid : Prop} (H : Context.Reaches quiet valid ⟨w.machine, f, fiber⟩ c)
    {intruded' : List FiberId} (hsub : intruded ⊆ intruded')
    (horderly : f ∉ intruded' → fiber.Orderly → c.Orderly) : (w.update f c).Sound intruded' := by
  refine ⟨H.ready.machine, fun g fiber' hg => ?_, fun g fiber' hg hnotin => ?_⟩
  · rcases fiber?_of_update hf hg with ⟨_, rfl⟩ | ⟨_, hg⟩
    · exact ⟨H.ready.frames, H.activity⟩
    · obtain ⟨hframes, hactivity⟩ := h.fibers g fiber' hg
      exact ⟨fun frame hframe => (hframes frame hframe).mono H.extend, hactivity.mono H.extend⟩
  · have hbefore : g ∉ intruded := mt (hsub ·) hnotin
    rcases fiber?_of_update hf hg with ⟨rfl, rfl⟩ | ⟨_, hg⟩
    · exact horderly hnotin (h.orderly g fiber hf hbefore)
    · exact h.orderly g fiber' hg hbefore

theorem sound (H : Proceeds w e w') (h : w.Sound intruded) :
    w'.Sound (w.intrusions e ++ intruded) := by
  cases H with
  | aside grows calm fibers =>
    refine ⟨grows.sound, fun g fiber' hg => ?_, fun g fiber' hg hnotin => ?_⟩
    · rcases fibers g fiber' hg with rfl | ⟨fiber, hfiber, hframes, hactivity⟩
      · exact ⟨List.forall_mem_nil _, trivial⟩
      · obtain ⟨hsound, hactive⟩ := h.fibers g fiber hfiber
        refine ⟨fun frame hframe => ?_, ?_⟩
        · exact (hsound frame (hframes ▸ hframe)).mono grows.extend
        · rw [hactivity]
          exact hactive.mono grows.extend
    · rcases fibers g fiber' hg with rfl | ⟨fiber, hfiber, hframes, hactivity⟩
      · exact trivial
      · rw [Fiber.Orderly, hframes, hactivity]
        exact h.orderly g fiber hfiber fun hmem => hnotin (List.mem_append_right _ hmem)
  | calmly hf H orderly =>
    exact sound_update h hf H (List.subset_append_right _ _) fun _ => orderly
  | @advance f fiber c hf H orderly =>
    refine sound_update h hf H (List.subset_append_right _ _) fun hnotin => orderly ?_
    have hnone : f ∉ w.intrusions (.advance f) := fun hmem =>
      hnotin (List.mem_append_left _ hmem)
    simpa [intrusions, hf] using hnone

end Proceeds

/-- Every world that comes about with accepted modules is sound. -/
theorem Sound.run {events : List Event} (h : w.Sound intruded) (hc : w.Certified events) :
    (w.run events).Sound (w.allIntrusions events ++ intruded) := by
  induction events generalizing w intruded with
  | nil => exact h
  | cons e events ih =>
    obtain ⟨hadmits, hc⟩ := hc
    have := ih ((Proceeds.perform h hadmits).sound h) hc
    rwa [← List.append_assoc] at this

theorem sound_run {events : List Event} (h : Certified {} events) :
    (World.run {} events).Sound (allIntrusions {} events) :=
  List.append_nil (allIntrusions {} events) ▸ Sound.empty.run h

/-! ## Invalid instructions -/

theorem Proceeds.not_quiet (H : Proceeds w e w') (hedit : ∀ change, e ≠ .edit change)
    (hraised : w'.machine.heap.raisings .invalidInstruction ≠
      w.machine.heap.raisings .invalidInstruction) :
    ∃ f fiber, e = .advance f ∧ w.fiber? f = some fiber ∧
      ¬ Context.Quiet ⟨w.machine, f, fiber⟩ := by
  cases H with
  | aside grows calm fibers => exact absurd (calm hedit) hraised
  | calmly hf H orderly => exact absurd (H.calm trivial) hraised
  | @advance f fiber c hf H orderly =>
    exact ⟨f, fiber, rfl, hf, fun hquiet => hraised (H.calm hquiet)⟩

/-- An invocation that ends as an invalid instruction is that of a native function. -/
theorem Proceeds.of_isInvalid (H : Proceeds w e w') {fiber' : Fiber}
    (hf : w'.fiber? f = some fiber') (hinvalid : fiber'.activity.isInvalid) :
    (∃ fiber, w.fiber? f = some fiber ∧ fiber.activity = fiber'.activity) ∨
      e = .advance f ∧ ∃ fiber pending, w.fiber? f = some fiber ∧
        fiber.activity = .program (.finish (.error .invalidInstruction)) (.call pending) := by
  cases H with
  | aside grows calm fibers =>
    rcases fibers f fiber' hf with rfl | ⟨fiber, hfiber, _, hactivity⟩
    · exact nomatch hinvalid
    · exact .inl ⟨fiber, hfiber, hactivity.symm⟩
  | @calmly _ g fiber c hg H orderly =>
    rcases fiber?_of_update hg hf with ⟨rfl, rfl⟩ | ⟨_, hf⟩
    · exact nomatch (H.valid trivial).symm.trans hinvalid
    · exact .inl ⟨fiber', hf, rfl⟩
  | @advance g fiber c hg H orderly =>
    rcases fiber?_of_update hg hf with ⟨rfl, rfl⟩ | ⟨_, hf⟩
    · have hvalid : ¬ Context.Valid ⟨w.machine, f, fiber⟩ := fun hvalid =>
        nomatch (H.valid hvalid).symm.trans hinvalid
      obtain ⟨pending, hpending⟩ := not_forall_not.mp hvalid
      exact .inr ⟨rfl, fiber, pending, hg, hpending⟩
    · exact .inl ⟨fiber', hf, rfl⟩

/-- What a frame lacks that raises an invalid instruction. -/
theorem Sound.starves (h : w.Sound intruded) (hf : w.fiber? f = some fiber) {base : Nat}
    {caller : Caller} (hactivity : fiber.activity = .running base caller) {frame : Frame}
    {rest : List Frame} (hframes : fiber.frames = frame :: rest)
    (hstep : (Exec.step.run ⟨w.machine.heap, frame⟩).1 = .error .invalidInstruction) :
    fiber.Starves w.machine.heap := by
  have hsound : frame.Sound w.machine :=
    (h.fibers f fiber hf).frames frame (hframes ▸ List.mem_cons_self)
  obtain ⟨i, hi, hlacks⟩ := Exec.lacks_of_step (Prod.ext hstep rfl)
  refine ⟨base, caller, frame, rest, i, hactivity, hframes, hi, ?_⟩
  cases hlacks with
  | operands hlt => exact .inl hlt
  | vectors hlt => exact .inr (.inl hlt)
  | referent hmisses => exact .inr (.inr (hmisses.cell (hsound.finds (Array.mem_of_getElem? hi))))

/-- What raises an invalid instruction. -/
theorem Sound.cause (h : w.Sound intruded) (hf : w.fiber? f = some fiber)
    (hquiet : ¬ Context.Quiet ⟨w.machine, f, fiber⟩) :
    fiber.Starves w.machine.heap ∨ fiber.activity.isInvalid ∨
      (∃ id pending,
        fiber.activity = .program (.finish (.error .invalidInstruction)) (.load id pending)) ∨
      fiber.frames = [] ∧ f ∈ intruded := by
  have frameless (hframes : fiber.frames = []) (hnot : ¬ fiber.Orderly) :
      fiber.frames = [] ∧ f ∈ intruded :=
    ⟨hframes, not_not.mp fun hnotin => hnot (h.orderly f fiber hf hnotin)⟩
  unfold Context.Quiet at hquiet
  dsimp only at hquiet
  split at hquiet
  · rename_i base caller hactivity
    cases hframes : fiber.frames with
    | nil =>
      refine .inr (.inr (.inr (hframes ▸ frameless hframes fun H => ?_)))
      rw [Fiber.Orderly, hactivity] at H
      exact Caller.Conducts.ne_nil H hframes
    | cons frame rest =>
      refine .inl (h.starves hf hactivity hframes (not_not.mp fun hne => hquiet ?_))
      exact ⟨frame, rest, hframes, hne⟩
  · rename_i hactivity
    have hframes := not_not.mp hquiet
    refine .inr (.inr (.inr (frameless hframes fun H => ?_)))
    rw [Fiber.Orderly, hactivity] at H
    exact (Pending.Orderly.conducts H).ne_nil hframes
  · rename_i hactivity
    refine .inr (.inl ?_)
    rw [hactivity, not_not.mp hquiet]
    rfl
  · rename_i id pending hactivity
    exact .inr (.inr (.inl ⟨id, pending, by rw [hactivity, not_not.mp hquiet]⟩))
  · exact absurd trivial hquiet

/--
**Instructions find what they refer to.** With accepted modules, every frame executes code of the
module whose constants its scope holds, and its current instruction finds the constant, name or
code object that it refers to. The frame is at an instruction or just past the last one, unless a
program of the host resumed the frames of an instruction that waited for the program. What raises
an invalid instruction is a missing operand, argument vector or captured cell, a program of the
host that ends with this fault itself, or such a resumption, after which the frame is gone that the
result is for.
-/
theorem instructions_find_constants (events : List Event) (h : Certified {} events) :
    (∀ f fiber frame, (run {} events).fiber? f = some fiber → frame ∈ fiber.frames →
      (∃ entry linked, (run {} events).machine.module? frame.scope.module = some entry ∧
        frame.scope.constants = entry.constants ∧
        entry.Holds (run {} events).machine.heap frame.scope.module linked ∧
        linked.Has frame.code) ∧
      (f ∉ allIntrusions {} events → frame.instruction ≤ frame.code.instructions.size) ∧
      ∀ i, frame.code.instructions[frame.instruction]? = some i →
        Local.Finds ⟨(run {} events).machine.heap, frame⟩ i) ∧
    ∀ e, (run {} events).Admits e →
      ((∀ change, e ≠ .edit change) →
        ((run {} events).perform e).machine.heap.raisings .invalidInstruction ≠
          (run {} events).machine.heap.raisings .invalidInstruction →
        ∃ f fiber, e = .advance f ∧ (run {} events).fiber? f = some fiber ∧
          (fiber.Starves (run {} events).machine.heap ∨ fiber.activity.isInvalid ∨
            (∃ id pending,
              fiber.activity = .program (.finish (.error .invalidInstruction)) (.load id pending)) ∨
            fiber.frames = [] ∧ f ∈ allIntrusions {} events)) ∧
      ∀ f fiber', ((run {} events).perform e).fiber? f = some fiber' →
        fiber'.activity.isInvalid →
        (∃ fiber, (run {} events).fiber? f = some fiber ∧ fiber.activity = fiber'.activity) ∨
          e = .advance f ∧ ∃ fiber pending, (run {} events).fiber? f = some fiber ∧
            fiber.activity = .program (.finish (.error .invalidInstruction)) (.call pending) := by
  have hsound := sound_run h
  refine ⟨fun f fiber frame hf hframe => ⟨?holds, fun hnotin => ?placed, fun i hi => ?finds⟩,
    fun e hadmits => ⟨fun hedit hraised => ?cause, fun f fiber' hf hinvalid => ?invalid⟩⟩
  case holds =>
    obtain ⟨entry, linked, hentry, hconstants, hholds, hmakes⟩ :=
      ((hsound.fibers f fiber hf).frames frame hframe).holds
    exact ⟨entry, linked, hentry, hconstants, hholds, hmakes.has⟩
  case placed => exact (hsound.orderly f fiber hf hnotin).placed frame hframe
  case finds =>
    exact ((hsound.fibers f fiber hf).frames frame hframe).finds (Array.mem_of_getElem? hi)
  case cause =>
    obtain ⟨f, fiber, he, hf, hquiet⟩ :=
      (Proceeds.perform hsound hadmits).not_quiet hedit hraised
    exact ⟨f, fiber, he, hf, hsound.cause hf hquiet⟩
  case invalid => exact (Proceeds.perform hsound hadmits).of_isInvalid hf hinvalid

/-- A fiber executes a module, for `n` transitions. -/
def executing (linked : LinkedModule) (n : Nat) : List Event :=
  [.spawn, .start ⟨0⟩ (.execute linked .unlimited)] ++ List.replicate n (.advance ⟨0⟩)

/-- A module that adds a constant to nothing. -/
def adding : LinkedModule where
  name := "m"
  pool := #[.int 1, .code {
    name := none, signature := {}, captures := []
    instructions := #[{ opcode := .loadConst }, { opcode := .add }] }]

/-- The constant is found, and the other operand is missing. -/
theorem adding_starves :
    Certified {} (executing adding 2) ∧
      ∃ fiber, (run {} (executing adding 2)).fiber? ⟨0⟩ = some fiber ∧
        fiber.Starves (run {} (executing adding 2)).machine.heap := by
  have hcertified : Certified {} (executing adding 2) :=
    certified_of_single adding (by decide) (by decide +kernel) rfl
  have hadmits : (run {} (executing adding 2)).Admits (.advance ⟨0⟩) :=
    ⟨(fun _ h => nomatch h), nofun⟩
  refine ⟨hcertified, ?_⟩
  obtain ⟨f, fiber, he, hf, hcause⟩ := ((instructions_find_constants _ hcertified).2 _ hadmits).1
    nofun (by decide +kernel)
  cases he
  refine ⟨fiber, hf, ?_⟩
  rcases hcause with h | h | ⟨_, _, h⟩ | ⟨h, _⟩
  · exact h
  · cases hf
    exact nomatch h
  · cases hf
    exact nomatch h
  · cases hf
    exact nomatch h

/-- A module that calls a function of a native module, and returns if the call raises an error. -/
def resuming : LinkedModule where
  name := "main"
  pool := #[.string "host", .string "resume", .code {
    name := none, signature := {}, captures := []
    instructions := #[{ opcode := .loadModule, handler := some 4 },
      { opcode := .newArgs, handler := some 4 },
      { opcode := .invoke, operand := 1, handler := some 4 }, { opcode := .return },
      { opcode := .pushNull }, { opcode := .return }] }]

/-- The native function resumes the frame that calls it, which returns. -/
def resumingEvents : List Event :=
  .registerNative "host" (Definition.execute · · [.routine "resume" Routine.resume]) ::
    executing resuming 17

/-- A module that calls a function of a native module, and ends if the call raises an error. -/
def overrunning : LinkedModule where
  name := "main"
  pool := #[.string "host", .string "resume", .code {
    name := none, signature := {}, captures := []
    instructions := #[{ opcode := .loadModule, handler := some 3 },
      { opcode := .newArgs, handler := some 3 },
      { opcode := .invoke, operand := 1, handler := some 3 }] }]

/-- The native function resumes the frame that calls it until the budget is used up. -/
def overrunningEvents : List Event :=
  [.registerNative "host" (Definition.execute · · [.routine "resume" fun _ _ =>
      .enter (.resume .unlimited) fun _ => .finish (.ok .null)]),
    .spawn, .configure ⟨0⟩ (.stepsPerCharge 1), .configure ⟨0⟩ (.budget 4),
    .start ⟨0⟩ (.execute overrunning .unlimited)] ++ List.replicate 17 (.advance ⟨0⟩)

/--
A program that resumes the frames which wait for it leads to an invalid instruction without a frame
that could lack anything, and to a frame that is past the end of its code.
-/
theorem resuming_disorders_frames :
    (Certified {} resumingEvents ∧
      (∃ fiber, (run {} resumingEvents).fiber? ⟨0⟩ = some fiber ∧ fiber.frames = [] ∧
        fiber.activity.isInvalid = false) ∧
      (run {} resumingEvents).machine.heap.raisings .invalidInstruction = 1 ∧
      (run {} (resumingEvents ++ [.advance ⟨0⟩])).machine.heap.raisings .invalidInstruction = 2) ∧
    Certified {} overrunningEvents ∧
      ((run {} overrunningEvents).fiber? ⟨0⟩).map (fun fiber => fiber.frames.map fun frame =>
        (frame.instruction, frame.code.instructions.size)) = some [(4, 3)] := by
  refine ⟨⟨certified_of_single resuming (by decide) (by decide +kernel) rfl, ?_, by decide +kernel,
    by decide +kernel⟩, certified_of_single overrunning (by decide) (by decide +kernel) rfl,
    by decide +kernel⟩
  have hfiber : ((run {} resumingEvents).fiber? ⟨0⟩).map (fun fiber =>
      (fiber.frames.isEmpty, fiber.activity.isInvalid)) = some (true, false) := by decide +kernel
  obtain ⟨fiber, hf, heq⟩ := Option.map_eq_some_iff.mp hfiber
  obtain ⟨hframes, hinvalid⟩ := Prod.mk.inj heq
  exact ⟨fiber, hf, List.isEmpty_iff.mp hframes, hinvalid⟩

/-! ## Captured cells -/

/--
**Frames have the captured cells of their code**, unless they execute a module body or a template
method, which have none. In a validated module, reading or writing a captured cell is an invalid
instruction only for want of an operand or in such a frame.
-/
theorem captures_unless_capturing_root (events : List Event) (h : Certified {} events) (f : FiberId)
    (fiber : Fiber) (frame : Frame) (hf : (run {} events).fiber? f = some fiber)
    (hframe : frame ∈ fiber.frames) :
    ∃ entry linked, (run {} events).machine.module? frame.scope.module = some entry ∧
      entry.Holds (run {} events).machine.heap frame.scope.module linked ∧
      (frame.captures.length = frame.code.captures.length ∨
        frame.captures = [] ∧ linked.Roots frame.code) ∧
      (linked.validate = .ok () → ∀ i, frame.code.instructions[frame.instruction]? = some i →
        i.opcode = .loadCapture ∨ i.opcode = .storeCapture →
        (Exec.step.run ⟨(run {} events).machine.heap, frame⟩).1 = .error .invalidInstruction →
        frame.stack.length < i.opcode.operands ∨
          frame.captures.length < frame.code.captures.length) := by
  obtain ⟨entry, linked, hentry, hconstants, hholds, hmakes⟩ :=
    (((sound_run h).fibers f fiber hf).frames frame hframe).holds
  refine ⟨entry, linked, hentry, hholds, hmakes.captures, fun hvalidate i hi hopcode hstep => ?_⟩
  have hkind : i.opcode.operandKind = .capture := by rcases hopcode with h | h <;> rw [h] <;> rfl
  have hbound : i.operand.toNat < frame.code.captures.length := by
    have hmem := Array.mem_of_getElem? hi
    have hvalid := (LinkedModule.valid_of_validate hvalidate hmakes.has hmem).1
    simpa only [Instruction.operandValid, hkind, decide_eq_true_eq] using hvalid
  obtain ⟨i', hi', hlacks⟩ := Exec.lacks_of_step (Prod.ext hstep rfl)
  cases Option.some.inj (hi.symm.trans hi')
  cases hlacks with
  | operands hlt => exact .inl hlt
  | vectors hlt =>
    have hvectors : i.opcode.vectors = 0 := by rcases hopcode with h | h <;> rw [h] <;> rfl
    exact absurd hlt (by omega)
  | referent hmisses =>
    have hnone : frame.captures[i.operand.toNat]? = none := by
      simpa only [Local.Misses, hkind] using hmisses
    exact .inr (Nat.lt_of_le_of_lt (List.getElem?_eq_none_iff.mp hnone) hbound)

/-- A module that calls a function which captures a variable. -/
def closing : LinkedModule where
  name := "m"
  pool := #[.code {
      name := none, signature := {}, captures := [.slot 2]
      instructions := #[{ opcode := .loadCapture }, { opcode := .return }] },
    .code {
      name := none, signature := {}, captures := []
      instructions := #[{ opcode := .pushNull }, { opcode := .newCell, operand := 2 },
        { opcode := .makeFunction }, { opcode := .pushNull }, { opcode := .newArgs },
        { opcode := .call }, { opcode := .return }] }]

/-- The called function has its cell, and reads it. -/
theorem closing_captures :
    Certified {} (executing closing 7) ∧
      ∃ fiber frame, (run {} (executing closing 7)).fiber? ⟨0⟩ = some fiber ∧
        frame ∈ fiber.frames ∧ frame.captures.length = 1 ∧
        frame.captures.length = frame.code.captures.length := by
  have hcertified : Certified {} (executing closing 7) :=
    certified_of_single closing (by decide) (by decide +kernel) rfl
  have htop : ((run {} (executing closing 7)).fiber? ⟨0⟩).map (fun fiber =>
      fiber.frames.map (·.captures.length)) = some [1, 0] := by decide +kernel
  obtain ⟨fiber, hf, heq⟩ := Option.map_eq_some_iff.mp htop
  obtain ⟨frame, hframe, hlength⟩ := List.mem_map.mp (heq ▸ List.mem_cons_self : 1 ∈ _)
  obtain ⟨_, _, _, _, hcaptures, _⟩ :=
    captures_unless_capturing_root _ hcertified ⟨0⟩ fiber frame hf hframe
  refine ⟨hcertified, fiber, frame, hf, hframe, hlength, hcaptures.resolve_right ?_⟩
  rintro ⟨hnil, _⟩
  exact nomatch hnil ▸ hlength

/-- A validated module whose body reads a captured cell. -/
def capturing : LinkedModule where
  name := "m"
  pool := #[.code {
    name := none, signature := {}, captures := [.slot 0]
    instructions := #[{ opcode := .loadCapture }, { opcode := .return }] }]

/-- The frame of the body has no cell, and reading it is an invalid instruction. -/
theorem capturing_body_lacks_cell :
    (Artifact.encode capturing >>= Artifact.decode "m") = .ok capturing ∧
      LinkedModule.ofPool "m" capturing.pool = .ok capturing ∧
      ((run {} (executing capturing 1)).fiber? ⟨0⟩).map (fun fiber => fiber.frames.map fun frame =>
        (frame.code.captures.length, frame.captures.length)) = some [(1, 0)] ∧
      (run {} (executing capturing 1)).machine.heap.raisings .invalidInstruction = 0 ∧
      (run {} (executing capturing 2)).machine.heap.raisings .invalidInstruction = 1 :=
  ⟨by decide +kernel, rfl, by decide +kernel, by decide +kernel, by decide +kernel⟩

end World

end FiberMachine
