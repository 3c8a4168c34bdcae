import FiberMachine.Proofs.Inequality.Transition

/-!
# Programs and modules in step

The transitions of two fibers that differ in how a comparison is executed, continued: entries, what
programs do, and the loading of modules. The outcome is `Context.Twins.advance`. A program that
resumes the frames which wait for it is left out, for it would go on with the frame while native
code decides the comparison, and so is one that goes on differently with the codes of the frames.
-/

namespace FiberMachine

variable {s : Site} {stage : Stage} {base : Nat}

theorem Site.activities_free (s : Site) (n : Nat) (a : Activity) : s.Activities .free n a a := by
  cases a with
  | idle => exact .idle fun h => by cases h
  | running base caller => exact .running (s.runs_free ..) (s.callers_free ..)
  | program program purpose => exact .program (s.purposes_free ..)
  | finding name pending => exact .finding (s.pendings_free ..) rfl
  | found name result pending => exact .found (s.pendings_free ..) rfl
  | entering module object pending => exact .entering (s.pendings_free ..) rfl
  | waiting module object pending => exact .waiting (s.pendings_free ..) rfl
  | answered result pending => exact .answered (s.pendings_free ..)
  | replied outcome caller => exact .replied (s.callers_free ..)

namespace Context

variable {c c' : Context} {caller caller' : Caller} {p p' : Pending}

namespace Agree

/-- An entry starts in both fibers. Resumed frames must be those of a run from the first on. -/
theorem start (H : c.Agree s stage c') (entry : Entry)
    (Hc : s.Callers stage c.fiber.frames.length caller caller')
    (hresume : ∀ limit, entry = .resume limit → limit ≠ .unrepresentable → c.fiber.frames ≠ [] →
      s.Runs stage 0 c.fiber.frames.length ∧ s.Callers stage 0 caller caller') :
    (c.start entry caller).InStep s stage (c'.start entry caller') := by
  cases entry with
  | load name => exact (H.setActivity (.finding (.entry Hc) rfl)).inStep
  | call callable receiver args => exact H.call callable receiver args (.entry Hc)
  | invoke target name args => exact H.invoke target name args (.entry Hc) rfl
  | execute linked limit =>
    cases limit with
    | unrepresentable => exact (H.setActivity (.replied Hc)).inStep
    | _ =>
      cases H with
      | mk Hm Hf =>
        obtain ⟨hid, hm⟩ := Hm.pair (f := (·.register linked)) (Machine.recode_register linked)
        simp only [Context.start, hid]
        exact Twins.inStep ⟨⟨hm, Hf⟩, .entering (.entry Hc) rfl⟩
  | resume limit =>
    cases limit with
    | unrepresentable => exact (H.setActivity (.replied Hc)).inStep
    | _ =>
      have hresume := hresume _ rfl (by simp)
      cases H with
      | @mk m m' id fs fs' meter deadline maxDepth activity activity' Hm Hf =>
        simp only [Context.start, Hf.isEmpty]
        cases fs with
        | nil => exact Twins.inStep ⟨⟨Hm, Hf⟩, .replied Hc⟩
        | cons f rest =>
          obtain ⟨hr, Hc⟩ := hresume (by simp)
          exact Twins.inStep ⟨⟨Hm, Hf⟩, .running hr Hc⟩

/-- The host starts an entry. -/
theorem start_host (H : c.Agree s stage c') (entry : Entry)
    (hrests : s.Rests stage c.fiber.frames.length) :
    (c.start entry .host).InStep s stage (c'.start entry .host) := by
  refine H.start entry (.host hrests) fun _ _ _ hne => ⟨⟨fun _ => ?_, fun hs h => ?_, fun _ => ?_⟩,
    .host fun _ => Nat.zero_le _⟩
  · exact List.length_pos_iff.mpr hne
  · have := hrests hs
    omega
  · omega

end Agree

end Context

/-- Native code that is given the frames of the two fibers goes on differently. -/
def Fiber.TellsApart (f f' : Fiber) : Prop :=
  ∃ next purpose, f.activity = .program (.backtrace next) purpose ∧
    next (backtraceOf f'.frames) ≠ next (backtraceOf f.frames)

namespace Context

variable {c c' : Context} {p p' : Pending}

namespace Agree

theorem step (H : c.Agree s stage c') {program : Program} {purpose purpose' : Purpose}
    (ha : c.fiber.activity = .program program purpose)
    (Hp : s.Purposes stage c.fiber.frames.length purpose purpose')
    (hresumes : stage = .free ∨ ¬ c.fiber.Resumes) (htells : ¬ c.fiber.TellsApart c'.fiber) :
    (c.step program purpose).InStep s stage (c'.step program purpose') := by
  cases program with
  | finish result =>
    cases Hp with
    | call Hp => exact (H.answer result Hp).inStep
    | @load _ id _ _ Hp =>
      cases result with
      | ok value =>
        cases H with
        | @mk m m' _ fs fs' meter deadline maxDepth activity activity' Hm Hf =>
          have hm := Hm.map (f := (·.finishModule id none)) (Machine.recode_finishModule id none)
          have hmodule := hm.eq (f := (·.module? id)) fun _ => rfl
          simp only [Context.step, hmodule]
          exact (answer ⟨hm, Hf⟩ _ Hp).inStep
      | error fault =>
        obtain ⟨herror, H'⟩ := H.envelope (if fault.isFatal then .moduleFailed else fault)
        have Hp' : s.Pendings stage (c.envelope
          (if fault.isFatal then .moduleFailed else fault)).2.fiber.frames.length _ _ := Hp
        simp only [Context.step]
        generalize c.envelope _ = raised at herror H' Hp'
        generalize c'.envelope _ = raised' at herror H'
        obtain ⟨error, d⟩ := raised
        obtain ⟨_, d'⟩ := raised'
        cases herror
        cases H' with
        | mk Hm Hf =>
          have hm := Hm.map (f := (·.finishModule id (some error)))
            (Machine.recode_finishModule id (some error))
          exact (answer ⟨hm, Hf⟩ _ Hp').inStep
  | enter entry next =>
    refine H.start entry (.program Hp) fun limit hentry hlimit hne => ?_
    subst hentry
    rcases hresumes with rfl | hresumes
    · rw [Hp.eq fun h => by cases h]
      exact ⟨s.runs_free .., s.callers_free ..⟩
    · exact absurd ⟨hne, limit, next, purpose, hlimit, ha⟩ hresumes
  | newArray values next =>
    cases H with
    | mk Hm Hf =>
      obtain ⟨hr, hm⟩ := Hm.pair (f := (·.onHeap (·.newArray (.ofList values))))
        (Machine.recode_onHeap fun _ => rfl)
      simp only [Context.step, hr]
      exact (setActivity ⟨hm, Hf⟩ (.program Hp)).inStep
  | newObject next =>
    cases H with
    | mk Hm Hf =>
      obtain ⟨hr, hm⟩ := Hm.pair (f := (·.onHeap (·.newObject {})))
        (Machine.recode_onHeap fun _ => rfl)
      simp only [Context.step, hr]
      exact (setActivity ⟨hm, Hf⟩ (.program Hp)).inStep
  | newFunction name module routine next =>
    cases H with
    | mk Hm Hf =>
      obtain ⟨hr, hm⟩ := Hm.pair (f := (·.onHeap (·.newFunction {
          module := some module, receiver := .null, body := .native name routine })))
        (Machine.recode_onHeap fun _ => rfl)
      simp only [Context.step, hr]
      exact (setActivity ⟨hm, Hf⟩ (.program Hp)).inStep
  | read target next =>
    cases H with
    | mk Hm Hf =>
      have hcontent := Hm.eq (f := (·.heap.content? target)) fun m => m.heap.recode_content? target
      simp only [Context.step, hcontent]
      exact (setActivity ⟨Hm, Hf⟩ (.program Hp)).inStep
  | update target change next =>
    cases H with
    | @mk m m' id fs fs' meter deadline maxDepth activity activity' Hm Hf =>
      have hupdated := Hm.eq (f := (·.heap.updated target change)) fun _ => rfl
      simp only [Context.step, hupdated]
      cases m.heap.updated target change with
      | error fault => exact (setActivity ⟨Hm, Hf⟩ (.program Hp)).inStep
      | ok o =>
        obtain ⟨-, hm⟩ := Hm.pair (f := (·.onHeap fun h => ((), h.setObject target o)))
          (Machine.recode_onHeap fun _ => rfl)
        exact (setActivity ⟨hm, Hf⟩ (.program Hp)).inStep
  | backtrace next =>
    have hnext : next (backtraceOf c'.fiber.frames) = next (backtraceOf c.fiber.frames) :=
      Classical.byContradiction fun hne => htells ⟨next, purpose, ha, hne⟩
    simp only [Context.step, hnext]
    exact (H.setActivity (.program Hp)).inStep
  | configure setting next =>
    cases H with
    | mk Hm Hf => cases setting <;> exact Twins.inStep ⟨⟨Hm, Hf⟩, .program Hp⟩

/-! ## Modules -/

theorem find (H : c.Agree s stage c') (name : String)
    (Hp : s.Pendings stage c.fiber.frames.length p p') (hk : p'.negates = p.negates) :
    (c.find name p).Twins s stage (c'.find name p') := by
  cases H with
  | @mk m m' id fs fs' meter deadline maxDepth activity activity' Hm Hf =>
    have hknown := Hm.eq (f := (·.names.get? name)) fun _ => rfl
    have hnative := Hm.eq (f := (·.natives.contains name)) fun _ => rfl
    simp only [Context.find, hknown, hnative]
    cases m.names.get? name with
    | some module => exact setActivity ⟨Hm, Hf⟩ (.entering Hp hk)
    | none =>
      dsimp only
      split
      · obtain ⟨hid, hm⟩ := Hm.pair (f := (·.registerNative name))
          (Machine.recode_registerNative name)
        rw [hid]
        exact setActivity ⟨hm, Hf⟩ (.entering Hp hk)
      · obtain ⟨hfound, hm⟩ := Hm.pair (f := fun m => ((m.finder.resolve m.workspace name).1,
          { m with workspace := (m.finder.resolve m.workspace name).2 })) fun _ => rfl
        rw [hfound]
        exact setActivity ⟨hm, Hf⟩ (.found Hp hk)

theorem adopt (H : c.Agree s stage c') (name : String)
    (result : Except FinderError (Option LinkedModule))
    (Hp : s.Pendings stage c.fiber.frames.length p p') (hk : p'.negates = p.negates) :
    (c.adopt name result p).Twins s stage (c'.adopt name result p') := by
  unfold Context.adopt
  split
  · rename_i linked
    cases H with
    | @mk m m' id fs fs' meter deadline maxDepth activity activity' Hm Hf =>
      have hknown := Hm.eq (f := (·.names.get? name)) fun _ => rfl
      simp only [hknown]
      cases m.names.get? name with
      | some module => exact setActivity ⟨Hm, Hf⟩ (.entering Hp hk)
      | none =>
        obtain ⟨hid, hm⟩ := Hm.pair (f := (·.register linked)) (Machine.recode_register linked)
        dsimp only
        rw [hid]
        exact setActivity ⟨hm, Hf⟩ (.entering Hp hk)
  all_goals exact H.answer _ Hp

theorem load (H : c.Agree s stage c') (module : ModuleId) (entry : ModuleEntry) (object : Bool)
    (Hp : s.Pendings stage c.fiber.frames.length p p') (hk : p'.negates = p.negates) :
    (c.load module entry object p).InStep s stage (c'.load module entry object p') := by
  cases H with
  | @mk m m' id fs fs' meter deadline maxDepth activity activity' Hm Hf =>
    have hm := Hm.map (f := (·.setState module (.loading id))) fun _ => rfl
    unfold Context.load
    dsimp only at hm ⊢
    generalize m.setState module (.loading id) = m₁ at hm
    generalize m'.setState module (.loading id) = m₁' at hm
    cases entry.body with
    | none =>
      rw [hm.eq (f := (·.natives)) fun _ => rfl]
      exact (setActivity ⟨hm, Hf⟩ (.program (.load Hp))).inStep
    | some code =>
      dsimp only
      let function : FunctionObject := {
        module := some module, receiver := .object entry.object, body := .interpreted code [] }
      obtain ⟨hbound, hm'⟩ := hm.pair
        (f := (·.onHeap fun h => Frame.bind (h.newFunction function).2 (h.newFunction function).1
          code [] { module, constants := entry.constants, globals := entry.object }
          (.object entry.object) {}))
        (Machine.recode_onHeap fun h => Frame.recode_bind (h.newFunction function).2 ..)
      generalize m₁.onHeap _ = bound at hbound hm'
      generalize m₁'.onHeap _ = bound' at hbound hm'
      obtain ⟨result, m₂⟩ := bound
      obtain ⟨_, m₂'⟩ := bound'
      cases hbound
      cases result with
      | ok frame => exact enter ⟨hm', Hf⟩ _ Hp (.inl hk)
      | error fault =>
        obtain ⟨herror, hheap⟩ := Heap.recode_envelope hm'.heap Hf.backtrace fault
        have hm₃ := hm'.setHeap hheap
        simp only [Context.envelope, Machine.onHeap, herror]
        have hm₄ := hm₃.map (f := (·.finishModule module (some (m₂.heap.envelope fs fault).1)))
          (Machine.recode_finishModule module _)
        exact (answer ⟨hm₄, Hf⟩ _ Hp).inStep

theorem enterModule (H : c.Agree s stage c') (module : ModuleId) (object : Bool)
    (Hp : s.Pendings stage c.fiber.frames.length p p') (hk : p'.negates = p.negates) :
    (c.enterModule module object p).InStep s stage (c'.enterModule module object p') := by
  have hload (entry : ModuleEntry) := H.load module entry object Hp hk
  cases H with
  | @mk m m' id fs fs' meter deadline maxDepth activity activity' Hm Hf =>
    have hmodule := Hm.eq (f := (·.module? module)) fun _ => rfl
    simp only [Context.enterModule, hmodule]
    cases m.module? module with
    | none => exact (answer ⟨Hm, Hf⟩ _ Hp).inStep
    | some entry =>
      dsimp only
      cases entry.state with
      | loaded | failed => exact (answer ⟨Hm, Hf⟩ _ Hp).inStep
      | registered => exact hload entry
      | loading loader =>
        have hdeadlock := Hm.eq (f := (·.wouldDeadlock id loader))
          (Machine.recode_wouldDeadlock id loader)
        simp only [hdeadlock]
        split
        · exact (answer ⟨Hm, Hf⟩ _ Hp).inStep
        · split
          · exact (answer ⟨Hm, Hf⟩ _ Hp).inStep
          · have hm := Hm.map (f := (·.setWait id (some module))) fun _ => rfl
            exact (setActivity ⟨hm, Hf⟩ (.waiting Hp hk)).inStep

theorem wake (H : c.Agree s stage c') (module : ModuleId) (object : Bool)
    (Hp : s.Pendings stage c.fiber.frames.length p p') (hk : p'.negates = p.negates) :
    (c.wake module object p).Twins s stage (c'.wake module object p') := by
  cases H with
  | @mk m m' id fs fs' meter deadline maxDepth activity activity' Hm Hf =>
    have hm := Hm.map (f := (·.setWait id none)) fun _ => rfl
    have hlate : isLate ⟨m'.setWait id none, id, ⟨fs', meter, deadline, maxDepth, activity'⟩⟩ =
        isLate ⟨m.setWait id none, id, ⟨fs, meter, deadline, maxDepth, activity⟩⟩ := rfl
    simp only [Context.wake, hlate]
    split
    · exact answer ⟨hm, Hf⟩ _ Hp
    · exact setActivity ⟨hm, Hf⟩ (.entering Hp hk)

/-! ## Results -/

/-- An invocation has a result. -/
theorem answered (H : c.Agree s stage c') (result : Except Fault Value)
    (ha : c.fiber.activity = .answered result p) (ha' : c'.fiber.activity = .answered result p')
    (Hp : s.Pendings stage c.fiber.frames.length p p') :
    c.advance.Tracks s stage c'.advance := by
  simp only [Context.advance, ha, ha']
  cases Hp with
  | instruction hr hn Hc =>
    cases result with
    | ok value => exact .inl (H.deliver hr Hc _ hn)
    | error fault => exact .inl (H.fail hr Hc fault)
  | negated hs hn hb Hc =>
    subst hs
    cases result with
    | error fault => exact .inl (H.fail (Site.runs_there hb hn) Hc fault)
    | ok value =>
      -- The native code that decides the comparison has done so.
      rw [Hc.eq fun _ => hb]
      cases H with
      | mk Hm Hf =>
        obtain ⟨g, rest, rfl, rfl, hl, hc, hp⟩ := Hf.eq_of_there hn
        exact .inr ⟨.inl rfl, Hm, value, .mk hl hc hp⟩
  | entry Hc => cases result <;> exact .inl (H.finish _ Hc).inStep

end Agree

/--
**A transition keeps two fibers in step, or the comparison has a result**: one frame receives it and
its twin the negation of its truthiness.
-/
theorem Twins.advance (H : c.Twins s stage c') (hresumes : stage = .free ∨ ¬ c.fiber.Resumes)
    (htells : ¬ c.fiber.TellsApart c'.fiber) : c.advance.Tracks s stage c'.advance := by
  obtain ⟨H, Ha⟩ := H
  obtain ⟨m, id, ⟨fs, meter, deadline, maxDepth, activity⟩⟩ := c
  obtain ⟨m', id', ⟨fs', meter', deadline', maxDepth', activity'⟩⟩ := c'
  dsimp only at Ha
  cases Ha with
  | idle hrests => exact .inl (inStep ⟨H, .idle hrests⟩)
  | running hr Hc => exact H.run rfl rfl hr Hc
  | program Hp => exact .inl (H.step rfl Hp hresumes htells)
  | finding Hp hk => exact .inl (H.find _ Hp hk).inStep
  | found Hp hk => exact .inl (H.adopt _ _ Hp hk).inStep
  | entering Hp hk => exact .inl (H.enterModule _ _ Hp hk)
  | waiting Hp hk => exact .inl (H.wake _ _ Hp hk).inStep
  | answered Hp => exact H.answered _ rfl rfl Hp
  | replied Hc =>
    cases Hc with
    | host hrests => exact .inl (inStep ⟨H, .replied (.host hrests)⟩)
    | program Hp => exact .inl (H.setActivity (.program Hp)).inStep

end Context

end FiberMachine
