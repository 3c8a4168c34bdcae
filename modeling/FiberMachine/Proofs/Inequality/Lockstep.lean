import FiberMachine.Proofs.Execution.Pause
import FiberMachine.Proofs.Inequality.Advance
import FiberMachine.Proofs.World.Passage

/-!
# Inequality negates equality

Two worlds that are the same, but in one of them a frame is about to compare two values for equality
and in the other one for inequality. The same happens in both: other fibers run, the host
changes things, the fiber pauses and is resumed. As long as the frame waits for the comparison the
worlds stay the same but for its code and for the mark on what decides the comparison. Then the
frame receives a value in one world and the negation of its truthiness in the other, or it receives
none and the worlds are the same (`World.inequality_negates`).

This needs that native code does not resume the fiber that it runs on
(`World.resuming_compares_again`), and that neither native code nor the host looks at the codes of
frames.
-/

namespace FiberMachine

variable {s : Site} {stage : Stage}

/-! ## Fibers -/

/-- Two fibers that differ in how a comparison is executed. -/
inductive Fiber.Twins (s : Site) (stage : Stage) : Fiber → Fiber → Prop where
  | mk {fs fs' : List Frame} {meter : Meter} {deadline : Option Deadline} {maxDepth : Option Nat}
      {a a' : Activity} : s.Frames stage fs fs' → s.Activities stage fs.length a a' →
      Twins s stage ⟨fs, meter, deadline, maxDepth, a⟩ ⟨fs', meter, deadline, maxDepth, a'⟩

theorem Site.Frames.eq_of_free {fs fs' : List Frame} (H : s.Frames .free fs fs') : fs' = fs := by
  induction H with
  | same => rfl
  | @here g _ hs => exact absurd hs.symm (s.stageOf_ne g).1
  | called hs => cases hs
  | above _ ih => rw [ih]

theorem Site.Activities.eq_of_free {n : Nat} {a a' : Activity} (H : s.Activities .free n a a') :
    a' = a := by
  have hfree {p : Prop} (h : Stage.free = .there) : p := by cases h
  cases H with
  | idle => rfl
  | running _ H => rw [H.eq hfree]
  | program H => rw [H.eq hfree]
  | finding H | found H | entering H | waiting H => rw [H.eq hfree]
  | answered H => rw [H.eq hfree]
  | replied H => rw [H.eq hfree]

namespace Fiber

variable {f f' : Fiber}

theorem twins_free (s : Site) (f : Fiber) : f.Twins s .free f :=
  .mk (.same (.inl rfl)) (s.activities_free ..)

theorem Twins.eq_of_free (H : f.Twins s .free f') : f' = f := by
  cases H with
  | mk Hf Ha => rw [Hf.eq_of_free, Ha.eq_of_free]

theorem Twins.context (H : f.Twins s stage f') {m m' : Machine} (Hm : m.Same s.merge m')
    (id : FiberId) : Context.Twins s stage ⟨m, id, f⟩ ⟨m', id, f'⟩ := by
  cases H with
  | mk Hf Ha => exact ⟨⟨Hm, Hf⟩, Ha⟩

/-- The host may start an entry on both fibers or on none. -/
theorem Twins.isAtRest (H : f.Twins s stage f') :
    f'.activity.isAtRest = f.activity.isAtRest ∧
      (f.activity.isAtRest → s.Rests stage f.frames.length) := by
  cases H with
  | mk Hf Ha =>
    cases Ha with
    | idle hrests => exact ⟨rfl, fun _ => hrests⟩
    | replied Hc =>
      cases Hc with
      | host hrests => exact ⟨rfl, fun _ => hrests⟩
      | program => exact ⟨rfl, fun h => by cases h⟩
    | _ => exact ⟨rfl, fun h => by cases h⟩

theorem Twins.isWaiting (H : f.Twins s stage f') :
    f'.activity.isWaiting = f.activity.isWaiting := by
  cases H with
  | mk Hf Ha => cases Ha <;> rfl

end Fiber

namespace Context

variable {c c' : Context}

theorem Twins.fiber (H : c.Twins s stage c') :
    c.machine.Same s.merge c'.machine ∧ c.fiber.Twins s stage c'.fiber := by
  obtain ⟨H, Ha⟩ := H
  cases H with
  | mk Hm Hf => exact ⟨Hm, .mk Hf Ha⟩

theorem Twins.isSettled (H : c.Twins s stage c') : c'.isSettled = c.isSettled := by
  obtain ⟨H, Ha⟩ := H
  cases H with
  | @mk m m' id fs fs' meter deadline maxDepth activity activity' Hm Hf =>
    dsimp only at Ha
    cases Ha with
    | replied Hc => cases Hc <;> rfl
    | @waiting module object p p' Hp hk =>
      have hmodule := Hm.eq (f := (·.module? module)) fun _ => rfl
      simp only [Context.isSettled, hmodule]
      rfl
    | _ => rfl

end Context

/-! ## Worlds -/

namespace World

variable {w w' : World}

/-- The worlds are the same, but for codes in backtraces and for how the fiber of the site is. -/
structure SameBut (s : Site) (R : Fiber → Fiber → Prop) (w w' : World) : Prop where
  machine : w.machine.Same s.merge w'.machine
  size : w'.fibers.size = w.fibers.size
  others : ∀ id, id ≠ s.fiber → w'.fiber? id = w.fiber? id
  fiber : Option.Rel R (w.fiber? s.fiber) (w'.fiber? s.fiber)

/-- Two worlds that differ in how a comparison is executed. -/
def Twins (s : Site) (stage : Stage) (w w' : World) : Prop := w.SameBut s (Fiber.Twins s stage) w'

/-- The value that the frame goes on with after the comparison, if it is right behind it. -/
def received? (w : World) (s : Site) : Option Value :=
  (w.fiber? s.fiber).bind fun fiber =>
    match fiber.frames with
    | [] => none
    | g :: rest =>
      if rest.length = s.depth ∧ g.code = s.code ∧ g.instruction = s.position + 1 then g.stack.head?
      else none

theorem received?_of_parts {fiber fiber' : Fiber} {v : Value} (hf : w.fiber? s.fiber = some fiber)
    (H : fiber.Parts s v fiber') : w.received? s = some v := by
  rw [received?, hf]
  cases H with
  | mk hl hc hp => exact if_pos ⟨hl, hc, congrArg Nat.succ hp⟩

/-- The two worlds, after an event that began at the given stage. -/
def InStep (s : Site) (stage : Stage) (w w' : World) : Prop :=
  ∃ stage', w.Twins s stage' w' ∧
    ∀ fiber, w.fiber? s.fiber = some fiber → s.Leads fiber.frames stage stage'

/-- The worlds are in step, or the comparison has a result. -/
def Tracks (s : Site) (stage : Stage) (w w' : World) : Prop :=
  w.InStep s stage w' ∨ stage.Waits ∧
    ∃ v, w.received? s = some v ∧ w.SameBut s (Fiber.Parts s v) w'

namespace Twins

theorem inStep (H : w.Twins s stage w') : w.InStep s stage w' :=
  ⟨stage, H, fun fiber _ => .refl s fiber.frames stage⟩

/-- The stage of a fiber: there is nothing to say about the others. -/
def stageOf (s : Site) (stage : Stage) (id : FiberId) : Stage :=
  if id = s.fiber then stage else .free

theorem fiber_twins (H : w.Twins s stage w') {id : FiberId} {fiber : Fiber}
    (hf : w.fiber? id = some fiber) :
    ∃ fiber', w'.fiber? id = some fiber' ∧ fiber.Twins s (stageOf s stage id) fiber' := by
  unfold stageOf
  split
  · rename_i h
    subst h
    have hrel := H.fiber
    rw [hf] at hrel
    cases hw : w'.fiber? s.fiber with
    | none => rw [hw] at hrel; cases hrel
    | some fiber' =>
      rw [hw] at hrel
      cases hrel with
      | some hrel => exact ⟨fiber', rfl, hrel⟩
  · rename_i h
    exact ⟨fiber, (H.others id h).trans hf, fiber.twins_free s⟩

theorem fiber_none (H : w.Twins s stage w') {id : FiberId} (hf : w.fiber? id = none) :
    w'.fiber? id = none := by
  by_cases h : id = s.fiber
  · subst h
    have hrel := H.fiber
    rw [hf] at hrel
    cases hw : w'.fiber? s.fiber with
    | none => rfl
    | some fiber' => rw [hw] at hrel; cases hrel
  · exact (H.others id h).trans hf

/-- A fiber makes the same transition in both worlds. -/
theorem update (H : w.Twins s stage w') {id : FiberId} {fiber fiber' : Fiber}
    (hf : w.fiber? id = some fiber) (hf' : w'.fiber? id = some fiber') {c c' : Context}
    (Hc : c.Tracks s (stageOf s stage id) c') :
    (w.update id c).Tracks s stage (w'.update id c') := by
  have hsize : (w'.update id c').fibers.size = (w.update id c).fibers.size := by
    simp only [World.update, setFiber, Array.size_setIfInBounds, H.size]
  by_cases h : id = s.fiber
  · subst h
    have hstage : stageOf s stage s.fiber = stage := if_pos rfl
    rw [hstage] at Hc
    have hothers (other : FiberId) (hne : other ≠ s.fiber) :
        (w'.update s.fiber c').fiber? other = (w.update s.fiber c).fiber? other := by
      rw [fiber?_update_of_ne hne, fiber?_update_of_ne hne, H.others other hne]
    rcases Hc with ⟨stage', Hc, hleads⟩ | ⟨hwaits, Hm, v, hparts⟩
    · refine .inl ⟨stage', ⟨Hc.fiber.1, hsize, hothers, ?_⟩, fun after hafter => ?_⟩
      · rw [fiber?_update_self hf, fiber?_update_self hf']
        exact .some Hc.fiber.2
      · rw [fiber?_update_self hf] at hafter
        cases hafter
        exact hleads
    · refine .inr ⟨hwaits, v, ?_, ⟨Hm, hsize, hothers, ?_⟩⟩
      · exact received?_of_parts (fiber?_update_self hf) hparts
      · rw [fiber?_update_self hf, fiber?_update_self hf']
        exact .some hparts
  · rw [stageOf, if_neg h] at Hc
    have hne : s.fiber ≠ id := Ne.symm h
    rcases Hc with ⟨stage', Hc, hleads⟩ | ⟨hwaits, -⟩
    · rw [hleads.free.mp rfl] at Hc
      have heq := Hc.fiber.2.eq_of_free
      refine .inl (inStep ⟨Hc.fiber.1, hsize, fun other hother => ?_, ?_⟩)
      · by_cases ho : other = id
        · subst ho
          rw [fiber?_update_self hf, fiber?_update_self hf', heq]
        · rw [fiber?_update_of_ne ho, fiber?_update_of_ne ho, H.others other hother]
      · rw [fiber?_update_of_ne hne, fiber?_update_of_ne hne]
        exact H.fiber
    · rcases hwaits with hwaits | hwaits <;> cases hwaits

/-- Only the machines change. -/
theorem setMachine (H : w.Twins s stage w') {m m' : Machine} (Hm : m.Same s.merge m') :
    Twins s stage { w with machine := m } { w' with machine := m' } :=
  ⟨Hm, H.size, H.others, H.fiber⟩

/-- A fiber changes otherwise than by a transition. -/
theorem modifyFiber (H : w.Twins s stage w') (id : FiberId) {change : Fiber → Fiber}
    (h : ∀ f f', f.Twins s stage f' → (change f).Twins s stage (change f')) :
    (w.modifyFiber id change).Twins s stage (w'.modifyFiber id change) := by
  refine ⟨H.machine, ?_, fun other hother => ?_, ?_⟩
  · simp only [World.modifyFiber, Array.size_modify, H.size]
  · by_cases ho : other = id
    · subst ho
      rw [fiber?_modifyFiber_self, fiber?_modifyFiber_self, H.others other hother]
    · rw [fiber?_modifyFiber_of_ne ho, fiber?_modifyFiber_of_ne ho, H.others other hother]
  · by_cases ho : s.fiber = id
    · subst ho
      rw [fiber?_modifyFiber_self, fiber?_modifyFiber_self]
      have hrel := H.fiber
      generalize w.fiber? s.fiber = fiber at hrel
      generalize w'.fiber? s.fiber = fiber' at hrel
      cases hrel with
      | none => exact .none
      | some hrel => exact .some (h _ _ hrel)
    · rw [fiber?_modifyFiber_of_ne ho, fiber?_modifyFiber_of_ne ho]
      exact H.fiber

theorem spawn (H : w.Twins s stage w') (hs : stage ≠ .free) :
    w.spawn.2.InStep s stage w'.spawn.2 := by
  have Hm : w.spawn.2.machine.Same s.merge w'.spawn.2.machine :=
    H.machine.map (f := fun m => { m with waits := m.waits.push none }) fun _ => rfl
  have hsize : w'.spawn.2.fibers.size = w.spawn.2.fibers.size := by
    simp only [World.spawn, Array.size_push, H.size]
  have hothers (id : FiberId) (h : id ≠ s.fiber) :
      w'.spawn.2.fiber? id = w.spawn.2.fiber? id := by
    rw [fiber?_spawn, fiber?_spawn, H.size, H.others id h]
  by_cases hnew : s.fiber.index = w.fibers.size
  · have hfiber : w.spawn.2.fiber? s.fiber = some {} := by rw [fiber?_spawn, if_pos hnew]
    have hfiber' : w'.spawn.2.fiber? s.fiber = some {} := by
      rw [fiber?_spawn, H.size, if_pos hnew]
    refine ⟨.nested, ⟨Hm, hsize, hothers, ?_⟩, fun fiber hf => ?_⟩
    · rw [hfiber, hfiber']
      exact .some (.mk (.same (.inr rfl)) (.idle fun h => by cases h))
    · rw [hfiber] at hf
      cases hf
      exact .of_length_le (Nat.zero_le _) hs
  · refine inStep ⟨Hm, hsize, hothers, ?_⟩
    rw [fiber?_spawn, fiber?_spawn, H.size, if_neg hnew, if_neg hnew]
    exact H.fiber

theorem failAll_same {m m' : Machine} (Hm : m.Same s.merge m') (modules : List ModuleId) :
    (failAll m modules).Same s.merge (failAll m' modules) := by
  induction modules generalizing m m' with
  | nil => exact Hm
  | cons module rest ih =>
    have H : s.Frames .free [] [] := .same (.inl rfl)
    exact ih (Hm.forsake H (.module module false))

theorem drop (H : w.Twins s stage w') (id : FiberId) :
    (w.drop id).Twins s stage (w'.drop id) := by
  have hloaded : w'.loadedBy id = w.loadedBy id :=
    H.machine.eq (f := fun m => loadedBy ⟨m, #[]⟩ id) fun _ => rfl
  have hm := H.machine.map (f := (·.setWait id none)) fun _ => rfl
  refine ⟨?_, ?_, fun other hother => ?_, ?_⟩
  · simp only [World.drop, hloaded]
    exact failAll_same hm _
  · simp only [World.drop, setFiber, Array.size_setIfInBounds, H.size]
  · by_cases ho : other = id
    · subst ho
      rw [fiber?_drop_self, fiber?_drop_self]
    · rw [fiber?_drop_of_ne ho, fiber?_drop_of_ne ho, H.others other hother]
  · by_cases ho : s.fiber = id
    · subst ho
      rw [fiber?_drop_self, fiber?_drop_self]
      exact .none
    · rw [fiber?_drop_of_ne ho, fiber?_drop_of_ne ho]
      exact H.fiber

/-- A fiber makes a transition. -/
theorem advance (H : w.Twins s stage w')
    (hresumes : ∀ fiber, w.fiber? s.fiber = some fiber → ¬ fiber.Resumes)
    (htells : ∀ fiber fiber', w.fiber? s.fiber = some fiber → w'.fiber? s.fiber = some fiber' →
      ¬ fiber.TellsApart fiber')
    {id : FiberId} {fiber fiber' : Fiber} (hf : w.fiber? id = some fiber)
    (hf' : w'.fiber? id = some fiber') (Ht : fiber.Twins s (stageOf s stage id) fiber') :
    (Context.advance ⟨w.machine, id, fiber⟩).Tracks s (stageOf s stage id)
      (Context.advance ⟨w'.machine, id, fiber'⟩) := by
  refine (Ht.context H.machine id).advance ?_ ?_
  · by_cases h : id = s.fiber
    · exact .inr (hresumes fiber (h ▸ hf))
    · exact .inl (if_neg h)
  · by_cases h : id = s.fiber
    · exact htells fiber fiber' (h ▸ hf) (h ▸ hf')
    · rw [stageOf, if_neg h] at Ht
      rintro ⟨next, purpose, -, hne⟩
      exact hne (by rw [Ht.eq_of_free])

/-- **The same event in both worlds.** -/
theorem perform (H : w.Twins s stage w') (hs : stage ≠ .free)
    (hresumes : ∀ fiber, w.fiber? s.fiber = some fiber → ¬ fiber.Resumes)
    (htells : ∀ fiber fiber', w.fiber? s.fiber = some fiber → w'.fiber? s.fiber = some fiber' →
      ¬ fiber.TellsApart fiber') {e : Event}
    (hedit : ∀ change, e = .edit change →
      (change w.machine.heap).recode s.merge = (change w'.machine.heap).recode s.merge) :
    (w.perform e).Tracks s stage (w'.perform e) := by
  cases e with
  | register linked =>
    exact .inl (H.setMachine (H.machine.pair (f := (·.register linked))
      (Machine.recode_register linked)).2).inStep
  | registerNative name initializer =>
    exact .inl (H.setMachine (H.machine.map
      (f := fun m => { m with natives := m.natives.insert name initializer })
      fun _ => rfl)).inStep
  | edit change =>
    exact .inl (H.setMachine (H.machine.setHeap (hedit change rfl))).inStep
  | relocate finder workspace =>
    exact .inl (H.setMachine (H.machine.map (f := fun m => { m with finder, workspace })
      fun _ => rfl)).inStep
  | spawn => exact .inl (H.spawn hs)
  | drop id => exact .inl (H.drop id).inStep
  | configure id setting =>
    refine .inl (H.modifyFiber id fun f f' Ht => ?_).inStep
    cases Ht with
    | mk Hf Ha => cases setting <;> exact .mk Hf Ha
  | start id entry =>
    simp only [World.perform]
    cases hf : w.fiber? id with
    | none => rw [H.fiber_none hf]; exact .inl H.inStep
    | some fiber =>
      obtain ⟨fiber', hf', Ht⟩ := H.fiber_twins hf
      rw [hf']
      dsimp only
      rw [Ht.isAtRest.1]
      split
      · rename_i hrest
        rw [start_eq_update hf, start_eq_update hf']
        exact H.update hf hf' (.inl ((Ht.context H.machine id).agree.start_host entry
          (Ht.isAtRest.2 hrest)))
      · exact .inl H.inStep
  | advance id =>
    simp only [World.perform]
    cases hf : w.fiber? id with
    | none => simp only [drive, hf, H.fiber_none hf]; exact .inl H.inStep
    | some fiber =>
      obtain ⟨fiber', hf', Ht⟩ := H.fiber_twins hf
      have Hc := Ht.context H.machine id
      rw [drive_eq_update hf, drive_eq_update hf']
      refine H.update hf hf' ?_
      simp only [Context.drive, Hc.isSettled]
      split
      · exact .inl Hc.inStep
      · exact H.advance hresumes htells hf hf' Ht
  | rouse id =>
    simp only [World.perform]
    cases hf : w.fiber? id with
    | none => rw [H.fiber_none hf]; exact .inl H.inStep
    | some fiber =>
      obtain ⟨fiber', hf', Ht⟩ := H.fiber_twins hf
      rw [hf']
      dsimp only
      rw [Ht.isWaiting]
      split
      · exact H.update hf hf' (H.advance hresumes htells hf hf' Ht)
      · exact .inl H.inStep
  | expire id =>
    refine .inl (H.modifyFiber id fun f f' Ht => ?_).inStep
    cases Ht with
    | mk Hf Ha => exact .mk Hf Ha

end Twins

/-! ## While the frame waits -/

theorem received?_eq_some {v : Value} (h : w.received? s = some v) :
    ∃ fiber g rest, w.fiber? s.fiber = some fiber ∧ fiber.frames = g :: rest ∧
      rest.length = s.depth ∧ g.instruction = s.position + 1 ∧ g.stack.head? = some v := by
  obtain ⟨fiber, hf, h⟩ := Option.bind_eq_some_iff.mp h
  cases hframes : fiber.frames with
  | nil => rw [hframes] at h; cases h
  | cons g rest =>
    rw [hframes] at h
    dsimp only at h
    split at h
    · rename_i hg
      exact ⟨fiber, g, rest, hf, hframes, hg.1, hg.2.2, h⟩
    · cases h

/-- Whether the frame is at the comparison. -/
def isComparing (w : World) (s : Site) : Bool :=
  (w.activation? s.fiber s.depth).any fun g => g.code = s.code && g.instruction = s.position

theorem isComparing_iff : w.isComparing s ↔
    ∃ fiber g, w.fiber? s.fiber = some fiber ∧ fiber.frames.reverse[s.depth]? = some g ∧
      g.code = s.code ∧ g.instruction = s.position := by
  simp only [isComparing, activation?, Option.any_eq_true, Option.bind_eq_some_iff,
    Bool.and_eq_true, decide_eq_true_eq]
  constructor
  · rintro ⟨g, ⟨fiber, hf, hg⟩, hc, hp⟩
    exact ⟨fiber, g, hf, hg, hc, hp⟩
  · rintro ⟨fiber, g, hf, hg, hc, hp⟩
    exact ⟨g, ⟨fiber, hf, hg⟩, hc, hp⟩

/-- A frame that has received a result is past the comparison. -/
theorem received?_of_isComparing (h : w.isComparing s) : w.received? s = none := by
  refine Option.eq_none_iff_forall_ne_some.mpr fun v hv => ?_
  obtain ⟨fiber, g, hf, hg, -, hp⟩ := isComparing_iff.mp h
  obtain ⟨fiber', g', rest, hf', hframes, hl, hp', -⟩ := received?_eq_some hv
  cases hf.symm.trans hf'
  rw [hframes, getElem?_reverse_cons, if_pos hl.symm] at hg
  cases hg
  omega

end World

theorem Site.Frames.position_of_away {fs fs' : List Frame} (H : s.Frames stage fs fs')
    (hs : stage = .away) {g : Frame} (hg : fs.reverse[s.depth]? = some g) :
    g.instruction ≠ s.position := by
  induction H with
  | same h => rcases h with h | h <;> cases h.symm.trans hs
  | @here top rest hstage hl hc =>
    rw [World.getElem?_reverse_cons, if_pos hl.symm] at hg
    cases hg
    intro hp
    cases hs.symm.trans (hstage.trans (if_pos hp))
  | called h => cases h.symm.trans hs
  | @above f fs fs' H ih =>
    have hlt := H.lt_length (hs ▸ by simp) (hs ▸ by simp)
    rw [World.getElem?_reverse_cons, if_neg (Nat.ne_of_lt hlt)] at hg
    exact ih hg

namespace World

variable {w w' : World}

namespace InStep

/-- A frame that is still at the comparison goes on waiting for it. -/
theorem comparing (H : w.InStep s stage w') (hs : stage.Waits) (h : w.isComparing s) :
    ∃ stage', stage'.Waits ∧ w.Twins s stage' w' := by
  obtain ⟨stage', H, hleads⟩ := H
  obtain ⟨fiber, g, hf, hg, -, hp⟩ := isComparing_iff.mp h
  refine ⟨stage', ?_, H⟩
  rcases (hleads fiber hf).of_waits hs with hwaits | hgone | ⟨rfl, -⟩
  · exact hwaits
  · have hlt := (List.getElem?_eq_some_iff.mp hg).1
    rw [List.length_reverse] at hlt
    omega
  · obtain ⟨fiber', -, Ht⟩ := H.fiber_twins hf
    rw [Twins.stageOf, if_pos rfl] at Ht
    cases Ht with
    | mk Hf Ha => exact absurd hp (Hf.position_of_away rfl hg)

/-- A frame that waits and stays in step with its twin receives nothing. -/
theorem received? (H : w.InStep s stage w') (hs : stage.Waits) : w.received? s = none := by
  refine Option.eq_none_iff_forall_ne_some.mpr fun v hv => ?_
  obtain ⟨fiber, g, rest, hf, hframes, hl, hp, hstack⟩ := received?_eq_some hv
  obtain ⟨stage', H, hleads⟩ := H
  have hlength : fiber.frames.length = s.depth + 1 := by rw [hframes, List.length_cons, hl]
  rcases (hleads fiber hf).of_waits hs with hwaits | hgone | ⟨-, g', rest', hg', hnil⟩
  · obtain ⟨fiber', -, Ht⟩ := H.fiber_twins hf
    rw [Twins.stageOf, if_pos rfl] at Ht
    cases Ht with
    | mk Hf Ha =>
      rcases hwaits with rfl | rfl
      · obtain ⟨g', rest', hg', -, -, -, hp'⟩ := Hf.eq_of_there hlength
        cases hframes.symm.trans hg'
        omega
      · have := Hf.lt_length_of_called
        dsimp only at hlength
        omega
  · omega
  · cases hframes.symm.trans hg'
    rw [hnil] at hstack
    cases hstack

end InStep

/-! ## Events in a row -/

/-- Native code on a fiber is not about to resume it. -/
def Unresumed (f : FiberId) (w : World) (_ : Event) : Prop :=
  ∀ fiber, w.fiber? f = some fiber → ¬ fiber.Resumes

theorem Twins.nested_of_inStep (H : w.InStep s .nested w') : w.Twins s .nested w' := by
  obtain ⟨stage', H, hleads⟩ := H
  cases hf : w.fiber? s.fiber with
  | some fiber =>
    rw [(hleads fiber hf).nested rfl] at H
    exact H
  | none =>
    refine ⟨H.machine, H.size, H.others, ?_⟩
    rw [hf, H.fiber_none hf]
    exact .none

/-- What waits in the fiber stays nested properly. -/
theorem Twins.run_nested (H : w.Twins s .nested w) {events : List Event}
    (h : w.Throughout (Unresumed s.fiber) events) :
    (w.run events).Twins s .nested (w.run events) := by
  induction events generalizing w with
  | nil => exact H
  | cons e rest ih =>
    refine ih ?_ h.2
    have htells (fiber fiber' : Fiber) (hf : w.fiber? s.fiber = some fiber)
        (hf' : w.fiber? s.fiber = some fiber') : ¬ fiber.TellsApart fiber' := by
      cases hf.symm.trans hf'
      rintro ⟨next, purpose, -, hne⟩
      exact hne rfl
    rcases H.perform (by simp) h.1 htells (e := e) (fun _ _ => rfl) with H' | ⟨hs, -⟩
    · exact .nested_of_inStep H'
    · rcases hs with hs | hs <;> cases hs

/-- Between entries nothing waits in a fiber. -/
theorem twins_of_isAtRest
    (h : ∀ fiber, w.fiber? s.fiber = some fiber → fiber.activity.isAtRest) :
    w.Twins s .nested w := by
  refine ⟨.refl _, rfl, fun _ _ => rfl, ?_⟩
  cases hf : w.fiber? s.fiber with
  | none => exact .none
  | some fiber =>
    have hrest := h fiber hf
    obtain ⟨fs, meter, deadline, maxDepth, activity⟩ := fiber
    refine .some (.mk (.same (.inr rfl)) ?_)
    cases activity with
    | idle => exact .idle fun h => by cases h
    | replied outcome caller =>
      cases caller with
      | host => exact .replied (.host fun h => by cases h)
      | program => cases hrest
    | _ => cases hrest

/-- Whether the fiber is about to execute the comparison. -/
def isReady (w : World) (s : Site) : Bool :=
  match w.fiber? s.fiber with
  | some ⟨g :: rest, _, _, _, .running _ _⟩ =>
    rest.length = s.depth && g.code = s.code && g.instruction = s.position
  | _ => false

/-- The world in which the frame on top of the fiber compares for inequality instead. -/
def turn (w : World) (s : Site) : World :=
  w.modifyFiber s.fiber fun fiber =>
    match fiber with
    | ⟨g :: rest, meter, deadline, maxDepth, activity⟩ =>
      ⟨s.turn g :: rest, meter, deadline, maxDepth, activity⟩
    | fiber => fiber

theorem Twins.turn (H : w.Twins s .nested w) (h : w.isReady s) : w.Twins s .there (w.turn s) := by
  refine ⟨.refl _, ?_, fun id hid => fiber?_modifyFiber_of_ne hid _, ?_⟩
  · simp only [World.turn, World.modifyFiber, Array.size_modify]
  rw [World.turn, fiber?_modifyFiber_self]
  unfold isReady at h
  have hrel := H.fiber
  split at h
  · rename_i g rest meter deadline maxDepth base caller hf
    simp only [Bool.and_eq_true, decide_eq_true_eq] at h
    obtain ⟨⟨hl, hc⟩, hp⟩ := h
    rw [hf] at hrel ⊢
    cases hrel with
    | some Ht =>
      cases Ht with
      | mk Hf Ha =>
        cases Ha with
        | running hr Hc =>
          have hlt := hr.lt (by simp)
          simp only [List.length_cons, hl] at hlt
          have hb : base ≤ s.depth := Nat.le_of_lt_succ hlt
          exact .some (.mk (.here (if_pos hp).symm hl hc) (.running
            (Site.runs_there hb (congrArg Nat.succ hl)) (Hc.change (by simp) hb)))
  · cases h

end World

/-- Native code that is given the frames of a fiber goes on the same with any of their codes. -/
def Fiber.Blind (σ : Code → Code) (f : Fiber) : Prop :=
  ∀ next purpose, f.activity = .program (.backtrace next) purpose →
    ∀ trace, next (trace.map (StackFrame.recode σ)) = next trace

theorem Fiber.Twins.not_tellsApart {f f' : Fiber} (H : f.Twins s stage f') (h : f.Blind s.merge) :
    ¬ f.TellsApart f' := by
  cases H with
  | mk Hf Ha =>
    rintro ⟨next, purpose, hactivity, hne⟩
    have hblind := h next purpose hactivity
    exact hne (by rw [← hblind, ← Hf.backtrace, hblind])

namespace World

variable {w w' : World}

/-- The frame waits for the comparison, and nobody interferes. -/
structure Undecided (s : Site) (w : World) (e : Event) : Prop where
  comparing : w.isComparing s
  unresumed : w.Unresumed s.fiber e
  blind : ∀ fiber, w.fiber? s.fiber = some fiber → fiber.Blind s.merge
  /-- The host does not look at codes in the backtraces of errors. -/
  edit : ∀ change, e = .edit change →
    ∀ h : Heap, change (h.recode s.merge) = (change h).recode s.merge

theorem Twins.tracks (H : w.Twins s stage w') (hs : stage ≠ .free) {e : Event}
    (h : w.Undecided s e) : (w.perform e).Tracks s stage (w'.perform e) := by
  refine H.perform hs h.unresumed (fun fiber fiber' hf hf' => ?_) fun change he => ?_
  · obtain ⟨other, hother, Ht⟩ := H.fiber_twins hf
    cases hf'.symm.trans hother
    rw [stageOf, if_pos rfl] at Ht
    exact Ht.not_tellsApart (h.blind fiber hf)
  · rw [← h.edit change he, ← h.edit change he, H.machine.heap]

/-- The worlds stay in step while the frame waits. -/
theorem Twins.run (H : w.Twins s stage w') (hs : stage.Waits) {events : List Event} {e : Event}
    (h : w.Throughout (Undecided s) (events ++ [e])) :
    ∃ stage', stage'.Waits ∧ (w.run events).Twins s stage' (w'.run events) := by
  induction events generalizing w w' stage with
  | nil => exact ⟨stage, hs, H⟩
  | cons first rest ih =>
    obtain ⟨_, hnext⟩ := h.2.head
    rcases H.tracks hs.ne_free h.1 with H' | ⟨-, v, hv, -⟩
    · obtain ⟨stage', hs', H'⟩ := H'.comparing hs hnext.comparing
      exact ih H' hs' h.2
    · cases (received?_of_isComparing hnext.comparing).symm.trans hv

/--
**Inequality is the negation of equality, however it is decided.** While a frame waits for the
comparison of two values, a world in which it compares for inequality stays the same as the one in
which it compares for equality: heap and modules but for codes in backtraces, the allowance, the
other fibers, and the frames and errors of the fiber. When the frame then receives `v`, its twin
receives the negation of the truthiness of `v`, and all else is the same. When the comparison ends
otherwise, all is the same.
-/
theorem inequality_negates {w₀ : World} {history before : List Event} {e : Event}
    (hrest : ∀ fiber, w₀.fiber? s.fiber = some fiber → fiber.activity.isAtRest)
    (hhistory : w₀.Throughout (Unresumed s.fiber) history)
    (hready : (w₀.run history).isReady s)
    (hevents : (w₀.run history).Throughout (Undecided s) (before ++ [e])) :
    let w := w₀.run history
    let after := w.run (before ++ [e])
    let after' := (w.turn s).run (before ++ [e])
    (∃ stage, (w.run before).Twins s stage ((w.turn s).run before)) ∧
      (∀ v, after.received? s = some v → after.SameBut s (Fiber.Parts s v) after') ∧
      (after.received? s = none → ∃ stage, after.Twins s stage after') := by
  intro w after after'
  have H : w.Twins s .there (w.turn s) :=
    ((twins_of_isAtRest hrest).run_nested hhistory).turn hready
  obtain ⟨stage, hs, H⟩ := H.run (.inl rfl) hevents
  have hafter : after = (w.run before).perform e := List.foldl_append
  have hafter' : after' = ((w.turn s).run before).perform e := List.foldl_append
  rw [hafter, hafter']
  refine ⟨⟨stage, H⟩, ?_⟩
  rcases H.tracks hs.ne_free hevents.last with H' | ⟨-, v, hv, hparts⟩
  · refine ⟨fun v hv => ?_, fun _ => ?_⟩
    · cases (H'.received? hs).symm.trans hv
    · obtain ⟨stage', H', -⟩ := H'
      exact ⟨stage', H'⟩
  · refine ⟨fun v' hv' => ?_, fun hnone => ?_⟩
    · cases hv.symm.trans hv'
      exact hparts
    · cases hnone.symm.trans hv

/-! ## Overloads -/

/-- Whether no native code runs on a fiber. -/
def isQuiet (w : World) (f : FiberId) : Bool := !(w.fiber? f).any (·.activity.isProgram)

theorem program_ne_of_isQuiet {f : FiberId} (h : w.isQuiet f) {fiber : Fiber}
    (hf : w.fiber? f = some fiber) (program : Program) (purpose : Purpose) :
    fiber.activity ≠ .program program purpose := by
  intro hactivity
  simp only [isQuiet, hf, Option.any_some, hactivity] at h
  cases h

theorem unresumed_of_isQuiet {f : FiberId} (h : w.isQuiet f) (e : Event) : w.Unresumed f e := by
  rintro fiber hf ⟨-, limit, next, purpose, -, hactivity⟩
  exact program_ne_of_isQuiet h hf _ _ hactivity

/-- Nobody interferes where no native code runs and the host edits nothing. -/
theorem undecided_of_isQuiet {e : Event} (h : w.isComparing s) (hquiet : w.isQuiet s.fiber)
    (hedit : e.isEdit = false) : w.Undecided s e where
  comparing := h
  unresumed := unresumed_of_isQuiet hquiet e
  blind _ hf next purpose hactivity := absurd hactivity (program_ne_of_isQuiet hquiet hf _ _)
  edit change he := by
    subst he
    cases hedit

/-- Decides a comparison with a number. -/
def deciding : Code where
  name := none
  signature := { positional := 1 }
  captures := []
  instructions := #[{ opcode := .loadConst, operand := 2 }, { opcode := .return }]

/-- Compares an object that overloads equality. -/
def overloaded : Code where
  name := none
  signature := {}
  captures := []
  instructions := #[{ opcode := .newArgs }, { opcode := .makeFunction },
    { opcode := .pushKeyword, operand := 1 }, { opcode := .newObject }, { opcode := .pushNull },
    { opcode := .equal }, { opcode := .return }]

def comparison : Site := ⟨⟨0⟩, 0, overloaded, 5, rfl⟩

/-- A fiber with a budget for seven instructions is about to execute the comparison. -/
def beforeComparison : List Event :=
  [.spawn, .configure ⟨0⟩ (.stepsPerCharge 1), .configure ⟨0⟩ (.budget 7),
    .start ⟨0⟩ (.execute
      { name := "main", pool := #[.code deciding, .string "==", .int 7, .code overloaded] }
      .unlimited)] ++ List.replicate 6 (.advance ⟨0⟩)

/-- The budget ends in the overload, and the host resumes the fiber with another one. -/
def duringComparison : List Event :=
  List.replicate 3 (.advance ⟨0⟩) ++
    [.configure ⟨0⟩ (.budget 3), .start ⟨0⟩ (.resume .unlimited)]

/-- After the pause the overload returns a number, and its twin returns false. -/
theorem inequality_negates_overload :
    let w := run {} beforeComparison
    let after := w.run (duringComparison ++ [.advance ⟨0⟩])
    let after' := (w.turn comparison).run (duringComparison ++ [.advance ⟨0⟩])
    w.isReady comparison ∧ after.received? comparison = some (.int 7) ∧
      after.SameBut comparison (Fiber.Parts comparison (.int 7)) after' := by
  intro w after after'
  have hready : w.isReady comparison := by decide +kernel
  have hreceived : after.received? comparison = some (.int 7) := by decide +kernel
  have hquiet : ({} : World).Throughout (fun w _ => w.isQuiet ⟨0⟩) beforeComparison := by
    decide +kernel
  have hwaits : w.Throughout
      (fun w e => w.isComparing comparison ∧ w.isQuiet ⟨0⟩ ∧ e.isEdit = false)
      (duringComparison ++ [.advance ⟨0⟩]) := by decide +kernel
  refine ⟨hready, hreceived, (inequality_negates ?_ ?_ hready ?_).2.1 _ hreceived⟩
  · intro fiber hf
    cases hf
  · exact hquiet.mono fun w e h => unresumed_of_isQuiet h e
  · exact hwaits.mono fun w e h => undecided_of_isQuiet h.1 h.2.1 h.2.2

/-! ## Native code that resumes its own fiber -/

/-- Compares an object whose overload of equality resumes the fiber, above two more operands. -/
def recomparing : Code where
  name := none
  signature := {}
  captures := []
  instructions := #[{ opcode := .pushNull }, { opcode := .pushNull }, { opcode := .newArgs },
    { opcode := .loadModule }, { opcode := .getAttr, operand := 1 },
    { opcode := .pushKeyword, operand := 2 }, { opcode := .newObject }, { opcode := .pushNull },
    { opcode := .equal }, { opcode := .storeGlobal, operand := 3 }, { opcode := .return }]

def recomparison : Site := ⟨⟨0⟩, 0, recomparing, 8, rfl⟩

/-- The fiber is about to execute the comparison. -/
def beforeRecomparison : List Event :=
  [.registerNative "host" (Definition.execute · · [.routine "resume" Routine.resume]),
    .spawn, .start ⟨0⟩ (.execute
      { name := "main"
        pool := #[.string "host", .string "resume", .string "==", .string "g", .code recomparing] }
      .unlimited)] ++ List.replicate 16 (.advance ⟨0⟩)

/-- The value of a global variable. -/
def global? (w : World) (module name : String) : Option Value := do
  let o ← w.machine.heap.object? (← w.machine.object? module)
  o.lookup? name

theorem global?_of_same {σ : Code → Code} (H : w.machine.Same σ w'.machine) (module name : String) :
    w'.global? module name = w.global? module name :=
  H.eq (f := fun m => global? ⟨m, #[]⟩ module name) fun _ => rfl

/--
An overload that resumes its own fiber makes the frame execute the comparison once more, on the
operands below. The frame goes on with that, and the worlds do not stay the same.
-/
theorem resuming_compares_again :
    let w := run {} beforeRecomparison
    let after := w.run (List.replicate 8 (.advance ⟨0⟩))
    let after' := (w.turn recomparison).run (List.replicate 8 (.advance ⟨0⟩))
    w.isReady recomparison ∧ after.global? "main" "g" = some (.bool true) ∧
      after'.global? "main" "g" = some (.bool false) ∧
      ¬ after.machine.Same recomparison.merge after'.machine := by
  intro w after after'
  have hready : w.isReady recomparison := by decide +kernel
  have hglobal : after.global? "main" "g" = some (.bool true) := by decide +kernel
  have hglobal' : after'.global? "main" "g" = some (.bool false) := by decide +kernel
  refine ⟨hready, hglobal, hglobal', fun H => ?_⟩
  cases hglobal'.symm.trans ((global?_of_same H "main" "g").trans hglobal)

end World

end FiberMachine
