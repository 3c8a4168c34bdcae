import FiberMachine.Proofs.Inequality.Twin

/-!
# Two executions in step

Two fibers that differ in how a comparison is executed make the same transitions, until the result
of the comparison is delivered: then one frame receives it and the other one the negation of its
truthiness (`Context.Twins.advance`).
-/

namespace FiberMachine

variable {σ : Code → Code} {s : Site} {stage stage' : Stage} {base : Nat}

/-- The comparison has got from one stage to another, at which there are the frames `fs`. -/
structure Site.Leads (s : Site) (fs : List Frame) (stage stage' : Stage) : Prop where
  free : stage = .free ↔ stage' = .free
  nested : stage = .nested → stage' = .nested
  /-- A frame that is gone is completed or discarded. -/
  gone : stage' = .nested → stage = .nested ∨ fs.length ≤ s.depth
  /-- A frame that waits for the comparison and goes on without a result handles an error. -/
  caught : stage.Waits → stage' = .away → ∃ g rest, fs = g :: rest ∧ g.stack = []

namespace Site.Leads

variable {fs : List Frame}

theorem refl (s : Site) (fs : List Frame) (stage : Stage) : s.Leads fs stage stage :=
  ⟨Iff.rfl, id, .inl, fun h h' => by rcases h with h | h <;> cases h.symm.trans h'⟩

theorem of_length_le (hl : fs.length ≤ s.depth) (hs : stage ≠ .free) : s.Leads fs stage .nested :=
  ⟨⟨fun h => absurd h hs, (fun h => by cases h)⟩, fun _ => rfl, fun _ => .inr hl,
    (fun _ h => by cases h)⟩

theorem moved (hs : stage ≠ .free) (hn : stage ≠ .nested)
    (hs' : stage' = .there ∨ stage' = .away)
    (h : stage.Waits → stage' = .away → ∃ g rest, fs = g :: rest ∧ g.stack = []) :
    s.Leads fs stage stage' := by
  refine ⟨⟨fun hf => absurd hf hs, fun hf => ?_⟩, fun hf => absurd hf hn, fun hf => ?_, h⟩ <;>
    rcases hs' with rfl | rfl <;> cases hf

/-- A frame that waits goes on waiting, is gone, or handles an error. -/
theorem of_waits (H : s.Leads fs stage stage') (hs : stage.Waits) :
    stage'.Waits ∨ fs.length ≤ s.depth ∨
      stage' = .away ∧ ∃ g rest, fs = g :: rest ∧ g.stack = [] := by
  cases stage' with
  | there => exact .inl (.inl rfl)
  | called => exact .inl (.inr rfl)
  | free => exact absurd (H.free.mpr rfl) hs.ne_free
  | nested =>
    refine .inr (.inl ((H.gone rfl).resolve_left ?_))
    rcases hs with rfl | rfl <;> simp
  | away => exact .inr (.inr ⟨rfl, H.caught hs rfl⟩)

end Site.Leads

namespace Site.Shifts

variable {n : Nat}

/-- The frame on top has moved. -/
theorem leads (H : s.Shifts n stage stage') {fs : List Frame}
    (h : stage = .there → stage' = .away → ∃ g rest, fs = g :: rest ∧ g.stack = []) :
    s.Leads fs stage stage' := by
  rcases H with rfl | ⟨-, hs, hs'⟩
  · exact .refl s fs stage'
  · refine .moved ?_ ?_ hs' fun hw => h (Or.resolve_right hw ?_) <;>
      rcases hs with rfl | rfl <;> intro h <;> cases h

/-- What the frames above the first `base` run for is below the frame that has moved. -/
theorem change (H : s.Shifts n stage stage') (hb : base < n) :
    stage' = stage ∨ stage ≠ .free ∧ base ≤ s.depth := by
  rcases H with h | ⟨hn, hs, -⟩
  · exact .inl h
  · refine .inr ⟨?_, by omega⟩
    rcases hs with rfl | rfl <;> simp

theorem callers (H : s.Shifts n stage stage') (hr : s.Runs stage base n) {c c' : Caller}
    (Hc : s.Callers stage base c c') : s.Callers stage' base c c' := by
  by_cases hfree : stage = .free
  · rcases H with rfl | ⟨-, hs, -⟩
    · exact Hc
    · rcases hs with rfl | rfl <;> cases hfree
  · rcases H.change (hr.lt hfree) with rfl | ⟨-, hb⟩
    · exact Hc
    · exact Hc.change hfree hb

theorem runs (H : s.Shifts n stage stage') (hr : s.Runs stage base n) : s.Runs stage' base n := by
  rcases H with rfl | ⟨hn, hs, hs'⟩
  · exact hr
  · refine ⟨fun _ => hr.lt ?_, fun _ h => by omega, fun h => ?_⟩
    · rcases hs with rfl | rfl <;> simp
    · rcases hs' with rfl | rfl <;> cases h

end Site.Shifts

/-! ## Completing frames -/

namespace Machine

variable {m m' : Machine} {result : Except Value Value} {top frame : Frame} {rest : List Frame}

theorem complete_of_continuation {top' : Frame} (h : top'.continuation = top.continuation) :
    complete base m result (top' :: rest) = complete base m result (top :: rest) := by
  unfold complete
  rw [h]

theorem drop_of_lt (h : base < rest.length) : ¬ (rest.drop base).isEmpty = true := by
  rw [List.isEmpty_iff, List.drop_eq_nil_iff]
  exact Nat.not_le_of_lt h

theorem complete_of_ok (h : base < (frame :: rest).length) {value : Value}
    (hc : (m.conclude top.continuation result).1 = .ok value) :
    complete base m result (top :: frame :: rest) =
      ⟨(m.conclude top.continuation result).2, frame.deliver value :: rest, none⟩ := by
  unfold complete
  generalize m.conclude top.continuation result = concluded at hc
  obtain ⟨_, m'⟩ := concluded
  cases hc
  exact if_neg (drop_of_lt h)

theorem complete_of_error (h : base < (frame :: rest).length) {e : Value}
    (hc : (m.conclude top.continuation result).1 = .error e) :
    complete base m result (top :: frame :: rest) =
      match frame.handle? e with
      | some frame => ⟨(m.conclude top.continuation result).2, frame :: rest, none⟩
      | none =>
        complete base (m.conclude top.continuation result).2 (.error e) (frame :: rest) := by
  conv => lhs; unfold complete
  generalize m.conclude top.continuation result = concluded at hc
  obtain ⟨_, m'⟩ := concluded
  cases hc
  exact if_neg (drop_of_lt h)

theorem recode_complete (base : Nat) (result : Except Value Value) (frames : List Frame)
    (m : Machine) :
    complete base (m.recode σ) result frames =
      { complete base m result frames with
        machine := (complete base m result frames).machine.recode σ } := by
  induction frames generalizing m result with
  | nil => rfl
  | cons top rest ih =>
    unfold complete
    rw [recode_conclude]
    generalize m.conclude top.continuation result = concluded
    obtain ⟨result, m'⟩ := concluded
    dsimp only
    split
    · rfl
    · cases rest with
      | nil => cases result <;> rfl
      | cons frame below =>
        cases result with
        | ok value => rfl
        | error e =>
          dsimp only
          split
          · rfl
          · exact ih (.error e) m'

theorem Same.complete (H : Same σ m m') (base : Nat) (result : Except Value Value)
    (frames : List Frame) :
    Same σ (complete base m result frames).machine (complete base m' result frames).machine ∧
      (Machine.complete base m' result frames).frames =
        (Machine.complete base m result frames).frames ∧
      (Machine.complete base m' result frames).result =
        (Machine.complete base m result frames).result := by
  have h := (recode_complete base result frames m).symm.trans
    ((congrArg (Machine.complete base · result frames) H).trans
      (recode_complete base result frames m'))
  exact ⟨congrArg Unwound.machine h, (congrArg Unwound.frames h).symm,
    (congrArg Unwound.result h).symm⟩

/-- A run goes on with frames of its own, or ends with those that are not. -/
theorem complete_length (m : Machine) (result : Except Value Value) {frames : List Frame}
    (h : base < frames.length) :
    ((complete base m result frames).result = none →
        base < (complete base m result frames).frames.length) ∧
      ((complete base m result frames).result ≠ none →
        (complete base m result frames).frames.length = base) := by
  have := (m.complete_frames (Nat.zero_le base) result (List.nil_suffix (l := frames)) h).2
  split at this
  · rename_i hnone
    exact ⟨fun _ => this, fun hsome => absurd hnone hsome⟩
  · rename_i hsome
    exact ⟨(fun hnone => by cases hnone.symm.trans hsome), fun _ => this⟩

/-- The top frame is completed. -/
theorem complete_length_le (m : Machine) (result : Except Value Value) (top : Frame)
    (rest : List Frame) : (complete base m result (top :: rest)).frames.length ≤ rest.length := by
  have hlength {u v : Unwound} (h : u = v) : u.frames.length ≤ v.frames.length :=
    h ▸ Nat.le_refl _
  induction rest generalizing m result top with
  | nil => exact hlength (complete_of_le (Nat.zero_le base))
  | cons frame below ih =>
    by_cases hle : (frame :: below).length ≤ base
    · exact hlength (complete_of_le hle)
    have hlt := Nat.lt_of_not_le hle
    cases hc : (m.conclude top.continuation result).1 with
    | ok value => exact hlength (complete_of_ok hlt hc)
    | error e =>
      rw [complete_of_error hlt hc]
      cases frame.handle? e with
      | some frame => exact Nat.le_refl _
      | none => exact Nat.le_succ_of_le (ih ..)

theorem conclude_error_fst (m : Machine) (continuation : Continuation) (e : Value) :
    (m.conclude continuation (.error e)).1 = .error e := by cases continuation <;> rfl

end Machine

/-- What completing frames leaves behind in both fibers, in a run of the ones above `base`. -/
structure Unwound.Twins (s : Site) (base : Nat) (stage stage' : Stage) (u u' : Unwound) : Prop where
  machine : u.machine.Same s.merge u'.machine
  frames : s.Frames stage' u.frames u'.frames
  result : u'.result = u.result
  leads : s.Leads u.frames stage stage'
  change : stage' = stage ∨ stage ≠ .free ∧ base ≤ s.depth
  runs : u.result = none → s.Runs stage' base u.frames.length

namespace Site

theorem runs_nested {n : Nat} (h : base < n) : s.Runs .nested base n :=
  ⟨fun _ => h, (fun h => by cases h), (fun h => by cases h)⟩

theorem runs_there {n : Nat} (hb : base ≤ s.depth) (hn : n = s.depth + 1) :
    s.Runs .there base n :=
  ⟨fun _ => by omega, fun _ h => by omega, (fun h => by cases h)⟩

/-- The frame on top handles an error, or is gone. -/
theorem stageOf_ne (s : Site) (g : Frame) : s.stageOf g ≠ .free ∧ s.stageOf g ≠ .called := by
  rcases s.stageOf_eq g with h | h <;> rw [h] <;> simp

/-- The frame is completed, and what is left is the same. -/
theorem twins_gone {m m' : Machine} (Hm : m.Same s.merge m') (result : Except Value Value)
    {g : Frame} {rest : List Frame} (hl : rest.length = s.depth) (hs : stage ≠ .free)
    (hb : base ≤ s.depth) :
    (Machine.complete base m result (g :: rest)).Twins s base stage .nested
      (Machine.complete base m' result (s.turn g :: rest)) := by
  have hlt : base < (g :: rest).length := by
    simp only [List.length_cons]
    omega
  have hturn : Machine.complete base m' result (s.turn g :: rest) =
      Machine.complete base m' result (g :: rest) := Machine.complete_of_continuation rfl
  obtain ⟨hm, hf, hres⟩ := Hm.complete base result (g :: rest)
  have hgone : (Machine.complete base m result (g :: rest)).frames.length ≤ s.depth :=
    hl ▸ m.complete_length_le result g rest
  rw [hturn]
  refine ⟨hm, ?_, hres, .of_length_le hgone hs, .inr ⟨hs, hb⟩, fun hnone => ?_⟩
  · rw [hf]
    exact .same (.inr rfl)
  · exact runs_nested ((m.complete_length result hlt).1 hnone)

/--
Completing frames does the same in both fibers, unless the overload returns. The induction is on the
frames, down to the one that receives the result or handles the error.
-/
theorem Frames.complete {fs fs' : List Frame} (Hf : s.Frames stage fs fs')
    (hr : s.Runs stage base fs.length) {m m' : Machine} (Hm : m.Same s.merge m')
    (result : Except Value Value)
    (hv : stage = .called → fs.length = s.depth + 2 → ∃ e, result = .error e) :
    ∃ stage', (Machine.complete base m result fs).Twins s base stage stage'
      (Machine.complete base m' result fs') := by
  induction Hf generalizing m m' result with
  | @same fs hs =>
    obtain ⟨hm, hf, hres⟩ := Hm.complete base result fs
    refine ⟨stage, hm, ?_, hres, .refl s _ stage, .inl rfl, fun hnone => ?_⟩
    · rw [hf]
      exact .same hs
    · rcases hs with rfl | rfl
      · exact s.runs_free ..
      · exact runs_nested ((m.complete_length result (hr.lt (by simp))).1 hnone)
  | @here g rest hs hl hc =>
    have hfree : stage ≠ .free := hs ▸ (s.stageOf_ne g).1
    have hb := hr.lt hfree
    simp only [List.length_cons] at hb
    exact ⟨.nested, twins_gone Hm result hl hfree (by omega)⟩
  | @called o g rest hs hl hc hp ho =>
    -- The overload has failed, and its run goes on with the frame.
    obtain ⟨e, rfl⟩ := hv hs (by simp only [List.length_cons, hl])
    subst hs
    have hb := hr.lt (by simp)
    have hne := hr.ne rfl
    simp only [List.length_cons] at hb
    have hlt : base < (g :: rest).length := by
      simp only [List.length_cons]
      omega
    have hlt' : base < (s.turn g :: rest).length := hlt
    rw [Machine.complete_of_error hlt (m.conclude_error_fst ..),
      Machine.complete_of_error hlt' (m'.conclude_error_fst ..), turn_handle? hc, ho]
    cases hh : g.handle? e with
    | none => exact ⟨.nested, twins_gone Hm _ hl (by simp) (by omega)⟩
    | some g' =>
      obtain ⟨handler, -, rfl⟩ := Option.map_eq_some_iff.mp hh
      refine ⟨s.stageOf _, Hm, .here rfl hl hc, rfl,
        .moved (by simp) (by simp) (s.stageOf_eq _) fun _ _ => ⟨_, _, rfl, rfl⟩,
        .inr ⟨by simp, by omega⟩, fun _ => ⟨fun _ => hlt, fun _ h => ?_, fun h => ?_⟩⟩
      · simp only [List.length_cons, hl] at h
        omega
      · exact absurd h (s.stageOf_ne _).2
  | @above f fs fs' H ih =>
    obtain ⟨hres, hm⟩ := Hm.pair (f := (·.conclude f.continuation result))
      (Machine.recode_conclude f.continuation result)
    by_cases hle : fs.length ≤ base
    · rw [Machine.complete_of_le hle, Machine.complete_of_le (H.length_eq ▸ hle), hres]
      exact ⟨stage, hm, H, rfl, .refl s _ stage, .inl rfl, (fun h => by cases h)⟩
    have hlt : base < fs.length := Nat.lt_of_not_le hle
    have hlt' : base < fs'.length := H.length_eq ▸ hlt
    have hr' : s.Runs stage base fs.length :=
      ⟨fun _ => hlt, fun hs h => hr.above hs (Nat.lt_succ_of_lt h), hr.ne⟩
    rcases H.nil_or_cons with ⟨rfl, rfl⟩ | ⟨frame, below, frame', below', rfl, rfl⟩
    · exact absurd hlt (Nat.not_lt_zero base)
    have hthere (hs : stage = .there) : below.length ≠ s.depth := by
      intro heq
      have := hr.above hs (by simp only [List.length_cons, heq]; omega)
      simp only [List.length_cons, heq] at hlt
      omega
    cases hc : (m.conclude f.continuation result).1 with
    | ok value =>
      obtain ⟨stage', Hf', hshifts, hkeeps⟩ := H.deliver value hthere
      rw [Machine.complete_of_ok hlt hc, Machine.complete_of_ok hlt' (hres.trans hc)]
      refine ⟨stage', hm, Hf', rfl, hshifts.leads fun hs hs' => ?_, hshifts.change hlt,
        fun _ => hshifts.runs hr'⟩
      cases (hkeeps hs).symm.trans hs'
    | error e =>
      rw [Machine.complete_of_error hlt hc, Machine.complete_of_error hlt' (hres.trans hc)]
      rcases H.handle e with ⟨hn, hn'⟩ | ⟨g, g', stage', hg, hg', hnil, Hf', hshifts⟩
      · rw [hn, hn']
        exact ih hr' hm (.error e) fun _ _ => ⟨e, rfl⟩
      · rw [hg, hg']
        exact ⟨stage', hm, Hf', rfl, hshifts.leads fun _ _ => ⟨g, below, rfl, hnil⟩,
          hshifts.change hlt, fun _ => hshifts.runs hr'⟩

end Site

/-! ## Discarding frames -/

namespace Machine

variable {m m' : Machine} {top : Frame} {rest : List Frame}

/-- The module that a discarded frame loads has failed. -/
def forsake (m : Machine) (rest : List Frame) : Continuation → Machine
  | .module id _ =>
    let (error, m) := m.onHeap (·.envelope rest .moduleFailed)
    m.finishModule id (some error)
  | _ => m

theorem discard_of_le (h : (top :: rest).length ≤ base) :
    discard base m (top :: rest) = (m, top :: rest) :=
  if_pos (List.isEmpty_iff.mpr (List.drop_eq_nil_iff.mpr h))

theorem discard_of_lt (h : base < (top :: rest).length) :
    discard base m (top :: rest) = discard base (m.forsake rest top.continuation) rest := by
  conv => lhs; unfold discard
  rw [if_neg (drop_of_lt h)]
  cases top.continuation <;> rfl

theorem Same.forsake (H : Same s.merge m m') {fs fs' : List Frame} (Hf : s.Frames stage fs fs')
    (continuation : Continuation) :
    Same s.merge (m.forsake fs continuation) (m'.forsake fs' continuation) := by
  cases continuation with
  | result | negated => exact H
  | module id object =>
    obtain ⟨herror, hheap⟩ := Heap.recode_envelope H.heap Hf.backtrace .moduleFailed
    have Hm := H.setHeap hheap
    simp only [Machine.forsake, onHeap, herror]
    exact Hm.map (f := (·.finishModule id _)) (recode_finishModule id _)

end Machine

/-- Discarding frames does the same in both fibers. -/
theorem Site.Frames.discard {fs fs' : List Frame} (Hf : s.Frames stage fs fs')
    (hb : stage = .called → base ≠ s.depth + 1) {m m' : Machine} (Hm : m.Same s.merge m') :
    ∃ stage', (Machine.discard base m fs).1.Same s.merge (Machine.discard base m' fs').1 ∧
      s.Frames stage' (Machine.discard base m fs).2 (Machine.discard base m' fs').2 ∧
      (stage' = stage ∨ stage ≠ .free ∧ stage' = .nested ∧ base ≤ s.depth) := by
  induction fs generalizing fs' stage m m' with
  | nil =>
    cases Hf with
    | same hs => exact ⟨stage, Hm, .same hs, .inl rfl⟩
  | cons top rest ih =>
    obtain ⟨top', rest', rfl⟩ : ∃ top' rest', fs' = top' :: rest' :=
      List.exists_cons_of_length_pos (Hf.length_eq ▸ Nat.zero_lt_succ _)
    have hlength := Hf.length_eq
    by_cases hle : (top :: rest).length ≤ base
    · rw [Machine.discard_of_le hle, Machine.discard_of_le (hlength ▸ hle)]
      exact ⟨stage, Hm, Hf, .inl rfl⟩
    have hlt : base < (top :: rest).length := Nat.lt_of_not_le hle
    rw [Machine.discard_of_lt hlt, Machine.discard_of_lt (hlength ▸ hlt)]
    have hrest : base ≤ rest.length := Nat.le_of_lt_succ hlt
    cases Hf with
    | same hs => exact ih (.same hs) hb (Hm.forsake (.same hs) _)
    | here hs hl hc =>
      have H : s.Frames .nested rest rest := .same (.inr rfl)
      obtain ⟨stage', hm, hf, hstage⟩ := ih H (fun h => by cases h) (Hm.forsake H top.continuation)
      have hnested : stage' = .nested := hstage.elim id fun h => h.2.1
      exact ⟨stage', hm, hf, .inr ⟨hs ▸ (s.stageOf_ne top).1, hnested, hl ▸ hrest⟩⟩
    | @called _ g rest hs hl hc hp ho =>
      have H : s.Frames .there (g :: rest) (s.turn g :: rest) := .here (if_pos hp).symm hl hc
      have hbase : base ≤ s.depth := by
        have := hb hs
        simp only [List.length_cons] at hrest
        omega
      obtain ⟨stage', hm, hf, hstage⟩ := ih H (fun h => by cases h) Hm
      rw [ho]
      refine ⟨stage', hm, hf, .inr ⟨(hs ▸ by simp), ?_, hbase⟩⟩
      refine (hstage.resolve_left fun hthere => ?_).2.1
      have := (m.discard_frames (Nat.zero_le base) (List.nil_suffix (l := g :: rest)) hrest).2
      subst hthere
      have := hf.lt_length (by simp) (by simp)
      omega
    | above H => exact ih H hb (Hm.forsake H _)

theorem Frame.bind_continuation {h : Heap} {function : Ref .function} {code : Code}
    {captures : List (Ref .cell)} {scope : Scope} {receiver : Value} {args : Arguments}
    {frame : Frame} (hf : (Frame.bind h function code captures scope receiver args).1 = .ok frame) :
    frame.continuation = .result := by
  unfold Frame.bind at hf
  split at hf
  · cases hf
  · cases hf
    rfl

/-- A call enters a frame whose result is what its caller receives. -/
theorem Machine.prepareCall_continuation (m : Machine) (callable receiver : Value)
    (args : Arguments) (frame : Frame)
    (h : (m.prepareCall callable receiver args).1 = .enter frame) :
    frame.continuation = .result := by
  unfold Machine.prepareCall at h
  split at h
  · split at h
    · cases h
    · dsimp only at h
      split at h
      · cases h
      · split at h
        · cases h
        · split at h
          · rename_i hbind
            cases h
            exact Frame.bind_continuation (congrArg Prod.fst hbind)
          · cases h
  · split at h
    · cases h
    · split at h <;> cases h
  · cases h

/-- A frame that does not go on stays where it is. -/
theorem Exec.step_stays (l : Local) (h : (step.run l).1 ≠ .ok .next) :
    (step.run l).2.frame.instruction = l.frame.instruction := by
  cases hi : l.frame.code.instructions[l.frame.instruction]? with
  | none => rw [step_of_none hi]
  | some i =>
    have hl : l.Closes fun _ _ _ => True := fun _ _ _ _ _ _ => trivial
    have := (arrives_step hl hi).instruction
    split at this
    · rename_i hnext
      exact absurd hnext h
    · exact this

/-! ## Contexts -/

namespace Context

/-- The two fibers on their machines, but for what they are doing. -/
inductive Agree (s : Site) (stage : Stage) : Context → Context → Prop where
  | mk {m m' : Machine} {id : FiberId} {fs fs' : List Frame} {meter : Meter}
      {deadline : Option Deadline} {maxDepth : Option Nat} {activity activity' : Activity} :
      m.Same s.merge m' → s.Frames stage fs fs' →
      Agree s stage ⟨m, id, ⟨fs, meter, deadline, maxDepth, activity⟩⟩
        ⟨m', id, ⟨fs', meter, deadline, maxDepth, activity'⟩⟩

/-- The two fibers on their machines. -/
structure Twins (s : Site) (stage : Stage) (c c' : Context) : Prop where
  agree : c.Agree s stage c'
  activity : s.Activities stage c.fiber.frames.length c.fiber.activity c'.fiber.activity

/-- The two fibers on their machines, after a transition from the given stage. -/
def InStep (s : Site) (stage : Stage) (c c' : Context) : Prop :=
  ∃ stage', c.Twins s stage' c' ∧ s.Leads c.fiber.frames stage stage'

variable {c c' : Context} {caller caller' : Caller} {p p' : Pending}

theorem Twins.inStep (H : c.Twins s stage c') : c.InStep s stage c' := ⟨stage, H, .refl s _ stage⟩

end Context

namespace Site

variable {c c' : Caller} {n : Nat}

/-- What a run was started for, when it ends or goes on at another stage. -/
theorem Callers.settle (H : s.Callers stage base c c')
    (h : stage' = stage ∨ stage ≠ .free ∧ base ≤ s.depth) (hn : stage ≠ .free → n = base) :
    s.Callers stage' n c c' := by
  by_cases hfree : stage = .free
  · subst hfree
    rw [h.resolve_right fun h => h.1 rfl, H.eq (fun h => by cases h)]
    exact s.callers_free n c
  · rw [hn hfree]
    rcases h with rfl | ⟨hs, hb⟩
    · exact H
    · exact H.change hs hb

end Site

namespace Context

variable {c c' : Context} {caller caller' : Caller} {p p' : Pending}

/-- An entry that ends with a fault pauses, or raises the fault. -/
theorem finish_error (fault : Fault) :
    (∃ failure, ∀ (c : Context) (caller : Caller),
      c.finish (.error fault) caller = c.setActivity (.replied (.error failure) caller)) ∨
    ∀ (c : Context) (caller : Caller), c.finish (.error fault) caller =
      (c.envelope fault).2.setActivity
        (.replied (.error (.exception (c.envelope fault).1)) caller) := by
  cases fault with
  | noBudget => exact .inl ⟨.noBudget, fun _ _ => rfl⟩
  | timeout => exact .inl ⟨.timeout, fun _ _ => rfl⟩
  | link e => exact .inl ⟨.link e, fun _ _ => rfl⟩
  | _ => exact .inr fun _ _ => rfl

namespace Agree

theorem setActivity (H : c.Agree s stage c') {a a' : Activity}
    (Ha : s.Activities stage c.fiber.frames.length a a') :
    (c.setActivity a).Twins s stage (c'.setActivity a') := by
  cases H with
  | mk Hm Hf => exact ⟨⟨Hm, Hf⟩, Ha⟩

theorem answer (H : c.Agree s stage c') (result : Except Fault Value)
    (Hp : s.Pendings stage c.fiber.frames.length p p') :
    (c.answer result p).Twins s stage (c'.answer result p') := H.setActivity (.answered Hp)

theorem envelope (H : c.Agree s stage c') (fault : Fault) :
    (c'.envelope fault).1 = (c.envelope fault).1 ∧
      (c.envelope fault).2.Agree s stage (c'.envelope fault).2 := by
  cases H with
  | mk Hm Hf =>
    obtain ⟨herror, hheap⟩ := Heap.recode_envelope Hm.heap Hf.backtrace fault
    exact ⟨herror, ⟨Hm.setHeap hheap, Hf⟩⟩

theorem finish (H : c.Agree s stage c') (result : Except Fault Value)
    (Hc : s.Callers stage c.fiber.frames.length caller caller') :
    (c.finish result caller).Twins s stage (c'.finish result caller') := by
  cases result with
  | ok value =>
    cases H with
    | mk Hm Hf =>
      simp only [Context.finish, Hf.isEmpty]
      exact ⟨⟨Hm, Hf⟩, .replied Hc⟩
  | error fault =>
    rcases finish_error fault with ⟨failure, h⟩ | h
    · rw [h, h]
      exact H.setActivity (.replied Hc)
    · obtain ⟨herror, H'⟩ := H.envelope fault
      have hframes : (c.envelope fault).2.fiber.frames = c.fiber.frames := rfl
      rw [h, h, herror]
      exact H'.setActivity (.replied (hframes ▸ Hc))

theorem complete (H : c.Agree s stage c') (hr : s.Runs stage base c.fiber.frames.length)
    (Hc : s.Callers stage base caller caller') (result : Except Value Value)
    (hv : stage = .called → c.fiber.frames.length = s.depth + 2 → ∃ e, result = .error e) :
    (c.complete result base caller).InStep s stage (c'.complete result base caller') := by
  cases H with
  | @mk m m' id fs fs' meter deadline maxDepth activity activity' Hm Hf =>
    obtain ⟨stage', hm, hf, hres, hleads, hchange, hruns⟩ := Hf.complete hr Hm result hv
    have hends (hs : stage ≠ .free) := (m.complete_length result (hr.lt hs)).2
    unfold Context.complete
    dsimp only
    generalize Machine.complete base m result fs = u at hm hf hres hleads hruns hends
    generalize Machine.complete base m' result fs' = u' at hm hf hres
    obtain ⟨m, frames, finished⟩ := u
    obtain ⟨m', frames', _⟩ := u'
    cases hres
    cases finished with
    | none =>
      exact ⟨stage', ⟨⟨hm, hf⟩, .running (hruns rfl) (Hc.settle hchange fun _ => rfl)⟩, hleads⟩
    | some outcome =>
      have Hc' := Hc.settle hchange fun hs => hends hs (by simp)
      cases outcome with
      | ok value => exact ⟨stage', finish ⟨hm, hf⟩ (.ok value) Hc', hleads⟩
      | error e => exact ⟨stage', finish ⟨hm, hf⟩ (.error (.exception e)) Hc', hleads⟩

theorem raise (H : c.Agree s stage c') (hr : s.Runs stage base c.fiber.frames.length)
    (Hc : s.Callers stage base caller caller') (fault : Fault) :
    (c.raise fault base caller).InStep s stage (c'.raise fault base caller') := by
  obtain ⟨herror, H'⟩ := H.envelope fault
  have hr' : s.Runs stage base (c.envelope fault).2.fiber.frames.length := hr
  unfold Context.raise
  generalize c.envelope fault = raised at herror H' hr'
  generalize c'.envelope fault = raised' at herror H'
  obtain ⟨error, d⟩ := raised
  obtain ⟨_, d'⟩ := raised'
  cases herror
  have hcomplete := H'.complete hr' Hc (.error error) (fun _ _ => ⟨error, rfl⟩)
  cases H' with
  | @mk m m' id fs fs' meter deadline maxDepth activity activity' Hm Hf =>
    rcases Hf.nil_or_cons with ⟨rfl, rfl⟩ | ⟨frame, rest, frame', rest', rfl, rfl⟩
    · exact hcomplete
    · dsimp only
      rcases Hf.handle error with ⟨hn, hn'⟩ | ⟨g, g', stage', hg, hg', hnil, Hf', hshifts⟩
      · rw [hn, hn']
        exact hcomplete
      · rw [hg, hg']
        exact ⟨stage', ⟨⟨Hm, Hf'⟩, .running (hshifts.runs hr') (hshifts.callers hr' Hc)⟩,
          hshifts.leads fun _ _ => ⟨g, rest, rfl, hnil⟩⟩

theorem abandon (H : c.Agree s stage c') (hr : s.Runs stage base c.fiber.frames.length)
    (Hc : s.Callers stage base caller caller') (fault : Fault) :
    (c.abandon fault base caller).InStep s stage (c'.abandon fault base caller') := by
  unfold Context.abandon
  split
  · rename_i hpause
    -- The frames are kept, and what waits for the outermost run waits with them.
    refine (H.finish (.error fault) ?_).inStep
    by_cases hfree : stage = .free
    · exact Hc.settle (.inl rfl) fun h => absurd hfree h
    · rw [hpause.1] at Hc
      refine Hc.lift hfree fun hs => Nat.le_of_not_lt fun hlt => ?_
      have := hr.above hs hlt
      omega
  · cases H with
    | @mk m m' id fs fs' meter deadline maxDepth activity activity' Hm Hf =>
      obtain ⟨stage', hm, hf, hstage⟩ := Hf.discard hr.ne Hm
      have hends (hs : stage ≠ .free) :=
        (m.discard_frames (Nat.zero_le base) (List.nil_suffix (l := fs))
          (Nat.le_of_lt (hr.lt hs))).2
      have Hc' := Hc.settle (hstage.imp_right fun h => ⟨h.1, h.2.2⟩) hends
      refine ⟨stage', finish ⟨hm, hf⟩ (.error fault) Hc', ?_⟩
      rcases hstage with rfl | ⟨hs, rfl, hb⟩
      · exact .refl s _ stage'
      · refine .of_length_le ?_ hs
        rw [frames_finish]
        exact Nat.le_trans (Nat.le_of_eq (hends hs)) hb

theorem fail (H : c.Agree s stage c') (hr : s.Runs stage base c.fiber.frames.length)
    (Hc : s.Callers stage base caller caller') (fault : Fault) :
    (c.fail fault base caller).InStep s stage (c'.fail fault base caller') := by
  unfold Context.fail
  split
  · exact H.abandon hr Hc fault
  · exact H.raise hr Hc fault

/-- Both fibers receive the same value, for something else than the comparison. -/
theorem deliver (H : c.Agree s stage c') (hr : s.Runs stage base c.fiber.frames.length)
    (Hc : s.Callers stage base caller caller') (value : Value)
    (h : stage = .there → c.fiber.frames.length ≠ s.depth + 1) :
    (c.deliver value base caller).InStep s stage (c'.deliver value base caller') := by
  have hraise := H.raise hr Hc .invalidInstruction
  cases H with
  | @mk m m' id fs fs' meter deadline maxDepth activity activity' Hm Hf =>
    rcases Hf.nil_or_cons with ⟨rfl, rfl⟩ | ⟨frame, rest, frame', rest', rfl, rfl⟩
    · exact hraise
    · obtain ⟨stage', Hf', hshifts, hkeeps⟩ :=
        Hf.deliver value fun hs heq => h hs (congrArg Nat.succ heq)
      refine ⟨stage', ⟨⟨Hm, Hf'⟩, .running (hshifts.runs hr) (hshifts.callers hr Hc)⟩,
        hshifts.leads fun hs hs' => ?_⟩
      cases (hkeeps hs).symm.trans hs'

theorem isFull (H : c.Agree s stage c') : c'.fiber.isFull = c.fiber.isFull := by
  cases H with
  | mk Hm Hf => simp only [Fiber.isFull, Hf.length_eq]

/-- A frame that decides the comparison is entered as one of an overload. -/
theorem enter (H : c.Agree s stage c') (frame : Frame)
    (Hp : s.Pendings stage c.fiber.frames.length p p')
    (hk : p'.negates = p.negates ∨ frame.continuation = .result) :
    (c.enter frame p).InStep s stage (c'.enter frame p') := by
  cases Hp with
  | instruction hr hn Hc =>
    simp only [Context.enter, H.isFull]
    split
    · exact H.raise hr Hc .stackOverflow
    · cases H with
      | mk Hm Hf =>
        refine Twins.inStep ⟨⟨Hm, .above Hf⟩, .running ⟨fun hs => Nat.lt_succ_of_lt (hr.lt hs),
          fun hs h => hr.above hs ?_, hr.ne⟩ Hc⟩
        exact Nat.lt_of_le_of_ne (Nat.le_of_lt_succ h) (Ne.symm (hn hs))
  | negated hs hn hb Hc =>
    subst hs
    simp only [Context.enter, H.isFull]
    split
    · exact H.raise (Site.runs_there hb hn) Hc .stackOverflow
    · cases H with
      | mk Hm Hf =>
        obtain ⟨g, rest, rfl, rfl, hl, hc, hp⟩ := Hf.eq_of_there hn
        have ho := hk.resolve_left (by simp [Pending.negates])
        refine ⟨.called, ⟨⟨Hm, .called rfl hl hc hp ho⟩,
          .running ⟨fun _ => ?_, (fun h => by cases h), fun _ => by omega⟩
            (Hc.change (by simp) hb)⟩, ⟨by simp, by simp, by simp, by simp⟩⟩
        simp only [List.length_cons]
        omega
  | entry Hc =>
    simp only [Context.enter, H.isFull]
    split
    · exact (H.finish _ Hc).inStep
    · cases H with
      | mk Hm Hf =>
        dsimp only
        rw [Hf.length_eq]
        refine Twins.inStep ⟨⟨Hm, .above Hf⟩, .running ⟨fun _ => Nat.lt_succ_self _,
          fun _ h => Nat.le_of_lt_succ h, fun hs => ?_⟩ Hc⟩
        subst hs
        exact Nat.ne_of_gt Hf.lt_length_of_called

theorem proceed (H : c.Agree s stage c') (invocation : Machine.Invocation)
    (Hp : s.Pendings stage c.fiber.frames.length p p')
    (hk : p'.negates = p.negates ∨
      ∀ frame, invocation = .enter frame → frame.continuation = .result) :
    (c.proceed invocation p).InStep s stage (c'.proceed invocation p') := by
  cases invocation with
  | complete value => exact (H.answer (.ok value) Hp).inStep
  | enter frame => exact H.enter frame Hp (hk.imp_right fun h => h frame rfl)
  | run program => exact (H.setActivity (.program (.call Hp))).inStep
  | fail fault => exact (H.answer (.error fault) Hp).inStep

theorem call (H : c.Agree s stage c') (callable receiver : Value) (args : Arguments)
    (Hp : s.Pendings stage c.fiber.frames.length p p') :
    (c.call callable receiver args p).InStep s stage (c'.call callable receiver args p') := by
  cases H with
  | @mk m m' id fs fs' meter deadline maxDepth activity activity' Hm Hf =>
    obtain ⟨hinvocation, hm⟩ := Hm.pair (f := (·.prepareCall callable receiver args))
      (Machine.recode_prepareCall callable receiver args)
    have hk := m.prepareCall_continuation callable receiver args
    unfold Context.call
    dsimp only at hinvocation hm ⊢
    generalize m.prepareCall callable receiver args = prepared at hinvocation hm hk
    generalize m'.prepareCall callable receiver args = prepared' at hinvocation hm
    obtain ⟨invocation, m₁⟩ := prepared
    obtain ⟨_, m₁'⟩ := prepared'
    cases hinvocation
    exact proceed ⟨hm, Hf⟩ invocation Hp (.inr hk)

theorem invoke (H : c.Agree s stage c') (target : Value) (name : String) (args : Arguments)
    (Hp : s.Pendings stage c.fiber.frames.length p p') (hk : p'.negates = p.negates) :
    (c.invoke target name args p).InStep s stage (c'.invoke target name args p') := by
  cases H with
  | @mk m m' id fs fs' meter deadline maxDepth activity activity' Hm Hf =>
    have hmodule := Hf.currentModule?
    unfold Context.invoke
    simp only [Fiber.currentModule?, hmodule]
    generalize fs.head?.map (·.scope.module) = module
    obtain ⟨hinvocation, hm⟩ := Hm.pair (f := (·.prepareInvoke target name args module))
      (Machine.recode_prepareInvoke target name args module)
    generalize m.prepareInvoke target name args module = prepared at hinvocation hm
    generalize m'.prepareInvoke target name args module = prepared' at hinvocation hm
    obtain ⟨invocation, m₁⟩ := prepared
    obtain ⟨_, m₁'⟩ := prepared'
    cases hinvocation
    exact proceed ⟨hm, Hf⟩ invocation Hp (.inl hk)

end Agree

end Context

/-- The frame on top has received `v`, and its twin the negation of its truthiness. -/
inductive Fiber.Parts (s : Site) (v : Value) : Fiber → Fiber → Prop where
  | mk {g : Frame} {rest : List Frame} {meter : Meter} {deadline : Option Deadline}
      {maxDepth : Option Nat} {activity : Activity} :
      rest.length = s.depth → g.code = s.code → g.instruction = s.position →
      Parts s v ⟨g.deliver v :: rest, meter, deadline, maxDepth, activity⟩
        ⟨(s.turn g).deliver (.bool !v.truthy) :: rest, meter, deadline, maxDepth, activity⟩

namespace Context

variable {c c' : Context} {caller caller' : Caller} {p p' : Pending}

/--
After a transition from the given stage the two fibers are in step, or the comparison has a result.
-/
def Tracks (s : Site) (stage : Stage) (c c' : Context) : Prop :=
  c.InStep s stage c' ∨ stage.Waits ∧
    c.machine.Same s.merge c'.machine ∧ ∃ v, c.fiber.Parts s v c'.fiber

/-- The frame executes the comparison. -/
theorem Agree.compare (H : c.Agree s .there c') (hn : c.fiber.frames.length = s.depth + 1)
    (ha : c.fiber.activity = .running base caller) (ha' : c'.fiber.activity = .running base caller')
    (hb : base ≤ s.depth) (Hc : s.Callers .there base caller caller') :
    (c.instruct base caller).Tracks s .there (c'.instruct base caller') := by
  cases H with
  | @mk m m' id fs fs' meter deadline maxDepth activity activity' Hm Hf =>
    obtain ⟨g, rest, rfl, rfl, hl, hc, hp⟩ := Hf.eq_of_there hn
    cases ha
    cases ha'
    have hr : s.Runs .there base (g :: rest).length := Site.runs_there hb hn
    have Hf' (operands : List Value) : s.Frames .there ({ g with stack := operands } :: rest)
        (s.turn { g with stack := operands } :: rest) := .here (if_pos hp).symm hl hc
    obtain ⟨operands, hrun⟩ := Exec.run_comparison Hm.heap g s.turned
    simp only [Context.instruct, Machine.onHeap, Site.step_at hc hp, Site.step_turned hp]
    rcases hrun with ⟨fault, hrun, hrun'⟩ | ⟨callable, receiver, args, hrun, hrun'⟩ |
      ⟨b, hrun, hrun'⟩
    · rw [hrun, show (Exec.binary .notEqual).run ⟨m'.heap, s.turn g⟩ = _ from hrun']
      exact .inl (fail ⟨Hm, Hf' operands⟩ hr Hc fault)
    · rw [hrun, show (Exec.binary .notEqual).run ⟨m'.heap, s.turn g⟩ = _ from hrun']
      exact .inl (call ⟨Hm, Hf' operands⟩ callable receiver args (.negated rfl hn hb Hc))
    · rw [hrun, show (Exec.binary .notEqual).run ⟨m'.heap, s.turn g⟩ = _ from hrun',
        Hc.eq fun _ => hb]
      exact .inr ⟨.inl rfl, Hm, .bool b, .mk (g := { g with stack := operands }) hl hc hp⟩

/-- The overload returns. -/
theorem Agree.return (H : c.Agree s .called c') (hn : c.fiber.frames.length = s.depth + 2)
    (hr : s.Runs .called base c.fiber.frames.length) (Hc : s.Callers .called base caller caller')
    (v : Value) :
    (c.complete (.ok v) base caller).machine.Same s.merge
        (c'.complete (.ok v) base caller').machine ∧
      (c.complete (.ok v) base caller).fiber.Parts s v
        (c'.complete (.ok v) base caller').fiber := by
  cases H with
  | @mk m m' id fs fs' meter deadline maxDepth activity activity' Hm Hf =>
    obtain ⟨o, g, rest, rfl, rfl, hl, hc, hp, ho⟩ := Hf.eq_of_called hn
    have hb := hr.lt (by simp)
    have hne := hr.ne rfl
    simp only [List.length_cons] at hb
    have hlt : base < (g :: rest).length := by
      simp only [List.length_cons]
      omega
    have hlt' : base < (s.turn g :: rest).length := hlt
    have hcomplete : Machine.complete base m (.ok v) (o :: g :: rest) =
        ⟨m, g.deliver v :: rest, none⟩ := by
      rw [Machine.complete_of_ok hlt (by rw [ho]; rfl), ho]
      rfl
    have hcomplete' : Machine.complete base m' (.ok v)
        ({ o with continuation := .negated } :: s.turn g :: rest) =
        ⟨m', (s.turn g).deliver (.bool !v.truthy) :: rest, none⟩ :=
      Machine.complete_of_ok hlt' rfl
    simp only [Context.complete, hcomplete, hcomplete', Hc.eq fun h => by cases h]
    exact ⟨Hm, hl, hc, hp⟩

theorem Agree.instruct (H : c.Agree s stage c')
    (ha : c.fiber.activity = .running base caller) (ha' : c'.fiber.activity = .running base caller')
    (hr : s.Runs stage base c.fiber.frames.length) (Hc : s.Callers stage base caller caller') :
    (c.instruct base caller).Tracks s stage (c'.instruct base caller') := by
  by_cases hsite : stage = .there ∧ c.fiber.frames.length = s.depth + 1
  · obtain ⟨rfl, hn⟩ := hsite
    have := hr.lt (by simp)
    exact H.compare hn ha ha' (by omega) Hc
  have hraise := H.raise hr Hc .invalidInstruction
  cases H with
  | @mk m m' id fs fs' meter deadline maxDepth activity activity' Hm Hf =>
    cases ha
    cases ha'
    rcases Hf.nil_or_cons with ⟨rfl, rfl⟩ | ⟨f, rest, f', rest', rfl, rfl⟩
    · exact .inl hraise
    have hn (hs : stage = .there) : rest.length ≠ s.depth :=
      fun h => hsite ⟨hs, congrArg Nat.succ h⟩
    obtain ⟨code, k, rfl, hi, hgoes⟩ := Hf.head
    have hi := hi.resolve_left fun h => hn h.1 h.2
    obtain ⟨haction, hheap, hframe⟩ := Exec.step_recast (k := k) Hm.heap hi
    have hsame := Exec.keeps_step.same ⟨m.heap, f⟩
    have hstays := Exec.step_stays ⟨m.heap, f⟩
    simp only [Context.instruct, Machine.onHeap]
    generalize Exec.step.run ⟨m.heap, f⟩ = r at haction hheap hframe hsame hstays
    generalize Exec.step.run ⟨m'.heap, f.recast code k⟩ = r' at haction hheap hframe
    obtain ⟨action, heap, g⟩ := r
    obtain ⟨_, heap', _⟩ := r'
    cases haction
    cases hframe
    have Hm' := Hm.setHeap hheap
    obtain ⟨stage', Hf', hshifts, hstay, hkeeps⟩ := hgoes g hsame.code hsame.continuation
    by_cases hnext : action = .ok .next
    · subst hnext
      refine .inl ⟨stage', ⟨⟨Hm', Hf'⟩, .running (hshifts.runs hr) (hshifts.callers hr Hc)⟩,
        hshifts.leads fun hs hs' => ?_⟩
      cases (hkeeps hs (hn hs)).symm.trans hs'
    have hstage := hstay (hstays hnext)
    subst hstage
    have Hp (negate : Bool) : s.Pendings stage' (g :: rest).length
        (.instruction base negate caller) (.instruction base negate caller') :=
      .instruction hr (fun hs h => hn hs (Nat.succ.inj h)) Hc
    cases action with
    | error fault => exact .inl (fail ⟨Hm', Hf'⟩ hr Hc fault)
    | ok action =>
      cases action with
      | next => exact absurd rfl hnext
      | call callable receiver args negate =>
        exact .inl (call ⟨Hm', Hf'⟩ callable receiver args (Hp negate))
      | invoke target name args =>
        exact .inl (invoke ⟨Hm', Hf'⟩ target name args (Hp false) rfl)
      | load name => exact .inl (setActivity ⟨Hm', Hf'⟩ (.finding (Hp false) rfl)).inStep
      | «return» v =>
        by_cases hreturn : stage' = .called ∧ (g :: rest).length = s.depth + 2
        · obtain ⟨rfl, hreturn⟩ := hreturn
          obtain ⟨hm, hparts⟩ := Agree.return ⟨Hm', Hf'⟩ hreturn hr Hc v
          exact .inr ⟨.inr rfl, hm, v, hparts⟩
        · exact .inl (complete ⟨Hm', Hf'⟩ hr Hc (.ok v) fun hs h => absurd ⟨hs, h⟩ hreturn)

theorem Agree.run (H : c.Agree s stage c')
    (ha : c.fiber.activity = .running base caller) (ha' : c'.fiber.activity = .running base caller')
    (hr : s.Runs stage base c.fiber.frames.length) (Hc : s.Callers stage base caller caller') :
    (c.run base caller).Tracks s stage (c'.run base caller') := by
  have habandon := H.abandon hr Hc .noBudget
  cases H with
  | @mk m m' id fs fs' meter deadline maxDepth activity activity' Hm Hf =>
    unfold Context.run
    dsimp only at habandon ⊢
    cases meter.admit? with
    | none => exact .inl habandon
    | some admitted =>
      obtain ⟨meter, charged⟩ := admitted
      have hlate : isLate ⟨m', id, ⟨fs', meter, deadline, maxDepth, activity'⟩⟩ =
          isLate ⟨m, id, ⟨fs, meter, deadline, maxDepth, activity⟩⟩ := rfl
      dsimp only
      rw [hlate]
      cases charged && isLate ⟨m, id, ⟨fs, meter, deadline, maxDepth, activity⟩⟩
      · exact instruct ⟨Hm, Hf⟩ ha ha' hr Hc
      · have Ha : Agree s stage
            (clearDeadline ⟨m, id, ⟨fs, meter, deadline, maxDepth, activity⟩⟩)
            (clearDeadline ⟨m', id, ⟨fs', meter, deadline, maxDepth, activity'⟩⟩) := ⟨Hm, Hf⟩
        exact .inl (Ha.abandon hr Hc .timeout)

end Context

end FiberMachine
