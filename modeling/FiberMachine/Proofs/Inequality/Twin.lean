import FiberMachine.Proofs.Execution.Nesting
import FiberMachine.Proofs.Inequality.Recoding

/-!
# Two executions of a comparison

A `Site` is a frame whose code compares two values for equality at some position. Beside it there is
its twin, the frame that executes the same code with inequality at that position. While an overload
decides the comparison, two fibers with the one frame and the other are the same but for the code of
the frame and for how the result is delivered: the frame of the overload is marked to negate it, or
the native function that waits is (`Site.Frames`, `Site.Activities`).
-/

namespace FiberMachine

/-- The code with inequality in the place of the instruction at `position`. -/
def Code.negateAt (code : Code) (position : Nat) : Code :=
  { code with
    instructions := code.instructions.modify position fun i => { i with opcode := .notEqual } }

/-- The frame above the first `depth` ones of a fiber, which compares two values at `position`. -/
structure Site where
  fiber : FiberId
  depth : Nat
  code : Code
  position : Nat
  compares : code.instructions[position]?.map Instruction.opcode = some .equal

/-- How far the comparison has got. -/
inductive Stage where
  /-- Nothing is known about the fiber, and there is no difference. -/
  | free
  /-- What waits in the fiber is nested properly, and there is no difference. -/
  | nested
  /-- The frame is not at the comparison. -/
  | away
  /-- The frame is at the comparison. Native code may be deciding it. -/
  | there
  /-- The frame of the overload that decides the comparison has been entered. -/
  | called
deriving DecidableEq

/-- The frame waits for the result of the comparison. -/
def Stage.Waits (stage : Stage) : Prop := stage = .there ∨ stage = .called

theorem Stage.Waits.ne_free {stage : Stage} (h : stage.Waits) : stage ≠ .free := by
  rcases h with rfl | rfl <;> simp

namespace Site

variable {s : Site} {stage stage' : Stage}

/-- The code with inequality. -/
def turned (s : Site) : Code := s.code.negateAt s.position

/-- The frame with inequality in its code. -/
def turn (s : Site) (g : Frame) : Frame := { g with code := s.turned }

/-- Takes the two codes for one. -/
def merge (s : Site) (code : Code) : Code := if code = s.turned then s.code else code

/-- Where the frame itself is. -/
def stageOf (s : Site) (g : Frame) : Stage := if g.instruction = s.position then .there else .away

theorem merge_turned (s : Site) : s.merge s.turned = s.merge s.code := by
  unfold merge
  split
  · split <;> rfl
  · rename_i h
    exact absurd rfl h

theorem turned_instructions_of_ne {i : Nat} (h : i ≠ s.position) :
    s.turned.instructions[i]? = s.code.instructions[i]? := by
  simp only [turned, Code.negateAt, Array.getElem?_modify, if_neg (Ne.symm h)]

theorem turned_instructions (s : Site) : s.turned.instructions[s.position]? =
    s.code.instructions[s.position]?.map fun i => { i with opcode := .notEqual } := by
  simp only [turned, Code.negateAt, Array.getElem?_modify, if_pos]

theorem turn_handler? {g : Frame} (h : g.code = s.code) : (s.turn g).handler? = g.handler? := by
  unfold Frame.handler?
  rw [h]
  dsimp only [turn]
  by_cases hi : g.instruction = s.position
  · rw [hi, turned_instructions]
    cases s.code.instructions[s.position]? <;> rfl
  · rw [turned_instructions_of_ne hi]

theorem turn_handle? {g : Frame} (h : g.code = s.code) (e : Value) :
    (s.turn g).handle? e = (g.handle? e).map s.turn := by
  unfold Frame.handle?
  rw [turn_handler? h]
  cases g.handler? <;> rfl

theorem stageOf_eq (g : Frame) : s.stageOf g = .there ∨ s.stageOf g = .away := by
  unfold stageOf
  split
  · exact .inl rfl
  · exact .inr rfl

/-! ## Frames -/

/-- The frames of the two fibers, the innermost first. -/
inductive Frames (s : Site) (stage : Stage) : List Frame → List Frame → Prop where
  | same {fs : List Frame} : stage = .free ∨ stage = .nested → Frames s stage fs fs
  | here {g : Frame} {rest : List Frame} : stage = s.stageOf g → rest.length = s.depth →
      g.code = s.code → Frames s stage (g :: rest) (s.turn g :: rest)
  | called {o g : Frame} {rest : List Frame} : stage = .called → rest.length = s.depth →
      g.code = s.code → g.instruction = s.position → o.continuation = .result →
      Frames s stage (o :: g :: rest) ({ o with continuation := .negated } :: s.turn g :: rest)
  | above {f : Frame} {fs fs' : List Frame} : Frames s stage fs fs' →
      Frames s stage (f :: fs) (f :: fs')

namespace Frames

variable {fs fs' : List Frame} {f f' : Frame}

theorem length_eq (H : s.Frames stage fs fs') : fs'.length = fs.length := by
  induction H with
  | same | here | called => rfl
  | above _ ih => exact congrArg Nat.succ ih

theorem isEmpty (H : s.Frames stage fs fs') : fs'.isEmpty = fs.isEmpty := by cases H <;> rfl

theorem nil_or_cons (H : s.Frames stage fs fs') :
    fs = [] ∧ fs' = [] ∨ ∃ f rest f' rest', fs = f :: rest ∧ fs' = f' :: rest' := by
  have hlength := H.length_eq
  cases fs with
  | nil => exact .inl ⟨rfl, List.length_eq_zero_iff.mp hlength⟩
  | cons f rest =>
    obtain ⟨f', rest', hcons⟩ := List.exists_cons_of_length_eq_add_one hlength
    exact .inr ⟨f, rest, f', rest', rfl, hcons⟩

/-- The frame is there until it is gone for good. -/
theorem lt_length (H : s.Frames stage fs fs') (hfree : stage ≠ .free) (hnested : stage ≠ .nested) :
    s.depth < fs.length := by
  induction H with
  | same h => exact absurd h (not_or.mpr ⟨hfree, hnested⟩)
  | here _ hl _ => simp only [List.length_cons]; omega
  | called _ hl _ _ _ => simp only [List.length_cons]; omega
  | above _ ih => simp only [List.length_cons]; omega

theorem lt_length_of_called (H : s.Frames .called fs fs') : s.depth + 1 < fs.length := by
  induction H with
  | same h => rcases h with h | h <;> cases h
  | @here g rest h hl _ => rcases s.stageOf_eq g with hg | hg <;> cases h.trans hg
  | called _ hl _ _ _ => simp only [List.length_cons]; omega
  | above _ ih => simp only [List.length_cons]; omega

/-- The frame is on top. -/
theorem eq_of_there (H : s.Frames .there fs fs') (hl : fs.length = s.depth + 1) :
    ∃ g rest, fs = g :: rest ∧ fs' = s.turn g :: rest ∧ rest.length = s.depth ∧ g.code = s.code ∧
      g.instruction = s.position := by
  cases H with
  | same h => rcases h with h | h <;> cases h
  | @here g rest h hr hc =>
    refine ⟨g, rest, rfl, rfl, hr, hc, ?_⟩
    unfold stageOf at h
    split at h
    · assumption
    · cases h
  | called h => cases h
  | above H =>
    have := H.lt_length (by simp) (by simp)
    simp only [List.length_cons] at hl
    omega

/-- The frame of the overload is on top. -/
theorem eq_of_called (H : s.Frames .called fs fs') (hl : fs.length = s.depth + 2) :
    ∃ o g rest, fs = o :: g :: rest ∧
      fs' = { o with continuation := .negated } :: s.turn g :: rest ∧ rest.length = s.depth ∧
      g.code = s.code ∧ g.instruction = s.position ∧ o.continuation = .result := by
  cases H with
  | same h => rcases h with h | h <;> cases h
  | here h hr _ =>
    simp only [List.length_cons] at hl
    omega
  | @called o g rest _ hr hc hp ho => exact ⟨o, g, rest, rfl, rfl, hr, hc, hp, ho⟩
  | above H =>
    have := H.lt_length_of_called
    simp only [List.length_cons] at hl
    omega

/-- Frames that are not told apart. -/
theorem map_stackFrame (H : s.Frames stage fs fs') :
    fs.map (StackFrame.recode s.merge ∘ Frame.stackFrame) =
      fs'.map (StackFrame.recode s.merge ∘ Frame.stackFrame) := by
  have hturn {g : Frame} (hc : g.code = s.code) :
      (StackFrame.recode s.merge ∘ Frame.stackFrame) (s.turn g) =
        (StackFrame.recode s.merge ∘ Frame.stackFrame) g := by
    simp only [Function.comp, Frame.stackFrame, StackFrame.recode, turn, hc, merge_turned]
  induction H with
  | same => rfl
  | here _ _ hc => simp only [List.map_cons, hturn hc]
  | called _ _ hc _ _ =>
    simp only [List.map_cons, hturn hc]
    rfl
  | above _ ih => simp only [List.map_cons, ih]

theorem backtrace (H : s.Frames stage fs fs') :
    (backtraceOf fs).map (StackFrame.recode s.merge) =
      (backtraceOf fs').map (StackFrame.recode s.merge) := by
  have := congrArg List.reverse H.map_stackFrame
  simpa only [backtraceOf, List.map_map, List.map_reverse] using this

theorem currentModule? (H : s.Frames stage fs fs') :
    fs'.head?.map (·.scope.module) = fs.head?.map (·.scope.module) := by
  cases H <;> rfl

end Frames

/-- The frame is on top and may have moved, or nothing has changed. -/
def Shifts (s : Site) (n : Nat) (stage stage' : Stage) : Prop :=
  stage' = stage ∨ n = s.depth + 1 ∧ (stage = .there ∨ stage = .away) ∧
    (stage' = .there ∨ stage' = .away)

namespace Frames

variable {fs fs' : List Frame} {f f' : Frame}

/-- The top frames are the same activation, which may go on. -/
theorem head (H : s.Frames stage (f :: fs) (f' :: fs')) :
    ∃ code k, f' = f.recast code k ∧
      (stage = .there ∧ fs.length = s.depth ∨
        code.instructions[f.instruction]? = f.code.instructions[f.instruction]?) ∧
      ∀ g : Frame, g.code = f.code → g.continuation = f.continuation →
        ∃ stage', s.Frames stage' (g :: fs) (g.recast code k :: fs') ∧
          s.Shifts (fs.length + 1) stage stage' ∧ (g.instruction = f.instruction → stage' = stage) ∧
          (stage = .there → fs.length ≠ s.depth → stage' = .there) := by
  have hself {g : Frame} (hcode : g.code = f.code) (hk : g.continuation = f.continuation) :
      g.recast f.code f.continuation = g := by
    rw [← hcode, ← hk]
    rfl
  cases H with
  | same hs =>
    refine ⟨f.code, f.continuation, rfl, .inr rfl, fun g hcode hk => ?_⟩
    rw [hself hcode hk]
    exact ⟨stage, .same hs, .inl rfl, fun _ => rfl, fun h _ => h⟩
  | here hs hl hc =>
    refine ⟨s.turned, f.continuation, rfl, ?_, fun g hcode hk => ?_⟩
    · by_cases hp : f.instruction = s.position
      · exact .inl ⟨hs.trans (if_pos hp), hl⟩
      · exact .inr (hc ▸ turned_instructions_of_ne hp)
    · rw [← hk]
      refine ⟨s.stageOf g, .here rfl hl (hcode.trans hc), .inr ⟨congrArg Nat.succ hl,
        hs ▸ s.stageOf_eq f, s.stageOf_eq g⟩, fun h => ?_, fun _ hne => absurd hl hne⟩
      rw [hs, stageOf, stageOf, h]
  | called hs hl hc hp ho =>
    refine ⟨f.code, .negated, rfl, .inr rfl, fun g hcode hk => ?_⟩
    rw [← hcode]
    exact ⟨stage, .called hs hl hc hp (hk.trans ho), .inl rfl, fun _ => rfl, fun h _ => h⟩
  | above H =>
    refine ⟨f.code, f.continuation, rfl, .inr rfl, fun g hcode hk => ?_⟩
    rw [hself hcode hk]
    exact ⟨stage, .above H, .inl rfl, fun _ => rfl, fun h _ => h⟩

theorem deliver (H : s.Frames stage (f :: fs) (f' :: fs')) (v : Value)
    (h : stage = .there → fs.length ≠ s.depth) :
    ∃ stage', s.Frames stage' (f.deliver v :: fs) (f'.deliver v :: fs') ∧
      s.Shifts (fs.length + 1) stage stage' ∧ (stage = .there → stage' = .there) := by
  obtain ⟨code, k, rfl, -, hgoes⟩ := H.head
  obtain ⟨stage', H', hshifts, -, hkeeps⟩ := hgoes (f.deliver v) rfl rfl
  exact ⟨stage', H', hshifts, fun hs => hkeeps hs (h hs)⟩

/-- Both top frames handle an error, or none of them does. -/
theorem handle (H : s.Frames stage (f :: fs) (f' :: fs')) (e : Value) :
    f.handle? e = none ∧ f'.handle? e = none ∨
      ∃ g g' stage', f.handle? e = some g ∧ f'.handle? e = some g' ∧ g.stack = [] ∧
        s.Frames stage' (g :: fs) (g' :: fs') ∧ s.Shifts (fs.length + 1) stage stage' := by
  have hstack {g : Frame} (hg : f.handle? e = some g) : g.stack = [] ∧ g.code = f.code ∧
      g.continuation = f.continuation := by
    obtain ⟨handler, -, rfl⟩ := Option.map_eq_some_iff.mp hg
    exact ⟨rfl, rfl, rfl⟩
  cases hh : f.handle? e with
  | none =>
    refine .inl ⟨rfl, ?_⟩
    cases H with
    | same | above => exact hh
    | here _ _ hc => rw [turn_handle? hc, hh]; rfl
    | called => exact Option.map_eq_none_iff.mpr (Option.map_eq_none_iff.mp hh)
  | some g =>
    obtain ⟨hnil, hcode, hcontinuation⟩ := hstack hh
    cases H with
    | same hs => exact .inr ⟨g, g, stage, rfl, hh, hnil, .same hs, .inl rfl⟩
    | here hs hl hc =>
      refine .inr ⟨g, s.turn g, s.stageOf g, rfl, ?_, hnil, .here rfl hl (hcode.trans hc),
        .inr ⟨congrArg Nat.succ hl, hs ▸ s.stageOf_eq f, s.stageOf_eq g⟩⟩
      rw [turn_handle? hc, hh]
      rfl
    | called hs hl hc hp ho =>
      refine .inr ⟨g, { g with continuation := .negated }, stage, rfl, ?_, hnil,
        .called hs hl hc hp (hcontinuation.trans ho), .inl rfl⟩
      obtain ⟨handler, hhandler, rfl⟩ := Option.map_eq_some_iff.mp hh
      exact Option.map_eq_some_iff.mpr ⟨handler, hhandler, rfl⟩
    | above H => exact .inr ⟨g, g, stage, rfl, hh, hnil, .above H, .inl rfl⟩

end Frames

/-! ## What waits -/

/-- With `n` frames, those above the first `base` may run. -/
structure Runs (s : Site) (stage : Stage) (base n : Nat) : Prop where
  lt : stage ≠ .free → base < n
  /-- What runs above a frame that waits for native code does not go on with the frame. -/
  above : stage = .there → s.depth + 1 < n → s.depth + 1 ≤ base
  /-- What ends the overload goes on with the frame. -/
  ne : stage = .called → base ≠ s.depth + 1

/-- The host may wait with `n` frames. -/
def Rests (s : Site) (stage : Stage) (n : Nat) : Prop := stage = .there → n ≤ s.depth + 1

mutual

/-- With `n` frames, what receives the results of two invocations. -/
inductive Pendings (s : Site) (stage : Stage) : Nat → Pending → Pending → Prop where
  | instruction {n base : Nat} {negate : Bool} {caller caller' : Caller} :
      s.Runs stage base n → (stage = .there → n ≠ s.depth + 1) →
      Callers s stage base caller caller' →
      Pendings s stage n (.instruction base negate caller) (.instruction base negate caller')
  /-- The comparison that the frame is at, for native code that decides it. -/
  | negated {n base : Nat} {caller caller' : Caller} : stage = .there → n = s.depth + 1 →
      base ≤ s.depth → Callers s stage base caller caller' →
      Pendings s stage n (.instruction base false caller) (.instruction base true caller')
  | entry {n : Nat} {caller caller' : Caller} : Callers s stage n caller caller' →
      Pendings s stage n (.entry caller) (.entry caller')

/-- With `n` frames, what receives the outcomes of two entries. -/
inductive Callers (s : Site) (stage : Stage) : Nat → Caller → Caller → Prop where
  | host {n : Nat} : s.Rests stage n → Callers s stage n .host .host
  | program {n : Nat} {next : Except Failure Value → Program} {purpose purpose' : Purpose} :
      Purposes s stage n purpose purpose' →
      Callers s stage n (.program next purpose) (.program next purpose')

/-- With `n` frames, what two programs run for. -/
inductive Purposes (s : Site) (stage : Stage) : Nat → Purpose → Purpose → Prop where
  | call {n : Nat} {pending pending' : Pending} : Pendings s stage n pending pending' →
      Purposes s stage n (.call pending) (.call pending')
  | load {n : Nat} {id : ModuleId} {pending pending' : Pending} :
      Pendings s stage n pending pending' →
      Purposes s stage n (.load id pending) (.load id pending')

end

/-- Below the frame the stage does not matter. -/
theorem Runs.change {base n : Nat} (H : s.Runs stage base n) (hs : stage ≠ .free)
    (hn : n ≤ s.depth) : s.Runs stage' base n := by
  have := H.lt hs
  exact ⟨fun _ => this, fun _ h => by omega, fun _ => by omega⟩

mutual

theorem Pendings.change {n : Nat} {p p' : Pending} (hs : stage ≠ .free) (hn : n ≤ s.depth) :
    s.Pendings stage n p p' → s.Pendings stage' n p p'
  | .instruction hr _ H =>
    have hlt := hr.lt hs
    .instruction (hr.change hs hn) (fun _ => by omega) (H.change hs (by omega))
  | .negated _ heq _ _ => by omega
  | .entry H => .entry (H.change hs hn)

theorem Callers.change {n : Nat} {c c' : Caller} (hs : stage ≠ .free) (hn : n ≤ s.depth) :
    s.Callers stage n c c' → s.Callers stage' n c c'
  | .host _ => .host fun _ => by omega
  | .program H => .program (H.change hs hn)

theorem Purposes.change {n : Nat} {p p' : Purpose} (hs : stage ≠ .free) (hn : n ≤ s.depth) :
    s.Purposes stage n p p' → s.Purposes stage' n p p'
  | .call H => .call (H.change hs hn)
  | .load H => .load (H.change hs hn)

end

mutual

/-- What waits without frames waits with any. -/
theorem Pendings.lift {n : Nat} {p p' : Pending} (hs : stage ≠ .free) (hn : s.Rests stage n) :
    s.Pendings stage 0 p p' → s.Pendings stage n p p'
  | .instruction hr _ _ => absurd (hr.lt hs) (Nat.not_lt_zero _)
  | .negated _ heq _ _ => by omega
  | .entry H => .entry (H.lift hs hn)

theorem Callers.lift {n : Nat} {c c' : Caller} (hs : stage ≠ .free) (hn : s.Rests stage n) :
    s.Callers stage 0 c c' → s.Callers stage n c c'
  | .host _ => .host hn
  | .program H => .program (H.lift hs hn)

theorem Purposes.lift {n : Nat} {p p' : Purpose} (hs : stage ≠ .free) (hn : s.Rests stage n) :
    s.Purposes stage 0 p p' → s.Purposes stage n p p'
  | .call H => .call (H.lift hs hn)
  | .load H => .load (H.lift hs hn)

end

mutual

/-- Only at the frame there is a difference. -/
theorem Pendings.eq {n : Nat} {p p' : Pending} (hn : stage = .there → n ≤ s.depth) :
    s.Pendings stage n p p' → p' = p
  | .instruction hr _ H => by
    rw [H.eq fun hs => Nat.le_of_lt (Nat.lt_of_lt_of_le (hr.lt (by rw [hs]; simp)) (hn hs))]
  | .negated hs heq _ _ => by
    have := hn hs
    omega
  | .entry H => congrArg Pending.entry (H.eq hn)

theorem Callers.eq {n : Nat} {c c' : Caller} (hn : stage = .there → n ≤ s.depth) :
    s.Callers stage n c c' → c' = c
  | .host _ => rfl
  | .program H => congrArg (Caller.program _) (H.eq hn)

theorem Purposes.eq {n : Nat} {p p' : Purpose} (hn : stage = .there → n ≤ s.depth) :
    s.Purposes stage n p p' → p' = p
  | .call H => congrArg Purpose.call (H.eq hn)
  | .load H => congrArg (Purpose.load _) (H.eq hn)

end

theorem runs_free (s : Site) (base n : Nat) : s.Runs .free base n :=
  ⟨fun h => absurd rfl h, (fun h => by cases h), (fun h => by cases h)⟩

mutual

/-- Where nothing is assumed, anything may wait. -/
theorem pendings_free (s : Site) (n : Nat) : (p : Pending) → s.Pendings .free n p p
  | .instruction base _ caller =>
    .instruction (s.runs_free base n) (fun h => by cases h) (callers_free s base caller)
  | .entry caller => .entry (callers_free s n caller)

theorem callers_free (s : Site) (n : Nat) : (c : Caller) → s.Callers .free n c c
  | .host => .host fun h => by cases h
  | .program _ purpose => .program (purposes_free s n purpose)

theorem purposes_free (s : Site) (n : Nat) : (p : Purpose) → s.Purposes .free n p p
  | .call pending => .call (pendings_free s n pending)
  | .load _ pending => .load (pendings_free s n pending)

end

end Site

/-- Whether the result is negated. -/
def Pending.negates : Pending → Bool
  | .instruction _ negate _ => negate
  | .entry _ => false

namespace Site

variable {s : Site} {stage stage' : Stage}

/-- With `n` frames, what the two fibers are doing. -/
inductive Activities (s : Site) (stage : Stage) (n : Nat) : Activity → Activity → Prop where
  | idle : s.Rests stage n → Activities s stage n .idle .idle
  | running {base : Nat} {caller caller' : Caller} : s.Runs stage base n →
      s.Callers stage base caller caller' →
      Activities s stage n (.running base caller) (.running base caller')
  | program {program : Program} {purpose purpose' : Purpose} :
      s.Purposes stage n purpose purpose' →
      Activities s stage n (.program program purpose) (.program program purpose')
  | finding {name : String} {p p' : Pending} : s.Pendings stage n p p' → p'.negates = p.negates →
      Activities s stage n (.finding name p) (.finding name p')
  | found {name : String} {result : Except FinderError (Option LinkedModule)} {p p' : Pending} :
      s.Pendings stage n p p' → p'.negates = p.negates →
      Activities s stage n (.found name result p) (.found name result p')
  | entering {id : ModuleId} {object : Bool} {p p' : Pending} : s.Pendings stage n p p' →
      p'.negates = p.negates → Activities s stage n (.entering id object p) (.entering id object p')
  | waiting {id : ModuleId} {object : Bool} {p p' : Pending} : s.Pendings stage n p p' →
      p'.negates = p.negates → Activities s stage n (.waiting id object p) (.waiting id object p')
  | answered {result : Except Fault Value} {p p' : Pending} : s.Pendings stage n p p' →
      Activities s stage n (.answered result p) (.answered result p')
  | replied {outcome : Except Failure Value} {caller caller' : Caller} :
      s.Callers stage n caller caller' →
      Activities s stage n (.replied outcome caller) (.replied outcome caller')

end Site

/-! ## The comparison -/

namespace Exec

variable {σ : Code → Code}

theorem run_overload?_bind {α : Type} (r : Ref .object) (name : String)
    (next : Option Value → Exec α) (l : Local) :
    (overload? (.object r) name >>= next).run l = match l.heap.object? r with
      | none => (.error .valueFreed, l)
      | some o => (next (o.lookup? name)).run l := by
  simp only [overload?, bind_assoc, run_heap_bind]
  cases l.heap.object? r <;> rfl

/--
What equality and inequality do: both fault alike, both call the overload of equality, or one of
them has the result that the other one negates.
-/
theorem run_comparison {h h' : Heap} (hh : h.recode σ = h'.recode σ) (g : Frame) (code : Code) :
    ∃ operands : List Value,
      (∃ fault,
        (binary .equal).run ⟨h, g⟩ = (.error fault, ⟨h, { g with stack := operands }⟩) ∧
        (binary .notEqual).run ⟨h', { g with code }⟩ =
          (.error fault, ⟨h', { g with code, stack := operands }⟩)) ∨
      (∃ callable receiver args,
        (binary .equal).run ⟨h, g⟩ =
          (.ok (.call callable receiver args false), ⟨h, { g with stack := operands }⟩) ∧
        (binary .notEqual).run ⟨h', { g with code }⟩ =
          (.ok (.call callable receiver args true), ⟨h', { g with code, stack := operands }⟩)) ∨
      ∃ b,
        (binary .equal).run ⟨h, g⟩ =
          (.ok .next, ⟨h, Frame.deliver { g with stack := operands } (.bool b)⟩) ∧
        (binary .notEqual).run ⟨h', { g with code }⟩ =
          (.ok .next, ⟨h', Frame.deliver { g with code, stack := operands } (.bool !b)⟩) := by
  have hobjects : h.objects = h'.objects := (congrArg Heap.objects hh :)
  obtain ⟨fcode, scope, captures, slots, cells, stack, args, position, pending, k⟩ := g
  unfold binary
  cases stack with
  | nil => exact ⟨[], .inl ⟨.invalidInstruction, rfl, rfl⟩⟩
  | cons right rest =>
    cases rest with
    | nil => exact ⟨[], .inl ⟨.invalidInstruction, rfl, rfl⟩⟩
    | cons left rest =>
      refine ⟨rest, ?_⟩
      rw [run_pop_bind _ rfl, run_pop_bind _ rfl, run_pop_bind _ rfl, run_pop_bind _ rfl]
      cases left with
      | object r =>
        simp only [BinaryOperator.overload, run_overload?_bind, Heap.object?, hobjects]
        cases h'.objects[r.index]? with
        | none => exact .inl ⟨.valueFreed, rfl, rfl⟩
        | some o =>
          dsimp only
          cases o.lookup? "==" with
          | none => exact .inr (.inr ⟨_, rfl, rfl⟩)
          | some overload => exact .inr (.inl ⟨overload, _, _, rfl, rfl⟩)
      | _ => exact .inr (.inr ⟨_, rfl, rfl⟩)

theorem instruction_of_equal {i : Instruction} (h : i.opcode = .equal) :
    instruction i = binary .equal := by
  obtain ⟨opcode, operand, handler, range⟩ := i
  cases h
  rfl

end Exec

namespace Site

variable {s : Site} {g : Frame}

theorem step_at (hc : g.code = s.code) (hp : g.instruction = s.position) (h : Heap) :
    Exec.step.run ⟨h, g⟩ = (Exec.binary .equal).run ⟨h, g⟩ := by
  obtain ⟨i, hi, hop⟩ := Option.map_eq_some_iff.mp s.compares
  rw [Exec.step_of_some (l := ⟨h, g⟩) (i := i) (by rw [hc, hp, hi]), Exec.instruction_of_equal hop]

theorem step_turned (hp : g.instruction = s.position) (h : Heap) :
    Exec.step.run ⟨h, s.turn g⟩ = (Exec.binary .notEqual).run ⟨h, s.turn g⟩ := by
  obtain ⟨i, hi, -⟩ := Option.map_eq_some_iff.mp s.compares
  have hturned : s.turned.instructions[g.instruction]? = some { i with opcode := .notEqual } := by
    rw [hp, turned_instructions, hi]
    rfl
  rw [Exec.step_of_some (l := ⟨h, s.turn g⟩) hturned]
  rfl

end Site

end FiberMachine
