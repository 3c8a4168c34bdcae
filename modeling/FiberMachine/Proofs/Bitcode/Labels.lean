import Mathlib.Order.Bounds.Basic
import FiberMachine.Bitcode.Builder
import FiberMachine.Proofs.Bitcode.Offences

/-!
# Fresh labels

What a builder hands out as a new label, after any calls. The builder remembers the labels it handed
out by a counter and looks for those that are marked, so a new label is the least above all of them
(`Builder.newLabel_exact`). It does not look at the labels that jumps and try regions name: if one
of them names the very label that comes next, this label is handed out although it is in use
(`Builder.newLabel_of_jump`).
-/

namespace FiberMachine

namespace Bitcode

/-! ## The labels of a function -/

/-- The label that an operation jumps to. -/
def Op.target? : Op → Option Label
  | .jump _ _ target => some target
  | _ => none

/-- The labels that the jumps and try regions of a function name. -/
def Function.named (f : Function) : List Label :=
  f.ops.filterMap Op.target? ++
    f.regions.flatMap fun region => [region.start, region.stop, region.handler]

namespace Builder

variable {b b' : Builder}

/-! ## Calls of a builder -/

inductive Call where
  | newLabel
  | mark (label : Label)
  | push (op : Op)
  | extend (ops : List Op)
  | load (literal : Literal)
  | callWith (args : List (List Op))
  | protect (region : TryRegion)

/-- The label that a call hands out, if it does, and the builder after it. -/
def call (b : Builder) : Call → Option Label × Builder
  | .newLabel => (some b.newLabel.1, b.newLabel.2)
  | .mark label => (none, b.mark label)
  | .push op => (none, b.push op)
  | .extend ops => (none, b.extend ops)
  | .load literal => (none, b.load literal)
  | .callWith args => (none, b.callWith args)
  | .protect region => (none, b.protect region)

/-- The labels that calls hand out in order, and the builder after them. -/
def perform : Builder → List Call → List Label × Builder
  | b, [] => ([], b)
  | b, c :: rest =>
    let (label?, b) := b.call c
    let (labels, b) := b.perform rest
    (label?.toList ++ labels, b)

/-- The label is in no use: it was not handed out, and is not marked or named. -/
def IsUnused (b : Builder) (handed : List Label) (label : Label) : Prop :=
  label ∉ handed ∧ label ∉ b.function.marks ∧ label ∉ b.function.named

/-! ## The counter -/

theorem nextLabel_extend (b : Builder) (ops : List Op) :
    (b.extend ops).nextLabel = b.nextLabel := by
  unfold extend
  induction ops generalizing b with
  | nil => rfl
  | cons op rest ih => exact ih (b.push op)

theorem nextLabel_callWith (b : Builder) (args : List (List Op)) :
    (b.callWith args).nextLabel = b.nextLabel := by
  unfold callWith
  show (List.foldl _ (b.push _) args).nextLabel = _
  suffices h : ∀ b : Builder, (args.foldl (fun b ops =>
      (b.extend ops).push (.plain .pushArg rfl)) b).nextLabel = b.nextLabel from h _
  induction args with
  | nil => exact fun _ => rfl
  | cons ops rest ih => exact fun b => (ih _).trans (b.nextLabel_extend ops)

/-- A call hands out no label and leaves the counter, or is one for a new label. -/
theorem call_cases (b : Builder) (c : Call) :
    ((b.call c).1 = none ∧ (b.call c).2.nextLabel = b.nextLabel) ∨
      b.call c = (some b.newLabel.1, b.newLabel.2) := by
  cases c with
  | newLabel => exact .inr rfl
  | extend ops => exact .inl ⟨rfl, b.nextLabel_extend ops⟩
  | callWith args => exact .inl ⟨rfl, b.nextLabel_callWith args⟩
  | _ => exact .inl ⟨rfl, rfl⟩

/-- The numbers from `start` on that are above all of the labels. -/
def Above (start : Label) (labels : List Label) : Set Nat :=
  { n | start.toNat ≤ n ∧ ∀ l ∈ labels, l.toNat < n }

theorem toNat_add_one {l : Label} (h : l.toNat + 1 < UInt32.size) :
    (l + 1).toNat = l.toNat + 1 := by
  rw [UInt32.toNat_add]
  exact Nat.mod_eq_of_lt h

theorem start_le_newLabel (b : Builder) : b.nextLabel.toNat ≤ b.newLabel.1.toNat := by
  rw [newLabel, UInt32.toNat_max]
  exact le_max_left _ _

/-- The counter is right above the labels that were handed out. -/
theorem isLeast_nextLabel (b : Builder) (calls : List Call)
    (hhanded : ∀ l ∈ (b.perform calls).1, l.toNat + 1 < UInt32.size) :
    IsLeast (Above b.nextLabel (b.perform calls).1) (b.perform calls).2.nextLabel.toNat := by
  induction calls generalizing b with
  | nil => exact ⟨⟨le_rfl, by simp [perform]⟩, fun n hn => hn.1⟩
  | cons c rest ih =>
    rcases b.call_cases c with ⟨hnone, hnext⟩ | hnew
    · simp only [perform, hnone, Option.toList_none, List.nil_append] at hhanded ⊢
      exact hnext ▸ ih _ hhanded
    · simp only [perform, hnew, Option.toList_some, List.singleton_append] at hhanded ⊢
      obtain ⟨hlabel, hrest⟩ := List.forall_mem_cons.mp hhanded
      have hnext : b.newLabel.2.nextLabel.toNat = b.newLabel.1.toNat + 1 := toNat_add_one hlabel
      have hsame : Above b.nextLabel (b.newLabel.1 :: (b.newLabel.2.perform rest).1) =
          Above b.newLabel.2.nextLabel (b.newLabel.2.perform rest).1 := by
        ext n
        have hstart := b.start_le_newLabel
        simp only [Above, Set.mem_ofPred_eq, List.forall_mem_cons, hnext, Nat.succ_le_iff]
        exact ⟨fun h => h.2, fun h => ⟨hstart.trans h.1.le, h⟩⟩
      exact hsame ▸ ih _ hrest

/-! ## New labels -/

theorem isLeast_foldl (start : Label) (labels : List Label)
    (h : ∀ l ∈ labels, l.toNat + 1 < UInt32.size) :
    IsLeast (Above start labels) (labels.foldl (fun bound l => max bound (l + 1)) start).toNat := by
  induction labels generalizing start with
  | nil => exact ⟨⟨le_rfl, by simp⟩, fun n hn => hn.1⟩
  | cons l rest ih =>
    obtain ⟨hl, hrest⟩ := List.forall_mem_cons.mp h
    have hsame : Above start (l :: rest) = Above (max start (l + 1)) rest := by
      ext n
      simp only [Above, Set.mem_ofPred_eq, List.forall_mem_cons, UInt32.toNat_max, toNat_add_one hl,
        Nat.max_le, Nat.succ_le_iff, and_assoc]
    exact hsame ▸ ih _ hrest

theorem isLeast_labelBound (b : Builder)
    (h : ∀ l ∈ b.function.marks, l.toNat + 1 < UInt32.size) :
    IsLeast (Above 0 b.function.marks) (labelBound b.ops).toNat :=
  isLeast_foldl 0 b.function.marks h

theorem isLeast_newLabel {start : Label} {handed : List Label}
    (hcounter : IsLeast (Above start handed) b.nextLabel.toNat)
    (hmarks : ∀ l ∈ b.function.marks, l.toNat + 1 < UInt32.size) :
    IsLeast (Above start (handed ++ b.function.marks)) b.newLabel.1.toNat := by
  have hbound := b.isLeast_labelBound hmarks
  rw [newLabel, UInt32.toNat_max]
  constructor
  · refine ⟨hcounter.1.1.trans (le_max_left _ _), List.forall_mem_append.mpr ⟨?_, ?_⟩⟩
    · exact fun l hl => (hcounter.1.2 l hl).trans_le (le_max_left _ _)
    · exact fun l hl => (hbound.1.2 l hl).trans_le (le_max_right _ _)
  · rintro n ⟨hstart, habove⟩
    obtain ⟨hhanded, hmarked⟩ := List.forall_mem_append.mp habove
    exact max_le (hcounter.2 ⟨hstart, hhanded⟩) (hbound.2 ⟨Nat.zero_le n, hmarked⟩)

/--
**New labels.** After any calls, a new label is the least above all labels that were handed out or
are marked, so it is none of them. It is unused exactly if no jump or try region names this label
already.
-/
theorem newLabel_exact {calls : List Call} {handed : List Label}
    (hperform : b.perform calls = (handed, b'))
    (hbound : ∀ l ∈ handed ++ b'.function.marks, l.toNat + 1 < UInt32.size) :
    IsLeast (Above b.nextLabel (handed ++ b'.function.marks)) b'.newLabel.1.toNat ∧
    b'.newLabel.1 ∉ handed ∧ b'.newLabel.1 ∉ b'.function.marks ∧
    (b'.IsUnused handed b'.newLabel.1 ↔ ∀ l ∈ b'.function.named,
      ¬ IsLeast (Above b.nextLabel (handed ++ b'.function.marks)) l.toNat) := by
  obtain ⟨hhanded, hmarks⟩ := List.forall_mem_append.mp hbound
  have hcounter := b.isLeast_nextLabel calls
  rw [hperform] at hcounter
  have hleast := isLeast_newLabel (hcounter hhanded) hmarks
  obtain ⟨hnew, hunmarked⟩ := List.forall_mem_append.mp hleast.1.2
  refine ⟨hleast, fun h => (hnew _ h).false, fun h => (hunmarked _ h).false, ?_, ?_⟩
  · rintro ⟨-, -, hunnamed⟩ l hl hsame
    exact hunnamed (UInt32.toNat_inj.mp (hleast.unique hsame) ▸ hl)
  · exact fun hnone => ⟨fun h => (hnew _ h).false, fun h => (hunmarked _ h).false,
      fun h => hnone _ h hleast⟩

/-- Calls that name labels before these are marked, but none that comes next. -/
def leaping : List Call :=
  [.newLabel, .push (.jump .jump (.refl OperandKind.target) 0), .mark 7, .protect ⟨0, 7, 3⟩]

theorem newLabel_leaping : ∃ b' : Builder, ({} : Builder).perform leaping = ([0], b') ∧
    b'.function.marks = [7] ∧ b'.function.named = [0, 0, 7, 3] ∧ b'.newLabel.1 = 8 ∧
    b'.IsUnused [0] b'.newLabel.1 := by
  have hperform : ({} : Builder).perform leaping = ([0], (({} : Builder).perform leaping).2) := rfl
  have hmarks : (({} : Builder).perform leaping).2.function.marks = [7] := rfl
  have hnamed : (({} : Builder).perform leaping).2.function.named = [0, 0, 7, 3] := rfl
  have hbelow : ∀ l ∈ (({} : Builder).perform leaping).2.function.named, l.toNat ≤ 7 := by
    simp [hnamed]
  obtain ⟨-, -, -, hunused⟩ := newLabel_exact hperform (by simp [hmarks, UInt32.size])
  refine ⟨_, hperform, hmarks, hnamed, rfl, hunused.mpr fun l hl hleast => ?_⟩
  exact absurd (hleast.1.2 7 (by simp [hmarks])) (Nat.not_lt.mpr (hbelow l hl))

/-- A label that only a jump names is handed out as if it were unused. -/
theorem newLabel_of_jump :
    let b := (({} : Builder).perform [.push (.jump .jump (.refl OperandKind.target) 0)]).2
    b.newLabel.1 = 0 ∧ 0 ∈ b.function.named ∧ ¬ b.IsUnused [] b.newLabel.1 :=
  ⟨rfl, by decide, fun h => h.2.2 (by decide)⟩

end Builder

end Bitcode

end FiberMachine
