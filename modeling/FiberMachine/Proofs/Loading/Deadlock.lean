import Mathlib.Data.Fintype.Card
import Mathlib.Logic.Relation
import FiberMachine.Proofs.World.Passage

/-!
# Deadlocks

A fiber waits for another one if it waits for a module that the other one is loading. The test that
is made before a fiber waits follows these waits, and misses no chain however long it is: the
modules along a shortest one are different (`Machine.wouldDeadlock_iff`). So in every reachable
world no fiber waits for itself, be it through any number of others (`World.waits_acyclic`).
-/

namespace FiberMachine

open Relation (TransGen ReflTransGen)

/-! ## Following waits -/

namespace Machine

variable {m : Machine} {a b : FiberId}

/-- `a` waits for a module that `b` is loading. -/
def WaitsFor (m : Machine) (a b : FiberId) : Prop :=
  ∃ id, m.waitOf a = some id ∧ m.state? id = some (.loading b)

theorem blocker?_eq_some_iff : m.blocker? a = some b ↔ m.WaitsFor a b := by
  simp only [blocker?, WaitsFor, state?, Option.bind_eq_bind, Option.bind_eq_some_iff,
    Option.map_eq_some_iff]
  constructor
  · rintro ⟨id, hid, entry, hentry, hstate⟩
    refine ⟨id, hid, entry, hentry, ?_⟩
    split at hstate
    · rename_i hloading
      rw [hloading, Option.some.inj hstate]
    · cases hstate
  · rintro ⟨id, hid, entry, hentry, hstate⟩
    exact ⟨id, hid, entry, hentry, by rw [hstate]⟩

/-- The fiber that is `n` waits away. -/
def hop (m : Machine) : Nat → FiberId → Option FiberId
  | 0, a => some a
  | n + 1, a => (m.blocker? a).bind (m.hop n)

theorem hop_add (i j : Nat) (a : FiberId) : m.hop (i + j) a = (m.hop i a).bind (m.hop j) := by
  induction i generalizing a with
  | zero => rw [Nat.zero_add, hop, Option.bind_some]
  | succ i ih =>
    rw [Nat.add_right_comm, hop, hop, Option.bind_assoc]
    congr 1
    funext next
    exact ih next

theorem hop_succ_eq_some_iff {n : Nat} :
    m.hop (n + 1) a = some b ↔ ∃ next, m.WaitsFor a next ∧ m.hop n next = some b := by
  simp only [hop, Option.bind_eq_some_iff, blocker?_eq_some_iff]

theorem transGen_iff_hop : TransGen m.WaitsFor a b ↔ ∃ n, m.hop (n + 1) a = some b := by
  constructor
  · intro h
    induction h using TransGen.head_induction_on with
    | single hab => exact ⟨0, hop_succ_eq_some_iff.mpr ⟨b, hab, rfl⟩⟩
    | head hac _ ih =>
      obtain ⟨n, hn⟩ := ih
      exact ⟨n + 1, hop_succ_eq_some_iff.mpr ⟨_, hac, hn⟩⟩
  · rintro ⟨n, hn⟩
    induction n generalizing a with
    | zero =>
      obtain ⟨next, hnext, hb⟩ := hop_succ_eq_some_iff.mp hn
      cases Option.some.inj hb
      exact .single hnext
    | succ n ih =>
      obtain ⟨next, hnext, hb⟩ := hop_succ_eq_some_iff.mp hn
      exact .head hnext (ih hb)

theorem reaches_iff_hop {bound : Nat} :
    m.reaches b bound a = true ↔ ∃ n < bound, m.hop (n + 1) a = some b := by
  induction bound generalizing a with
  | zero => simp [reaches]
  | succ bound ih =>
    cases hnext : m.blocker? a with
    | none => simp [reaches, hop, hnext]
    | some next =>
      simp only [reaches, hop, hnext, Option.bind_some]
      by_cases hb : next = b
      · simp only [hb, if_true, true_iff]
        exact ⟨0, Nat.succ_pos bound, rfl⟩
      · rw [if_neg hb, ih]
        constructor
        · rintro ⟨n, hn, h⟩
          exact ⟨n + 1, Nat.succ_lt_succ hn, h⟩
        · rintro ⟨n, hn, h⟩
          cases n with
          | zero => exact absurd (Option.some.inj h) hb
          | succ n => exact ⟨n, Nat.lt_of_succ_lt_succ hn, h⟩

/-- The wait that is `i` waits away, on a way of more than `i` waits. -/
theorem waited_of_hop {n i : Nat} (h : m.hop (n + 1) a = some b) (hi : i ≤ n) :
    ∃ id : Fin m.modules.size, (m.hop i a).bind m.waitOf = some ⟨id⟩ ∧
      ∃ next, m.state? ⟨id⟩ = some (.loading next) ∧ m.hop (i + 1) a = some next ∧
        m.hop (n - i) next = some b := by
  have hsplit : n + 1 = i + (n - i + 1) := by omega
  rw [hsplit, hop_add, Option.bind_eq_some_iff] at h
  obtain ⟨current, hcurrent, hrest⟩ := h
  obtain ⟨next, hwaits, hb⟩ := hop_succ_eq_some_iff.mp hrest
  obtain ⟨⟨id⟩, hid, hstate⟩ := hwaits
  have hlt : id < m.modules.size := by
    obtain ⟨entry, hentry, _⟩ := Option.map_eq_some_iff.mp hstate
    exact (Array.getElem?_eq_some_iff.mp hentry).1
  refine ⟨⟨id, hlt⟩, ?_, next, hstate, ?_, hb⟩
  · rw [hcurrent]
    exact hid
  · rw [hop_add, hcurrent]
    exact hop_succ_eq_some_iff.mpr ⟨next, ⟨⟨id⟩, hid, hstate⟩, rfl⟩

/-- The modules along a shortest way are different, so there are at least as many modules. -/
theorem lt_of_shortest {n : Nat} (h : m.hop (n + 1) a = some b)
    (hshortest : ∀ k < n, m.hop (k + 1) a ≠ some b) : n < m.modules.size := by
  choose waited hwaited next hstate hnext hrest using
    fun i : Fin (n + 1) => waited_of_hop h (Nat.le_of_lt_succ i.isLt)
  have hne (i j : Fin (n + 1)) (hij : i < j) : waited i ≠ waited j := by
    intro heq
    -- both waits are for one module, so the way between them can be left out
    have hsame : next i = next j := by
      have := (hstate i).symm.trans (heq ▸ hstate j)
      exact ModuleState.loading.inj (Option.some.inj this)
    have hshort : m.hop (i + 1 + (n - j)) a = some b := by
      rw [hop_add, hnext i, hsame]
      exact hrest j
    rw [Nat.add_right_comm] at hshort
    exact hshortest (i + (n - j)) (by omega) hshort
  have hinjective : Function.Injective waited := by
    intro i j heq
    rcases lt_trichotomy i j with hij | hij | hij
    · exact absurd heq (hne i j hij)
    · exact hij
    · exact absurd heq.symm (hne j i hij)
  exact Nat.lt_of_succ_le (by simpa using Fintype.card_le_of_injective waited hinjective)

/-- **The test for deadlocks is exact**: it tells if waits lead from the loader to the waiter. -/
theorem wouldDeadlock_iff (m : Machine) (waiter loader : FiberId) :
    m.wouldDeadlock waiter loader = true ↔ TransGen m.WaitsFor loader waiter := by
  rw [wouldDeadlock, reaches_iff_hop, transGen_iff_hop]
  constructor
  · rintro ⟨n, _, h⟩
    exact ⟨n, h⟩
  · intro h
    refine ⟨Nat.find h, ?_, Nat.find_spec h⟩
    exact Nat.lt_succ_of_lt (lt_of_shortest (Nat.find_spec h) fun k hk => Nat.find_min h hk)

end Machine

/-! ## Changes of the waits -/

/-- A way along a relation with one more edge does without the edge or passes it. -/
theorem transGen_of_add {α : Type} {r r' : α → α → Prop} {x y a b : α}
    (hadd : ∀ a b, r' a b → r a b ∨ a = x ∧ b = y) (h : TransGen r' a b) :
    TransGen r a b ∨ ReflTransGen r a x ∧ ReflTransGen r y b := by
  induction h with
  | single hab =>
    rcases hadd _ _ hab with hab | ⟨rfl, rfl⟩
    · exact .inl (.single hab)
    · exact .inr ⟨.refl, .refl⟩
  | tail _ hbc ih =>
    rcases hadd _ _ hbc with hbc | ⟨rfl, rfl⟩
    · exact ih.imp (·.tail hbc) fun ⟨hax, hyb⟩ => ⟨hax, hyb.tail hbc⟩
    · exact .inr ⟨ih.elim (·.to_reflTransGen) (·.1), .refl⟩

/-- What moves of a ledger do to a module that is past being registered. -/
theorem Ledger.Moves.begun {f : FiberId} {ℓ ℓ' : Ledger} {refused : List ModuleId}
    (H : Ledger.Moves f ℓ refused ℓ') {id : ModuleId} {s : ModuleState}
    (hs : ℓ.states id = some s) (hne : s ≠ .registered) :
    ∃ s', ℓ'.states id = some s' ∧ (s' = s ∨ s'.Ended) := by
  have past {s' : ModuleState} (h : s' = s ∨ s'.Ended) : s' ≠ .registered := by
    rintro rfl
    exact h.elim (fun h => hne h.symm) False.elim
  induction H with
  | refl => exact ⟨s, hs, .inl rfl⟩
  | register _ hnew ih =>
    obtain ⟨s', hs', hkept⟩ := ih
    refine ⟨s', (if_neg ?_).trans hs', hkept⟩
    rintro rfl
    exact nomatch hnew.symm.trans hs'
  | start _ hnew _ ih | refuse _ hnew ih =>
    obtain ⟨s', hs', hkept⟩ := ih
    refine ⟨s', (Ledger.update_of_ne ?_).trans hs', hkept⟩
    rintro rfl
    exact past hkept (Option.some.inj (hs'.symm.trans hnew))
  | @finish _ _ _ _ old t _ _ hend ih =>
    obtain ⟨s', hs', hkept⟩ := ih
    by_cases hold : id = old
    · subst hold
      exact ⟨t, Ledger.update_self hs', .inr hend⟩
    · exact ⟨s', (Ledger.update_of_ne hold).trans hs', hkept⟩

namespace Machine

/-- Fibers wait for modules whose load has begun, and no fiber for itself. -/
structure Untangled (m : Machine) : Prop where
  begun : ∀ f id, m.waitOf f = some id → ∃ s, m.state? id = some s ∧ s ≠ .registered
  acyclic : ∀ f, ¬ TransGen m.WaitsFor f f

namespace Untangled

variable {m m' : Machine}

/-- Waits and loads end. -/
theorem ease (h : m.Untangled) (hwaits : ∀ f id, m'.waitOf f = some id → m.waitOf f = some id)
    (hbegun : ∀ id s, m.state? id = some s → s ≠ .registered →
      ∃ s', m'.state? id = some s' ∧ (s' = s ∨ s'.Ended)) : m'.Untangled := by
  refine ⟨fun f id hid => ?begun,
    fun f hcycle => h.acyclic f (TransGen.mono (fun a b hab => ?edge) f f hcycle)⟩
  case begun =>
    obtain ⟨s, hs, hne⟩ := h.begun f id (hwaits f id hid)
    obtain ⟨s', hs', hkept⟩ := hbegun id s hs hne
    refine ⟨s', hs', ?_⟩
    rintro rfl
    exact hkept.elim (fun heq => hne heq.symm) False.elim
  case edge =>
    obtain ⟨id, hid, hloading⟩ := hab
    obtain ⟨s, hs, hne⟩ := h.begun a id (hwaits a id hid)
    obtain ⟨s', hs', hkept⟩ := hbegun id s hs hne
    cases Option.some.inj (hloading.symm.trans hs')
    exact ⟨id, hwaits a id hid, hs.trans (congrArg some (hkept.resolve_right False.elim).symm)⟩

/-- A fiber starts to wait for another one that does not wait for it. -/
theorem wait (h : m.Untangled) {f loader : FiberId} {id : ModuleId}
    (hid : m.state? id = some (.loading loader)) (hself : loader ≠ f)
    (hfree : m.wouldDeadlock f loader = false) : (m.setWait f (some id)).Untangled := by
  have hwaits (g : FiberId) (other : ModuleId)
      (hg : (m.setWait f (some id)).waitOf g = some other) :
      g = f ∧ other = id ∨ m.waitOf g = some other := by
    by_cases hgf : g = f
    · subst hgf
      simp only [setWait, waitOf, Array.getD_eq_getD_getElem?,
        Array.getElem?_setIfInBounds_self] at hg
      split at hg
      · exact .inl ⟨rfl, (Option.some.inj hg).symm⟩
      · cases hg
    · exact .inr ((World.waitOf_setWait_of_ne m hgf _).symm.trans hg)
  refine ⟨fun g other hg => ?begun, fun g hcycle => ?acyclic⟩
  case begun =>
    rcases hwaits g other hg with ⟨rfl, rfl⟩ | hg
    · exact ⟨_, hid, by rintro ⟨⟩⟩
    · exact h.begun g other hg
  case acyclic =>
    have hadd (a b : FiberId) (hab : (m.setWait f (some id)).WaitsFor a b) :
        m.WaitsFor a b ∨ a = f ∧ b = loader := by
      obtain ⟨other, hother, hloading⟩ := hab
      rcases hwaits a other hother with ⟨rfl, rfl⟩ | hother
      · exact .inr ⟨rfl, ModuleState.loading.inj (Option.some.inj (hloading.symm.trans hid))⟩
      · exact .inl ⟨other, hother, hloading⟩
    rcases transGen_of_add hadd hcycle with hcycle | ⟨hto, hback⟩
    · exact h.acyclic g hcycle
    · -- the new wait closes a circle only if the loader waits for the fiber already
      rcases Relation.reflTransGen_iff_eq_or_transGen.mp (hback.trans hto) with heq | hpath
      · exact hself heq.symm
      · rw [(wouldDeadlock_iff m f loader).mpr hpath] at hfree
        cases hfree

end Untangled

end Machine

/-! ## Reachable worlds -/

namespace World

/-- No fiber waits for itself, and the fibers that wait are recorded. -/
structure Untangled (w : World) : Prop where
  plain : ∀ f fiber, w.fiber? f = some fiber → fiber.activity.Plain fun _ => True
  size : w.machine.waits.size = w.fibers.size
  recorded : ∀ f fiber id object pending, w.fiber? f = some fiber →
    fiber.activity = .waiting id object pending → w.machine.waitOf f = some id
  machine : w.machine.Untangled

namespace Untangled

variable {w w' : World} {f : FiberId} {fiber : Fiber}

theorem empty : Untangled {} where
  plain f fiber hf := by simp [fiber?] at hf
  size := rfl
  recorded f fiber id object pending hf := by simp [fiber?] at hf
  machine := by
    have hnone (f : FiberId) : Machine.waitOf {} f = none := by simp [Machine.waitOf]
    have hfree (f : FiberId) (id : ModuleId) : Machine.waitOf {} f ≠ some id := by
      rw [hnone]
      rintro ⟨⟩
    refine ⟨fun f id hid => absurd hid (hfree f id), fun f hcycle => ?_⟩
    obtain ⟨_, ⟨id, hid, _⟩, _⟩ := TransGen.head'_iff.mp hcycle
    exact hfree f id hid

theorem leave (h : w.Untangled) (H : w.Leaves w') : w'.Untangled := by
  refine ⟨fun g fiber' hg => ?plain, H.size h.size,
    fun g fiber' id object pending hg ha => ?recorded,
    h.machine.ease (fun g id hid => ?waits) H.begun⟩
  case plain =>
    rcases H.fiber g fiber' hg with rfl | ⟨fiber, hfiber, -, hactivity, -⟩
    · trivial
    · rw [hactivity]
      exact h.plain g fiber hfiber
  case recorded =>
    rcases H.fiber g fiber' hg with rfl | ⟨fiber, hfiber, -, hactivity, -⟩
    · exact nomatch ha
    · rcases H.waits g with hwait | ⟨_, hnone⟩
      · rw [hwait]
        exact h.recorded g fiber id object pending hfiber (hactivity.symm.trans ha)
      · exact nomatch hnone.symm.trans hg
  case waits =>
    rcases H.waits g with hwait | ⟨hnone, _⟩
    · exact hwait.symm.trans hid
    · exact nomatch hnone.symm.trans hid

/-- A fiber makes a transition after which it does not wait. -/
theorem update (h : w.Untangled) (hf : w.fiber? f = some fiber) {c : Context}
    {loads refused : List ModuleId} (H : Context.Leads ⟨w.machine, f, fiber⟩ loads refused c)
    (hawake : c.fiber.activity.isWaiting = false)
    (hwaits : c.machine.waits = w.machine.waits ∨
      c.machine.waits = (w.machine.setWait f none).waits) : (w.update f c).Untangled := by
  have hsize : c.machine.waits.size = w.machine.waits.size := by
    rcases hwaits with hwaits | hwaits
    · rw [hwaits]
    · rw [hwaits, Machine.setWait, Array.size_setIfInBounds]
  have others (g : FiberId) (hg : g ≠ f) : c.machine.waitOf g = w.machine.waitOf g := by
    rcases hwaits with hwaits | hwaits
    · simp only [Machine.waitOf, hwaits]
    · refine Eq.trans ?_ (waitOf_setWait_of_ne w.machine hg none)
      simp only [Machine.waitOf, hwaits]
  refine ⟨fun g fiber' hg => ?plain, ?size, fun g fiber' id object pending hg ha => ?recorded,
    h.machine.ease (fun g id hid => ?waits) fun id s hs hne => H.moves.begun hs hne⟩
  case plain =>
    rcases fiber?_of_update hf hg with ⟨rfl, rfl⟩ | ⟨_, hg⟩
    · exact H.plain.mono fun _ _ => trivial
    · exact h.plain g fiber' hg
  case size =>
    simp only [World.update, setFiber, Array.size_setIfInBounds]
    exact hsize.trans h.size
  case recorded =>
    rcases fiber?_of_update hf hg with ⟨rfl, rfl⟩ | ⟨hne, hg⟩
    · rw [ha] at hawake
      cases hawake
    · exact (others g hne).trans (h.recorded g fiber' id object pending hg ha)
  case waits =>
    by_cases hne : g = f
    · subst hne
      rcases hwaits with hwaits | hwaits
      · simpa only [World.update, setFiber, Machine.waitOf, hwaits] using hid
      · have hnone := waitOf_setWait_none w.machine g
        simp only [World.update, setFiber, Machine.waitOf, hwaits] at hid hnone
        cases hnone.symm.trans hid
    · exact (others g hne).symm.trans hid

/-- A fiber starts to wait. -/
theorem wait (h : w.Untangled) (hf : w.fiber? f = some fiber) {loader : FiberId} {id : ModuleId}
    {object : Bool} {pending : Pending} (hplain : pending.Plain)
    (hid : w.machine.state? id = some (.loading loader)) (hself : loader ≠ f)
    (hfree : w.machine.wouldDeadlock f loader = false) :
    (w.update f ⟨w.machine.setWait f (some id), f,
      { fiber with activity := .waiting id object pending }⟩).Untangled := by
  have hlt : f.index < w.machine.waits.size := h.size ▸ lt_of_fiber? hf
  refine ⟨fun g fiber' hg => ?plain, ?size, fun g fiber' other object' pending' hg ha => ?recorded,
    h.machine.wait hid hself hfree⟩
  case plain =>
    rcases fiber?_of_update hf hg with ⟨rfl, rfl⟩ | ⟨_, hg⟩
    · exact ⟨trivial, hplain⟩
    · exact h.plain g fiber' hg
  case size => simpa [World.update, setFiber, Machine.setWait] using h.size
  case recorded =>
    rcases fiber?_of_update hf hg with ⟨rfl, rfl⟩ | ⟨hne, hg⟩
    · cases ha
      simp [World.update, setFiber, Machine.setWait, Machine.waitOf, hlt]
    · exact (waitOf_setWait_of_ne w.machine hne _).trans
        (h.recorded g fiber' other object' pending' hg ha)

theorem advance (h : w.Untangled) (hf : w.fiber? f = some fiber)
    (hrest : ¬ fiber.activity.isAtRest) :
    (w.update f (Context.advance ⟨w.machine, f, fiber⟩)).Untangled := by
  have hplain := h.plain f fiber hf
  have H := Context.advance_leads ⟨w.machine, f, fiber⟩ hplain
  rcases Context.advance_cases ⟨w.machine, f, fiber⟩ hrest with hturns | ⟨_, hturns⟩ |
    ⟨id, object, pending, loader, hactivity, hid, hself, hfree, heq⟩
  · exact h.update hf H hturns.awake (.inl hturns.waits)
  · exact h.update hf H hturns.awake (.inr hturns.waits)
  · rw [heq]
    dsimp only at hactivity
    rw [hactivity] at hplain
    exact h.wait hf hplain hid hself hfree

theorem start (h : w.Untangled) (hf : w.fiber? f = some fiber) (entry : Entry) :
    (w.update f (Context.start ⟨w.machine, f, fiber⟩ entry .host)).Untangled := by
  have H := Context.Leads.start ⟨w.machine, f, fiber⟩ entry .host
  rcases Context.start_cases ⟨w.machine, f, fiber⟩ entry .host with
    hturns | ⟨limit, -, -, deadline, outcome, -, heq⟩
  · exact h.update hf H hturns.awake (.inl hturns.waits)
  · rw [heq] at H ⊢
    exact h.update hf H rfl (.inl rfl)

/-- Whatever happens, no fiber comes to wait for itself. -/
theorem perform (h : w.Untangled) (e : Event) : (w.perform e).Untangled := by
  have H := w.passage e
  generalize w.perform e = w' at H
  cases H with
  | leave hleaves _ => exact h.leave hleaves
  | start hf _ _ => exact h.start hf _
  | advance hf hrest _ => exact h.advance hf hrest

theorem run (h : w.Untangled) (events : List Event) : (w.run events).Untangled := by
  induction events generalizing w with
  | nil => exact h
  | cons e events ih => exact ih (h.perform e)

end Untangled

/--
**Waits never form a circle**, whatever fibers do in whatever order, and the waits of all fibers
that wait are recorded. For every machine, whether it is reachable or not, the test that is made
before a fiber waits tells exactly whether waits lead from the loader to the waiter.
-/
theorem waits_acyclic (events : List Event) :
    (∀ f, ¬ TransGen (run {} events).machine.WaitsFor f f) ∧
    (∀ f fiber id object pending, (run {} events).fiber? f = some fiber →
      fiber.activity = .waiting id object pending →
      (run {} events).machine.waitOf f = some id) ∧
    ∀ (m : Machine) (waiter loader : FiberId),
      m.wouldDeadlock waiter loader = true ↔ TransGen m.WaitsFor loader waiter := by
  have h := Untangled.empty.run events
  exact ⟨h.machine.acyclic, h.recorded, Machine.wouldDeadlock_iff⟩

/-- A module whose code loads another one. -/
def loader (name other : String) : Event :=
  .register { name, pool := #[.string other, .code {
    name := none, signature := {}, captures := []
    instructions := #[{ opcode := .loadModule }, { opcode := .return }] }] }

/--
Two fibers load modules that load each other. The first one waits for the second one, has woken up
for no reason and waits again; the second one is about to enter the module of the first one.
-/
def crossing : List Event :=
  [loader "a" "b", loader "b" "a", .spawn, .spawn] ++
  [.start ⟨0⟩ (.load "a"), .start ⟨1⟩ (.load "b")] ++
  [⟨0⟩, ⟨0⟩, ⟨1⟩, ⟨1⟩, ⟨0⟩, ⟨0⟩, ⟨0⟩].map .advance ++
  [.rouse ⟨0⟩, .advance ⟨0⟩, .advance ⟨1⟩, .advance ⟨1⟩]

/-- The first fiber waits for the second one, which sees that it must not wait for the first one. -/
theorem crossing_untangled :
    (∃ fiber id object pending, (run {} crossing).fiber? ⟨0⟩ = some fiber ∧
      fiber.activity = .waiting id object pending ∧
      (run {} crossing).machine.waitOf ⟨0⟩ = some id) ∧
    (¬ TransGen (run {} crossing).machine.WaitsFor ⟨0⟩ ⟨0⟩) ∧
    (run {} crossing).machine.wouldDeadlock ⟨1⟩ ⟨0⟩ = true ∧
    TransGen (run {} crossing).machine.WaitsFor ⟨0⟩ ⟨1⟩ := by
  obtain ⟨hacyclic, hrecorded, hexact⟩ := waits_acyclic crossing
  have hwaiting : ((run {} crossing).fiber? ⟨0⟩).map (·.activity.isWaiting) = some true := by
    decide +kernel
  have hdeadlock : (run {} crossing).machine.wouldDeadlock ⟨1⟩ ⟨0⟩ = true := by decide +kernel
  refine ⟨?_, hacyclic ⟨0⟩, hdeadlock, (hexact _ ⟨1⟩ ⟨0⟩).mp hdeadlock⟩
  obtain ⟨fiber, hf, hactivity⟩ := Option.map_eq_some_iff.mp hwaiting
  cases ha : fiber.activity with
  | waiting id object pending =>
    exact ⟨fiber, id, object, pending, hf, ha, hrecorded ⟨0⟩ fiber id object pending hf ha⟩
  | _ =>
    rw [ha] at hactivity
    exact nomatch hactivity

end World

end FiberMachine
