import FiberMachine.Proofs.Loading.DepthFirst
import FiberMachine.Proofs.Loading.Imports

/-!
# Loading modules that load modules

A fiber without limits goes through the graph of imports depth first. The search is in the frames:
the module of each frame is loading, a module that is loading or loaded is passed over, and a frame
that returns leaves its module loaded (`Context.runs_loads`). So the load ends whatever cycles there
are (`Context.load_importing`).
-/

namespace FiberMachine

/-! ## States and instructions of a search -/

namespace Ledger

/-- The states with the given modules loaded. -/
def loaded (states : ModuleId → Option ModuleState) (ids : List ModuleId) :
    ModuleId → Option ModuleState :=
  fun id => if id ∈ ids then some .loaded else states id

variable {states : ModuleId → Option ModuleState} {id : ModuleId} {inner outer : List ModuleId}
  {s : ModuleState}

theorem loaded_loaded : loaded (loaded states (inner ++ [id])) outer =
    loaded states (inner ++ id :: outer) := by
  funext other
  simp only [loaded, List.mem_append, List.mem_cons, List.not_mem_nil, or_false]
  split_ifs <;> tauto

/-- A module that is loaded after others were leaves no trace of having been loading. -/
theorem update_loaded_update {t : ModuleState} (h : states id = some t) :
    update (loaded (update states id s) inner) id .loaded = loaded states (inner ++ [id]) := by
  funext other
  by_cases hother : other = id
  · subst hother
    simp only [loaded, update, if_true, h, Option.map_some, List.mem_append, List.mem_singleton,
      or_true]
    split_ifs <;> rfl
  · simp [loaded, update, hother]

end Ledger

/-- Of the given modules, the fiber has loaded or is loading just those that it has seen. -/
structure Explored (states : ModuleId → Option ModuleState) (fiber : FiberId)
    (modules : Finset ModuleId) (seen : List ModuleId) : Prop where
  known : ∀ id ∈ modules, id ∈ seen →
    states id = some .loaded ∨ states id = some (.loading fiber)
  unknown : ∀ id ∈ modules, id ∉ seen → states id = some .registered

namespace Explored

variable {states : ModuleId → Option ModuleState} {fiber : FiberId} {modules : Finset ModuleId}
  {seen inner : List ModuleId} {id : ModuleId}

theorem enter (h : Explored states fiber modules seen) (hid : id ∈ modules) (hnew : id ∉ seen) :
    Explored (Ledger.update states id (.loading fiber)) fiber modules (id :: seen) := by
  constructor
  · intro other hother hseen
    by_cases heq : other = id
    · subst heq
      exact .inr (Ledger.update_self (h.unknown other hid hnew))
    · rw [Ledger.update_of_ne heq]
      exact h.known other hother ((List.mem_cons.mp hseen).resolve_left heq)
  · intro other hother hunseen
    rw [List.mem_cons, not_or] at hunseen
    rw [Ledger.update_of_ne hunseen.1]
    exact h.unknown other hother hunseen.2

theorem leave (h : Explored states fiber modules seen) :
    Explored (Ledger.loaded states (inner ++ [id])) fiber modules (inner ++ id :: seen) := by
  constructor
  · intro other hother hseen
    by_cases hmem : other ∈ inner ++ [id]
    · exact .inl (if_pos hmem)
    · rw [Ledger.loaded, if_neg hmem]
      refine h.known other hother ?_
      simp only [List.mem_append, List.mem_cons, List.not_mem_nil, or_false] at hseen hmem
      tauto
  · intro other hother hunseen
    simp only [List.mem_append, List.mem_cons, not_or] at hunseen
    have hmem : other ∉ inner ++ [id] := by simp [hunseen.1, hunseen.2.1]
    rw [Ledger.loaded, if_neg hmem]
    exact h.unknown other hother hunseen.2.2

end Explored

/-- The indices of the executed instructions of a module. -/
def indices (id : ModuleId) (executed : List (ModuleId × Nat)) : List Nat :=
  (executed.filter (·.1 = id)).map Prod.snd

theorem indices_append (id : ModuleId) (executed executed' : List (ModuleId × Nat)) :
    indices id (executed ++ executed') = indices id executed ++ indices id executed' := by
  rw [indices, List.filter_append, List.map_append, indices, indices]

theorem indices_singleton (id own : ModuleId) (i : Nat) :
    indices id [(own, i)] = if id = own then [i] else [] := by
  by_cases h : id = own
  · simp [indices, h]
  · simp [indices, h, Ne.symm h]

/--
The instructions of `own` from `start` on were executed once each, and all of the modules in
`order`, from the first to the last.
-/
def Executed (k : Catalog) (own : ModuleId) (start count : Nat) (order : List ModuleId)
    (executed : List (ModuleId × Nat)) : Prop :=
  ∀ id, indices id executed =
    if id = own then List.range' start count
    else if id ∈ order then List.range (2 * (k.imports id).length + 1) else []

namespace Executed

variable {k : Catalog} {own id : ModuleId} {start count : Nat} {inner outer order : List ModuleId}
  {executed executed' : List (ModuleId × Nat)}

theorem nil : Executed k own start 0 [] [] := by
  intro id
  simp [indices]

/-- A load that finds the module known. -/
theorem skip (h : Executed k own (start + 2) count order executed) (hown : own ∉ order) :
    Executed k own start (count + 2) order
      ([(own, start)] ++ ([(own, start + 1)] ++ executed)) := by
  intro other
  rw [indices_append, indices_append, indices_singleton, indices_singleton, h]
  by_cases heq : other = own
  · subst heq
    simp [List.range'_succ]
  · simp [heq]

/-- The body of a module is executed to its last instruction. -/
theorem body (h : Executed k id 0 (2 * (k.imports id).length) inner executed) (hid : id ∉ inner) :
    ∀ other, indices other (executed ++ [(id, 2 * (k.imports id).length)]) =
      if other ∈ inner ++ [id] then List.range (2 * (k.imports other).length + 1) else [] := by
  intro other
  rw [indices_append, indices_singleton, h]
  by_cases heq : other = id
  · subst heq
    simp [List.range_succ, List.range_eq_range']
  · simp [heq]

/-- A load that loads the module, and with it others. -/
theorem visit
    (h : ∀ other, indices other executed =
      if other ∈ inner ++ [id] then List.range (2 * (k.imports other).length + 1) else [])
    (h' : Executed k own (start + 2) count outer executed')
    (hown : own ∉ inner ++ id :: outer) (houter : ∀ other ∈ outer, other ∉ inner ++ [id]) :
    Executed k own start (count + 2) (inner ++ id :: outer)
      ([(own, start)] ++ executed ++ ([(own, start + 1)] ++ executed')) := by
  intro other
  rw [indices_append, indices_append, indices_append, indices_singleton, indices_singleton, h, h']
  by_cases heq : other = own
  · subst heq
    simp only [List.mem_append, List.mem_cons, not_or] at hown
    simp [List.range'_succ, hown.1, hown.2.1]
  · have hsplit : other ∈ inner ++ id :: outer ↔ other ∈ inner ++ [id] ∨ other ∈ outer := by
      simp [or_assoc]
    simp only [heq, if_false, List.nil_append, hsplit]
    by_cases hinner : other ∈ inner ++ [id]
    · have hnot : other ∉ outer := fun hmem => houter other hmem hinner
      simp only [hinner, hnot, if_true, if_false, or_false, List.append_nil]
    · simp only [hinner, if_false, false_or, List.nil_append]

end Executed

/-! ## The search -/

/-- The modules of the set do nothing but load modules of the set. -/
def Catalog.Closed (k : Catalog) (modules : Finset ModuleId) : Prop :=
  ∀ id ∈ modules, ∃ ids, k.imports? id = some ids ∧ ∀ other ∈ ids, other ∈ modules

theorem Catalog.Closed.imports {k : Catalog} {modules : Finset ModuleId} (h : k.Closed modules) :
    ∀ id ∈ modules, ∀ other ∈ k.imports id, other ∈ modules := by
  intro id hid
  obtain ⟨ids, hids, hclosed⟩ := h id hid
  rwa [Catalog.imports_of_imports? hids]

/-- A frame that has loaded all its modules is at the return. -/
theorem Frame.Awaits.last {k : Catalog} {f : Frame} {ids : List ModuleId} (h : f.Awaits k ids) :
    { f with instruction := f.instruction + 2 * ids.length }.Awaits k [] := by
  induction ids generalizing f with
  | nil => exact h
  | cons id ids ih =>
    obtain ⟨_, _, _, -, -, -, -, -, -, hrest⟩ := h.cons
    have hlast := ih hrest
    rw [List.length_cons, Nat.mul_succ, Nat.add_comm (2 * ids.length), ← Nat.add_assoc]
    exact hlast

namespace Context

/--
A frame with the modules `ids` left to load gets to its return, and the fiber has then loaded the
modules in `order`, one after the other.
-/
def Loads (k : Catalog) (modules : Finset ModuleId) (seen ids order : List ModuleId) : Prop :=
  ∀ (m : Machine) (fiber : FiberId) (top : Frame) (rest : List Frame) (meter : Meter) (base : Nat)
    (caller : Caller), m.catalog = k → meter.budget = none → top.Awaits k ids →
    (∀ id ∈ ids, id ∈ modules) → top.scope.module ∈ seen →
    Explored m.state? fiber modules seen → base ≤ rest.length →
    ∃ (m' : Machine) (meter' : Meter) (executed : List (ModuleId × Nat)), m'.catalog = k ∧
      meter'.budget = none ∧ m'.state? = Ledger.loaded m.state? order ∧
      Executed k top.scope.module top.instruction (2 * ids.length) order executed ∧
      Runs (free m fiber (top :: rest) meter (.running base caller)) executed order
        (free m' fiber ({ top with instruction := top.instruction + 2 * ids.length } :: rest) meter'
          (.running base caller))

variable {k : Catalog} {modules : Finset ModuleId} {seen ids inner outer order : List ModuleId}
  {id : ModuleId} {m : Machine} {fiber : FiberId} {frames : List Frame} {meter : Meter}
  {base : Nat} {caller : Caller}

/-- A new module is loaded up to its return. -/
theorem runs_body (frames : List Frame) (caller : Caller) {pending : Pending}
    (hclosed : k.Closed modules)
    (hinner : Loads k modules (id :: seen) (k.imports id) inner) (hk : m.catalog = k)
    (hbudget : meter.budget = none) (hid : id ∈ modules) (hnew : id ∉ seen)
    (hexplored : Explored m.state? fiber modules seen) (hbase : base ≤ frames.length)
    (hpending : pending = .instruction base false caller ∨
      pending = .entry caller ∧ base = frames.length) :
    ∃ (m' : Machine) (meter' : Meter) (executed : List (ModuleId × Nat)) (frame : Frame),
      m'.catalog = k ∧ meter'.budget = none ∧
      m'.state? = Ledger.loaded (Ledger.update m.state? id (.loading fiber)) inner ∧
      frame.Awaits k [] ∧ frame.continuation = .module id true ∧ frame.scope.module = id ∧
      frame.instruction = 2 * (k.imports id).length ∧
      Executed k id 0 (2 * (k.imports id).length) inner executed ∧
      Runs (free m fiber frames meter (.entering id true pending)) executed inner
        (free m' fiber (frame :: frames) meter' (.running base caller)) := by
  obtain ⟨ids, hids, hmodules⟩ := hclosed id hid
  obtain ⟨entry, code, hentry, hbody, hmatch, hloads⟩ := Catalog.imports?_eq_some hids
  rw [Catalog.imports_of_imports? hids] at hinner ⊢
  obtain ⟨m₁, frame, hcatalog, hstates, rfl, hscope, hfirst, hcontinuation, henter⟩ :=
    runs_enter m fiber meter hpending (hexplored.unknown id hid hnew) (hk ▸ hentry) hbody hmatch
  have hawaits : frame.Awaits k ids := by
    rw [Frame.Awaits, hscope, hfirst]
    exact hloads
  have hexplored₁ : Explored m₁.state? fiber modules (id :: seen) :=
    hstates ▸ hexplored.enter hid hnew
  have hmodule : frame.scope.module = id := congrArg Scope.module hscope
  obtain ⟨m₂, meter₂, executed, hcatalog₂, hbudget₂, hstates₂, hexecuted, hruns⟩ :=
    hinner m₁ fiber frame frames meter base caller (hcatalog.trans hk) hbudget hawaits hmodules
      (hmodule ▸ List.mem_cons_self) hexplored₁ hbase
  rw [hstates] at hstates₂
  rw [hmodule, hfirst] at hexecuted
  refine ⟨m₂, meter₂, executed, _, hcatalog₂, hbudget₂, hstates₂, hawaits.last, hcontinuation,
    hmodule, ?_, hexecuted, henter.trans hruns⟩
  rw [hfirst, Nat.zero_add]

/-- A frame that has received a module drops it and goes on with the next. -/
theorem Loads.resume {top : Frame} {rest : List Frame} (h : Loads k modules seen ids order)
    (hk : m.catalog = k) (hbudget : meter.budget = none) (hawaits : top.Awaits k (id :: ids))
    (hids : ∀ other ∈ id :: ids, other ∈ modules) (hown : top.scope.module ∈ seen)
    (hexplored : Explored m.state? fiber modules seen) (hbase : base ≤ rest.length)
    (value : Value) :
    ∃ (m' : Machine) (meter' : Meter) (executed : List (ModuleId × Nat)), m'.catalog = k ∧
      meter'.budget = none ∧ m'.state? = Ledger.loaded m.state? order ∧
      Executed k top.scope.module (top.instruction + 2) (2 * ids.length) order executed ∧
      Runs (free m fiber (top.deliver value :: rest) meter (.running base caller))
        ([(top.scope.module, top.instruction + 1)] ++ executed) order
        (free m' fiber ({ top with
          instruction := top.instruction + 2 * (id :: ids).length } :: rest) meter'
            (.running base caller)) := by
  subst hk
  obtain ⟨_, _, _, -, -, -, -, -, -, hawaits'⟩ := hawaits.cons
  obtain ⟨meter₁, hbudget₁, hpop⟩ := runs_pop fiber rest base caller hbudget hawaits value
  obtain ⟨m', meter', executed, hcatalog, hbudget', hstates, hexecuted, hruns⟩ :=
    h m fiber { top with instruction := top.instruction + 2 } rest meter₁ base caller rfl
      hbudget₁ hawaits' (fun other hother => hids other (List.mem_cons_of_mem _ hother)) hown
      hexplored hbase
  refine ⟨m', meter', executed, hcatalog, hbudget', hstates, hexecuted, ?_⟩
  rw [List.length_cons, Nat.mul_succ, Nat.add_comm (2 * ids.length), ← Nat.add_assoc]
  exact hpop.trans hruns

/-- The frames of a fiber search the imports depth first. -/
theorem runs_loads (hclosed : k.Closed modules) (h : DepthFirst k.imports seen ids order) :
    Loads k modules seen ids order := by
  induction h with
  | nil =>
    intro m fiber top rest meter base caller hk hbudget hawaits _ _ _ _
    refine ⟨m, meter, [], hk, hbudget, ?_, .nil, .refl _⟩
    funext id
    exact (if_neg List.not_mem_nil).symm
  | @skip seen ids order id hseen hrest ih =>
    intro m fiber top rest meter base caller hk hbudget hawaits hids hown hexplored hbase
    subst hk
    have hid := hids id List.mem_cons_self
    obtain ⟨_, himports, -⟩ := hclosed id hid
    obtain ⟨entry, _, hentry, -⟩ := Catalog.imports?_eq_some himports
    obtain ⟨meter₁, hbudget₁, hrequest⟩ := runs_request fiber rest base caller hbudget hawaits
    have hknown :=
      runs_known top rest meter₁ base caller hentry (hexplored.known id hid hseen)
    obtain ⟨m', meter', executed, hcatalog, hbudget', hstates, hexecuted, hruns⟩ :=
      ih.resume rfl hbudget₁ hawaits hids hown hexplored hbase (.object entry.object)
    have hown' : top.scope.module ∉ order := fun hmem => hrest.nodup.2 _ hmem hown
    exact ⟨m', meter', _, hcatalog, hbudget', hstates, hexecuted.skip hown',
      hrequest.trans (hknown.trans hruns)⟩
  | @visit seen ids inner outer id hnew hinner houter ihinner ihouter =>
    intro m fiber top rest meter base caller hk hbudget hawaits hids hown hexplored hbase
    have hid := hids id List.mem_cons_self
    have hidInner : id ∉ inner := fun hmem => hinner.nodup.2 id hmem List.mem_cons_self
    obtain ⟨_, himports, -⟩ := hclosed id hid
    obtain ⟨entry, _, hentry, -⟩ := Catalog.imports?_eq_some himports
    obtain ⟨meter₁, hbudget₁, hrequest⟩ :=
      runs_request fiber rest base caller hbudget (hk ▸ hawaits)
    obtain ⟨m₂, meter₂, executed₂, frame, hcatalog₂, hbudget₂, hstates₂, hlast, hcontinuation,
      hmodule, hinstruction, hexecuted₂, hbody⟩ := runs_body (top :: rest) caller hclosed ihinner hk
        hbudget₁ hid hnew hexplored (Nat.le_succ_of_le hbase) (.inl rfl)
    have hunknown := hexplored.unknown id hid hnew
    have hloading : m₂.state? id = some (.loading fiber) := by
      rw [hstates₂, Ledger.loaded, if_neg hidInner, Ledger.update_self hunknown]
    obtain ⟨meter₃, hbudget₃, hreturn⟩ := runs_return_frame hbudget₂ (hcatalog₂ ▸ hlast)
      hcontinuation (hcatalog₂ ▸ hentry) hloading top hbase caller
    have hcatalog₃ : (m₂.finishModule id none).catalog = k :=
      (Machine.isApart_catalog.finishModule m₂ id none).trans hcatalog₂
    have hstates₃ : (m₂.finishModule id none).state? = Ledger.loaded m.state? (inner ++ [id]) := by
      rw [Machine.state?_finishModule_none, hstates₂, Ledger.update_loaded_update hunknown]
    have hown₃ : top.scope.module ∈ inner ++ id :: seen :=
      List.mem_append_right _ (List.mem_cons_of_mem _ hown)
    obtain ⟨m', meter', executed, hcatalog, hbudget', hstates, hexecuted, hruns⟩ :=
      ihouter.resume hcatalog₃ hbudget₃ hawaits hids hown₃ (hstates₃ ▸ hexplored.leave) hbase
        (.object entry.object)
    rw [hstates₃, Ledger.loaded_loaded] at hstates
    rw [hmodule, hinstruction] at hreturn
    have hown' : top.scope.module ∉ inner ++ id :: outer :=
      fun hmem => (DepthFirst.visit hnew hinner houter).nodup.2 _ hmem hown
    have hnotInner : ∀ other ∈ outer, other ∉ inner ++ [id] := by
      intro other hother hmem
      refine houter.nodup.2 other hother ?_
      simp only [List.mem_append, List.mem_cons, List.not_mem_nil, or_false] at hmem ⊢
      tauto
    have horder : inner ++ id :: outer = [] ++ (inner ++ [id]) ++ outer := by simp
    refine ⟨m', meter', _, hcatalog, hbudget', hstates,
      .visit (hexecuted₂.body hidInner) hexecuted hown' hnotInner, ?_⟩
    rw [horder]
    exact (hrequest.trans (hbody.trans hreturn)).trans hruns

/-- The fiber is asked for a module, and answers once it has searched the imports. -/
theorem runs_load {root : ModuleId} {name : String} (fiber : FiberId) (frames : List Frame)
    (hclosed : m.catalog.Closed modules)
    (hregistered : ∀ id ∈ modules, m.state? id = some .registered)
    (h : DepthFirst m.catalog.imports [] [root] order) (hroot : root ∈ modules)
    (hname : m.names.get? name = some root) (hbudget : meter.budget = none) :
    ∃ (m' : Machine) (meter' : Meter) (executed : List (ModuleId × Nat)) (entry : ModuleEntry),
      m.module? root = some entry ∧ m'.state? = Ledger.loaded m.state? order ∧
      (∀ id, indices id executed =
        if id ∈ order then List.range (2 * (m.catalog.imports id).length + 1) else []) ∧
      Runs (free m fiber frames meter (.finding name (.entry .host))) executed order
        (free m' fiber frames meter' (.replied (.ok (.object entry.object)) .host)) := by
  cases h with
  | skip hseen => cases hseen
  | @visit _ _ inner outer _ hnew hinner houter =>
    cases houter
    have hexplored : Explored m.state? fiber modules [] :=
      ⟨fun _ _ hseen => absurd hseen List.not_mem_nil, fun id hid _ => hregistered id hid⟩
    have hrootInner : root ∉ inner := fun hmem => hinner.nodup.2 root hmem List.mem_cons_self
    have hunknown := hregistered root hroot
    obtain ⟨_, himports, -⟩ := hclosed root hroot
    obtain ⟨entry, _, hentry, -⟩ := Catalog.imports?_eq_some himports
    obtain ⟨m₂, meter₂, executed, frame, hcatalog, hbudget₂, hstates, hlast, hcontinuation, hmodule,
      hinstruction, hexecuted, hbody⟩ := runs_body frames .host hclosed (runs_loads hclosed hinner)
        rfl hbudget hroot hnew hexplored le_rfl (.inr ⟨rfl, rfl⟩)
    have hloading : m₂.state? root = some (.loading fiber) := by
      rw [hstates, Ledger.loaded, if_neg hrootInner, Ledger.update_self hunknown]
    obtain ⟨meter₃, -, hreturn⟩ := runs_return_entry hbudget₂ (hcatalog ▸ hlast) hcontinuation
      (hcatalog ▸ hentry) hloading frames .host
    rw [hmodule, hinstruction] at hreturn
    refine ⟨m₂.finishModule root none, meter₃, _, _, Machine.module?_of_catalog hentry hunknown,
      ?_, hexecuted.body hrootInner, ?_⟩
    · rw [Machine.state?_finishModule_none, hstates, Ledger.update_loaded_update hunknown]
    · exact (Runs.quiet rfl (find_of_names hname) rfl).trans (hbody.trans hreturn)

end Context

/-- The modules of the set are all registered, and do nothing but load modules of the set. -/
structure Machine.Importing (m : Machine) (modules : Finset ModuleId) : Prop where
  registered : ∀ id ∈ modules, m.state? id = some .registered
  closed : m.catalog.Closed modules

theorem Machine.Importing.body {m : Machine} {modules : Finset ModuleId} {id : ModuleId}
    (h : m.Importing modules) (hid : id ∈ modules) :
    ∃ (entry : ModuleEntry) (code : Code), m.module? id = some entry ∧ entry.body = some code ∧
      code.instructions.size = 2 * (m.catalog.imports id).length + 1 := by
  obtain ⟨ids, hids, -⟩ := h.closed id hid
  obtain ⟨entry, code, hentry, hbody, -, hloads⟩ := Catalog.imports?_eq_some hids
  refine ⟨_, code, module?_of_catalog hentry (h.registered id hid), hbody, ?_⟩
  rw [Catalog.imports_of_imports? hids, ← Catalog.length_of_loads? hloads, Array.length_toList]

namespace Context

/--
**A load among modules that only load modules ends, whatever cycles their imports have.** It
leaves loaded what can be reached from the module, in the order of a depth-first search, and each
body that was executed has been executed from its first instruction to its last, once.
-/
theorem load_importing {c : Context} {modules : Finset ModuleId} {root : ModuleId} {name : String}
    (hmodules : c.machine.Importing modules) (hroot : root ∈ modules)
    (hname : c.machine.names.get? name = some root) (hbudget : c.fiber.meter.budget = none)
    (hdeadline : c.fiber.deadline = none) (hdepth : c.fiber.maxDepth = none) :
    ∃ (order : List ModuleId) (n : Nat) (entry : ModuleEntry),
      DepthFirst c.machine.catalog.imports [] [root] order ∧ order.Nodup ∧
      (∀ id, id ∈ order ↔
        Relation.ReflTransGen (fun a b => b ∈ c.machine.catalog.imports a) root id) ∧
      c.machine.module? root = some entry ∧
      ∀ fuel ≥ n, let d := drive fuel (c.start (.load name) .host)
        d.fiber.activity = .replied (.ok (.object entry.object)) .host ∧
        d.fiber.frames = c.fiber.frames ∧
        log completes fuel (c.start (.load name) .host) = order ∧
        (∀ id ∈ modules, d.machine.state? id =
          some (if id ∈ order then .loaded else .registered)) ∧
        (∀ id ∉ modules, d.machine.state? id = c.machine.state? id) ∧
        ∀ id ∈ modules, ∃ (entry : ModuleEntry) (code : Code),
          c.machine.module? id = some entry ∧ entry.body = some code ∧
          indices id (log executes fuel (c.start (.load name) .host)) =
            if id ∈ order then List.range code.instructions.size else [] := by
  obtain ⟨m, fiber, ⟨frames, meter, deadline, maxDepth, activity⟩⟩ := c
  obtain rfl : deadline = none := hdeadline
  obtain rfl : maxDepth = none := hdepth
  have hclosed := hmodules.closed
  obtain ⟨order, horder⟩ : ∃ order, DepthFirst m.catalog.imports [] [root] order :=
    DepthFirst.exists_order hclosed.imports (by simpa using hroot)
  obtain ⟨m', meter', executed, entry, hentry, hstates, hexecuted, hruns⟩ :=
    runs_load fiber frames hclosed hmodules.registered horder hroot hname hbudget
  obtain ⟨n, hn⟩ := hruns.drive_eq rfl
  have hordered : ∀ id ∈ order, id ∈ modules := by
    intro id hid
    induction horder.mem_iff_reachable.mp hid with
    | refl => exact hroot
    | tail hreach hnext ih =>
      exact hclosed.imports _ (ih (horder.mem_iff_reachable.mpr hreach)) _ hnext
  refine ⟨order, n, entry, horder, horder.nodup.1, fun _ => horder.mem_iff_reachable, hentry,
    fun fuel hfuel => ?_⟩
  intro d
  obtain ⟨hdrive, hlog, hcompleted⟩ := hn fuel hfuel
  have hd : d = free m' fiber frames meter' (.replied (.ok (.object entry.object)) .host) := hdrive
  have hstates' (id : ModuleId) : d.machine.state? id =
      if id ∈ order then some .loaded else m.state? id := by rw [hd]; exact congrFun hstates id
  refine ⟨by rw [hd]; rfl, by rw [hd]; rfl, hcompleted, fun id hid => ?_, fun id hid => ?_,
    fun id hid => ?_⟩
  · rw [hstates', hmodules.registered id hid]
    split <;> rfl
  · exact (hstates' id).trans (if_neg fun hmem => hid (hordered id hmem))
  · obtain ⟨entry', code, hentry', hcode, hsize⟩ := hmodules.body hid
    refine ⟨entry', code, hentry', hcode, ?_⟩
    rw [hsize]
    exact (congrArg (indices id) hlog).trans (hexecuted id)

/-- The modules `a` and `b` load each other and `a` itself, and `c` loads `a`. -/
def circular : Context where
  machine.modules := #[entry "a" ⟨0⟩ ["b", "a"], entry "b" ⟨1⟩ ["a"], entry "c" ⟨2⟩ ["a"]]
  machine.names := ⟨[("a", ⟨0⟩), ("b", ⟨1⟩), ("c", ⟨2⟩)], by decide⟩
  id := ⟨0⟩
  fiber := {}
where
  /-- A module that loads the modules of the given names. -/
  entry (name : String) (object : Ref .object) (names : List String) : ModuleEntry :=
    { name, object, constants := (names.map .string).toArray
      body := some { name := none, signature := {}, captures := []
                     instructions := (code names.length).toArray } }
  /-- Loads the modules that the first `n` constants name. -/
  code (n : Nat) : List Instruction :=
    ((List.range n).flatMap fun i =>
      [{ opcode := .loadModule, operand := .ofNat i }, { opcode := .pop }]) ++
      [{ opcode := .return }]

/-- The load of `a` leaves `b` loaded before `a`, and `c` registered. -/
theorem load_circular :
    circular.machine.Importing {⟨0⟩, ⟨1⟩, ⟨2⟩} ∧
      (∃ order n, DepthFirst circular.machine.catalog.imports [] [⟨0⟩] order ∧ ∀ fuel ≥ n,
        (drive fuel (circular.start (.load "a") .host)).fiber.activity =
          .replied (.ok (.object ⟨0⟩)) .host ∧
        log completes fuel (circular.start (.load "a") .host) = order) ∧
      log completes 20 (circular.start (.load "a") .host) = [⟨1⟩, ⟨0⟩] ∧
      (drive 20 (circular.start (.load "a") .host)).machine.state? ⟨2⟩ = some .registered := by
  have himporting : circular.machine.Importing {⟨0⟩, ⟨1⟩, ⟨2⟩} := by
    refine ⟨by decide, fun id hid => ?_⟩
    simp only [Finset.mem_insert, Finset.mem_singleton] at hid
    rcases hid with rfl | rfl | rfl
    · exact ⟨[⟨1⟩, ⟨0⟩], by decide, by decide⟩
    · exact ⟨[⟨0⟩], by decide, by decide⟩
    · exact ⟨[⟨0⟩], by decide, by decide⟩
  obtain ⟨order, n, entry, horder, -, -, hentry, hload⟩ :=
    @load_importing circular _ ⟨0⟩ "a" himporting (by decide) (by decide) rfl rfl rfl
  have hobject : entry.object = ⟨0⟩ :=
    (congrArg ModuleEntry.object (Option.some.inj hentry)).symm
  refine ⟨himporting, ⟨order, n, horder, fun fuel hfuel => ?_⟩, by decide +kernel,
    by decide +kernel⟩
  obtain ⟨hactivity, -, hcompletes, -⟩ := hload fuel hfuel
  rw [← hobject]
  exact ⟨hactivity, hcompletes⟩

end Context

end FiberMachine
