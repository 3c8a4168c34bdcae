import FiberMachine.Machine
import FiberMachine.Proofs.Code.Accepted
import FiberMachine.Proofs.Execution.Invalid

/-!
# Where code comes from

Code travels through a machine in closures, bound methods, templates and frames, but it never leaves
its module: what executes on behalf of a module is a code object of the pool that the module was
registered with (`Machine.Owns`). There is a captured cell for every entry of its capture list,
except for module bodies and template methods, which have none (`LinkedModule.Makes`).
`Machine.Sound` says so of all that a machine holds, and preparing a call keeps it
(`Machine.Sound.prepareCall`).
-/

namespace FiberMachine

/-- How a function of the module comes by its code and its captured cells. -/
inductive LinkedModule.Makes (m : LinkedModule) : Code → List (Ref .cell) → Prop where
  | closure {code : Code} {captures : List (Ref .cell)} : .code code ∈ m.pool →
      captures.length = code.captures.length → m.Makes code captures
  | body {code : Code} : m.body? = some code → m.Makes code []
  | method {t : TemplateCode} {code : Code} : .template t ∈ m.pool → code ∈ t.methods →
      m.Makes code []

theorem LinkedModule.mem_of_body? {m : LinkedModule} {code : Code} (h : m.body? = some code) :
    .code code ∈ m.pool := by
  unfold LinkedModule.body? at h
  split at h
  · rename_i heq
    cases h
    exact Array.mem_of_back? heq
  · exact nomatch h

theorem LinkedModule.Makes.has {m : LinkedModule} {code : Code} {captures : List (Ref .cell)}
    (h : m.Makes code captures) : m.Has code := by
  cases h with
  | closure hcode _ => exact ⟨_, hcode, List.mem_singleton_self _⟩
  | body hbody => exact ⟨_, LinkedModule.mem_of_body? hbody, List.mem_singleton_self _⟩
  | method ht hcode => exact ⟨_, ht, hcode⟩

/-! ## Registered modules -/

/-- The template that a machine makes of a constant of the module `id`. -/
def TemplateCode.instantiated (t : TemplateCode) (id : ModuleId) : Template where
  name := t.name
  sealed := t.sealed
  methods := Machine.namedMethods t.methods
  module := id

/-- The value stands for a constant of the module `id`. -/
inductive Heap.Represents (h : Heap) (id : ModuleId) : Value → Constant → Prop where
  | bool {b : Bool} : h.Represents id (.bool b) (.bool b)
  | int {i : Int64} : h.Represents id (.int i) (.int i)
  | float {d : Double} : h.Represents id (.float d) (.float d)
  | string {s : String} : h.Represents id (.string s) (.string s)
  | code {r : Ref .code} {code : Code} : h.code? r = some code →
      h.Represents id (.code r) (.code code)
  | template {r : Ref .template} {t : TemplateCode} : h.template? r = some (t.instantiated id) →
      h.Represents id (.template r) (.template t)

theorem Heap.Represents.mono {h h' : Heap} {id : ModuleId} {value : Value} {c : Constant}
    (hcodes : ∀ r code, h.code? r = some code → h'.code? r = some code)
    (htemplates : ∀ r t, h.template? r = some t → h'.template? r = some t)
    (H : h.Represents id value c) : h'.Represents id value c := by
  cases H with
  | code hcode => exact .code (hcodes _ _ hcode)
  | template ht => exact .template (htemplates _ _ ht)
  | bool => exact .bool
  | int => exact .int
  | float => exact .float
  | string => exact .string

/-- The entry is that of a module which was registered from `linked`. -/
structure ModuleEntry.Holds (h : Heap) (id : ModuleId) (entry : ModuleEntry)
    (linked : LinkedModule) : Prop where
  accepted : linked.Accepted
  name : entry.name = linked.name
  body : entry.body = linked.body?
  constants : List.Forall₂ (h.Represents id) entry.constants.toList linked.pool.toList

namespace ModuleEntry.Holds

variable {h : Heap} {id : ModuleId} {entry : ModuleEntry} {linked : LinkedModule} {i : Nat}

/-- Every value stands for the constant at its index. -/
theorem represents (H : entry.Holds h id linked) {value : Value}
    (hvalue : entry.constants[i]? = some value) :
    ∃ c, linked.pool[i]? = some c ∧ h.Represents id value c := by
  obtain ⟨hlt, rfl⟩ := Array.getElem?_eq_some_iff.mp hvalue
  have hsize : entry.constants.size = linked.pool.size := H.constants.length_eq
  have hlt' : i < linked.pool.size := hsize ▸ hlt
  exact ⟨_, Array.getElem?_eq_getElem hlt', H.constants.get hlt hlt'⟩

/-- Every constant has a value at its index. -/
theorem represented (H : entry.Holds h id linked) {c : Constant}
    (hc : linked.pool[i]? = some c) :
    ∃ value, entry.constants[i]? = some value ∧ h.Represents id value c := by
  obtain ⟨hlt, rfl⟩ := Array.getElem?_eq_some_iff.mp hc
  have hsize : entry.constants.size = linked.pool.size := H.constants.length_eq
  have hlt' : i < entry.constants.size := hsize ▸ hlt
  exact ⟨_, Array.getElem?_eq_getElem hlt', H.constants.get hlt' hlt⟩

end ModuleEntry.Holds

namespace Machine

/-- Functions of the module may execute the code with the captured cells. -/
def Owns (m : Machine) (module : Option ModuleId) (code : Code) (captures : List (Ref .cell)) :
    Prop :=
  ∃ id entry linked, module = some id ∧ m.module? id = some entry ∧
    entry.Holds m.heap id linked ∧ linked.Makes code captures

/-- What is there in the one machine is there in the other, up to the states of modules. -/
structure Extends (m m' : Machine) : Prop where
  codes : ∀ r code, m.heap.code? r = some code → m'.heap.code? r = some code
  templates : ∀ r t, m.heap.template? r = some t → m'.heap.template? r = some t
  modules : ∀ id entry, m.module? id = some entry →
    ∃ state, m'.module? id = some { entry with state }

variable {m m' m'' : Machine}

namespace Extends

theorem refl (m : Machine) : m.Extends m :=
  ⟨fun _ _ => id, fun _ _ => id, fun _ entry h => ⟨entry.state, h⟩⟩

theorem trans (H : m.Extends m') (H' : m'.Extends m'') : m.Extends m'' := by
  refine ⟨fun r code h => H'.codes r code (H.codes r code h),
    fun r t h => H'.templates r t (H.templates r t h), fun id entry h => ?_⟩
  obtain ⟨_, h⟩ := H.modules id entry h
  obtain ⟨state, h⟩ := H'.modules id _ h
  exact ⟨state, h⟩

theorem owns (H : m.Extends m') {module : Option ModuleId} {code : Code}
    {captures : List (Ref .cell)} (h : m.Owns module code captures) :
    m'.Owns module code captures := by
  obtain ⟨id, entry, linked, rfl, hentry, hholds, hmakes⟩ := h
  obtain ⟨state, hentry'⟩ := H.modules id entry hentry
  refine ⟨id, _, linked, rfl, hentry', ⟨hholds.accepted, hholds.name, hholds.body, ?_⟩, hmakes⟩
  exact hholds.constants.imp fun _ _ => .mono H.codes H.templates

theorem scope? (H : m.Extends m') {id : ModuleId} {scope : Scope} (h : m.scope? id = some scope) :
    m'.scope? id = some scope := by
  obtain ⟨entry, hentry, rfl⟩ := Option.map_eq_some_iff.mp h
  obtain ⟨state, hentry'⟩ := H.modules id entry hentry
  rw [Machine.scope?, hentry']
  rfl

theorem known (H : m.Extends m') {id : ModuleId} (h : (m.module? id).isSome) :
    (m'.module? id).isSome := by
  obtain ⟨entry, hentry⟩ := Option.isSome_iff_exists.mp h
  obtain ⟨state, hentry'⟩ := H.modules id entry hentry
  exact Option.isSome_of_eq_some hentry'

end Extends

/-- Whatever can be executed is code of the module that it is executed for, and names are known. -/
structure Sound (m : Machine) : Prop where
  bodies : ∀ id entry code, m.module? id = some entry → entry.body = some code →
    m.Owns (some id) code []
  functions : m.heap.Owned m.Owns
  templates : ∀ t ∈ m.heap.templates, ∀ method ∈ t.methods, m.Owns (some t.module) method.2 []
  names : ∀ name id, m.names.get? name = some id → (m.module? id).isSome

theorem Sound.empty : Sound {} :=
  ⟨(fun _ _ _ h => nomatch h), fun _ h => absurd h (Array.not_mem_empty _),
    fun _ h => absurd h (Array.not_mem_empty _), fun _ _ h => nomatch h⟩

/-- What a sound machine becomes. -/
structure Grows (m m' : Machine) : Prop where
  extend : m.Extends m'
  sound : m'.Sound

theorem Grows.trans (H : m.Grows m') (H' : m'.Grows m'') : m.Grows m'' :=
  ⟨H.extend.trans H'.extend, H'.sound⟩

namespace Sound

theorem refl (h : m.Sound) : m.Grows m := ⟨.refl m, h⟩

/-- The states of modules change, and the heap without code and templates. -/
theorem of_states (h : m.Sound) (hnames : m'.names = m.names)
    (hcodes : m'.heap.codes = m.heap.codes)
    (htemplates : m'.heap.templates = m.heap.templates)
    (hfunctions : m.heap.Owned m.Owns → m'.heap.Owned m.Owns)
    (hmodules : ∀ id, (m'.module? id).map (fun entry => { entry with state := .loaded }) =
      (m.module? id).map fun entry => { entry with state := .loaded }) : m.Grows m' := by
  have same {m m' : Machine}
      (hmodules : ∀ id, (m'.module? id).map (fun entry => { entry with state := .loaded }) =
        (m.module? id).map fun entry => { entry with state := .loaded })
      (id : ModuleId) (entry : ModuleEntry) (hentry : m.module? id = some entry) :
      ∃ state, m'.module? id = some { entry with state } := by
    have heq := hmodules id
    rw [hentry] at heq
    obtain ⟨entry', hentry', heq⟩ := Option.map_eq_some_iff.mp heq
    obtain ⟨name, object, body, constants, state⟩ := entry'
    cases entry
    cases heq
    exact ⟨state, hentry'⟩
  have hext : m.Extends m' := by
    refine ⟨fun r code hr => ?_, fun r t hr => ?_, same hmodules⟩
    · rw [Heap.code?, hcodes]
      exact hr
    · rw [Heap.template?, htemplates]
      exact hr
  refine ⟨hext, fun id entry code hentry hbody => ?_, fun f hf => ?_, fun t ht => ?_,
    fun name id hid => ?_⟩
  · obtain ⟨state, hentry'⟩ := same (fun id => (hmodules id).symm) id entry hentry
    exact hext.owns (h.bodies id _ code hentry' hbody)
  · exact fun code captures hbody => hext.owns (hfunctions h.functions f hf code captures hbody)
  · rw [htemplates] at ht
    exact fun method hmethod => hext.owns (h.templates t ht method hmethod)
  · rw [hnames] at hid
    exact hext.known (h.names name id hid)

/-- Nothing but arrays, objects, envelopes and cells changes in the heap. -/
theorem of_data (h : m.Sound) (hmodules : m'.modules = m.modules) (hnames : m'.names = m.names)
    (hcodes : m'.heap.codes = m.heap.codes) (htemplates : m'.heap.templates = m.heap.templates)
    (hfunctions : m'.heap.functions = m.heap.functions) : m.Grows m' := by
  refine h.of_states hnames hcodes htemplates (fun ho f hf => ho f ?_) fun id => ?_
  · rwa [hfunctions] at hf
  · rw [module?, hmodules]
    rfl

/-- Functions are added to the heap. -/
theorem of_adds (h : m.Sound) (hmodules : m'.modules = m.modules) (hnames : m'.names = m.names)
    (hheap : m.heap.Adds m.Owns m'.heap) : m.Grows m' := by
  refine h.of_states hnames hheap.codes hheap.templates hheap.functions fun id => ?_
  rw [module?, hmodules]
  rfl

theorem setState (h : m.Sound) (id : ModuleId) (state : ModuleState) :
    m.Grows (m.setState id state) := by
  refine h.of_states rfl rfl rfl (fun ho => ho) fun other => ?_
  rw [module?, module?, Machine.setState, Array.getElem?_modify]
  split
  · rw [Option.map_map]
    rfl
  · rfl

theorem finishModule (h : m.Sound) (id : ModuleId) (error : Option Value) :
    m.Grows (m.finishModule id error) := by
  unfold Machine.finishModule
  dsimp only
  split
  · exact h.setState id _
  · refine (h.setState id _).trans ((h.setState id _).sound.of_data rfl rfl ?_ ?_ ?_)
    all_goals
      dsimp only [onHeap]
      split <;> rfl

theorem envelope (h : m.Sound) (frames : List Frame) (fault : Fault) :
    m.Grows (m.onHeap (·.envelope frames fault)).2 := by
  refine h.of_data rfl rfl ?_ ?_ ?_
  all_goals
    dsimp only [onHeap]
    unfold Heap.envelope
    split <;> rfl

end Sound

/-! ## Registering modules -/

/-- What instantiating constants does to the heap. -/
structure Instantiates (id : ModuleId) (h : Heap) (cs : List Constant) (values : List Value)
    (h' : Heap) : Prop where
  functions : h'.functions = h.functions
  errors : h'.errors = h.errors
  codes : ∀ r code, h.code? r = some code → h'.code? r = some code
  templates : ∀ r t, h.template? r = some t → h'.template? r = some t
  added : ∀ t ∈ h'.templates, t ∈ h.templates ∨ ∃ tc, .template tc ∈ cs ∧ t = tc.instantiated id
  values : List.Forall₂ (h'.Represents id) values cs

theorem getElem?_push_of_eq_some {α : Type} {a : Array α} {i : Nat} {x : α} (h : a[i]? = some x)
    (y : α) : (a.push y)[i]? = some x := by
  rwa [Array.getElem?_push, if_neg (Nat.ne_of_lt (Array.getElem?_eq_some_iff.mp h).1)]

theorem instantiate_instantiates (id : ModuleId) (h : Heap) (c : Constant) :
    Instantiates id h [c] [(instantiate id h c).1] (instantiate id h c).2 := by
  have same {value : Value} (H : h.Represents id value c) : Instantiates id h [c] [value] h :=
    ⟨rfl, rfl, fun _ _ h => h, fun _ _ h => h, fun _ => .inl, .cons H .nil⟩
  cases c with
  | bool b => exact same .bool
  | int i => exact same .int
  | float d => exact same .float
  | string s => exact same .string
  | code code =>
    refine ⟨rfl, rfl, fun r _ hr => getElem?_push_of_eq_some hr code, fun _ _ h => h,
      fun _ => .inl, ?_⟩
    exact .cons (.code Array.getElem?_push_size) .nil
  | template t =>
    refine ⟨rfl, rfl, fun _ _ h => h, fun r _ hr => getElem?_push_of_eq_some hr (t.instantiated id),
      fun t' ht' => ?_, .cons (.template Array.getElem?_push_size) .nil⟩
    rcases Array.mem_push.mp ht' with ht' | rfl
    · exact .inl ht'
    · exact .inr ⟨t, List.mem_singleton_self _, rfl⟩

theorem instantiateAll_instantiates (id : ModuleId) (h : Heap) (cs : List Constant) :
    Instantiates id h cs (instantiateAll id h cs).1 (instantiateAll id h cs).2 := by
  induction cs generalizing h with
  | nil => exact ⟨rfl, rfl, fun _ _ h => h, fun _ _ h => h, fun _ => .inl, .nil⟩
  | cons c rest ih =>
    have hfirst := instantiate_instantiates id h c
    have hrest := ih (instantiate id h c).2
    refine ⟨hrest.functions.trans hfirst.functions, hrest.errors.trans hfirst.errors,
      fun r code hr => hrest.codes r code (hfirst.codes r code hr),
      fun r t hr => hrest.templates r t (hfirst.templates r t hr), fun t ht => ?_, ?_⟩
    · rcases hrest.added t ht with ht | ⟨tc, htc, rfl⟩
      · rcases hfirst.added t ht with ht | ⟨tc, htc, rfl⟩
        · exact .inl ht
        · exact .inr ⟨tc, List.mem_singleton.mp htc ▸ List.mem_cons_self .., rfl⟩
      · exact .inr ⟨tc, List.mem_cons_of_mem _ htc, rfl⟩
    · obtain ⟨hvalue, -⟩ := List.forall₂_cons.mp hfirst.values
      exact .cons (hvalue.mono hrest.codes hrest.templates) hrest.values

theorem mem_of_mem_namedMethods {methods : List Code} {method : String × Code}
    (h : method ∈ namedMethods methods) : method.2 ∈ methods := by
  obtain ⟨code, hcode, hname⟩ := List.mem_filterMap.mp h
  obtain ⟨name, _, rfl⟩ := Option.map_eq_some_iff.mp hname
  exact hcode

/-- The module table grows by an entry. -/
theorem module?_push {entry : ModuleEntry} (h : m'.modules = m.modules.push entry)
    (id : ModuleId) :
    m'.module? id = if id = ⟨m.modules.size⟩ then some entry else m.module? id := by
  obtain ⟨index⟩ := id
  rw [module?, h, Array.getElem?_push, module?]
  simp only [ModuleId.mk.injEq]

/-- The module table grows by a module, and the heap by code and templates of the module. -/
theorem Sound.addModule (h : m.Sound) {entry : ModuleEntry}
    (hmodules : m'.modules = m.modules.push entry)
    (hnames : m'.names = m.names.insert entry.name ⟨m.modules.size⟩)
    (hfunctions : m'.heap.functions = m.heap.functions)
    (hcodes : ∀ r code, m.heap.code? r = some code → m'.heap.code? r = some code)
    (htemplates : ∀ r t, m.heap.template? r = some t → m'.heap.template? r = some t)
    (hbody : ∀ code, entry.body = some code → m'.Owns (some ⟨m.modules.size⟩) code [])
    (hadded : ∀ t ∈ m'.heap.templates, t ∈ m.heap.templates ∨
      ∀ method ∈ t.methods, m'.Owns (some t.module) method.2 []) : m.Grows m' := by
  have hext : m.Extends m' := by
    refine ⟨hcodes, htemplates, fun id old hold => ⟨old.state, ?_⟩⟩
    rw [module?_push hmodules, if_neg]
    · exact hold
    · rintro rfl
      exact absurd (Array.getElem?_eq_some_iff.mp hold).1 (Nat.lt_irrefl _)
  refine ⟨hext, fun id old code hold hcode => ?_, fun f hf code captures hcode => ?_,
    fun t ht method hmethod => ?_, fun name id hid => ?_⟩
  · rw [module?_push hmodules] at hold
    split at hold
    · rename_i hid
      cases hold
      exact hid ▸ hbody code hcode
    · exact hext.owns (h.bodies id old code hold hcode)
  · rw [hfunctions] at hf
    exact hext.owns (h.functions f hf code captures hcode)
  · rcases hadded t ht with ht | hnew
    · exact hext.owns (h.templates t ht method hmethod)
    · exact hnew method hmethod
  · rw [hnames, Dict.get?_insert] at hid
    split at hid
    · cases hid
      rw [module?_push hmodules, if_pos rfl]
      rfl
    · exact hext.known (h.names name id hid)

theorem register_module? (m : Machine) (linked : LinkedModule) :
    ((m.register linked).2.module? (m.register linked).1).isSome := by
  simp [register, addModule, onHeap, module?]

/-- The entry of a registered module holds it. -/
theorem register_holds (m : Machine) {linked : LinkedModule} (h : linked.Accepted) :
    ∃ entry, (m.register linked).2.modules = m.modules.push entry ∧
      (m.register linked).2.names = m.names.insert entry.name ⟨m.modules.size⟩ ∧
      entry.Holds (m.register linked).2.heap ⟨m.modules.size⟩ linked := by
  have hinst := instantiateAll_instantiates ⟨m.modules.size⟩ m.heap linked.pool.toList
  refine ⟨_, rfl, rfl, h, rfl, rfl, ?_⟩
  rw [List.toList_toArray]
  exact hinst.values.imp fun _ _ => .mono (fun _ _ h => h) fun _ _ h => h

theorem Sound.register (h : m.Sound) {linked : LinkedModule} (hlinked : linked.Accepted) :
    m.Grows (m.register linked).2 := by
  have hinst := instantiateAll_instantiates ⟨m.modules.size⟩ m.heap linked.pool.toList
  obtain ⟨entry, hmodules, hnames, hholds⟩ := m.register_holds hlinked
  have howns {code : Code} (hmakes : linked.Makes code []) :
      (m.register linked).2.Owns (some ⟨m.modules.size⟩) code [] :=
    ⟨_, entry, linked, rfl, (module?_push hmodules _).trans (if_pos rfl), hholds, hmakes⟩
  refine h.addModule hmodules hnames hinst.functions hinst.codes hinst.templates
    (fun code hcode => howns (.body (hholds.body.symm.trans hcode))) fun t ht => ?_
  refine (hinst.added t ht).imp_right ?_
  rintro ⟨tc, htc, rfl⟩ method hmethod
  exact howns (.method (Array.mem_toList_iff.mp htc) (mem_of_mem_namedMethods hmethod))

theorem Sound.registerNative (h : m.Sound) (name : String) : m.Grows (m.registerNative name).2 :=
  h.addModule rfl rfl rfl (fun _ _ h => h) (fun _ _ h => h) nofun fun _ => .inl

theorem registerNative_module? (m : Machine) (name : String) :
    ((m.registerNative name).2.module? (m.registerNative name).1).isSome := by
  simp [registerNative, addModule, onHeap, module?]

end Machine

/-! ## Frames -/

/-- The frame executes code of the module that its scope is of. -/
structure Frame.Sound (m : Machine) (frame : Frame) : Prop where
  scope : m.scope? frame.scope.module = some frame.scope
  owned : m.Owns (some frame.scope.module) frame.code frame.captures

namespace Frame

variable {m m' : Machine} {frame frame' : Frame}

theorem Sound.mono (h : frame.Sound m) (H : m.Extends m') : frame.Sound m' :=
  ⟨H.scope? h.scope, H.owns h.owned⟩

/-- Where the frame is, what it works on and whom it returns to does not matter. -/
theorem Sound.of_eq (h : frame.Sound m) (hcode : frame'.code = frame.code)
    (hscope : frame'.scope = frame.scope) (hcaptures : frame'.captures = frame.captures) :
    frame'.Sound m := by
  refine ⟨?_, ?_⟩
  · rw [hscope]
    exact h.scope
  · rw [hcode, hscope, hcaptures]
    exact h.owned

theorem Sound.handle? (h : frame.Sound m) {e : Value} (hframe : frame.handle? e = some frame') :
    frame'.Sound m := by
  obtain ⟨_, _, rfl⟩ := Option.map_eq_some_iff.mp hframe
  exact h.of_eq rfl rfl rfl

theorem Sound.deliver (h : frame.Sound m) (value : Value) : (frame.deliver value).Sound m :=
  h.of_eq rfl rfl rfl

/-- The module that a frame executes code of. -/
theorem Sound.holds (h : frame.Sound m) : ∃ entry linked,
    m.module? frame.scope.module = some entry ∧ frame.scope.constants = entry.constants ∧
      entry.Holds m.heap frame.scope.module linked ∧
      linked.Makes frame.code frame.captures := by
  obtain ⟨id, entry, linked, hid, hentry, hholds, hmakes⟩ := h.owned
  cases hid
  obtain ⟨entry', hentry', hscope⟩ := Option.map_eq_some_iff.mp h.scope
  cases Option.some.inj (hentry.symm.trans hentry')
  exact ⟨entry, linked, hentry, by rw [← hscope], hholds, hmakes⟩

/-- The code constants of a sound frame's module are what its closures execute. -/
theorem Sound.closes (h : frame.Sound m) : Local.Closes m.Owns ⟨m.heap, frame⟩ := by
  obtain ⟨entry, linked, hentry, hconstants, hholds, -⟩ := h.holds
  intro r code captures hr hcode hlength
  obtain ⟨i, hi⟩ := Array.getElem?_of_mem hr
  obtain ⟨c, hc, H⟩ := hholds.represents (hconstants ▸ hi)
  cases H with
  | code hcode' =>
    cases Option.some.inj (hcode'.symm.trans hcode)
    exact ⟨_, entry, linked, rfl, hentry, hholds, .closure (Array.mem_of_getElem? hc) hlength⟩

/-- The operands of a sound frame's instructions lead to constants, names and code objects. -/
theorem Sound.finds (h : frame.Sound m) {i : Instruction} (hi : i ∈ frame.code.instructions) :
    Local.Finds ⟨m.heap, frame⟩ i := by
  obtain ⟨entry, linked, hentry, hconstants, hholds, hmakes⟩ := h.holds
  have hground := (hholds.accepted.grounded _ hmakes.has i hi).operand
  unfold Instruction.operandValid at hground
  unfold Local.Finds
  rw [hconstants]
  revert hground
  cases i.opcode.operandKind with
  | none | slot | target | capture => exact fun _ => trivial
  | constant =>
    intro hground
    obtain ⟨value, hvalue, -⟩ := hholds.represented
      (Array.getElem?_eq_getElem (of_decide_eq_true (hground nofun)))
    exact ⟨value, hvalue⟩
  | name =>
    intro hground
    specialize hground nofun
    dsimp only at hground
    split at hground
    · rename_i s hs
      obtain ⟨value, hvalue, H⟩ := hholds.represented hs
      cases H
      exact ⟨s, hvalue⟩
    · exact nomatch hground
  | code =>
    intro hground
    specialize hground nofun
    dsimp only at hground
    split at hground
    · rename_i code hcode
      obtain ⟨value, hvalue, H⟩ := hholds.represented hcode
      cases H with
      | @code r _ hr => exact ⟨r, code, hvalue, hr⟩
    · exact nomatch hground

/-- A new frame is that of the code it was bound for, and is at its first instruction. -/
theorem bind_spec (own : Option ModuleId → Code → List (Ref .cell) → Prop) (h : Heap)
    (function : Ref .function) (code : Code) (captures : List (Ref .cell)) (scope : Scope)
    (receiver : Value) (args : Arguments) :
    h.Adds own (Frame.bind h function code captures scope receiver args).2 ∧
      match (Frame.bind h function code captures scope receiver args).1 with
      | .ok frame => frame.code = code ∧ frame.scope = scope ∧ frame.captures = captures ∧
        frame.instruction = 0
      | .error fault => fault ≠ .invalidInstruction := by
  rcases Frame.bind_cases h function code captures scope receiver args with
    ⟨fault, hfault, hbind⟩ | ⟨-, _, _, h', hcollects, -, hbind⟩
  · rw [hbind]
    exact ⟨.refl h, Fault.ne_invalid_of_isOrdinary (Signature.isOrdinary_of_mismatch? hfault)⟩
  · rw [hbind, hcollects.rest]
    exact ⟨.of_eq rfl rfl rfl rfl, rfl, rfl, rfl, rfl⟩

end Frame

/-! ## Preparing calls -/

namespace Machine

variable {m m' : Machine}

/-- The frame that a call executes is sound, and the call does not fail for lack of a module. -/
def Invocation.Sound (m : Machine) : Invocation → Prop
  | .enter frame => frame.Sound m ∧ frame.instruction = 0
  | .fail fault => fault ≠ .invalidInstruction
  | .complete _ | .run _ => True

/-- What preparing a call does to a sound machine. -/
structure Prepares (m : Machine) (prepared : Invocation × Machine) : Prop where
  grows : m.Grows prepared.2
  errors : prepared.2.heap.errors = m.heap.errors
  invocation : prepared.1.Sound prepared.2

/-- The methods of an instance are those of its template. -/
theorem declareMethods_adds {own : Option ModuleId → Code → List (Ref .cell) → Prop}
    (id : ModuleId) (self : Ref .object) (h : Heap) (o : Object) {methods : List (String × Code)}
    (howned : ∀ method ∈ methods, own (some id) method.2 []) :
    h.Adds own (declareMethods id self h o methods).2 := by
  induction methods generalizing h o with
  | nil => exact .refl h
  | cons method rest ih =>
    obtain ⟨name, code⟩ := method
    have hnew : h.Adds own (h.newFunction {
        module := some id, receiver := .object self, body := .interpreted code [] }).2 := by
      refine .newFunction fun _ code' captures hbody => ?_
      cases hbody
      exact howned _ (List.mem_cons_self ..)
    simp only [declareMethods]
    split
    · rename_i o' _
      exact hnew.trans (ih _ o' fun method hm => howned method (List.mem_cons_of_mem _ hm))
    · exact hnew

theorem construct_adds (own : Option ModuleId → Code → List (Ref .cell) → Prop) (h : Heap)
    {t : Template} (args : Arguments)
    (howned : ∀ method ∈ t.methods, own (some t.module) method.2 []) :
    h.Adds own (construct h t args).2 := by
  unfold construct
  split
  · exact .refl h
  · dsimp only
    have hself : h.Adds own (h.newObject {}).2 := .of_eq rfl rfl rfl rfl
    have hmethods := declareMethods_adds t.module (h.newObject {}).1 (h.newObject {}).2 {} howned
    generalize declareMethods t.module _ _ _ t.methods = declared at hmethods
    obtain ⟨fault | o, h'⟩ := declared
    · exact hself.trans hmethods
    · dsimp only
      split
      · exact hself.trans hmethods
      · exact hself.trans (hmethods.trans (.of_eq rfl rfl rfl rfl))

theorem Sound.prepareCall (h : m.Sound) (callable receiver : Value) (args : Arguments) :
    m.Prepares (m.prepareCall callable receiver args) := by
  have refl {invocation : Invocation} (hi : invocation.Sound m) : m.Prepares (invocation, m) :=
    ⟨h.refl, rfl, hi⟩
  cases callable with
  | function r =>
    simp only [Machine.prepareCall]
    cases hf : m.heap.function? r with
    | none => exact refl (by rintro ⟨⟩)
    | some f =>
      dsimp only
      cases hbody : f.body with
      | native name routine => exact refl trivial
      | interpreted code captures =>
        dsimp only
        obtain ⟨id, entry, linked, hmodule, hentry, hholds, hmakes⟩ :=
          h.functions.of_function? hf code captures hbody
        have hscope : f.module.bind m.scope? = some ⟨id, entry.constants, entry.object⟩ := by
          rw [hmodule, Option.bind_some, scope?, hentry]
          rfl
        rw [hscope]
        dsimp only [onHeap]
        obtain ⟨hadds, hbound⟩ := Frame.bind_spec m.Owns m.heap r code captures
          ⟨id, entry.constants, entry.object⟩
          (if f.receiver.isNull then receiver else f.receiver) args
        generalize Frame.bind m.heap r code captures _ _ args = bound at hadds hbound
        obtain ⟨fault | frame, heap⟩ := bound
        · exact ⟨h.of_adds rfl rfl hadds, hadds.errors, hbound⟩
        · have hgrows : m.Grows { m with heap } := h.of_adds rfl rfl hadds
          obtain ⟨hcode, hscope', hcaptures, hinstruction⟩ := hbound
          refine ⟨hgrows, hadds.errors, ⟨?_, ?_⟩, hinstruction⟩
          · rw [hscope']
            refine hgrows.extend.scope? ?_
            rw [scope?, hentry]
            rfl
          · rw [hscope', hcode, hcaptures]
            exact hgrows.extend.owns ⟨id, entry, linked, rfl, hentry, hholds, hmakes⟩
  | template r =>
    simp only [Machine.prepareCall]
    cases ht : m.heap.template? r with
    | none => exact refl (by rintro ⟨⟩)
    | some t =>
      dsimp only [onHeap]
      have hadds := construct_adds m.Owns m.heap args (h.templates t (Array.mem_of_getElem? ht))
      have hfault := ordinary_construct m.heap t args
      generalize construct m.heap t args = constructed at hadds hfault
      obtain ⟨fault | value, heap⟩ := constructed
      · exact ⟨h.of_adds rfl rfl hadds, hadds.errors, Fault.ne_invalid_of_isOrdinary hfault⟩
      · exact ⟨h.of_adds rfl rfl hadds, hadds.errors, trivial⟩
  | _ => exact refl (by rintro ⟨⟩)

theorem Sound.prepareInvoke (h : m.Sound) (target : Value) (name : String) (args : Arguments)
    (caller : Option ModuleId) : m.Prepares (m.prepareInvoke target name args caller) := by
  unfold Machine.prepareInvoke
  split
  · split
    · exact ⟨h.refl, rfl, nofun⟩
    · rename_i o _
      split
      · exact h.prepareCall ..
      · rename_i fault hfault
        have hordinary := (o.ordinary_get name caller).of_error hfault
        exact ⟨h.refl, rfl, Fault.ne_invalid_of_isOrdinary hordinary⟩
  · split
    · rename_i fault hfault
      have hordinary := (Builtin.ordinary_call m.heap _ name args).of_error hfault
      exact ⟨h.refl, rfl, Fault.ne_invalid_of_isOrdinary hordinary⟩
    · rename_i outcome houtcome
      have hadds : m.heap.Adds m.Owns _ := Builtin.realizes_call m.heap _ name args outcome houtcome
      exact ⟨h.of_adds rfl rfl hadds, hadds.errors, trivial⟩

end Machine

end FiberMachine
