import FiberMachine.Proofs.Artifact.Partial
import FiberMachine.Proofs.Finder.Name
import FiberMachine.Source

/-!
# Caching is not observable

A finder that compiled a source leaves an artifact for the next time, or part of one, or none
(`Finder.MayLeave`). Whatever it left, it finds the same module the next time
(`Finder.resolve_of_mayLeave`): an artifact that can be decoded holds the module that was compiled,
and otherwise the source is compiled again. No other file that the search looks at is at the path
of the artifact, since source and artifact differ in their extension.
-/

namespace FiberMachine

/-! ## Paths -/

namespace Path

/-- The text of a path up to its last component. -/
def stem (front : Path) : List Char :=
  if front = [] then [] else (text front).toList ++ ['/']

theorem toList_text_concat (front : Path) (last : String) :
    (text (front ++ [last])).toList = stem front ++ last.toList := by
  unfold stem text
  split
  case isTrue h => simp [h]
  case isFalse h => simp [String.intercalate_append_of_ne_nil h]

/-- The last component is what follows the last slash. -/
theorem takeWhile_stem_append (front : Path) {last : List Char} (h : '/' ∉ last) :
    (stem front ++ last).reverse.takeWhile (· != '/') = last.reverse := by
  have hlast : ∀ c ∈ last.reverse, (c != '/') = true := by
    intro c hc
    rw [bne_iff_ne]
    rintro rfl
    exact h (List.mem_reverse.mp hc)
  rw [List.reverse_append, List.takeWhile_append_of_pos hlast]
  unfold stem
  split <;> simp

theorem stem_append_inj {front front' : Path} {last last' : List Char} (h : '/' ∉ last)
    (h' : '/' ∉ last') (heq : stem front ++ last = stem front' ++ last') :
    stem front = stem front' ∧ last = last' := by
  have hlast : last = last' := by
    rw [← List.reverse_inj, ← takeWhile_stem_append front h, heq, takeWhile_stem_append front' h']
  exact ⟨List.append_cancel_right (hlast ▸ heq), hlast⟩

end Path

/-! ## Workspaces -/

namespace Workspace

/--
Nothing changed from `w` to `w'` but what is at `p`, which may now be a file with a front of the
bytes, and the times of directories.
-/
def Overwritten (w w' : Workspace) (p : Path) (bytes : List UInt8) : Prop :=
  ∀ q : Path, w'.node? q = w.node? q ∨
    (q.text = p.text ∧ ∃ front stamp, front <+: bytes ∧ w'.node? q = some (.file front stamp)) ∨
    ∃ stamp stamp', w.node? q = some (.directory stamp) ∧ w'.node? q = some (.directory stamp')

theorem node?_congr (w : Workspace) {p q : Path} (h : q.text = p.text) : w.node? q = w.node? p :=
  congrArg w.nodes.get? h

theorem node?_setNode (w : Workspace) (p q : Path) (n : Node) :
    (w.setNode p n).node? q = if q.text = p.text then some n else w.node? q :=
  Dict.get?_insert ..

/-- Of a new entry, no more than the time of a directory shows elsewhere. -/
theorem node?_touchParent (w : Workspace) (p q : Path) :
    (w.touchParent p).node? q = w.node? q ∨
      ∃ stamp stamp', w.node? q = some (.directory stamp) ∧
        (w.touchParent p).node? q = some (.directory stamp') := by
  unfold touchParent
  split
  case h_1 stamp _ hparent =>
    rw [node?_setNode]
    split
    case isTrue h => exact .inr ⟨stamp, .recent, (w.node?_congr h).trans hparent, rfl⟩
    case isFalse => exact .inl rfl
  case h_2 => exact .inl rfl

theorem overwritten_write (w : Workspace) (p : Path) (bytes : List UInt8) :
    w.Overwritten (w.write p bytes) p bytes := by
  intro q
  unfold write
  split
  case h_1 => exact .inl rfl
  case h_2 =>
    split
    case isTrue =>
      rw [node?_setNode]
      split
      case isTrue h => exact .inr (.inl ⟨h, bytes, .recent, List.prefix_rfl, rfl⟩)
      case isFalse => exact (w.node?_touchParent p q).imp_right .inr
    case isFalse => exact .inl rfl

theorem compilations_write (w : Workspace) (p : Path) (bytes : List UInt8) :
    (w.write p bytes).compilations = w.compilations := by
  have htouch : (w.touchParent p).compilations = w.compilations := by
    unfold touchParent
    split <;> rfl
  unfold write
  split
  · rfl
  · split
    · exact htouch
    · rfl

variable {w w' : Workspace} {p : Path}

theorem modified?_congr (h : w'.node? p = w.node? p) : w'.modified? p = w.modified? p :=
  congrArg (Option.map Node.stamp) h

theorem read_congr (h : w'.node? p = w.node? p) : w'.read p = w.read p := by
  rw [read, h]
  rfl

theorem readText_congr (h : w'.node? p = w.node? p) : w'.readText p = w.readText p := by
  rw [readText, read_congr h]
  rfl

/-- What can be read as text is a file. -/
theorem file_of_readText {text : String} (h : w.readText p = .ok text) :
    ∃ bytes stamp, w.node? p = some (.file bytes stamp) := by
  unfold readText read at h
  split at h
  case h_1 bytes stamp hnode => exact ⟨bytes, stamp, hnode⟩
  all_goals cases h

end Workspace

/-! ## Looking in a directory -/

namespace Finder

variable {f : Finder} {w w' : Workspace} {name : String} {directory : Path} {m : LinkedModule}

/-- Where the source of the module is in a directory. -/
abbrev sourcePath (f : Finder) (name : String) (directory : Path) : Path :=
  modulePath directory name f.sourceExtension

/-- Where the artifact of the module is in a directory. -/
abbrev artifactPath (f : Finder) (name : String) (directory : Path) : Path :=
  modulePath directory name f.artifactExtension

/-- The directory has a source or an artifact of the module. -/
def hasModule (f : Finder) (w : Workspace) (name : String) (directory : Path) : Bool :=
  (w.modified? (f.sourcePath name directory)).isSome ||
    (w.modified? (f.artifactPath name directory)).isSome

/-- The first directory that has the module. -/
def home? (f : Finder) (w : Workspace) (name : String) : Option Path :=
  f.directories.find? (f.hasModule w name)

theorem readArtifact_congr {p : Path} (h : w'.node? p = w.node? p) :
    readArtifact w' name p = readArtifact w name p := by
  rw [readArtifact, Workspace.read_congr h]
  rfl

/-- The module that was read is what the bytes of the file decode to. -/
theorem readArtifact_eq_ok {p : Path} (h : readArtifact w name p = .ok m) :
    ∃ bytes stamp, w.node? p = some (.file bytes stamp) ∧ Artifact.decode name bytes = .ok m := by
  unfold readArtifact Workspace.read at h
  cases hnode : w.node? p with
  | none =>
    rw [hnode] at h
    cases h
  | some node =>
    rw [hnode] at h
    cases node with
    | directory stamp => cases h
    | file bytes stamp =>
      dsimp only at h
      split at h
      case h_1 hdecode =>
        cases h
        exact ⟨bytes, stamp, rfl, hdecode⟩
      case h_2 => cases h

/-- What is compiled depends on the source alone. -/
theorem compileAt_congr {source artifact : Path} (h : w'.node? source = w.node? source) :
    (f.compileAt w' name source artifact).1 = (f.compileAt w name source artifact).1 := by
  unfold compileAt
  rw [Workspace.readText_congr h]
  cases f.compiler with
  | none => rfl
  | some compiler =>
    cases w.readText source with
    | error reason => rfl
    | ok text =>
      dsimp only
      cases compiler name text with
      | error reason => rfl
      | ok bitcode =>
        dsimp only
        cases bitcode.link <;> rfl

/-- A module that was compiled is a linked one under its name, and its artifact is written. -/
theorem compileAt_eq_ok {source artifact : Path}
    (h : f.compileAt w name source artifact = (.ok m, w')) :
    (∃ bytes stamp, w.node? source = some (.file bytes stamp)) ∧
      (∃ (bitcode : Bitcode.Module) (linked : LinkedModule),
        bitcode.link = .ok linked ∧ m = linked.renamed name) ∧
      w' = f.writeArtifact { w with compilations := w.compilations + 1 } artifact m := by
  unfold compileAt at h
  split at h
  case h_1 => cases h
  case h_2 compiler _ =>
    split at h
    case h_1 => cases h
    case h_2 text htext =>
      dsimp only at h
      split at h
      case h_1 => cases h
      case h_2 bitcode _ =>
        split at h
        case h_1 => cases h
        case h_2 linked hlink =>
          cases h
          exact ⟨Workspace.file_of_readText htext, ⟨bitcode, linked, hlink, rfl⟩, rfl⟩

theorem resolveIn_of_not_hasModule (h : f.hasModule w name directory = false) :
    f.resolveIn w name directory = (.ok none, w) := by
  rw [hasModule, Bool.or_eq_false_iff, Option.isSome_eq_false_iff, Option.isNone_iff_eq_none,
    Option.isSome_eq_false_iff, Option.isNone_iff_eq_none] at h
  simp only [resolveIn, h.1, h.2]

theorem map_some_ne_ok_none {result : Except FinderError LinkedModule} :
    result.map some ≠ .ok none := by
  cases result <;> rintro ⟨⟩

theorem map_some_eq_ok {result : Except FinderError LinkedModule}
    (h : result.map some = .ok (some m)) : result = .ok m := by
  cases result with
  | error e => cases h
  | ok m' =>
    cases h
    rfl

/-- In a directory that has the module, it is found or there is an error. -/
theorem resolveIn_ne_none (h : f.hasModule w name directory = true) :
    f.resolveIn w name directory ≠ (.ok none, w') := by
  intro heq
  unfold resolveIn at heq
  dsimp only at heq
  split at heq
  case h_1 hsource hartifact =>
    rw [hasModule, hsource, hartifact] at h
    cases h
  case h_2 => exact map_some_ne_ok_none (Prod.mk.inj heq).1
  case h_3 => exact map_some_ne_ok_none (Prod.mk.inj heq).1
  case h_4 =>
    split at heq
    case isTrue =>
      split at heq
      case h_1 => cases heq
      case h_2 => exact map_some_ne_ok_none (Prod.mk.inj heq).1
    case isFalse => exact map_some_ne_ok_none (Prod.mk.inj heq).1

/-- A module that is found was read, and nothing was written, or it was compiled. -/
theorem resolveIn_eq_ok (h : f.resolveIn w name directory = (.ok (some m), w')) :
    (readArtifact w name (f.artifactPath name directory) = .ok m ∧ w' = w) ∨
      f.compileAt w name (f.sourcePath name directory) (f.artifactPath name directory) =
        (.ok m, w') := by
  have hcompiled {result : Except FinderError LinkedModule × Workspace}
      (h : (result.1.map some, result.2) = (.ok (some m), w')) : result = (.ok m, w') :=
    Prod.ext (map_some_eq_ok (Prod.mk.inj h).1) (Prod.mk.inj h).2
  unfold resolveIn at h
  dsimp only at h
  split at h
  case h_1 => cases h
  case h_2 => exact .inl ⟨map_some_eq_ok (Prod.mk.inj h).1, (Prod.mk.inj h).2.symm⟩
  case h_3 => exact .inr (hcompiled h)
  case h_4 =>
    split at h
    case isTrue =>
      split at h
      case h_1 hread =>
        cases h
        exact .inl ⟨hread, rfl⟩
      case h_2 => exact .inr (hcompiled h)
    case isFalse => exact .inr (hcompiled h)

/-- Where there is a source, what its compilation gives and no artifact contradicts is found. -/
theorem resolveIn_of_compileAt (hsource : (w.modified? (f.sourcePath name directory)).isSome)
    (hcompile : (f.compileAt w name (f.sourcePath name directory)
      (f.artifactPath name directory)).1 = .ok m)
    (hread : ∀ m', readArtifact w name (f.artifactPath name directory) = .ok m' → m' = m) :
    (f.resolveIn w name directory).1 = .ok (some m) := by
  obtain ⟨time, hsource⟩ := Option.isSome_iff_exists.mp hsource
  have hcompiled : (f.compileAt w name (f.sourcePath name directory)
      (f.artifactPath name directory)).1.map some = .ok (some m) := by
    rw [hcompile]
    rfl
  unfold resolveIn
  dsimp only
  rw [hsource]
  split
  case h_1 h _ => cases h
  case h_2 h _ => cases h
  case h_3 => exact hcompiled
  case h_4 =>
    split
    case isTrue =>
      split
      case h_1 m' hm' => rw [hread m' hm']
      case h_2 => exact hcompiled
    case isFalse => exact hcompiled

theorem resolveIn_congr
    (hsource : w'.node? (f.sourcePath name directory) = w.node? (f.sourcePath name directory))
    (hartifact :
      w'.node? (f.artifactPath name directory) = w.node? (f.artifactPath name directory)) :
    (f.resolveIn w' name directory).1 = (f.resolveIn w name directory).1 := by
  have hcompile : (f.compileAt w' name (f.sourcePath name directory)
      (f.artifactPath name directory)).1.map some = (f.compileAt w name
        (f.sourcePath name directory) (f.artifactPath name directory)).1.map some :=
    congrArg (Except.map some) (compileAt_congr hsource)
  unfold resolveIn
  dsimp only
  rw [Workspace.modified?_congr hsource, Workspace.modified?_congr hartifact,
    readArtifact_congr hartifact]
  cases w.modified? (f.sourcePath name directory) with
  | none => cases w.modified? (f.artifactPath name directory) <;> rfl
  | some sourceTime =>
    cases w.modified? (f.artifactPath name directory) with
    | none => exact hcompile
    | some artifactTime =>
      dsimp only
      split
      case isTrue =>
        cases readArtifact w name (f.artifactPath name directory) with
        | ok m => rfl
        | error e => exact hcompile
      case isFalse => exact hcompile

/-! ## Searching the directories -/

theorem resolveAmong_eq (directories : List Path) :
    f.resolveAmong name w directories =
      (directories.find? (f.hasModule w name)).elim (.ok none, w) (f.resolveIn w name) := by
  induction directories with
  | nil => rfl
  | cons directory rest ih =>
    rw [resolveAmong]
    cases hhas : f.hasModule w name directory with
    | false =>
      rw [resolveIn_of_not_hasModule hhas, List.find?_cons_of_neg (by simp [hhas])]
      exact ih
    | true =>
      rw [List.find?_cons_of_pos hhas]
      split
      case h_1 w' h => exact absurd h (resolveIn_ne_none hhas)
      case h_2 => rfl

/-- The module of a valid name is looked for in the first directory that has it. -/
theorem resolve_of_home? (hname : ModuleName.isValid f.alphabet name)
    (h : f.home? w name = some directory) :
    f.resolve w name = f.resolveIn w name directory := by
  rw [home?] at h
  rw [resolve, if_pos hname, resolveAmong_eq, h, Option.elim_some]

theorem resolve_eq_ok (h : f.resolve w name = (.ok (some m), w')) :
    ModuleName.isValid f.alphabet name ∧ ∃ directory, f.home? w name = some directory ∧
      f.resolveIn w name directory = (.ok (some m), w') := by
  unfold resolve at h
  split at h
  case isTrue hname =>
    refine ⟨hname, ?_⟩
    rw [resolveAmong_eq] at h
    cases hhome : f.directories.find? (f.hasModule w name) with
    | none =>
      rw [hhome] at h
      cases h
    | some directory =>
      rw [hhome] at h
      exact ⟨directory, hhome, h⟩
  case isFalse => cases h

/-- Which module is found depends on the files and directories alone. -/
theorem resolve_congr (h : ∀ q, w'.node? q = w.node? q) :
    (f.resolve w' name).1 = (f.resolve w name).1 := by
  have hhas : f.hasModule w' name = f.hasModule w name := by
    funext directory
    rw [hasModule, Workspace.modified?_congr (h _), Workspace.modified?_congr (h _), hasModule]
  unfold resolve
  split
  case isTrue =>
    rw [resolveAmong_eq, resolveAmong_eq, hhas]
    cases f.directories.find? (f.hasModule w name) with
    | none => rfl
    | some directory => exact resolveIn_congr (h _) (h _)
  case isFalse => rfl

/-! ## Sources apart from artifacts -/

/-- The extensions differ and are each a part of the name of a file. -/
structure Separates (f : Finder) : Prop where
  extensions : f.sourceExtension ≠ f.artifactExtension
  source : '/' ∉ f.sourceExtension.toList
  artifact : '/' ∉ f.artifactExtension.toList

theorem slash_notMem_withExtension {file extension : String} (h : '/' ∉ file.toList)
    (h' : '/' ∉ extension.toList) : '/' ∉ (withExtension file extension).toList := by
  unfold withExtension
  split
  · exact h
  · simp [h, h']

theorem withExtension_inj {file extension extension' : String}
    (h : withExtension file extension = withExtension file extension') :
    extension = extension' := by
  have hlength := congrArg String.toList h
  unfold withExtension at hlength
  split at hlength
  case isTrue hempty =>
    split at hlength
    case isTrue hempty' => rw [hempty, hempty']
    case isFalse => simp at hlength
  case isFalse =>
    split at hlength
    case isTrue => simp at hlength
    case isFalse => simpa [String.toList_inj] using hlength

theorem toList_text_modulePath {name last : String} {front : List String}
    (h : ModuleName.parts name = front ++ [last])
    (hplain : ∀ part ∈ front ++ [last], Path.IsPlain part) (directory : Path) (extension : String) :
    (modulePath directory name extension).text.toList =
      Path.stem (directory ++ front) ++ (withExtension last extension).toList := by
  rw [modulePath_of_plain h hplain, Path.toList_text_concat]

section Separates

variable (hf : f.Separates) (hname : ModuleName.isValid f.alphabet name)

include hf hname

theorem Separates.sourcePath_ne_artifactPath (directory directory' : Path) :
    (f.sourcePath name directory).text ≠ (f.artifactPath name directory').text := by
  intro h
  obtain ⟨front, last, hparts, hplain⟩ := ModuleName.exists_parts hname
  have hlast := (hplain last (by simp)).slash_notMem
  have heq := congrArg String.toList h
  rw [sourcePath, artifactPath, toList_text_modulePath hparts hplain,
    toList_text_modulePath hparts hplain] at heq
  have hsame := (Path.stem_append_inj (slash_notMem_withExtension hlast hf.source)
    (slash_notMem_withExtension hlast hf.artifact) heq).2
  exact hf.extensions (withExtension_inj (String.toList_inj.mp hsame))

/-- Directories with the same artifact have the same source. -/
theorem Separates.sourcePath_eq_of_artifactPath {directory' : Path}
    (h : (f.artifactPath name directory).text = (f.artifactPath name directory').text) :
    (f.sourcePath name directory).text = (f.sourcePath name directory').text := by
  obtain ⟨front, last, hparts, hplain⟩ := ModuleName.exists_parts hname
  have hlast := slash_notMem_withExtension (hplain last (by simp)).slash_notMem hf.artifact
  have heq := congrArg String.toList h
  rw [artifactPath, artifactPath, toList_text_modulePath hparts hplain,
    toList_text_modulePath hparts hplain] at heq
  have hstem := (Path.stem_append_inj hlast hlast heq).1
  rw [← String.toList_inj, sourcePath, sourcePath, toList_text_modulePath hparts hplain,
    toList_text_modulePath hparts hplain, hstem]

variable {bytes content : List UInt8} {stamp : Stamp}
  (hover : w.Overwritten w' (f.artifactPath name directory) bytes)
  (hsource : w.node? (f.sourcePath name directory) = some (.file content stamp))

include hover hsource

/-- Writing the artifact leaves the source as it is. -/
theorem Separates.node?_sourcePath_of_overwritten :
    w'.node? (f.sourcePath name directory) = w.node? (f.sourcePath name directory) := by
  rcases hover (f.sourcePath name directory) with h | ⟨h, _⟩ | ⟨_, _, h, _⟩
  · exact h
  · exact absurd h (hf.sourcePath_ne_artifactPath hname directory directory)
  · rw [hsource] at h
    cases h

/-- A directory without the module does not get it from an artifact that is written elsewhere. -/
theorem Separates.not_hasModule_of_overwritten {other : Path}
    (h : f.hasModule w name other = false) : f.hasModule w' name other = false := by
  have hkept {q : Path} (hq : w.modified? q = none)
      (hne : q.text ≠ (f.artifactPath name directory).text) : w'.modified? q = none := by
    have hnode : w.node? q = none := Option.map_eq_none_iff.mp hq
    rcases hover q with h | ⟨h, _⟩ | ⟨_, _, h, _⟩
    · rw [Workspace.modified?_congr h, hq]
    · exact absurd h hne
    · rw [hnode] at h
      cases h
  rw [hasModule, Bool.or_eq_false_iff, Option.isSome_eq_false_iff, Option.isNone_iff_eq_none,
    Option.isSome_eq_false_iff, Option.isNone_iff_eq_none] at h
  have hartifact : (f.artifactPath name other).text ≠ (f.artifactPath name directory).text := by
    intro heq
    have hsame := w.node?_congr (hf.sourcePath_eq_of_artifactPath hname heq)
    rw [hsource, Option.map_eq_none_iff.mp h.1] at hsame
    cases hsame
  rw [hasModule, hkept h.1 (hf.sourcePath_ne_artifactPath hname other directory),
    hkept h.2 hartifact]
  rfl

theorem Separates.home?_of_overwritten (hhome : f.home? w name = some directory) :
    f.home? w' name = some directory := by
  rw [home?, List.find?_eq_some_iff_append] at hhome ⊢
  obtain ⟨-, before, after, hdirectories, hbefore⟩ := hhome
  refine ⟨?_, before, after, hdirectories, fun other hother => ?_⟩
  · rw [hasModule, Workspace.modified?, hf.node?_sourcePath_of_overwritten hname hover hsource,
      hsource]
    rfl
  · have hnot : f.hasModule w name other = false := by simpa using hbefore other hother
    rw [hf.not_hasModule_of_overwritten hname hover hsource hnot]
    rfl

end Separates

/-! ## Finding a module again -/

/--
What there may be in the workspace after the module was found as `m`: the files as they were or,
if its source was compiled and artifacts are written, with its artifact or a front of it.
-/
inductive MayLeave (f : Finder) (w : Workspace) (name : String) (m : LinkedModule)
    (w' : Workspace) : Prop where
  | unchanged : (∀ q, w'.node? q = w.node? q) → MayLeave f w name m w'
  | written {directory : Path} {bytes : List UInt8} :
      f.home? w name = some directory →
      (f.resolve w name).2.compilations = w.compilations + 1 → f.writesArtifacts →
      Artifact.encode m = .ok bytes →
      w.Overwritten w' (f.artifactPath name directory) bytes → MayLeave f w name m w'

/-- A compilation writes the artifact if it is to be written and can be encoded. -/
theorem writeArtifact_cases (f : Finder) (w : Workspace) (p : Path) (m : LinkedModule) :
    f.writeArtifact w p m = w ∨ f.writesArtifacts ∧ ∃ bytes, Artifact.encode m = .ok bytes ∧
      f.writeArtifact w p m = w.write p bytes := by
  unfold writeArtifact
  split
  case isTrue hwrites =>
    cases hbytes : Artifact.encode m with
    | error e => exact .inl rfl
    | ok bytes => exact .inr ⟨hwrites, bytes, rfl, rfl⟩
  case isFalse => exact .inl rfl

theorem mayLeave_of_resolve (h : f.resolve w name = (.ok (some m), w')) :
    f.MayLeave w name m w' := by
  obtain ⟨-, directory, hhome, hfound⟩ := resolve_eq_ok h
  rcases resolveIn_eq_ok hfound with ⟨-, rfl⟩ | hcompile
  · exact .unchanged fun _ => rfl
  · obtain ⟨-, -, hw'⟩ := compileAt_eq_ok hcompile
    rcases f.writeArtifact_cases { w with compilations := w.compilations + 1 }
      (f.artifactPath name directory) m with hsame | ⟨hwrites, bytes, hbytes, hwritten⟩
    · rw [hw', hsame]
      exact .unchanged fun _ => rfl
    · refine .written hhome ?_ hwrites hbytes ?_
      · rw [h, hw', hwritten, Workspace.compilations_write]
      · rw [hw', hwritten]
        exact Workspace.overwritten_write { w with compilations := w.compilations + 1 } _ _

/-- What is left of the artifact of a linked module decodes to the module or not at all. -/
theorem eq_of_decode_front {bitcode : Bitcode.Module} {linked m' : LinkedModule}
    {bytes front : List UInt8} (hlink : bitcode.link = .ok linked)
    (hbytes : Artifact.encode (linked.renamed name) = .ok bytes) (hfront : front <+: bytes)
    (hdecode : Artifact.decode name front = .ok m') : m' = linked.renamed name := by
  have hnormal := congrArg LinkedModule.pool (Bitcode.normalized_of_link hlink)
  obtain ⟨-, rfl⟩ := Artifact.decode_of_isPrefix hbytes hfront hdecode
  exact congrArg (LinkedModule.mk name) hnormal

/--
A module that was found is found again, as the same module, whatever finding it left behind of its
artifact and whenever that was written.
-/
theorem resolve_of_mayLeave {w₁ : Workspace} (hf : f.Separates)
    (h : f.resolve w name = (.ok (some m), w₁)) :
    f.MayLeave w name m w₁ ∧
      ∀ w₂, f.MayLeave w name m w₂ → (f.resolve w₂ name).1 = .ok (some m) := by
  refine ⟨mayLeave_of_resolve h, fun w₂ hleft => ?_⟩
  cases hleft with
  | unchanged hsame => rw [resolve_congr hsame, h]
  | @written directory bytes hhome hcompiled hwrites hbytes hover =>
    obtain ⟨hname, _, hhome', hfound⟩ := resolve_eq_ok h
    cases hhome.symm.trans hhome'
    rcases resolveIn_eq_ok hfound with ⟨-, rfl⟩ | hcompile
    · -- nothing was compiled
      rw [h] at hcompiled
      exact absurd hcompiled (Nat.ne_of_lt (Nat.lt_succ_self _))
    · obtain ⟨⟨content, stamp, hsource⟩, ⟨bitcode, linked, hlink, rfl⟩, -⟩ :=
        compileAt_eq_ok hcompile
      have hkept := hf.node?_sourcePath_of_overwritten hname hover hsource
      rw [resolve_of_home? hname (hf.home?_of_overwritten hname hover hsource hhome)]
      have hagain (hread : ∀ m', readArtifact w₂ name (f.artifactPath name directory) = .ok m' →
          m' = linked.renamed name) :
          (f.resolveIn w₂ name directory).1 = .ok (some (linked.renamed name)) := by
        refine resolveIn_of_compileAt ?_ ?_ hread
        · rw [Workspace.modified?, hkept, hsource]
          rfl
        · rw [compileAt_congr hkept, hcompile]
      rcases hover (f.artifactPath name directory) with
        hartifact | ⟨-, front, _, hfront, hartifact⟩ | ⟨_, _, -, hartifact⟩
      · rw [resolveIn_congr hkept hartifact, hfound]
      · refine hagain fun m' hread => ?_
        obtain ⟨_, _, hnode, hdecode⟩ := readArtifact_eq_ok hread
        cases hartifact.symm.trans hnode
        exact eq_of_decode_front hlink hbytes hfront hdecode
      · refine hagain fun m' hread => ?_
        obtain ⟨_, _, hnode, -⟩ := readArtifact_eq_ok hread
        cases hartifact.symm.trans hnode

/-- A finder that looks for sources in the directory `work`. -/
def compiling : Finder := { working := ["work"], compiler := some Source.compile }

/-- The source text `7` of the module `m`. -/
def sevenSource : Workspace :=
  ({} : Workspace).place ["work", "m.rf"] (.file "7".toUTF8.toList (.at 0))

/-- The module that exports the integer 7. -/
def seven : LinkedModule :=
  ⟨"m", #[.int 7, .string "value", .code ⟨some "m", {}, [], #[
    { opcode := .loadConst, operand := 0 },
    { opcode := .storeGlobal, operand := 1 },
    { opcode := .loadLocal, operand := 1 },
    { opcode := .export, operand := 1 },
    { opcode := .pushNull },
    { opcode := .return }]⟩]⟩

/-- An artifact that ends after a hundred bytes and is newer than the source is no obstacle. -/
theorem resolve_of_cutShort :
    compiling.Separates ∧ (compiling.resolve sevenSource "m").1 = .ok (some seven) ∧
      ∃ bytes, Artifact.encode seven = .ok bytes ∧ 100 < bytes.length ∧
        (compiling.resolve (sevenSource.setNode ["work", "m.rfc"]
          (.file (bytes.take 100) (.at 9))) "m").1 = .ok (some seven) := by
  have hf : compiling.Separates := ⟨by decide, by decide, by decide⟩
  have hfound : (compiling.resolve sevenSource "m").1 = .ok (some seven) := by decide +kernel
  have hhome : compiling.home? sevenSource "m" = some ["work"] := by decide +kernel
  have hbytes : Artifact.encode seven = .ok ((Artifact.encode seven).toOption.getD []) := by
    decide +kernel
  refine ⟨hf, hfound, _, hbytes, by decide +kernel, ?_⟩
  refine (resolve_of_mayLeave hf (Prod.ext hfound rfl)).2 _ ?_
  refine .written hhome (by decide +kernel) rfl hbytes fun q => ?_
  rw [Workspace.node?_setNode]
  split
  case isTrue h => exact .inr (.inl ⟨h, _, _, List.take_prefix _ _, rfl⟩)
  case isFalse => exact .inl rfl

end Finder

end FiberMachine
