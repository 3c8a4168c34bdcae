import FiberMachine.Proofs.Finder.Caching

/-!
# Where modules are looked for

The path of a module is its directory followed by the parts of its name, the last with an extension.
A valid name has only plain parts, so its path leads below the directory. Its text is that of the
directory followed by the name with slashes for its dots and by the extension, and so tells the name
and the extension: no two modules share a file, and no source is an artifact
(`Finder.modulePath_of_isValid`).
-/

namespace FiberMachine

/-! ## Components -/

namespace Path

/-- The component leads to the directory itself or out of it. -/
def isStep (component : String) : Bool :=
  component == "" || component == "." || component == ".."

/--
Where a path from a root leads if nothing on the way is a link: `..` leads out of the directory, and
a dot or nothing stay in it.
-/
def resolved (p : Path) : Path :=
  p.foldl (fun front component =>
    if component = ".." then front.dropLast
    else if isStep component then front else front ++ [component]) []

theorem resolved_append {p q : Path} (h : ∀ component ∈ q, isStep component = false) :
    resolved (p ++ q) = resolved p ++ q := by
  unfold resolved
  rw [List.foldl_append]
  generalize List.foldl _ [] p = front
  induction q generalizing front with
  | nil => exact (List.append_nil front).symm
  | cons component rest ih =>
    obtain ⟨hfirst, hrest⟩ := List.forall_mem_cons.mp h
    have hup : component ≠ ".." := by
      rintro rfl
      cases hfirst
    rw [List.foldl_cons, if_neg hup, if_neg (by simp [hfirst]), ih hrest, List.append_assoc]
    rfl

theorem toList_text_append (p : Path) {q : Path} (h : q ≠ []) :
    (text (p ++ q)).toList = stem p ++ (text q).toList := by
  unfold stem text
  split
  case isTrue hp => simp [hp]
  case isFalse hp => simp [String.intercalate_append_of_ne_nil hp h]

end Path

/-! ## Names and their parts -/

namespace ModuleName

variable {alphabet : Text.Alphabet}

/-- The character, but `s` for a dot. -/
def undot (s c : Char) : Char := if c = '.' then s else c

/-- Joined again, the parts have the separator where the dots were. -/
theorem intercalate_split (s : Char) (cs : List Char) :
    [s].intercalate (Text.split '.' cs) = cs.map (undot s) := by
  induction cs with
  | nil => rfl
  | cons c rest ih =>
    have hne := Text.split_ne_nil '.' rest
    rw [List.map_cons, ← ih]
    cases hparts : Text.split '.' rest with
    | nil => exact absurd hparts hne
    | cons part parts =>
      by_cases hc : c = '.'
      · simp [Text.split, hparts, hc, undot, List.intercalate]
      · cases parts <;> simp [Text.split, hparts, hc, undot, List.intercalate]

theorem map_toList_parts (name : String) :
    (parts name).map String.toList = Text.split '.' name.toList := by
  simp [parts, Function.comp_def]

theorem intercalate_parts (name : String) : ".".intercalate (parts name) = name := by
  have hundot : undot '.' = id := by
    funext c
    unfold undot
    split <;> simp_all
  rw [← String.toList_inj, String.toList_intercalate, map_toList_parts]
  exact (intercalate_split '.' name.toList).trans (by rw [hundot, List.map_id])

theorem toList_text_parts (name : String) :
    (Path.text (parts name)).toList = name.toList.map (undot '/') := by
  rw [Path.text, String.toList_intercalate, map_toList_parts]
  exact intercalate_split '/' name.toList

theorem exists_mem_split {cs : List Char} {c : Char} (h : c ∈ cs) (hc : c ≠ '.') :
    ∃ part ∈ Text.split '.' cs, c ∈ part := by
  induction cs with
  | nil => cases h
  | cons first rest ih =>
    unfold Text.split
    split
    · rename_i hfirst
      obtain ⟨part, hpart, hmem⟩ := ih (List.mem_of_ne_of_mem (hfirst ▸ hc) h)
      exact ⟨part, List.mem_cons_of_mem _ hpart, hmem⟩
    · cases hparts : Text.split '.' rest with
      | nil => exact absurd hparts (Text.split_ne_nil '.' rest)
      | cons front others =>
        rcases List.mem_cons.mp h with rfl | h
        · exact ⟨_, List.mem_cons_self, List.mem_cons_self⟩
        · obtain ⟨part, hpart, hmem⟩ := ih h
          rw [hparts] at hpart
          rcases List.mem_cons.mp hpart with rfl | hpart
          · exact ⟨_, List.mem_cons_self, List.mem_cons_of_mem _ hmem⟩
          · exact ⟨part, List.mem_cons_of_mem _ hpart, hmem⟩

/-- A valid name has no slashes of its own. -/
theorem slash_notMem_of_isValid {name : String} (hname : isValid alphabet name) :
    '/' ∉ name.toList := by
  intro hmem
  obtain ⟨part, hpart, hslash⟩ := exists_mem_split hmem (by decide)
  exact notMem_of_isPart (List.all_eq_true.mp hname part hpart) (by decide) hslash

/-- The text of the parts of a valid name tells the name. -/
theorem text_parts_inj {name other : String} (hname : isValid alphabet name)
    (hother : isValid alphabet other)
    (h : Path.text (parts name) = Path.text (parts other)) : name = other := by
  have hback (s : String) (hs : isValid alphabet s) :
      ((Path.text (parts s)).toList.map fun c => if c = '/' then '.' else c) = s.toList := by
    rw [toList_text_parts, List.map_map]
    refine (List.map_congr_left fun c hc => ?_).trans (List.map_id s.toList)
    have hslash : c ≠ '/' := by
      rintro rfl
      exact slash_notMem_of_isValid hs hc
    by_cases hdot : c = '.' <;> simp [undot, hdot, hslash]
  rw [← String.toList_inj, ← hback name hname, h, hback other hother]

theorem dot_notMem_text_parts (name : String) : '.' ∉ (Path.text (parts name)).toList := by
  rw [toList_text_parts, List.mem_map]
  rintro ⟨c, -, hc⟩
  unfold undot at hc
  split at hc
  · cases hc
  · contradiction

end ModuleName

/-! ## Paths of modules -/

namespace Finder

theorem toList_withExtension (file extension : String) :
    (withExtension file extension).toList =
      file.toList ++ if extension = "" then [] else '.' :: extension.toList := by
  unfold withExtension
  split <;> simp

/-- A file name is cut at its first dot. -/
theorem takeWhile_withExtension {file : String} (h : '.' ∉ file.toList) (extension : String) :
    (withExtension file extension).toList.takeWhile (· != '.') = file.toList := by
  have hfile : ∀ c ∈ file.toList, (c != '.') = true := by
    intro c hc
    rw [bne_iff_ne]
    rintro rfl
    exact h hc
  rw [toList_withExtension, List.takeWhile_append_of_pos hfile]
  split <;> simp

theorem file_eq_of_withExtension {file file' extension extension' : String}
    (h : '.' ∉ file.toList) (h' : '.' ∉ file'.toList)
    (heq : withExtension file extension = withExtension file' extension') :
    file = file' ∧ extension = extension' := by
  have hfile : file = file' := by
    rw [← String.toList_inj, ← takeWhile_withExtension h extension, heq,
      takeWhile_withExtension h' extension']
  subst hfile
  exact ⟨rfl, withExtension_inj heq⟩

/-- With or without an extension, a plain component names an entry. -/
theorem isStep_withExtension {file : String} (h : Path.IsPlain file) (extension : String) :
    Path.isStep (withExtension file extension) = false := by
  -- Cut at its first dot, nothing is left of a step.
  have hcut (component : String) (hstep : Path.isStep component) :
      component.toList.takeWhile (· != '.') = [] := by
    simp only [Path.isStep, Bool.or_eq_true, beq_iff_eq, or_assoc] at hstep
    rcases hstep with rfl | rfl | rfl <;> decide
  rw [Bool.eq_false_iff]
  intro hstep
  have hfile := takeWhile_withExtension h.dot_notMem extension
  rw [hcut _ hstep] at hfile
  exact h.1 (String.toList_inj.mp hfile.symm)

section Parts

variable {name last : String} {front : List String}
  (h : ModuleName.parts name = front ++ [last])
  (hplain : ∀ part ∈ front ++ [last], Path.IsPlain part) (directory : Path) (extension : String)

include h hplain

/-- A path with plain parts leads below its directory. -/
theorem resolved_modulePath :
    (modulePath directory name extension).resolved =
      directory.resolved ++ front ++ [withExtension last extension] := by
  have hsteps : ∀ component ∈ front ++ [withExtension last extension],
      Path.isStep component = false := by
    obtain ⟨hfront, hlast⟩ := List.forall_mem_append.mp hplain
    refine List.forall_mem_append.mpr ⟨fun part hpart => ?_, List.forall_mem_singleton.mpr ?_⟩
    · exact isStep_withExtension (hfront part hpart) ""
    · exact isStep_withExtension (hlast last List.mem_cons_self) extension
  rw [modulePath_of_plain h hplain, List.append_assoc, Path.resolved_append hsteps,
    List.append_assoc]

end Parts

variable {alphabet : Text.Alphabet}

/-- The text of the path is that of the directory, of the name's parts and of the extension. -/
theorem toList_text_modulePath_parts {name : String} (hname : ModuleName.isValid alphabet name)
    (directory : Path) (extension : String) :
    (modulePath directory name extension).text.toList =
      directory.stem ++ (withExtension (Path.text (ModuleName.parts name)) extension).toList := by
  obtain ⟨front, last, h, hplain⟩ := ModuleName.exists_parts hname
  rw [modulePath_of_plain h hplain, h, List.append_assoc, Path.toList_text_append _ (by simp),
    Path.toList_text_concat, toList_withExtension, toList_withExtension, Path.toList_text_concat,
    List.append_assoc (Path.stem front)]

/-- In one directory, the text of the path of a valid name tells the name and the extension. -/
theorem text_modulePath_inj {name other extension extension' : String} {directory : Path}
    (hname : ModuleName.isValid alphabet name) (hother : ModuleName.isValid alphabet other)
    (h : (modulePath directory other extension').text =
      (modulePath directory name extension).text) :
    other = name ∧ extension' = extension := by
  have heq := congrArg String.toList h
  rw [toList_text_modulePath_parts hother, toList_text_modulePath_parts hname] at heq
  obtain ⟨hparts, hextension⟩ := file_eq_of_withExtension
    (ModuleName.dot_notMem_text_parts other) (ModuleName.dot_notMem_text_parts name)
    (String.toList_inj.mp (List.append_cancel_left heq))
  exact ⟨ModuleName.text_parts_inj hother hname hparts, hextension⟩

/-- In any directories, the last component of the path of a valid name tells the extension. -/
theorem extension_eq_of_modulePath {name other extension extension' : String}
    {directory directory' : Path} (hname : ModuleName.isValid alphabet name)
    (hother : ModuleName.isValid alphabet other)
    (h : modulePath directory' other extension' = modulePath directory name extension) :
    extension' = extension := by
  obtain ⟨front, last, hparts, hplain⟩ := ModuleName.exists_parts hname
  obtain ⟨front', last', hparts', hplain'⟩ := ModuleName.exists_parts hother
  rw [modulePath_of_plain hparts hplain, modulePath_of_plain hparts' hplain'] at h
  exact (file_eq_of_withExtension (hplain' last' (by simp)).dot_notMem
    (hplain last (by simp)).dot_notMem (List.append_singleton_inj.mp h).2).2

/--
**Where a module is looked for.** The path of a valid name is the directory followed by the plain
parts that the dots of the name separate, the last with the extension, and leads below the
directory. In a directory no two modules share a path, and no source path is an artifact path of any
module in any directory.
-/
theorem modulePath_of_isValid {name : String} (hname : ModuleName.isValid alphabet name)
    (directory : Path) (extension : String) :
    (∃ front last, ".".intercalate (front ++ [last]) = name ∧
      (∀ part ∈ front ++ [last], Path.IsPlain part) ∧
      modulePath directory name extension =
        directory ++ front ++ [withExtension last extension] ∧
      (modulePath directory name extension).resolved =
        directory.resolved ++ front ++ [withExtension last extension]) ∧
    ∀ other extension', ModuleName.isValid alphabet other →
      ((modulePath directory other extension').text =
        (modulePath directory name extension).text ↔ other = name ∧ extension' = extension) ∧
      (extension' ≠ extension → ∀ directory',
        modulePath directory' other extension' ≠ modulePath directory name extension) := by
  constructor
  · obtain ⟨front, last, h, hplain⟩ := ModuleName.exists_parts hname
    exact ⟨front, last, h ▸ ModuleName.intercalate_parts name, hplain,
      modulePath_of_plain h hplain directory extension,
      resolved_modulePath h hplain directory extension⟩
  · intro other extension' hother
    refine ⟨⟨text_modulePath_inj hname hother, ?_⟩, fun hne directory' heq => ?_⟩
    · rintro ⟨rfl, rfl⟩
      rfl
    · exact hne (extension_eq_of_modulePath hname hother heq)

/-- A name with a dot and one without are apart, below a directory that leads up. -/
theorem modulePath_tale :
    ModuleName.isValid .unicode "tale.part_2" ∧ ModuleName.isValid .unicode "tale_part_2" ∧
      modulePath ["..", "lib"] "tale.part_2" "rf" = ["..", "lib", "tale", "part_2.rf"] ∧
      (modulePath ["..", "lib"] "tale_part_2" "rf").text ≠
        (modulePath ["..", "lib"] "tale.part_2" "rf").text ∧
      ∀ directory', modulePath directory' "tale_part_2" "rfc" ≠
        modulePath ["..", "lib"] "tale.part_2" "rf" := by
  have hname : ModuleName.isValid .unicode "tale.part_2" := by decide +kernel
  have hother : ModuleName.isValid .unicode "tale_part_2" := by decide +kernel
  obtain ⟨-, hapart⟩ := modulePath_of_isValid hname ["..", "lib"] "rf"
  refine ⟨hname, hother, by decide +kernel, fun htext => ?_, ?_⟩
  · exact absurd ((hapart "tale_part_2" "rf" hother).1.mp htext).1 (by decide)
  · exact (hapart "tale_part_2" "rfc" hother).2 (by decide)

end Finder

end FiberMachine
