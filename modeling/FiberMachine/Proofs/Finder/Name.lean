import FiberMachine.Finder.Basic
import Mathlib.Data.List.TakeWhile

/-!
# The paths of module names

The parts of a valid module name are plain: none is empty and none has a character with a meaning in
paths. Going along plain parts appends them, and giving the last one an extension changes nothing
before it, so the path of a valid name is the directory followed by the parts of the name, the last
with the extension (`Finder.modulePath_of_plain`).
-/

namespace FiberMachine

namespace Path

/-- A component that names an entry of a directory, without an extension. -/
def IsPlain (component : String) : Prop :=
  component ≠ "" ∧ ∀ c ∈ ['.', '/', '\\', '\x00'], c ∉ component.toList

namespace IsPlain

variable {component : String} (h : IsPlain component)

include h

theorem dot_notMem : '.' ∉ component.toList := h.2 '.' List.mem_cons_self

theorem slash_notMem : '/' ∉ component.toList := h.2 '/' (List.mem_cons_of_mem _ List.mem_cons_self)

theorem ofText_eq : ofText component = [component] := by
  rw [ofText, Text.split_of_notMem h.slash_notMem, List.map_singleton, String.ofList_toList]

theorem push_eq (p : Path) : p.push component = p ++ [component] := by
  have hhead : (component.toList.head? == some '/') = false := by
    rw [beq_eq_false_iff_ne]
    exact fun hhead => h.slash_notMem (List.mem_of_mem_head? hhead)
  rw [push, hhead, h.ofText_eq]
  rfl

theorem fileStem_eq : Finder.fileStem component = component := by
  have hdrop : component.toList.reverse.dropWhile (· != '.') = [] := by
    refine List.dropWhile_eq_nil_iff.mpr fun c hc => bne_iff_ne.mpr ?_
    rintro rfl
    exact h.dot_notMem (List.mem_reverse.mp hc)
  rw [Finder.fileStem, hdrop]

/-- The extension of a plain component is added to it. -/
theorem setExtension_concat (p : Path) (extension : String) :
    (p ++ [component]).setExtension extension =
      p ++ [Finder.withExtension component extension] := by
  have hdot (other : String) (hother : '.' ∈ other.toList) : component ≠ other := by
    rintro rfl
    exact h.dot_notMem hother
  have hfile : (component == "" || component == ".") = false := by
    simp [h.1, hdot "." (by decide)]
  rw [setExtension, List.reverse_append, List.reverse_singleton, List.singleton_append,
    List.dropWhile_cons, hfile]
  simp only [Bool.false_eq_true, if_false, if_neg (hdot ".." (by decide)), h.fileStem_eq,
    List.reverse_reverse]

end IsPlain

theorem foldl_push {parts : List String} (h : ∀ part ∈ parts, IsPlain part) (p : Path) :
    parts.foldl push p = p ++ parts := by
  induction parts generalizing p with
  | nil => exact (List.append_nil p).symm
  | cons part parts ih =>
    obtain ⟨hpart, hparts⟩ := List.forall_mem_cons.mp h
    rw [List.foldl_cons, hpart.push_eq, ih hparts, List.append_assoc, List.singleton_append]

end Path

namespace ModuleName

variable {alphabet : Text.Alphabet} {name : String}

/-- None of the characters that separate the components of a path belongs to an identifier. -/
theorem notMem_of_isPart {part : List Char} (h : isPart alphabet part) {c : Char}
    (hc : c ∈ ['.', '/', '\\', '\x00']) : c ∉ part := by
  obtain ⟨hstart, hcontinue⟩ := alphabet.not_separator hc
  have hunderscore : c ≠ '_' := by
    rintro rfl
    exact absurd hc (by decide)
  cases part with
  | nil => exact List.not_mem_nil
  | cons first rest =>
    rw [isPart, Bool.and_eq_true, List.all_eq_true] at h
    intro hmem
    rcases List.mem_cons.mp hmem with rfl | hmem
    · exact absurd h.1 (by simp [hstart, hunderscore])
    · exact absurd (h.2 _ hmem) (by simp [hcontinue])

theorem isPlain_of_mem_parts {part : String} (hname : isValid alphabet name)
    (h : part ∈ parts name) : Path.IsPlain part := by
  obtain ⟨cs, hcs, rfl⟩ := List.mem_map.mp h
  have hpart : isPart alphabet cs := List.all_eq_true.mp hname cs hcs
  constructor
  · intro hempty
    have hnil : cs = [] := by simpa using congrArg String.toList hempty
    rw [hnil] at hpart
    cases hpart
  · intro c hc
    rw [String.toList_ofList]
    exact notMem_of_isPart hpart hc

theorem parts_ne_nil (name : String) : parts name ≠ [] := by
  simp [parts, Text.split_ne_nil]

/-- The name has a last part and parts before it. -/
theorem exists_parts (hname : isValid alphabet name) :
    ∃ front last, parts name = front ++ [last] ∧ ∀ part ∈ front ++ [last], Path.IsPlain part := by
  have hparts := (List.dropLast_concat_getLast (parts_ne_nil name)).symm
  refine ⟨_, _, hparts, fun part hpart => isPlain_of_mem_parts hname ?_⟩
  rwa [hparts]

end ModuleName

theorem Finder.modulePath_of_plain {name last : String} {front : List String}
    (h : ModuleName.parts name = front ++ [last])
    (hplain : ∀ part ∈ front ++ [last], Path.IsPlain part) (directory : Path) (extension : String) :
    modulePath directory name extension = directory ++ front ++ [withExtension last extension] := by
  have hlast : Path.IsPlain last := hplain last (List.mem_append_right _ List.mem_cons_self)
  rw [modulePath, h, Path.foldl_push hplain, ← List.append_assoc, hlast.setExtension_concat]

end FiberMachine
