import Mathlib.Data.List.Lex
import Tapeworks.Path

/-! Paths of the entries of a folder. The path of an entry has the parts of the folder's path and the name as its last
    part. So the paths in a folder come in the order of the names, and the extension of a path is that of the name: the
    text after its last dot, unless no text stands before that. -/

namespace Tapeworks.Path

variable {folder name name' stem ext : String} {cs : List Char}

/-! ### Names -/

/-- A name that an entry of a folder can have. -/
structure IsName (name : String) : Prop where
  noSlash : '/' ∉ name.toList
  ne_empty : name ≠ ""
  ne_dot : name ≠ "."
  ne_dots : name ≠ ".."

instance (name : String) : Decidable (IsName name) :=
  decidable_of_iff ('/' ∉ name.toList ∧ name ≠ "" ∧ name ≠ "." ∧ name ≠ "..")
    ⟨fun ⟨hslash, hempty, hdot, hdots⟩ => ⟨hslash, hempty, hdot, hdots⟩,
      fun ⟨hslash, hempty, hdot, hdots⟩ => ⟨hslash, hempty, hdot, hdots⟩⟩

theorem entry_injective (h : entry folder name = entry folder name') : name = name' := by
  unfold entry at h
  split at h
  · exact (String.append_right_inj _).mp h
  · exact (String.append_right_inj _).mp h

theorem parts_of_slash {path : String} (cs : List Char) (h : path.toList = cs ++ '/' :: name.toList)
    (hname : IsName name) : parts path = (cs.splitOn '/').map String.ofList ++ [name] := by
  rw [parts, h, List.splitOn_append_cons_self, List.splitOn_eq_singleton hname.noSlash, List.map_append,
    List.map_singleton, String.ofList_toList]

/-- What the paths of all entries of a folder begin with. -/
theorem exists_parts_entry (folder : String) :
    ∃ front, ∀ name, IsName name → parts (entry folder name) = front ++ [name] := by
  by_cases hempty : folder = ""
  · refine ⟨[], fun name hname => ?_⟩
    rw [entry, if_pos (Or.inl hempty), hempty, String.empty_append, parts, List.splitOn_eq_singleton hname.noSlash,
      List.map_singleton, String.ofList_toList, List.nil_append]
  · by_cases hslash : folder.toList.getLast? = some '/'
    · obtain ⟨cs, hcs⟩ := List.getLast?_eq_some_iff.mp hslash
      refine ⟨_, fun name hname => parts_of_slash cs ?_ hname⟩
      rw [entry, if_pos (Or.inr hslash), String.toList_append, hcs, List.append_assoc, List.singleton_append]
    · refine ⟨_, fun name hname => parts_of_slash folder.toList ?_ hname⟩
      rw [entry, if_neg (not_or.mpr ⟨hempty, hslash⟩), String.toList_append, String.toList_append, List.append_assoc]
      rfl

/-! ### The order of paths -/

/-- Paths come in the order of the first parts in which they differ. -/
def Precedes (path path' : String) : Prop :=
  List.Lex (· < ·) (parts path) (parts path')

theorem precedes_entry (hname : IsName name) (hname' : IsName name') (h : name < name') :
    Precedes (entry folder name) (entry folder name') := by
  obtain ⟨front, hfront⟩ := exists_parts_entry folder
  rw [Precedes, hfront name hname, hfront name' hname']
  exact List.Lex.append_left _ (.rel h) front

/-! ### Extensions -/

theorem fileName?_entry (folder : String) (h : IsName name) : fileName? (entry folder name) = some name := by
  obtain ⟨front, hfront⟩ := exists_parts_entry folder
  have hfind : (parts (entry folder name)).reverse.find? (fun part => part ≠ "" ∧ part ≠ ".") = some name := by
    rw [hfront name h, List.reverse_append, List.reverse_singleton, List.singleton_append]
    exact List.find?_cons_of_pos (decide_eq_true ⟨h.ne_empty, h.ne_dot⟩)
  unfold fileName?
  rw [hfind]
  split
  · rename_i heq
    exact absurd (Option.some.inj heq) h.ne_dots
  · rfl

theorem extension?_entry (folder : String) (h : IsName name) : extension? (entry folder name) = (splitName name).2 := by
  rw [extension?, fileName?_entry folder h]
  rfl

theorem splitName_append (hstem : stem ≠ "") (hext : '.' ∉ ext.toList) :
    splitName (stem ++ "." ++ ext) = (stem, some ext) := by
  have hback : (stem ++ "." ++ ext).toList.reverse = ext.toList.reverse ++ '.' :: stem.toList.reverse := by
    rw [String.toList_append, String.toList_append, List.reverse_append, List.reverse_append]
    rfl
  have hno : ∀ c ∈ ext.toList.reverse, decide (c ≠ '.') = true := fun c hc =>
    decide_eq_true fun heq => hext (heq ▸ List.mem_reverse.mp hc)
  have hdrop : (ext.toList.reverse ++ '.' :: stem.toList.reverse).dropWhile (· ≠ '.') =
      '.' :: stem.toList.reverse := by
    rw [List.dropWhile_append_of_pos hno]
    rfl
  have htake : (ext.toList.reverse ++ '.' :: stem.toList.reverse).takeWhile (· ≠ '.') = ext.toList.reverse := by
    rw [List.takeWhile_append_of_pos hno]
    exact List.append_nil _
  unfold splitName
  rw [hback]
  dsimp only
  rw [hdrop, htake, List.reverse_reverse, String.ofList_toList]
  split
  · rename_i heq
    cases heq
  · rename_i heq
    exact absurd (String.toList_eq_nil_iff.mp (List.reverse_eq_nil_iff.mp (List.cons.inj heq).2)) hstem
  · rename_i heq
    rw [← (List.cons.inj heq).2, List.reverse_reverse, String.ofList_toList]

/-- A name is split at its last dot, if some text stands before that. -/
theorem splitName_eq_iff : splitName name = (stem, some ext) ↔
    stem ≠ "" ∧ '.' ∉ ext.toList ∧ name = stem ++ "." ++ ext := by
  refine ⟨fun h => ?_, fun ⟨hstem, hext, hname⟩ => hname ▸ splitName_append hstem hext⟩
  unfold splitName at h
  dsimp only at h
  split at h
  · cases h
  · cases h
  · rename_i c before hne hdrop
    cases h
    have hdot : c = '.' := by
      have hfirst := List.head?_dropWhile_not (· ≠ '.') name.toList.reverse
      rw [hdrop] at hfirst
      simpa using hfirst
    refine ⟨fun hstem => hne ?_, fun hmem => ?_, ?_⟩
    · rw [← String.toList_inj, String.toList_ofList] at hstem
      exact List.reverse_eq_nil_iff.mp hstem
    · rw [String.toList_ofList, List.mem_reverse] at hmem
      simpa using List.all_eq_true.mp List.all_takeWhile _ hmem
    · -- Backwards, the name is what stands behind the dot, the dot, and what stands before it.
      have hback := List.takeWhile_append_dropWhile (p := (· ≠ '.')) (l := name.toList.reverse)
      rw [hdrop, hdot] at hback
      have hname := congrArg List.reverse hback
      rw [List.reverse_reverse, List.reverse_append, List.reverse_cons] at hname
      rw [← String.toList_inj]
      simpa using hname.symm

/-- The extension of an entry is the text after the last dot of its name. -/
theorem extension?_entry_eq_iff (folder : String) (h : IsName name) : extension? (entry folder name) = some ext ↔
    '.' ∉ ext.toList ∧ ∃ stem, stem ≠ "" ∧ name = stem ++ "." ++ ext := by
  rw [extension?_entry folder h]
  constructor
  · intro hsplit
    have hboth : splitName name = ((splitName name).1, some ext) := Prod.ext rfl hsplit
    obtain ⟨hstem, hext, hname⟩ := splitName_eq_iff.mp hboth
    exact ⟨hext, _, hstem, hname⟩
  · rintro ⟨hext, stem, hstem, hname⟩
    rw [splitName_eq_iff.mpr ⟨hstem, hext, hname⟩]

end Tapeworks.Path
