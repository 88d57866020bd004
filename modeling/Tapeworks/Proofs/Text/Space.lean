import Mathlib.Data.List.DropRight
import Tapeworks.Text.Space

/-! Trimmed texts. A text is its margin, its trimmed part and white space behind it; trimming what is trimmed, or what has
    more white space behind it, makes no difference. -/

namespace Tapeworks.Text

/-- The number of white space characters in front of a text. -/
def margin (cs : List Char) : Nat :=
  (cs.takeWhile isSpace).length

def trimmed (s : String) : String :=
  String.ofList (trim s.toList)

theorem toList_trimmed (s : String) : (trimmed s).toList = trim s.toList :=
  String.toList_ofList

theorem trim_eq_rdropWhile (cs : List Char) : trim cs = (cs.dropWhile isSpace).rdropWhile isSpace := rfl

theorem trim_eq_self {cs : List Char} (h : ∀ c ∈ cs, isSpace c = false) : trim cs = cs := by
  have keep : ∀ {cs : List Char}, (∀ c ∈ cs, isSpace c = false) → trimLeft cs = cs := fun {cs} h => by
    cases cs with
    | nil => rfl
    | cons c cs => exact List.dropWhile_cons_of_neg (by simp [h c List.mem_cons_self])
  rw [trim, keep h, keep fun c hc => h c (List.mem_reverse.mp hc), List.reverse_reverse]

/-- The trimmed part of a text stands behind its margin. -/
theorem exists_eq_append_trim (cs : List Char) :
    ∃ back, cs = cs.takeWhile isSpace ++ (trim cs ++ back) := by
  obtain ⟨back, hback⟩ := List.rdropWhile_prefix isSpace (cs.dropWhile isSpace)
  refine ⟨back, ?_⟩
  rw [trim_eq_rdropWhile, hback, List.takeWhile_append_dropWhile]

theorem getElem?_margin_add {cs : List Char} {i : Nat} {c : Char} (h : (trim cs)[i]? = some c) :
    cs[margin cs + i]? = some c := by
  obtain ⟨back, hcs⟩ := exists_eq_append_trim cs
  have hi : i < (trim cs).length := (List.getElem?_eq_some_iff.mp h).1
  calc cs[margin cs + i]?
    _ = (cs.takeWhile isSpace ++ (trim cs ++ back))[margin cs + i]? := by rw [← hcs]
    _ = (trim cs ++ back)[i]? := by
      rw [margin, List.getElem?_append_right (Nat.le_add_right _ _), Nat.add_sub_cancel_left]
    _ = some c := by rw [List.getElem?_append_left hi, h]

theorem dropWhile_trim (cs : List Char) : (trim cs).dropWhile isSpace = trim cs := by
  obtain ⟨back, hback⟩ := List.rdropWhile_prefix isSpace (cs.dropWhile isSpace)
  rw [← trim_eq_rdropWhile] at hback
  rw [List.dropWhile_eq_self_iff]
  intro hl
  have hhead := List.dropWhile_get_zero_not isSpace cs (by rw [← hback, List.length_append]; omega)
  simpa [← hback, List.getElem_append_left hl] using hhead

theorem trim_trim (cs : List Char) : trim (trim cs) = trim cs := by
  rw [trim_eq_rdropWhile (trim cs), dropWhile_trim, trim_eq_rdropWhile, List.rdropWhile_idempotent]

theorem margin_trim (cs : List Char) : margin (trim cs) = 0 := by
  have h : (trim cs).takeWhile isSpace ++ trim cs = trim cs := by
    conv_rhs => rw [← List.takeWhile_append_dropWhile (p := isSpace) (l := trim cs), dropWhile_trim]
  rw [margin, List.append_left_eq_self.mp h, List.length_nil]

theorem trim_space_append {front : List Char} (cs : List Char) (h : ∀ c ∈ front, isSpace c) :
    trim (front ++ cs) = trim cs := by
  rw [trim_eq_rdropWhile, trim_eq_rdropWhile, List.dropWhile_append_of_pos h]

theorem trim_append_space {back : List Char} (cs : List Char) (h : ∀ c ∈ back, isSpace c) :
    trim (cs ++ back) = trim cs := by
  have hback : back.dropWhile isSpace = [] := List.dropWhile_eq_nil_iff.mpr h
  rw [trim_eq_rdropWhile, trim_eq_rdropWhile, List.dropWhile_append]
  split
  · rename_i hnil
    rw [hback, List.isEmpty_iff.mp hnil]
  · rw [List.rdropWhile, List.reverse_append,
      List.dropWhile_append_of_pos fun c hc => h c (List.mem_reverse.mp hc), List.rdropWhile]

theorem margin_append_space {cs back : List Char} (h : trim cs ≠ []) : margin (cs ++ back) = margin cs := by
  have htake : (cs.takeWhile isSpace).length ≠ cs.length := by
    intro hlength
    have hall := List.takeWhile_eq_self_iff.mp ((List.takeWhile_prefix isSpace).eq_of_length hlength)
    rw [trim_eq_rdropWhile, List.dropWhile_eq_nil_iff.mpr hall] at h
    exact h rfl
  rw [margin, List.takeWhile_append, if_neg htake, margin]

/-! ### What trimming leaves -/

/-- Only white space stands around the inner text, which neither begins nor ends with it. -/
structure Trims (cs inner : List Char) : Prop where
  around : ∃ front back, (∀ c ∈ front, isSpace c) ∧ (∀ c ∈ back, isSpace c) ∧ cs = front ++ (inner ++ back)
  first : ∀ c ∈ inner.head?, isSpace c = false
  last : ∀ c ∈ inner.getLast?, isSpace c = false

theorem trims_trim (cs : List Char) : Trims cs (trim cs) where
  around := by
    refine ⟨cs.takeWhile isSpace, (cs.dropWhile isSpace).rtakeWhile isSpace, fun c hc => ?_, fun c hc => ?_, ?_⟩
    · exact List.mem_takeWhile_imp hc
    · exact List.mem_rtakeWhile_imp hc
    · rw [trim_eq_rdropWhile, List.rdropWhile_append_rtakeWhile, List.takeWhile_append_dropWhile]
  first c hc := by
    obtain ⟨rest, hrest⟩ := List.head?_eq_some_iff.mp hc
    have hdrop := List.dropWhile_eq_self_iff.mp (dropWhile_trim cs) (by rw [hrest]; exact Nat.zero_lt_succ _)
    simpa [hrest] using hdrop
  last c hc := by
    obtain ⟨rest, hrest⟩ := List.getLast?_eq_some_iff.mp hc
    have hdrop : (trim cs).rdropWhile isSpace = trim cs := by
      rw [trim_eq_rdropWhile, List.rdropWhile_idempotent]
    simpa [hrest] using List.rdropWhile_eq_self_iff.mp hdrop

theorem Trims.trim_eq {cs inner : List Char} (h : Trims cs inner) : trim cs = inner := by
  obtain ⟨front, back, hfront, hback, rfl⟩ := h.around
  have hfirst : inner.dropWhile isSpace = inner := List.dropWhile_eq_self_iff.mpr fun hl => by
    simpa using h.first _ (List.head?_eq_getElem? ▸ List.getElem?_eq_getElem hl)
  have hlast : inner.rdropWhile isSpace = inner := List.rdropWhile_eq_self_iff.mpr fun hl => by
    simpa using h.last _ (List.getLast?_eq_some_getLast hl)
  rw [trim_space_append _ hfront, trim_append_space _ hback, trim_eq_rdropWhile, hfirst, hlast]

/-- Trimming leaves just what has no white space at its ends. -/
theorem trims_iff {cs inner : List Char} : Trims cs inner ↔ trim cs = inner :=
  ⟨Trims.trim_eq, fun h => h ▸ trims_trim cs⟩

end Tapeworks.Text
