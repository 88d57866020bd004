import Mathlib.Data.List.Sort
import Tapeworks.Diagram.Edit
import Tapeworks.Proofs.Text.Numeral

/-! Free ids. The numbers that ids stand for are looked through in ascending order up to the first gap, so that none of
    the ids is the numeral of the gap, unless there are as many ids as there are words. -/

namespace Tapeworks

variable {ns : List Nat} {ids : List String} {id : String} {candidate : Nat}

/-! ### The first gap -/

theorem le_firstGap (candidate : Nat) (ns : List Nat) : candidate ≤ firstGap candidate ns := by
  induction ns generalizing candidate with
  | nil => exact Nat.le_refl _
  | cons n ns ih =>
    unfold firstGap
    split
    · exact ih candidate
    · split
      · exact Nat.le_of_succ_le (ih (candidate + 1))
      · exact Nat.le_refl _

/-- Each step past the candidate uses up an element of the list. -/
theorem firstGap_le (candidate : Nat) (ns : List Nat) : firstGap candidate ns ≤ candidate + ns.length := by
  induction ns generalizing candidate with
  | nil => exact Nat.le_refl _
  | cons n ns ih =>
    have hskip := ih candidate
    have hnext := ih (candidate + 1)
    rw [List.length_cons]
    unfold firstGap
    split
    · omega
    · split <;> omega

theorem firstGap_not_mem (h : ns.Pairwise (· ≤ ·)) (candidate : Nat) : firstGap candidate ns ∉ ns := by
  induction ns generalizing candidate with
  | nil => exact List.not_mem_nil
  | cons n ns ih =>
    obtain ⟨hhead, hrest⟩ := List.pairwise_cons.mp h
    unfold firstGap
    split
    · rename_i hlt
      exact List.not_mem_cons_of_ne_of_not_mem (Nat.ne_of_gt (Nat.lt_of_lt_of_le hlt (le_firstGap _ _))) (ih hrest _)
    · split
      · rename_i heq
        have hpast : n < firstGap (candidate + 1) ns := heq ▸ le_firstGap (candidate + 1) ns
        exact List.not_mem_cons_of_ne_of_not_mem (Nat.ne_of_gt hpast) (ih hrest _)
      · -- The list starts above the candidate.
        rename_i hnlt hne
        intro hmem
        rcases List.mem_cons.mp hmem with heq | hmem
        · exact hne heq.symm
        · exact hne (Nat.le_antisymm (hhead candidate hmem) (Nat.not_lt.mp hnlt))

/-- The numbers that are passed are in the list. -/
theorem mem_of_lt_firstGap {m : Nat} (hm : candidate ≤ m) (hlt : m < firstGap candidate ns) : m ∈ ns := by
  induction ns generalizing candidate with
  | nil => exact absurd hlt (Nat.not_lt.mpr hm)
  | cons n ns ih =>
    unfold firstGap at hlt
    split at hlt
    · exact List.mem_cons_of_mem _ (ih hm hlt)
    · split at hlt
      · rename_i heq
        rcases Nat.eq_or_lt_of_le hm with rfl | hm
        · exact heq ▸ List.mem_cons_self
        · exact List.mem_cons_of_mem _ (ih hm hlt)
      · exact absurd hlt (Nat.not_lt.mpr hm)

/-! ### The next id -/

/-- The number of the next id. -/
def freeNumber (ids : List String) : Nat :=
  firstGap 1 ((ids.filterMap Text.word?).mergeSort (· ≤ ·))

theorem nextId_eq (ids : List String) : nextId ids = Text.numeral (freeNumber ids) := rfl

theorem freeNumber_pos (ids : List String) : 0 < freeNumber ids :=
  le_firstGap 1 _

theorem freeNumber_le (ids : List String) : freeNumber ids ≤ (ids.filterMap Text.word?).length + 1 := by
  have hgap := firstGap_le 1 ((ids.filterMap Text.word?).mergeSort (· ≤ ·))
  rw [List.length_mergeSort, Nat.add_comm] at hgap
  exact hgap

theorem word?_ne_freeNumber (h : id ∈ ids) : Text.word? id ≠ some (freeNumber ids) := by
  intro hword
  have hsorted := List.pairwise_mergeSort' (· ≤ ·) (ids.filterMap Text.word?)
  refine firstGap_not_mem hsorted 1 (List.mem_mergeSort.mpr ?_)
  exact List.mem_filterMap.mpr ⟨id, h, hword⟩

theorem exists_word?_of_lt_freeNumber {m : Nat} (hm : 0 < m) (hlt : m < freeNumber ids) :
    ∃ id ∈ ids, Text.word? id = some m :=
  List.mem_filterMap.mp (List.mem_mergeSort.mp (mem_of_lt_firstGap hm hlt))

/-- The number of the next id is the smallest positive one that no id stands for. -/
theorem freeNumber_eq_iff {n : Nat} : freeNumber ids = n ↔
    0 < n ∧ (∀ id ∈ ids, Text.word? id ≠ some n) ∧ ∀ m, 0 < m → m < n → ∃ id ∈ ids, Text.word? id = some m := by
  constructor
  · rintro rfl
    exact ⟨freeNumber_pos ids, fun _ => word?_ne_freeNumber, fun _ => exists_word?_of_lt_freeNumber⟩
  · rintro ⟨hn, hfree, htaken⟩
    rcases Nat.lt_trichotomy (freeNumber ids) n with hlt | heq | hgt
    · obtain ⟨id, hid, hword⟩ := htaken _ (freeNumber_pos ids) hlt
      exact absurd hword (word?_ne_freeNumber hid)
    · exact heq
    · obtain ⟨id, hid, hword⟩ := exists_word?_of_lt_freeNumber hn hgt
      exact absurd hword (hfree id hid)

/-- The next id is new where the number of ids is a word. An id that is no word takes no number, so that the other ids
    would be too few to take all words. -/
theorem nextId_not_mem (h : ids.length < Text.wordLimit) : nextId ids ∉ ids := by
  intro hmem
  rw [nextId_eq] at hmem
  have hbound := freeNumber_le ids
  cases hword : Text.word? (Text.numeral (freeNumber ids)) with
  | some n =>
    obtain rfl := Text.word?_numeral_eq_some hword
    exact word?_ne_freeNumber hmem hword
  | none =>
    have hfewer := List.length_filterMap_lt_length_iff_exists.mpr ⟨_, hmem, hword⟩
    rw [Text.word?_numeral (by omega)] at hword
    cases hword

/-- Which ids there are decides the number of the next id, and not their order or how often one occurs. -/
theorem freeNumber_congr {ids' : List String} (h : ∀ id, id ∈ ids' ↔ id ∈ ids) : freeNumber ids' = freeNumber ids := by
  refine freeNumber_eq_iff.mpr ⟨freeNumber_pos ids, fun id hid => word?_ne_freeNumber ((h id).mp hid),
    fun m hm hlt => ?_⟩
  obtain ⟨id, hid, hword⟩ := exists_word?_of_lt_freeNumber hm hlt
  exact ⟨id, (h id).mpr hid, hword⟩

/-- The next id is the numeral of `n`, which is the smallest positive number that none of the ids stands for. It is a
    word and at most one more than the number of the ids, the next id is new, and it only depends on which ids there
    are. -/
structure SmallestFree (ids : List String) (n : Nat) : Prop where
  numeral : nextId ids = Text.numeral n
  positive : 0 < n
  free : ∀ id ∈ ids, ¬Text.Denotes id n
  taken : ∀ k, 0 < k → k < n → ∃ id ∈ ids, Text.Denotes id k
  bounded : n ≤ ids.length + 1
  word : n < Text.wordLimit
  fresh : nextId ids ∉ ids
  stable : ∀ ids', (∀ id, id ∈ ids' ↔ id ∈ ids) → nextId ids' = nextId ids

theorem exists_smallestFree (h : ids.length < Text.wordLimit - 1) : ∃ n, SmallestFree ids n := by
  have hbounded : freeNumber ids ≤ ids.length + 1 :=
    Nat.le_trans (freeNumber_le ids) (Nat.succ_le_succ (List.length_filterMap_le _ _))
  exact ⟨freeNumber ids, {
    numeral := nextId_eq ids
    positive := freeNumber_pos ids
    free := fun id hid hdenotes => word?_ne_freeNumber hid (Text.word?_eq_some_iff.mpr hdenotes)
    taken := fun k hk hlt => by
      obtain ⟨id, hid, hword⟩ := exists_word?_of_lt_freeNumber hk hlt
      exact ⟨id, hid, Text.word?_eq_some_iff.mp hword⟩
    bounded := hbounded
    word := by omega
    fresh := nextId_not_mem (by omega)
    stable := fun ids' hsame => congrArg Text.numeral (freeNumber_congr hsame) }⟩

/-- Zero, other spellings, words twice, a number that is no word and a text that is no number leave 3 free. -/
theorem exists_smallestFree_three :
    nextId ["4", "+01", "q0", "1", "0", "18446744073709551616", "002", "4"] = "3" ∧
      ∃ n, SmallestFree ["4", "+01", "q0", "1", "0", "18446744073709551616", "002", "4"] n := by
  have htaken : ∀ m < 3, 0 < m →
      ∃ id ∈ ["4", "+01", "q0", "1", "0", "18446744073709551616", "002", "4"], Text.word? id = some m := by decide
  have hfree := freeNumber_eq_iff.mpr ⟨by decide, by decide, fun m hm hlt => htaken m hlt hm⟩
  exact ⟨congrArg Text.numeral hfree, exists_smallestFree (by decide)⟩

end Tapeworks
