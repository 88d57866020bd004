import Tapeworks.Proofs.Gather
import Tapeworks.Store

/-! What a store holds. Every record is kept under its own key, the keys ascend, and of the records that were to be added
    the store has the first of every key. -/

namespace Tapeworks

/-! ### The order of keys -/

namespace RecordKey

variable {a b c : RecordKey}

theorem precedes_iff : a.precedes b ↔ a.kind.precedes b.kind ∨ a.kind = b.kind ∧ a.id < b.id := by
  simp [precedes]

theorem precedes_of_kind_eq (h : a.kind = b.kind) : a.precedes b ↔ a.id < b.id := by
  have hself : b.kind.precedes b.kind = false := by cases b.kind <;> rfl
  simp [precedes_iff, h, hself]

theorem precedes_trans (hab : a.precedes b) (hbc : b.precedes c) : a.precedes c := by
  have hkind : ∀ k l m : RecordKind, k.precedes l → l.precedes m → k.precedes m := by
    rintro ⟨⟩ ⟨⟩ ⟨⟩ <;> simp [RecordKind.precedes]
  rw [precedes_iff] at hab hbc ⊢
  rcases hab with hab | ⟨hab, hlt⟩
  · rcases hbc with hbc | ⟨hbc, -⟩
    · exact Or.inl (hkind _ _ _ hab hbc)
    · exact Or.inl (hbc ▸ hab)
  · rcases hbc with hbc | ⟨hbc, hlt'⟩
    · exact Or.inl (hab ▸ hbc)
    · exact Or.inr ⟨hab.trans hbc, String.lt_trans hlt hlt'⟩

theorem not_precedes_self (a : RecordKey) : ¬a.precedes a := by
  rw [precedes_of_kind_eq rfl]
  exact String.lt_irrefl a.id

theorem precedes_of_not (h : ¬a.precedes b) (hne : a ≠ b) : b.precedes a := by
  obtain ⟨k, x⟩ := a
  obtain ⟨l, y⟩ := b
  have hid : k = l → ¬x < y → y < x := fun hk hxy => String.not_le.mp fun hle =>
    hne (by rw [hk, String.le_antisymm hle (String.not_lt.mp hxy)])
  cases k <;> cases l <;> simp_all [precedes, RecordKind.precedes]

end RecordKey

namespace Store

variable {s : Store} {rs : List Record} {r : Record} {entry : RecordKey × Record}
  {entries : List (RecordKey × Record)} {kind : RecordKind}

/-! ### Entries -/

/-- Every key comes before the keys further down. -/
def Ascending (entries : List (RecordKey × Record)) : Prop :=
  entries.Pairwise fun a b => a.1.precedes b.1

theorem insertEntry_perm (h : ∀ e ∈ entries, entry.1 ≠ e.1) : (insertEntry entry entries).Perm (entry :: entries) := by
  induction entries with
  | nil => exact .refl _
  | cons head entries ih =>
    obtain ⟨hhead, hrest⟩ := List.forall_mem_cons.mp h
    rw [insertEntry, if_neg hhead]
    split
    · exact .refl _
    · exact ((ih hrest).cons head).trans (.swap entry head entries)

theorem sublist_insertEntry (h : ∀ e ∈ entries, entry.1 ≠ e.1) : entries.Sublist (insertEntry entry entries) := by
  induction entries with
  | nil => exact List.nil_sublist _
  | cons head entries ih =>
    obtain ⟨hhead, hrest⟩ := List.forall_mem_cons.mp h
    rw [insertEntry, if_neg hhead]
    split
    · exact List.sublist_cons_self _ _
    · exact (ih hrest).cons_cons head

theorem Ascending.insertEntry (h : Ascending entries) (hnew : ∀ e ∈ entries, entry.1 ≠ e.1) :
    Ascending (insertEntry entry entries) := by
  induction entries with
  | nil => exact List.pairwise_singleton _ _
  | cons head entries ih =>
    obtain ⟨hhead, hrest⟩ := List.forall_mem_cons.mp hnew
    obtain ⟨hbefore, hentries⟩ := List.pairwise_cons.mp h
    rw [Store.insertEntry, if_neg hhead]
    split
    · rename_i hprecedes
      refine List.pairwise_cons.mpr ⟨List.forall_mem_cons.mpr ⟨hprecedes, fun e he => ?_⟩, h⟩
      exact RecordKey.precedes_trans hprecedes (hbefore e he)
    · rename_i hprecedes
      refine List.pairwise_cons.mpr ⟨fun e he => ?_, ih hentries hrest⟩
      rcases List.mem_cons.mp ((insertEntry_perm hrest).mem_iff.mp he) with rfl | he
      · exact RecordKey.precedes_of_not hprecedes hhead
      · exact hbefore e he

/-- Ascending entries are settled by which entries there are. -/
theorem Ascending.eq_of_perm {entries' : List (RecordKey × Record)} (h : Ascending entries) (h' : Ascending entries')
    (hperm : entries.Perm entries') : entries = entries' :=
  hperm.eq_of_pairwise (fun a _ _ _ hab hba => absurd (RecordKey.precedes_trans hab hba)
    (RecordKey.not_precedes_self a.1)) h h'

/-! ### What is held -/

/-- Of the records that were to be added one after the other, the store holds the first of every key, under that key. -/
structure Holds (s : Store) (rs : List Record) : Prop where
  ascending : Ascending s.entries
  entries : s.entries.Perm ((firsts Record.key rs).map fun r => (r.key, r))

namespace Holds

theorem nil : empty.Holds [] where
  ascending := .nil
  entries := .nil

theorem contains_iff (h : s.Holds rs) (key : RecordKey) : s.contains key ↔ key ∈ rs.map Record.key := by
  rw [contains, List.any_eq_true, ← mem_map_firsts, List.mem_map]
  constructor
  · rintro ⟨e, he, hkey⟩
    obtain ⟨r, hr, rfl⟩ := List.mem_map.mp (h.entries.mem_iff.mp he)
    exact ⟨r, hr, by simpa using hkey⟩
  · rintro ⟨r, hr, rfl⟩
    exact ⟨(r.key, r), h.entries.mem_iff.mpr (List.mem_map_of_mem hr), by simp⟩

/-- A record whose key is taken is refused, and with it as without it the store holds what it holds. -/
theorem put_of_mem (h : s.Holds rs) (hr : r.key ∈ rs.map Record.key) :
    s.put r = .error (.duplicate r.kind r.id) ∧ s.Holds (rs ++ [r]) := by
  constructor
  · rw [put, if_pos ((h.contains_iff r.key).mpr hr)]
  · refine ⟨h.ascending, ?_⟩
    rw [firsts_concat, if_pos hr]
    exact h.entries

/-- A record with a new key is added, and no other record goes. -/
theorem put_of_not_mem (h : s.Holds rs) (hr : r.key ∉ rs.map Record.key) : ∃ next, s.put r = .ok next ∧
    next.Holds (rs ++ [r]) ∧ s.entries.Sublist next.entries := by
  have hnew : ∀ e ∈ s.entries, r.key ≠ e.1 := fun e he hkey =>
    hr ((h.contains_iff r.key).mp (List.any_eq_true.mpr ⟨e, he, by simp [hkey]⟩))
  refine ⟨⟨insertEntry (r.key, r) s.entries⟩, ?_, ⟨h.ascending.insertEntry hnew, ?_⟩, sublist_insertEntry hnew⟩
  · rw [put, if_neg fun hc => hr ((h.contains_iff r.key).mp hc)]
  · rw [firsts_concat, if_neg hr, List.map_append, List.map_singleton]
    exact (insertEntry_perm hnew).trans ((h.entries.cons _).trans (List.perm_append_singleton _ _).symm)

/-- Every record is kept under its own key. -/
theorem key_eq (h : s.Holds rs) {e : RecordKey × Record} (he : e ∈ s.entries) : e.1 = e.2.key := by
  obtain ⟨r, -, rfl⟩ := List.mem_map.mp (h.entries.mem_iff.mp he)
  rfl

theorem length_entries (h : s.Holds rs) : s.entries.length = (firsts Record.key rs).length := by
  rw [h.entries.length_eq, List.length_map]

/-! ### Lists -/

theorem list_eq (h : s.Holds rs) (kind : RecordKind) :
    s.list kind = (s.entries.map (·.2)).filter (·.kind = kind) := by
  rw [list, List.filter_map]
  refine congrArg _ (List.filter_congr fun e he => ?_)
  rw [h.key_eq he]
  rfl

/-- A list has the first record of every id among those of its kind. -/
theorem list_perm (h : s.Holds rs) (kind : RecordKind) :
    (s.list kind).Perm (firsts Record.id (rs.filter (·.kind = kind))) := by
  have hfirsts : (firsts Record.key rs).filter (·.kind = kind) = firsts Record.id (rs.filter (·.kind = kind)) := by
    refine filter_firsts (fun r r' hkey => ?_) (fun r r' hr hr' => ?_) rs
    · have hkind : r.kind = r'.kind := congrArg RecordKey.kind hkey
      rw [hkind]
    · have hkind : r.kind = r'.kind := (of_decide_eq_true hr).trans (of_decide_eq_true hr').symm
      rw [Record.key, Record.key, RecordKey.mk.injEq]
      exact and_iff_right hkind
  rw [h.list_eq, ← hfirsts]
  have hrecords := h.entries.map (·.2)
  rw [List.map_map] at hrecords
  exact (hrecords.trans (List.Perm.of_eq (List.map_id _))).filter _

theorem kind_of_mem_list (h : s.Holds rs) (hr : r ∈ s.list kind) : r.kind = kind := by
  rw [h.list_eq] at hr
  simpa using List.of_mem_filter hr

/-- The ids of a list ascend. -/
theorem pairwise_list (h : s.Holds rs) (kind : RecordKind) : (s.list kind).Pairwise fun a b => a.id < b.id := by
  have hsorted : (s.list kind).Pairwise fun a b => a.key.precedes b.key := by
    rw [h.list_eq]
    refine (List.pairwise_map.mpr (h.ascending.imp_of_mem fun {a b} ha hb hab => ?_)).filter _
    rwa [h.key_eq ha, h.key_eq hb] at hab
  refine hsorted.imp_of_mem fun {a b} ha hb hab => ?_
  have hkind : a.kind = b.kind := (h.kind_of_mem_list ha).trans (h.kind_of_mem_list hb).symm
  exact (RecordKey.precedes_of_kind_eq (a := a.key) (b := b.key) hkind).mp hab

/-- Machines and tapes make up the whole store. -/
theorem size_eq (h : s.Holds rs) : s.size = (s.list .machine).length + (s.list .tape).length := by
  have hkind : ∀ r : Record, r.kind = .tape ↔ ¬r.kind = .machine := fun r => by cases r <;> simp [Record.kind]
  have hcount := List.length_eq_countP_add_countP (fun r : Record => decide (r.kind = .machine))
    (l := s.entries.map (·.2))
  rw [h.list_eq, h.list_eq, ← List.countP_eq_length_filter, ← List.countP_eq_length_filter, size,
    ← List.length_map (f := fun e : RecordKey × Record => e.2), hcount]
  simp only [hkind, decide_eq_true_eq]

/-- A list is settled by the records of its kind that were to be added. -/
theorem list_congr {s' : Store} {rs' : List Record} (h : s.Holds rs) (h' : s'.Holds rs')
    (hrs : rs.filter (·.kind = kind) = rs'.filter (·.kind = kind)) : s.list kind = s'.list kind := by
  have hperm : (s.list kind).Perm (s'.list kind) := (hrs ▸ h.list_perm kind).trans (h'.list_perm kind).symm
  exact hperm.eq_of_pairwise (fun a _ _ _ hab hba => absurd (String.lt_trans hab hba) (String.lt_irrefl a.id))
    (h.pairwise_list kind) (h'.pairwise_list kind)

/-- Records with distinct keys leave the same store in any order. -/
theorem eq_of_perm {s' : Store} {rs' : List Record} (h : s.Holds rs) (h' : s'.Holds rs') (hperm : rs.Perm rs')
    (hnodup : (rs.map Record.key).Nodup) : s = s' := by
  have hnodup' : (rs'.map Record.key).Nodup := (hperm.map Record.key).nodup_iff.mp hnodup
  have hentries := h.entries
  have hentries' := h'.entries
  rw [firsts_eq_self hnodup] at hentries
  rw [firsts_eq_self hnodup'] at hentries'
  obtain ⟨entries⟩ := s
  obtain ⟨entries'⟩ := s'
  exact congrArg Store.mk (h.ascending.eq_of_perm h'.ascending (hentries.trans ((hperm.map _).trans hentries'.symm)))

end Holds
end Store
end Tapeworks
