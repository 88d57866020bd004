import Mathlib.Data.List.Induction
import Tapeworks.Json.Fields

/-! Lists and maps read back. A list is read item by item, and a map member by member; the members of a map are put in
    order by their names, so that members that are in order already come out as they stand. -/

namespace Tapeworks

section Lists

variable {α β : Type} {l : List α}

theorem isSome_mapM {f : α → Option β} : (l.mapM f).isSome ↔ ∀ a ∈ l, (f a).isSome := by
  induction l with
  | nil => simp
  | cons a l ih => cases ha : f a <;> cases hl : l.mapM f <;> simp_all

theorem mapM_eq_some_self {f : α → Option α} : l.mapM f = some l ↔ ∀ a ∈ l, f a = some a := by
  induction l with
  | nil => simp
  | cons a l ih => simp [Option.bind_eq_some_iff, ih]

/-- What is kept of every element is kept of the list. -/
theorem map_eq_of_mapM {γ : Type} {f : α → Option α} {g : α → γ} (hf : ∀ a b, f a = some b → g b = g a) {l' : List α}
    (h : l.mapM f = some l') : l'.map g = l.map g := by
  induction l generalizing l' with
  | nil =>
    cases h
    rfl
  | cons a l ih =>
    simp only [List.mapM_cons, Option.bind_eq_bind, Option.bind_eq_some_iff, Option.pure_def, Option.some.injEq] at h
    obtain ⟨b, hb, bs, hbs, rfl⟩ := h
    rw [List.map_cons, List.map_cons, hf a b hb, ih hbs]

end Lists

namespace Json.Value

variable {α : Type} {item? : Value → Option α} {toJson : α → Value}

theorem list?_array_map {l : List α} (h : ∀ a ∈ l, item? (toJson a) = some a) :
    list? item? (.array (l.map toJson)) = some l := by
  rw [list?, List.mapM_map, mapM_eq_some_self]
  exact h

/-! ### Maps -/

variable {entry : String × α} {entries : List (String × α)}

theorem insertEntry_of_forall_lt (h : ∀ e ∈ entries, e.1 < entry.1) : insertEntry entry entries = entries ++ [entry] := by
  induction entries with
  | nil => rfl
  | cons head entries ih =>
    obtain ⟨hhead, hentries⟩ := List.forall_mem_cons.mp h
    rw [insertEntry, if_neg (String.lt_asymm hhead), if_neg (String.ne_of_lt hhead).symm, ih hentries, List.cons_append]

theorem foldl_insertEntry (h : entries.Pairwise fun a b => a.1 < b.1) :
    entries.foldl (fun entries entry => insertEntry entry entries) [] = entries := by
  -- From the right, since every entry is put in among those before it.
  induction entries using List.reverseRecOn with
  | nil => rfl
  | append_singleton entries entry ih =>
    obtain ⟨hentries, -, hlast⟩ := List.pairwise_append.mp h
    rw [List.foldl_append, List.foldl_cons, List.foldl_nil, ih hentries]
    exact insertEntry_of_forall_lt fun e he => hlast e he entry (List.mem_singleton_self entry)

theorem map?_record (toJson : α → Value) (hitem : ∀ e ∈ entries, item? (toJson e.2) = some e.2)
    (hentries : entries.Pairwise fun a b => a.1 < b.1) :
    map? item? (.record (entries.map fun e => (e.1, toJson e.2))) = some entries := by
  have hmembers : (entries.map fun e => ((some e.1 : Text), toJson e.2)).mapM
      (fun m => do return (← m.1, ← item? m.2)) = some entries := by
    rw [List.mapM_map, mapM_eq_some_self]
    intro e he
    simp [hitem e he]
  have hrecord : Value.record (entries.map fun e => (e.1, toJson e.2)) =
      .object (entries.map fun e => (some e.1, toJson e.2)) := by
    rw [record, List.map_map]
    rfl
  rw [hrecord, map?, hmembers, Option.bind_eq_bind, Option.bind_some, foldl_insertEntry hentries]
  rfl

end Json.Value

end Tapeworks
