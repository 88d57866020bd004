import Tapeworks.Proofs.Store.Entries

/-! What becomes of a new store by any calls. A save succeeds just when no record before it has its kind and its id, and
    all other calls leave the store as it is. So the store lists, by ascending id, the first record of every id that was
    to be saved, each kind as if the other one did not exist. -/

namespace Tapeworks.Store

/-! ### Calls -/

/-- What a store can be asked for. -/
inductive Call
  | saveMachine (r : MachineRecord)
  | saveTape (r : TapeRecord)
  | list (kind : RecordKind)
  | machines
  | tapes
  | size
  | isEmpty
  deriving DecidableEq, Repr

inductive Reply
  | saved
  | refused (error : StoreError)
  | records (rs : List Record)
  | machines (rs : List MachineRecord)
  | tapes (rs : List TapeRecord)
  | size (n : Nat)
  | isEmpty (answer : Bool)
  deriving DecidableEq, Repr

/-- The record that is to be saved. -/
def Call.record? : Call → Option Record
  | .saveMachine r => some (.machine r)
  | .saveTape r => some (.tape r)
  | _ => none

/-- The call saves nothing, or a record of the kind. -/
def Call.concerns (kind : RecordKind) (call : Call) : Bool :=
  call.record?.all (·.kind = kind)

def saved (s : Store) : Except StoreError Store → Reply × Store
  | .ok next => (.saved, next)
  | .error e => (.refused e, s)

def perform (s : Store) : Call → Reply × Store
  | .saveMachine r => s.saved (s.saveMachine r)
  | .saveTape r => s.saved (s.saveTape r)
  | .list kind => (.records (s.list kind), s)
  | .machines => (.machines s.machines, s)
  | .tapes => (.tapes s.tapes, s)
  | .size => (.size s.size, s)
  | .isEmpty => (.isEmpty s.isEmpty, s)

def after (s : Store) (calls : List Call) : Store :=
  calls.foldl (fun s call => (s.perform call).2) s

/-- The reply to each call. -/
def replies (s : Store) : List Call → List Reply
  | [] => []
  | call :: calls => (s.perform call).1 :: (s.perform call).2.replies calls

/-- The records that were to be saved, in order. -/
def saves (calls : List Call) : List Record :=
  calls.filterMap Call.record?

/-- How many of the calls have saved a record. -/
def successes (s : Store) (calls : List Call) : Nat :=
  (s.replies calls).count .saved

/-- What a new store has become by the calls. -/
structure AddOnly (calls : List Call) (s : Store) : Prop where
  saved : ∀ call r, call.record? = some r →
    ((s.perform call).1 = .saved ↔ ∀ r' ∈ saves calls, r'.kind = r.kind → r'.id ≠ r.id)
  refused : ∀ call r, call.record? = some r → (s.perform call).1 ≠ .saved →
    s.perform call = (.refused (.duplicate r.kind r.id), s)
  listing : ∀ call, call.record? = none → (s.perform call).2 = s
  kept : ∀ more, s.entries.Sublist (s.after more).entries
  firsts : ∀ kind, (s.list kind).Perm (firsts Record.id ((saves calls).filter (·.kind = kind)))
  ascending : ∀ kind, (s.list kind).Pairwise fun a b => a.id < b.id
  machines : s.list .machine = s.machines.map .machine
  tapes : s.list .tape = s.tapes.map .tape
  apart : ∀ kind, s.list kind = (empty.after (calls.filter (Call.concerns kind))).list kind
  size : s.size = empty.successes calls ∧ s.size = s.machines.length + s.tapes.length
  isEmpty : s.isEmpty ↔ Reply.saved ∉ empty.replies calls
  order : ∀ calls', calls.Perm calls' → ((saves calls).map Record.key).Nodup → empty.after calls' = s

variable {s : Store} {rs : List Record} {r : Record} {call : Call} {calls : List Call} {kind : RecordKind}

/-! ### One call -/

theorem perform_of_record? (h : call.record? = some r) : s.perform call = s.saved (s.put r) := by
  cases call <;> cases h <;> rfl

theorem perform_of_record?_eq_none (h : call.record? = none) : (s.perform call).2 = s ∧ (s.perform call).1 ≠ .saved := by
  cases call with
  | saveMachine r => cases h
  | saveTape r => cases h
  | _ => exact ⟨rfl, nofun⟩

/-- A record with a new key is saved, and one whose key is taken is refused. -/
theorem Holds.save_cases (h : s.Holds rs) (hcall : call.record? = some r) :
    (r.key ∈ rs.map Record.key ∧ s.perform call = (.refused (.duplicate r.kind r.id), s)) ∨
      (r.key ∉ rs.map Record.key ∧ ∃ next, s.perform call = (.saved, next) ∧ next.Holds (rs ++ [r]) ∧
        s.entries.Sublist next.entries) := by
  rw [perform_of_record? hcall]
  by_cases hr : r.key ∈ rs.map Record.key
  · rw [(h.put_of_mem hr).1]
    exact Or.inl ⟨hr, rfl⟩
  · obtain ⟨next, hput, hnext, hsublist⟩ := h.put_of_not_mem hr
    rw [hput]
    exact Or.inr ⟨hr, next, rfl, hnext, hsublist⟩

/-- A call leaves a store that holds the records of before and the one that was to be saved. -/
theorem Holds.perform (h : s.Holds rs) (call : Call) : (s.perform call).2.Holds (rs ++ call.record?.toList) ∧
    s.entries.Sublist (s.perform call).2.entries := by
  cases hcall : call.record? with
  | none =>
    rw [(perform_of_record?_eq_none hcall).1, Option.toList_none, List.append_nil]
    exact ⟨h, .refl _⟩
  | some r =>
    rcases h.save_cases hcall with ⟨hr, hperform⟩ | ⟨-, next, hperform, hnext, hsublist⟩
    · rw [hperform]
      exact ⟨(h.put_of_mem hr).2, .refl _⟩
    · rw [hperform]
      exact ⟨hnext, hsublist⟩

/-! ### All calls -/

theorem saves_cons (call : Call) (calls : List Call) : saves (call :: calls) = call.record?.toList ++ saves calls := by
  cases hcall : call.record? <;> simp [saves, hcall]

theorem Holds.after (h : s.Holds rs) (calls : List Call) : (s.after calls).Holds (rs ++ saves calls) ∧
    s.entries.Sublist (s.after calls).entries := by
  induction calls generalizing s rs with
  | nil => exact ⟨(List.append_nil rs).symm ▸ h, .refl _⟩
  | cons call calls ih =>
    obtain ⟨hnext, hsublist⟩ := h.perform call
    obtain ⟨hlast, hrest⟩ := ih hnext
    rw [saves_cons, ← List.append_assoc]
    exact ⟨hlast, hsublist.trans hrest⟩

theorem holds_after (calls : List Call) : (empty.after calls).Holds (saves calls) :=
  (Holds.nil.after calls).1

/-- Every successful save adds one entry. -/
theorem Holds.length_after (h : s.Holds rs) (calls : List Call) :
    (s.after calls).entries.length = s.entries.length + s.successes calls := by
  induction calls generalizing s rs with
  | nil => rfl
  | cons call calls ih =>
    have hrest := ih (h.perform call).1
    have hone : (s.perform call).2.entries.length =
        s.entries.length + (if (s.perform call).1 == .saved then 1 else 0) := by
      cases hcall : call.record? with
      | none =>
        obtain ⟨hsame, hreply⟩ := perform_of_record?_eq_none (s := s) hcall
        rw [hsame, if_neg (by simpa using hreply), Nat.add_zero]
      | some r =>
        rcases h.save_cases hcall with ⟨-, hperform⟩ | ⟨hr, next, hperform, hnext, -⟩
        · rw [hperform]
          rfl
        · rw [hperform, hnext.length_entries, h.length_entries, firsts_concat, if_neg hr, List.length_append]
          rfl
    rw [successes, replies, List.count_cons, ← successes, Nat.add_comm (successes _ _), ← Nat.add_assoc, ← hone]
    exact hrest

/-! ### Lists by type -/

theorem map_machine {rs : List Record} (h : ∀ r ∈ rs, r.kind = .machine) :
    rs = (rs.filterMap Record.machine?).map .machine := by
  induction rs with
  | nil => rfl
  | cons r rs ih =>
    obtain ⟨hr, hrs⟩ := List.forall_mem_cons.mp h
    cases r with
    | machine m => exact congrArg _ (ih hrs)
    | tape t => cases hr

theorem map_tape {rs : List Record} (h : ∀ r ∈ rs, r.kind = .tape) : rs = (rs.filterMap Record.tape?).map .tape := by
  induction rs with
  | nil => rfl
  | cons r rs ih =>
    obtain ⟨hr, hrs⟩ := List.forall_mem_cons.mp h
    cases r with
    | machine m => cases hr
    | tape t => exact congrArg _ (ih hrs)

theorem saves_filter_concerns (kind : RecordKind) (calls : List Call) :
    (saves (calls.filter (Call.concerns kind))).filter (·.kind = kind) = (saves calls).filter (·.kind = kind) := by
  induction calls with
  | nil => rfl
  | cons call calls ih =>
    rw [saves_cons, List.filter_append, ← ih]
    cases hcall : call.record? with
    | none =>
      have hconcerns : call.concerns kind := by rw [Call.concerns, hcall]; rfl
      rw [List.filter_cons_of_pos hconcerns, saves_cons, hcall]
      rfl
    | some r =>
      by_cases hr : r.kind = kind
      · have hconcerns : call.concerns kind := by simp [Call.concerns, hcall, hr]
        rw [List.filter_cons_of_pos hconcerns, saves_cons, hcall, List.filter_append]
      · have hconcerns : ¬call.concerns kind := by simp [Call.concerns, hcall, hr]
        rw [List.filter_cons_of_neg hconcerns]
        simp [hr]

/-! ### The history of a store -/

theorem key_not_mem_iff : r.key ∉ rs.map Record.key ↔ ∀ r' ∈ rs, r'.kind = r.kind → r'.id ≠ r.id := by
  simp [Record.key]

/-- Any calls to a new store add records and do nothing else. -/
theorem addOnly_after (calls : List Call) : AddOnly calls (empty.after calls) := by
  have h := holds_after calls
  have hmachines : (empty.after calls).list .machine = (empty.after calls).machines.map .machine :=
    map_machine fun r hr => h.kind_of_mem_list hr
  have htapes : (empty.after calls).list .tape = (empty.after calls).tapes.map .tape :=
    map_tape fun r hr => h.kind_of_mem_list hr
  have hlength := Holds.nil.length_after calls
  refine
    { saved := fun call r hcall => ?_
      refused := fun call r hcall hreply => ?_
      listing := fun call hcall => (perform_of_record?_eq_none hcall).1
      kept := fun more => (h.after more).2
      firsts := h.list_perm
      ascending := h.pairwise_list
      machines := hmachines
      tapes := htapes
      apart := fun kind => h.list_congr (holds_after _) (saves_filter_concerns kind calls).symm
      size := ⟨?_, ?_⟩
      isEmpty := ?_
      order := fun calls' hperm hnodup => (h.eq_of_perm (holds_after calls') (hperm.filterMap _) hnodup).symm }
  · rw [← key_not_mem_iff]
    rcases h.save_cases hcall with ⟨hr, hperform⟩ | ⟨hr, next, hperform, -⟩
    · rw [hperform]
      exact iff_of_false nofun fun hnew => hnew hr
    · rw [hperform]
      exact iff_of_true rfl hr
  · rcases h.save_cases hcall with ⟨-, hperform⟩ | ⟨-, next, hperform, -⟩
    · exact hperform
    · exact absurd (congrArg Prod.fst hperform) hreply
  · exact hlength.trans (Nat.zero_add _)
  · rw [h.size_eq, congrArg List.length hmachines, congrArg List.length htapes, List.length_map, List.length_map]
  · rw [isEmpty, List.isEmpty_iff_length_eq_zero, hlength]
    exact (Nat.zero_add _).symm ▸ List.count_eq_zero

end Tapeworks.Store
