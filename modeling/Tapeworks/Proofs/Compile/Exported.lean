import Tapeworks.Proofs.Machine.Coherent
import Tapeworks.Proofs.Machine.Counterpart
import Tapeworks.Proofs.Table.Export

/-! What the text of a compiled table tells. It reads back as the exported table, in which every target is an id, the
    rules of an id read different symbols and a write symbol is missing just where a rule has none. Two tables have one
    text just when they have the same ids and rules; and since all that a run looks at is there but the final states,
    machines in the states of one id run alike on tables that have one text and the same final states. -/

namespace Tapeworks

/-- The text of the table reads back as its exported form, and that tells the rules of every id: where they lead, what
    they read, and whether they write. -/
structure Table.Told (t : Table) : Prop where
  read : readExported? t.jsonText = some t.exported
  ascending : t.exported.Pairwise fun x y => x.1 < y.1
  keys : t.exported.map (·.1) = t.ids
  rules : ∀ x ∈ t.exported, List.Forall₂ ExportedTransition.Describes x.2 (t.transitions x.1)
  targets : ∀ x ∈ t.exported, ∀ rule ∈ x.2, rule.targetStateId ∈ t.exported.map (·.1)
  distinct : ∀ x ∈ t.exported, (x.2.map (·.readLetter)).Nodup
  written : ∃ objects : List (String × List Json.Value),
    Json.read? t.jsonText = some (.record (objects.map fun x => (x.1, .array x.2))) ∧
      objects.map (·.1) = t.ids ∧ ∀ x ∈ objects, List.Forall₂ Json.Value.Shows x.2 (t.transitions x.1)

/-- Machines that are set up in the states of one id, or from one snapshot, give the same replies and views until they
    are reset. A reset goes to the start state, which the text does not tell. -/
structure Table.RunsAlike (t t' : Table) : Prop where
  startingAt : ∀ tape id ops, .reset ∉ ops →
    Machine.showing ops (Machine.startingAt t' tape id) = Machine.showing ops (Machine.startingAt t tape id)
  resume : ∀ snapshot ops, .reset ∉ ops →
    Machine.showing ops (Machine.resume t' snapshot) = Machine.showing ops (Machine.resume t snapshot)

/-- What the texts of two tables tell of them. -/
structure Table.Determined (t t' : Table) : Prop where
  told : t.Told
  text : t'.jsonText = t.jsonText ↔ t.Coincides t'
  runs : t'.jsonText = t.jsonText → (∀ id, (t'.state? id).map (·.isFinal) = (t.state? id).map (·.isFinal)) →
    t.RunsAlike t'

namespace Table

variable {t t' : Table} {d : Diagram}

/-! ### Tables that coincide -/

section Coincides

variable (h : t.Coincides t') (hfinal : ∀ id, (t'.state? id).map (·.isFinal) = (t.state? id).map (·.isFinal))

include hfinal in
theorem rel_state? (id : String) : Option.Rel State.Resembles (t.state? id) (t'.state? id) := by
  have hsame := hfinal id
  cases hs : t.state? id with
  | none =>
    rw [hs] at hsame
    rw [Option.map_eq_none_iff.mp hsame]
    exact .none
  | some s =>
    rw [hs] at hsame
    obtain ⟨s', hs', hsf⟩ := Option.map_eq_some_iff.mp hsame
    rw [hs']
    exact .some ⟨(state?_eq_some hs).2.trans (state?_eq_some hs').2.symm, hsf.symm⟩

include h in
theorem Coincides.find? (id : String) (c : Char) : Option.Rel Transition.Alike (t.find? id c) (t'.find? id c) :=
  rel_find? (h.rules id) fun r r' hr => by rw [hr.read]

include h hfinal in
/-- Where the same states are final, rules that are alike match, since the table has the states that they lead to. -/
theorem Coincides.corresponds (hrows : Ascending t.rows) (hrows' : Ascending t'.rows) (hclosed : t.Closed)
    (hclosed' : t'.Closed) : t.Corresponds State.Resembles t' where
  bisimulation := {
    id := fun _ _ hs => hs.id
    isFinal := fun _ _ hs => hs.isFinal
    rules := fun s s' hs c => by
      rw [← hs.id]
      rcases option_rel_cases (h.find? s.id c) with ⟨hr, hr'⟩ | ⟨r, r', hr, hr', halike⟩
      · rw [hr, hr']
        exact .none
      · have htarget := state?_of_mem hrows (hclosed s.id r (List.mem_of_find?_eq_some hr))
        have htarget' := state?_of_mem hrows' (hclosed' s.id r' (List.mem_of_find?_eq_some hr'))
        have hresembles := rel_state? hfinal r.target.id
        rw [htarget, ← halike.target, htarget'] at hresembles
        rw [hr, hr']
        cases hresembles with
        | some hresembles => exact .some ⟨by rw [halike.write], halike.direction.symm, hresembles⟩ }
  state? := rel_state? hfinal

end Coincides

theorem Corresponds.runsAlike (h : t.Corresponds State.Resembles t') : t.RunsAlike t' where
  startingAt tape id _ hops := Machine.showing_startingAt_counterpart h tape id hops
  resume snapshot _ hops := Machine.showing_resume_counterpart h snapshot hops

end Table

/-! ### Compiled tables -/

open Table

theorem told_compile (d : Diagram) : (compile d).table.Told where
  read := readExported?_jsonText (ascending_compile d)
  ascending := pairwise_exported (ascending_compile d)
  keys := map_fst_exported _
  rules _ hx := describes_of_mem_exported (ascending_compile d) hx
  targets x hx rule hrule := by
    rw [rules_of_mem_exported (ascending_compile d) hx] at hrule
    obtain ⟨r, hr, rfl⟩ := List.mem_map.mp hrule
    rw [map_fst_exported]
    exact List.mem_map_of_mem (closed_compile d x.1 r hr)
  distinct x hx := by
    rw [rules_of_mem_exported (ascending_compile d) hx, List.map_map]
    exact nodup_reads_compile d x.1
  written := by
    refine ⟨(compile d).table.exported.map fun x => (x.1, x.2.map ExportedTransition.toJson), ?_, ?_, ?_⟩
    · rw [read?_jsonText, toJson_eq, List.map_map]
      rfl
    · rw [List.map_map]
      exact map_fst_exported _
    · intro x hx
      obtain ⟨y, hy, rfl⟩ := List.mem_map.mp hx
      exact shows_of_mem_exported (ascending_compile d) hy

theorem jsonText_compile_eq_iff (d d' : Diagram) :
    (compile d').table.jsonText = (compile d).table.jsonText ↔ (compile d).table.Coincides (compile d').table :=
  (jsonText_eq_iff (ascending_compile d) (ascending_compile d')).trans
    (exported_eq_iff (ascending_compile d) (ascending_compile d'))

/-- The text of a compiled table determines its ids and rules, and with the final states it determines the runs. -/
theorem determined_compile (d d' : Diagram) : (compile d).table.Determined (compile d').table where
  told := told_compile d
  text := jsonText_compile_eq_iff d d'
  runs htext hfinal := by
    have hcoincides := (jsonText_compile_eq_iff d d').mp htext
    exact (hcoincides.corresponds hfinal (ascending_compile d) (ascending_compile d') (closed_compile d)
      (closed_compile d')).runsAlike

/-- A machine that reads the signs of directions, with a quote and a line break as ids. -/
def quoted : Diagram where
  states := [{ id := "\"", isStart := true }, { id := "\n", isFinal := true }]
  edges := [Edge.between "\"" "\n" "<,>,>;\",<", Edge.between "\n" "\"" "a,>"]

/-- The same rules on three edges, with the states in another order and another start state. -/
def quotedApart : Diagram where
  states := [{ id := "\n", isStart := true, isFinal := true }, { id := "\"" }]
  edges := [Edge.between "\n" "\"" "a,>", Edge.between "\"" "\n" "<,>,>", Edge.between "\"" "\n" "\",<"]

theorem determined_compile_quoted : (compile quotedApart).table ≠ (compile quoted).table ∧
    readExported? (compile quoted).table.jsonText = some [("\n", [⟨'a', none, '>', "\""⟩]),
      ("\"", [⟨'<', some '>', '>', "\n"⟩, ⟨'"', none, '<', "\n"⟩])] ∧
    (compile quotedApart).table.jsonText = (compile quoted).table.jsonText ∧
    (∀ id, ((compile quotedApart).table.state? id).map (·.isFinal) =
      ((compile quoted).table.state? id).map (·.isFinal)) ∧
    (compile quoted).table.RunsAlike (compile quotedApart).table := by
  have hexported : (compile quotedApart).table.exported = (compile quoted).table.exported := rfl
  have htext : (compile quotedApart).table.jsonText = (compile quoted).table.jsonText :=
    (jsonText_eq_iff (ascending_compile _) (ascending_compile _)).mpr hexported
  have hfinal : ∀ id, ((compile quotedApart).table.state? id).map (·.isFinal) =
      ((compile quoted).table.state? id).map (·.isFinal) := fun id => by
    rw [state?_compile, state?_compile]
    by_cases hbreak : id = "\n"
    · rw [hbreak]
      rfl
    · by_cases hquote : id = "\""
      · rw [hquote]
        rfl
      · simp [Diagram.state?, quoted, quotedApart, Ne.symm hbreak, Ne.symm hquote]
  exact ⟨by decide, (determined_compile quoted quotedApart).told.read, htext, hfinal,
    (determined_compile quoted quotedApart).runs htext hfinal⟩

end Tapeworks
