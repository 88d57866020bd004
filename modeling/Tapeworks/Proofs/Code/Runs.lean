import Tapeworks.Proofs.Code.RoundTrip
import Tapeworks.Proofs.Machine.Simulation

/-! Runs on a decoded table. Where the table of a diagram has one final state and a rule enters it, the final state of the
    decoded diagram is the same, so that states with one id are related, and a machine cannot be told from one that has
    made the trip through a code. -/

namespace Tapeworks.Code

open Machine

variable {d d' : Diagram} {e : String} {q s s' : State} {id : String} {c : Char}

/-- The states of two diagrams that share their id. -/
structure Namesakes (d d' : Diagram) (s s' : State) : Prop where
  left : d.state? s.id = some s
  right : d'.state? s'.id = some s'
  id : s.id = s'.id

/-! ### Final states -/

theorem isFinal_iff_of_filter (hone : (compile d).table.states.filter (·.isFinal) = [q])
    (hs : d.state? s.id = some s) : s.isFinal ↔ s.id = q.id := by
  have hq : q ∈ (compile d).table.states.filter (·.isFinal) := hone ▸ List.mem_singleton_self q
  obtain ⟨hq, hqf⟩ := List.mem_filter.mp hq
  constructor
  · intro hsf
    have hmem : s ∈ (compile d).table.states.filter (·.isFinal) :=
      List.mem_filter.mpr ⟨mem_states_compile.mpr hs, hsf⟩
    rw [hone, List.mem_singleton] at hmem
    rw [hmem]
  · intro hid
    rw [hid, mem_states_compile.mp hq] at hs
    exact Option.some.inj hs ▸ hqf

theorem isFinal_iff_of_nodup (hnodup : d.nodes.Nodup) (hone : (d.states.filter (·.isFinal)).map (·.id) = [q.id])
    (hs : d.state? s.id = some s) : s.isFinal ↔ s.id = q.id := by
  constructor
  · intro hsf
    have hmem : s.id ∈ (d.states.filter (·.isFinal)).map (·.id) :=
      List.mem_map_of_mem (List.mem_filter.mpr ⟨(Diagram.state?_eq_some hs).1, hsf⟩)
    rwa [hone, List.mem_singleton] at hmem
  · intro hid
    have hmem : q.id ∈ (d.states.filter (·.isFinal)).map (·.id) := hone ▸ List.mem_singleton_self _
    obtain ⟨s', hs', hid'⟩ := List.mem_map.mp hmem
    obtain ⟨hs', hsf'⟩ := List.mem_filter.mp hs'
    have hfind : d.state? s.id = some s' := (find?_key_eq_some_iff hnodup).mpr ⟨hs', hid'.trans hid.symm⟩
    rw [hs] at hfind
    exact Option.some.inj hfind ▸ hsf'

/-! ### The simulation -/

theorem Faithful.bisimulation (F : Faithful d d') (hone : (compile d).table.states.filter (·.isFinal) = [q])
    (hinto : ∃ x ∈ (compile d).table.rules, x.2.target.id = q.id) :
    Bisimulation (Namesakes d d') (compile d).table (compile d').table where
  id _ _ h := h.id
  isFinal s s' h := by
    obtain ⟨x, hx, hxq⟩ := hinto
    have hxf : x.2.target.isFinal := (isFinal_iff_of_filter hone (state?_target (mem_rules_compile.mp hx).2)).mpr hxq
    obtain ⟨q', hq', hqf', hone'⟩ := F.final ⟨x, hx, hxf⟩
    rw [(isFinal_iff_of_filter hone hq').mp hqf'] at hone'
    rw [Bool.eq_iff_iff, isFinal_iff_of_filter hone h.left, isFinal_iff_of_nodup F.nodup hone' h.right, h.id]
  rules s s' h c := by
    rw [← h.id]
    rcases option_rel_cases (F.rules s.id c) with ⟨hfind, hfind'⟩ | ⟨r, r', hfind, hfind', hr⟩
    · rw [hfind, hfind']
      exact .none
    · rw [hfind, hfind']
      refine .some ⟨?_, hr.direction.symm, ⟨?_, ?_, hr.target.symm⟩⟩
      · rw [hr.write, Option.getD_some]
      · exact state?_target (find?_compile_eq_some_iff.mp hfind).1
      · exact state?_target (find?_compile_eq_some_iff.mp hfind').1

theorem startingAt_of_state? (hs : d.state? s.id = some s) (tape : Tape) :
    startingAt (compile d).table tape s.id = .ok (inState (compile d).table tape s) := by
  rw [startingAt, stateNamed, state?_compile, hs]
  rfl

/-- With one final state, and a rule that enters it, a machine does on the decoded table what it does on its own. -/
theorem session_decode_encode (hnamed : ∀ id ∈ (compile d).table.ends, Text.Canonical id) (he : encode d = .ok e)
    (hne : e ≠ "") (hone : (compile d).table.states.filter (·.isFinal) = [q])
    (hinto : ∃ x ∈ (compile d).table.rules, x.2.target.id = q.id) :
    ∃ d', decode e = .ok d' ∧ ∀ id ∈ (compile d).table.ends, ∀ tape, ∃ m m',
      startingAt (compile d).table tape id = .ok m ∧ startingAt (compile d').table tape id = .ok m' ∧
        m.view = m'.view ∧
          ∀ ops : List Operation, (∀ op ∈ ops, ¬op.placesState) → m.session ops = m'.session ops := by
  obtain ⟨d', hdecode, F⟩ : ∃ d', decode e = .ok d' ∧ Faithful d d' := by
    obtain ⟨hT, last, hlast, hdecode⟩ := exists_decode he hne
    exact ⟨_, hdecode, Named.faithful_draw hnamed hT hlast⟩
  refine ⟨d', hdecode, fun id hid tape => ?_⟩
  obtain ⟨s, hs, rfl⟩ := exists_state_of_mem_ends hid
  obtain ⟨s', hs', hid'⟩ := exists_state_of_mem_nodes ((F.nodes _).mpr hid)
  have hmirrors : Mirrors (Namesakes d d') (inState (compile d).table tape s) (inState (compile d').table tape s') :=
    ⟨F.bisimulation hone hinto, ⟨⟨hs, hs', hid'.symm⟩, rfl⟩, rfl, rfl, rfl, rfl⟩
  refine ⟨_, _, startingAt_of_state? hs tape, ?_, hmirrors.view, fun ops hops => hmirrors.session hops⟩
  rw [← hid']
  exact startingAt_of_state? hs' tape

theorem session_decode_encode_shuttle : ∃ d', decode "aaababaabaaabaabababb" = .ok d' ∧
    ∀ id ∈ (compile shuttle).table.ends, ∀ tape, ∃ m m',
      startingAt (compile shuttle).table tape id = .ok m ∧ startingAt (compile d').table tape id = .ok m' ∧
        m.view = m'.view ∧
          ∀ ops : List Operation, (∀ op ∈ ops, ¬op.placesState) → m.session ops = m'.session ops :=
  session_decode_encode (d := shuttle) (q := { id := "2", isFinal := true }) (by decide) rfl (by decide) (by decide)
    (by decide)

end Tapeworks.Code
