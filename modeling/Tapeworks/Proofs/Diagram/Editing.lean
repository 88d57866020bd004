import Tapeworks.Proofs.Code.Language
import Tapeworks.Proofs.Code.NormalForm
import Tapeworks.Proofs.Compile.Conservation
import Tapeworks.Proofs.Diagram.WellFormed

/-! What is true of all diagrams that are drawn by editing. A diagram that has been started afresh or decoded is well
    formed, and so is whatever edits make of it. It compiles without an edge that dangles, and when one of its states
    has been made the sole start, the table starts in this state. -/

namespace Tapeworks
namespace Diagram

variable {d d' : Diagram} {e : Edit} {err : EditError} {id : String}

/-! ### Origins -/

theorem wellFormed_empty : empty.WellFormed :=
  ⟨.nil, nofun, nofun, .nil, nofun⟩

theorem wellFormed_starter : starter.WellFormed where
  distinct := by decide
  numerals id hid := by
    have hid : id ∈ [1, 2, 3].map Text.numeral := hid
    obtain ⟨n, hn, rfl⟩ := List.mem_map.mp hid
    refine ⟨n, ?_, rfl⟩
    simp only [List.mem_cons, List.not_mem_nil, or_false] at hn
    omega
  attached := by decide
  single := by decide
  named := by decide

theorem wellFormed_draw {rules : List Code.Rule} (h : ∀ r ∈ rules, r.Positive) (last : Code.Rule) :
    (Code.draw rules last).WellFormed where
  distinct := Code.nodup_draw_nodes rules last
  numerals id hid := by
    rw [Code.draw_nodes] at hid
    obtain ⟨n, hn, rfl⟩ := List.mem_map.mp hid
    refine ⟨n, ?_, rfl⟩
    obtain ⟨r, hr, rfl | rfl⟩ := Code.mem_numbers.mp hn
    · exact (h r hr).1
    · exact (h r hr).2
  attached e he := by
    obtain ⟨r, hr, rfl⟩ := Code.exists_of_mem_draw_edges he
    unfold Attached
    rw [Code.draw_nodes]
    exact ⟨List.mem_map_of_mem (Code.source_mem_numbers hr), List.mem_map_of_mem (Code.target_mem_numbers hr)⟩
  single := Code.nodup_draw_links rules last
  named e he := by
    rw [Code.draw_edges] at he
    obtain ⟨ends, -, rfl⟩ := List.mem_map.mp he
    rfl

theorem wellFormed_decode {text : String} (h : decode text = .ok d) : d.WellFormed := by
  cases hread : Code.readTrimmed (Text.trim text.toList) with
  | ok rules =>
    obtain ⟨last, -, hdecode⟩ := Code.decode_of_ok hread
    cases h.symm.trans hdecode
    exact wellFormed_draw (Code.readTrimmed_eq_ok_iff.mp hread).positive last
  | error err => cases h.symm.trans (Code.decode_of_error hread)

/-- A layout only moves states. -/
theorem WellFormed.arrange (h : d.WellFormed) (layout : Layout) : (d.arrange layout).WellFormed := by
  refine h.of_nodes_eq ?_ (List.Sublist.refl _)
  rw [nodes, nodes, Diagram.arrange, List.map_map]
  rfl

theorem wellFormed_decodeWith {text : String} {layout : Layout} (h : decodeWith text layout = .ok d) :
    d.WellFormed := by
  obtain ⟨d', hdecode, hd⟩ := Code.Cursor.except_bind_eq_ok h
  cases hd
  exact (wellFormed_decode hdecode).arrange layout

/-! ### The sole start -/

/-- With distinct ids the states of the table are those of the diagram. -/
theorem states_compile_perm (h : d.nodes.Nodup) : (compile d).table.states.Perm d.states := by
  refine (List.perm_ext_iff_of_nodup (nodup_states_compile d) h.of_map).mpr fun s => ?_
  rw [mem_states_compile, state?, find?_key_eq_some_iff h, and_iff_left rfl]

theorem start_compile {s : State} (h : d.nodes.Nodup) (hs : d.startStates = [s]) :
    (compile d).table.start = .ok s := by
  have hperm := (states_compile_perm h).filter (·.isStart)
  rw [← startStates, hs] at hperm
  have hstart : (compile d).table.startStates = [s] := List.perm_singleton.mp hperm
  rw [Table.start, hstart]

theorem startStates_startedAt (h : d.nodes.Nodup) (hid : id ∈ d.nodes) :
    ∃ s, s.id = id ∧ (d.startedAt id).startStates = [s] := by
  obtain ⟨s, hs, rfl⟩ := List.mem_map.mp hid
  have hsole : d.states.filter (fun s' => decide (s'.id = s.id)) = [s] := by
    refine List.perm_singleton.mp ((List.perm_ext_iff_of_nodup (h.of_map.filter _) (List.nodup_singleton s)).mpr ?_)
    intro s'
    rw [List.mem_filter, List.mem_singleton, decide_eq_true_eq]
    constructor
    · rintro ⟨hs', hsame⟩
      exact List.inj_on_of_nodup_map h hs' hs hsame
    · rintro rfl
      exact ⟨hs, rfl⟩
  refine ⟨{ s with isStart := decide (s.id = s.id) }, rfl, ?_⟩
  rw [startStates, startedAt, List.filter_map]
  exact congrArg (List.map _) hsole

/-! ### Revisions -/

/-- Edits, done or refused, lead from one diagram to the other. States are added only where there is room for them. -/
inductive Revision : Diagram → Diagram → Prop
  | refl (d : Diagram) : Revision d d
  | edit {d d' : Diagram} (e : Edit) : Revision d d' → (e.addsState → d'.Storable) → Revision d (d'.edited e)

theorem WellFormed.revision (h : d.WellFormed) (hrevision : Revision d d') : d'.WellFormed := by
  induction hrevision with
  | refl => exact h
  | edit e _ hroom ih => exact ih.edited hroom

/-- What editing comes to. -/
structure Maintained (d : Diagram) : Prop where
  edgeIds : (d.edges.map (·.id)).Nodup
  edited : ∀ e : Edit, (e.addsState → d.Storable) → (d.edited e).WellFormed
  refused : ∀ e err, d.edit e = .error err → d.edited e = d ∧ Refused d e err
  revised : ∀ d', Revision d d' → d'.WellFormed ∧ ∀ w ∈ (compile d').warnings, ¬w.isDangling
  soleStart : ∀ id d', d.makeSoleStart id = .ok d' →
    ∃ s, s.id = id ∧ d'.startStates = [s] ∧ (compile d').table.start = .ok s

theorem edited_of_error (h : d.edit e = .error err) : d.edited e = d ∧ Refused d e err := by
  rcases d.edit_cases e with ⟨d', hd', -⟩ | ⟨err', herr', hrefused⟩
  · cases h.symm.trans hd'
  · cases h.symm.trans herr'
    exact ⟨by rw [Diagram.edited, h], hrefused⟩

theorem WellFormed.start_of_makeSoleStart (h : d.WellFormed) (hsole : d.makeSoleStart id = .ok d') :
    ∃ s, s.id = id ∧ d'.startStates = [s] ∧ (compile d').table.start = .ok s := by
  have hid : id ∈ d.nodes := by
    by_contra hid
    cases hsole.symm.trans (makeSoleStart_of_not_mem hid)
  cases hsole.symm.trans (makeSoleStart_of_mem hid)
  obtain ⟨s, hs, hstarts⟩ := startStates_startedAt h.distinct hid
  have hstarted : (d.startedAt id).WellFormed := h.done (.makeSoleStart hid) nofun
  exact ⟨s, hs, hstarts, start_compile hstarted.distinct hstarts⟩

theorem WellFormed.maintained (h : d.WellFormed) : d.Maintained where
  edgeIds := h.nodup_edge_ids
  edited _ hroom := h.edited hroom
  refused _ _ := edited_of_error
  revised d' hrevision := by
    have hd' := h.revision hrevision
    refine ⟨hd', fun w hw hdangling => ?_⟩
    rw [isDangling_of_attached hd'.attached hw] at hdangling
    cases hdangling
  soleStart _ _ := h.start_of_makeSoleStart

/-- Fresh and decoded diagrams are well formed, and editing keeps diagrams so. -/
theorem wellFormed_maintained :
    starter.WellFormed ∧ empty.WellFormed ∧ (∀ text d, decode text = .ok d → d.WellFormed) ∧
      (∀ text layout d, decodeWith text layout = .ok d → d.WellFormed) ∧
      ∀ d : Diagram, d.WellFormed → d.Maintained :=
  ⟨wellFormed_starter, wellFormed_empty, fun _ _ => wellFormed_decode, fun _ _ _ => wellFormed_decodeWith,
    fun _ => WellFormed.maintained⟩

theorem wellFormed_maintained_starter :
    (∃ d, decode "abaabaaaab" = .ok d ∧ d.WellFormed) ∧
    (∃ d, decodeWith "abaabaaaab" (fun _ _ _ => none) = .ok d ∧ d.WellFormed) ∧
    starter.WellFormed ∧ starter.Storable ∧ (starter.edited (.addState default)).WellFormed ∧
    ((starter.edited (.addState default)).edited (.connect "3" "4")).WellFormed ∧
    ∃ s, s.id = "2" ∧ (starter.startedAt "2").startStates = [s] ∧
      (compile (starter.startedAt "2")).table.start = .ok s := by
  obtain ⟨hstarter, -, hdecode, hdecodeWith, hmaintained⟩ := wellFormed_maintained
  have hprinted : Code.Printed [⟨1, 2, .a, .a, .right⟩] (Text.trim "abaabaaaab".toList) :=
    ⟨List.cons_ne_nil _ _, by simp [Code.Rule.Positive], by decide⟩
  obtain ⟨last, -, hcode⟩ := Code.decode_of_ok (Code.readTrimmed_eq_ok_iff.mpr hprinted)
  have harranged : decodeWith "abaabaaaab" (fun _ _ _ => none) =
      .ok ((Code.draw [⟨1, 2, .a, .a, .right⟩] last).arrange fun _ _ _ => none) := by
    rw [decodeWith, hcode]
    rfl
  have hroom : starter.Storable := by decide
  have hadds : ¬(Edit.connect "3" "4").addsState := Bool.false_ne_true
  have hadded := (hmaintained starter hstarter).edited (.addState default) fun _ => hroom
  refine ⟨⟨_, hcode, hdecode _ _ hcode⟩, ⟨_, harranged, hdecodeWith _ _ _ harranged⟩, hstarter, hroom, hadded,
    ?_, ?_⟩
  · exact (hmaintained _ hadded).edited (.connect "3" "4") fun h => absurd h hadds
  · exact (hmaintained starter hstarter).soleStart "2" _ rfl

end Diagram
end Tapeworks
