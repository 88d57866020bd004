import Tapeworks.MachineFile
import Tapeworks.Proofs.Analysis
import Tapeworks.Proofs.Diagram.Editing
import Tapeworks.Proofs.Machine.Reachable

/-! Loading a code. A code is loaded whenever it can be decoded: the state that is made the sole start is the first one
    that the code mentions, so that the edit cannot be refused. What has been loaded can be run. Its edges are attached
    and all of its specs are rules, which leaves only repeated rules to drop; and it has one start state and, since
    every code ends in a target, a final state. -/

namespace Tapeworks

variable {d : Diagram} {w : Warning}

/-! ### Warnings and edges -/

/-- Every warning is left by some edge, after the keys that were offered before it. -/
theorem exists_edge_of_mem_warnings (h : w ∈ (compile d).warnings) :
    ∃ e ∈ d.edges, ∃ taken, w ∈ d.warningsOf taken e := by
  -- The last edge leaves its warnings behind those of the edges before it.
  have hedges : ∀ edges : List Edge, w ∈ (d.compileEdges edges).warnings.toList →
      ∃ e ∈ edges, ∃ taken, w ∈ d.warningsOf taken e := by
    intro edges
    induction edges using List.reverseRecOn with
    | nil => intro hw; cases hw
    | append_singleton edges e ih =>
      intro hw
      rw [Diagram.compileEdges_warnings_concat, List.mem_append] at hw
      rcases hw with hold | hnew
      · obtain ⟨e', he', taken, htaken⟩ := ih hold
        exact ⟨e', List.mem_append_left _ he', taken, htaken⟩
      · exact ⟨e, by simp, _, hnew⟩
  exact hedges d.edges (Array.mem_toList_iff.mpr h)

/-- Where edges are attached and their specs are rules, nothing but a repeated rule is dropped. -/
theorem duplicate_of_mem_warnings (h : ∀ e ∈ d.edges, d.Attached e ∧ e.rejections = [])
    (hw : w ∈ (compile d).warnings) : ∃ e ∈ d.edges, ∃ c, w = .duplicateSymbol e.id e.source c := by
  obtain ⟨e, he, taken, hw⟩ := exists_edge_of_mem_warnings hw
  obtain ⟨hattached, hsound⟩ := h e he
  obtain ⟨s, target, hs, ht⟩ := Diagram.attached_iff.mp hattached
  rw [Diagram.warningsOf, hs, ht, hsound] at hw
  obtain ⟨o, -, rfl⟩ := List.mem_map.mp hw
  exact ⟨e, he, o.rule.read, rfl⟩

/-! ### The first state of a code -/

namespace Code

variable {rules : List Rule} {first last : Rule}

theorem numbers_cons (first : Rule) (rules : List Rule) : ∃ ns, numbers (first :: rules) = first.source :: ns := by
  rw [numbers, List.flatMap_cons, List.cons_append, List.eraseDups_cons]
  exact ⟨_, rfl⟩

theorem draw_states_cons (first : Rule) (rules : List Rule) (last : Rule) :
    ∃ states, (draw (first :: rules) last).states = drawnState last.target first.source :: states := by
  obtain ⟨ns, hns⟩ := numbers_cons first rules
  rw [draw_states, hns]
  exact ⟨_, rfl⟩

theorem first_mem_draw_nodes (first : Rule) (rules : List Rule) (last : Rule) :
    Text.numeral first.source ∈ (draw (first :: rules) last).nodes := by
  rw [draw_nodes]
  exact List.mem_map_of_mem (source_mem_numbers List.mem_cons_self)

theorem sound_draw (hrules : ∀ r ∈ rules, r.Positive) :
    ∀ e ∈ (draw rules last).edges, (draw rules last).Attached e ∧ e.rejections = [] := by
  intro e he
  refine ⟨(Diagram.wellFormed_draw hrules last).attached e he, ?_⟩
  obtain ⟨r, hr, rfl⟩ := exists_of_mem_draw_edges he
  exact drawnEdge_rejections hr

end Code

/-! ### Diagrams that have been started -/

/-- What compiling and checking find of a diagram that starts in the state `id` alone. -/
structure Runnable (id : String) (d : Diagram) : Prop where
  start : ∃ s, s.id = id ∧ d.startStates = [s] ∧ (compile d).table.start = .ok s ∧
    ∀ tape, Machine.new (compile d).table tape = .ok (.inState (compile d).table tape s)
  warnings : ∀ w ∈ (compile d).warnings, ∃ e ∈ d.edges, ∃ c, w = .duplicateSymbol e.id e.source c
  counted : ∀ n, .startState n ∉ (compile d).table.problems
  final : .noFinalState ∉ (compile d).table.problems

theorem Diagram.WellFormed.runnable {started : Diagram} {id : String} (h : d.WellFormed)
    (hsound : ∀ e ∈ d.edges, e.rejections = []) (hfinal : ∃ s ∈ d.states, s.isFinal)
    (hstarted : d.makeSoleStart id = .ok started) : Runnable id started := by
  obtain ⟨s, hs, hsole, hstart⟩ := h.start_of_makeSoleStart hstarted
  -- The edit was done, so that the id is one of the diagram's.
  have hid : id ∈ d.nodes := by
    by_contra hid
    cases hstarted.symm.trans (makeSoleStart_of_not_mem hid)
  cases hstarted.symm.trans (makeSoleStart_of_mem hid)
  have hwell : (d.startedAt id).WellFormed := h.done (.makeSoleStart hid) nofun
  have hholds := Table.mem_problems_iff (ascending_compile (d.startedAt id))
  refine ⟨⟨s, hs, hsole, hstart, fun tape => Machine.new_of_start hstart tape⟩, fun w hw => ?_, fun n hn => ?_,
    fun hnone => ?_⟩
  · exact duplicate_of_mem_warnings (fun e he => ⟨hwell.attached e he, hsound e he⟩) hw
  · cases hstart.symm.trans ((hholds _).mp hn)
  · obtain ⟨final, hmem, hf⟩ := hfinal
    have hmem' : { final with isStart := decide (final.id = id) } ∈ (compile (d.startedAt id)).table.states :=
      (states_compile_perm hwell.distinct).mem_iff.mpr (List.mem_map_of_mem hmem)
    exact (hholds _).mp hnone _ hmem' hf

/-! ### Loaded codes -/

namespace MachineFile

theorem ofText_code_of_error {text : String} {e : DecodeError} (h : decode text = .error e) (id : String) :
    ofText .code text id = .error (.decode e) := by
  rw [ofText, h]

theorem ofText_code_of_ok {text : String} {first : State} {states : List State} {started : Diagram}
    (h : decode text = .ok d) (hstates : d.states = first :: states) (hstarted : d.makeSoleStart first.id = .ok started)
    (id : String) : ofText .code text id = .ok ⟨id, started⟩ := by
  simp only [ofText, h, hstates, hstarted]

/-- Loading a code is decoding it: it fails with the error of the code, or it starts the decoded diagram in the source
    of the first rule and gives a machine that can be run. -/
theorem ofText_code_cases (text id : String) :
    (∃ e, decode text = .error e ∧ ofText .code text id = .error (.decode e)) ∨
      ∃ first rules d started, Code.read text = .ok (first :: rules) ∧ decode text = .ok d ∧
        d.makeSoleStart (Text.numeral first.source) = .ok started ∧ ofText .code text id = .ok ⟨id, started⟩ ∧
        started.edges = d.edges ∧
        started.states = d.states.map (fun s => { s with isStart := decide (s.id = Text.numeral first.source) }) ∧
        Runnable (Text.numeral first.source) started := by
  cases hread : Code.readTrimmed (Text.trim text.toList) with
  | error e =>
    have herror := Code.decode_of_error hread
    exact Or.inl ⟨_, herror, ofText_code_of_error herror id⟩
  | ok rules =>
    have hprinted := Code.readTrimmed_eq_ok_iff.mp hread
    obtain ⟨last, hlast, hdecode⟩ := Code.decode_of_ok hread
    cases rules with
    | nil => exact absurd rfl hprinted.nonempty
    | cons first rules =>
      have hwell := Diagram.wellFormed_draw hprinted.positive last
      obtain ⟨states, hstates⟩ := Code.draw_states_cons first rules last
      have hstarted := Diagram.makeSoleStart_of_mem (Code.first_mem_draw_nodes first rules last)
      have hfinal : ∃ s ∈ (Code.draw (first :: rules) last).states, s.isFinal := by
        have hs : Code.drawnState last.target last.target ∈
            (Code.draw (first :: rules) last).states.filter (·.isFinal) := by
          rw [Code.draw_final (List.mem_of_getLast? hlast)]
          exact List.mem_singleton_self _
        exact ⟨_, List.mem_filter.mp hs⟩
      refine Or.inr ⟨first, rules, _, _, ?_, hdecode, hstarted, ofText_code_of_ok hdecode hstates hstarted id, rfl, rfl,
        hwell.runnable (fun e he => (Code.sound_draw hprinted.positive e he).2) hfinal hstarted⟩
      rw [Code.read, hread]
      rfl

/-- Two rules of one source read a blank, so that the second one is dropped. -/
example : (ofText .code " abaabbabababaabbaabb\n" "m").toOption.map
    (fun r => (r.diagram.startStates.map (·.id), (compile r.diagram).warnings)) =
      some (["1"], #[.duplicateSymbol "e1-2" "1" '_']) := by cbv

end MachineFile
end Tapeworks
