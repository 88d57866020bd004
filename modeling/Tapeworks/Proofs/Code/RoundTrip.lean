import Tapeworks.Proofs.Code.Drawing
import Tapeworks.Proofs.Code.Writing

/-! A diagram and the diagram that its code is decoded to. The code loses the names of states, the states without rules
    and the difference between keeping a symbol and writing it again. What is left is the transition function, provided
    that no two ends of rules share a number; and where ids are numerals, the states keep them. -/

namespace Tapeworks.Code

variable {t : Table} {d : Diagram} {e : String} {last r : Rule} {x y : State × Transition} {id : String} {c : Char}

/-! ### Decoding a written code -/

theorem decode_write {rules : List Rule} (h : ∀ r ∈ rules, r.Positive) (hlast : rules.getLast? = some last) :
    decode (write rules) = .ok (draw rules last) := by
  have hne : rules ≠ [] := by
    rintro rfl
    cases hlast
  rw [decode, read_write h hne]
  simp only [bind, Except.bind, hlast]
  rfl

def Writable (t : Table) : Prop :=
  ∀ x ∈ t.rules, Encodable x.1 x.2

theorem Writable.positive (h : Writable t) (hr : r ∈ codes t) : r.Positive := by
  obtain ⟨x, hx, rfl⟩ := mem_codes.mp hr
  exact ⟨(h x hx).source.1, (h x hx).target.1⟩

theorem Writable.symbol_read (h : Writable t) (hx : x ∈ t.rules) : (codeOf x).read.symbol = x.2.read :=
  (h x hx).read.symbol_signOf

theorem Writable.numbered (h : Writable t) (hid : id ∈ t.ends) : Numbered id := by
  obtain ⟨x, hx, rfl | rfl⟩ := Table.mem_ends.mp hid
  · exact (h x hx).source
  · exact (h x hx).target

theorem exists_decode (he : encode d = .ok e) (hne : e ≠ "") : Writable (compile d).table ∧
    ∃ last, (codes (compile d).table).getLast? = some last ∧ decode e = .ok (draw (codes (compile d).table) last) := by
  obtain ⟨hT, rfl⟩ := encode_eq_ok_iff.mp he
  have hcodes : codes (compile d).table ≠ [] := fun h => hne ((write_eq_empty_iff _).mpr h)
  have hlast := List.getLast?_eq_some_getLast hcodes
  exact ⟨hT, _, hlast, decode_write (fun r => Writable.positive hT) hlast⟩

theorem mem_numbers_codes {n : Nat} : n ∈ numbers (codes t) ↔ ∃ id ∈ t.ends, number id = n := by
  rw [mem_numbers]
  constructor
  · rintro ⟨r, hr, hn⟩
    obtain ⟨x, hx, rfl⟩ := mem_codes.mp hr
    rcases hn with rfl | rfl
    · exact ⟨_, Table.source_mem_ends hx, rfl⟩
    · exact ⟨_, Table.target_mem_ends hx, rfl⟩
  · rintro ⟨id, hid, rfl⟩
    obtain ⟨x, hx, rfl | rfl⟩ := Table.mem_ends.mp hid
    · exact ⟨_, codeOf_mem_codes hx, Or.inl rfl⟩
    · exact ⟨_, codeOf_mem_codes hx, Or.inr rfl⟩

/-! ### Numbers that tell ids apart -/

/-- No two ends of rules share a number. -/
def Distinct (t : Table) : Prop :=
  ∀ a ∈ t.ends, ∀ b ∈ t.ends, number a = number b → a = b

/-- Rules whose codes share their source and their symbol share their state and their symbol. -/
theorem Distinct.key_eq (h : Distinct t) (hT : Writable t) (hx : x ∈ t.rules) (hy : y ∈ t.rules)
    (hsource : (codeOf x).source = (codeOf y).source) (hread : (codeOf x).read = (codeOf y).read) :
    (x.1.id, x.2.read) = (y.1.id, y.2.read) := by
  refine Prod.ext (h _ (Table.source_mem_ends hx) _ (Table.source_mem_ends hy) hsource) ?_
  rw [← hT.symbol_read hx, ← hT.symbol_read hy, hread]

theorem nodup_codes (hT : Writable (compile d).table) (h : Distinct (compile d).table) :
    ((codes (compile d).table).map fun r => (r.source, r.read)).Nodup := by
  have hrules := List.pairwise_map.mp (nodup_rules_compile d)
  have hkeys : ((compile d).table.rules.map codeOf).Pairwise fun r r' => (r.source, r.read) ≠ (r'.source, r'.read) :=
    List.pairwise_map.mpr (hrules.imp_of_mem fun {x y} hx hy hne he =>
      hne (h.key_eq hT hx hy (congrArg Prod.fst he) (congrArg Prod.snd he)))
  exact ((codes_perm _).map _).nodup_iff.mpr (List.pairwise_map.mpr hkeys)

/-! ### Canonical ids -/

/-- The ids at the ends of the rules are numerals. -/
def Named (t : Table) : Prop :=
  ∀ id ∈ t.ends, Text.Canonical id

theorem Named.numeral_number (h : Named t) (hT : Writable t) (hid : id ∈ t.ends) : Text.numeral (number id) = id :=
  ((hT.numbered hid).eq_numeral (h id hid)).symm

theorem Named.numeral_source (h : Named t) (hT : Writable t) (hx : x ∈ t.rules) :
    Text.numeral (codeOf x).source = x.1.id :=
  h.numeral_number hT (Table.source_mem_ends hx)

theorem Named.numeral_target (h : Named t) (hT : Writable t) (hx : x ∈ t.rules) :
    Text.numeral (codeOf x).target = x.2.target.id :=
  h.numeral_number hT (Table.target_mem_ends hx)

theorem Named.distinct (h : Named t) (hT : Writable t) : Distinct t := by
  intro a ha b hb hab
  rw [← h.numeral_number hT ha, hab, h.numeral_number hT hb]

theorem Named.closes_iff (h : Named (compile d).table) (hT : Writable (compile d).table)
    (hx : x ∈ (compile d).table.rules) : closes (compile d).table x ↔ x.2.target.isFinal := by
  rw [closes, h.numeral_number hT (Table.target_mem_ends hx), state?_compile,
    state?_target (mem_rules_compile.mp hx).2, Option.any_some]

theorem Named.nodes_draw (h : Named t) (hT : Writable t) : id ∈ (draw (codes t) last).nodes ↔ id ∈ t.ends := by
  rw [draw_nodes, List.mem_map]
  constructor
  · rintro ⟨n, hn, rfl⟩
    obtain ⟨id, hid, rfl⟩ := mem_numbers_codes.mp hn
    rwa [h.numeral_number hT hid]
  · exact fun hid => ⟨number id, mem_numbers_codes.mpr ⟨id, hid, rfl⟩, h.numeral_number hT hid⟩

/-- The second rule does on the symbol `c` what the first does, and writes its symbol even where the first keeps it. -/
structure SpelledOut (c : Char) (r r' : Transition) : Prop where
  direction : r'.direction = r.direction
  target : r'.target.id = r.target.id
  write : r'.write = some (r.write.getD c)

theorem Named.spelledOut (h : Named t) (hT : Writable t) (hx : x ∈ t.rules) (final : Nat) :
    SpelledOut x.2.read x.2 ((codeOf x).transition final) where
  direction := rfl
  target := h.numeral_target hT hx
  write := congrArg some (hT x hx).write.symbol_signOf

/-- The rules of the decoded table are those of the table, spelled out. -/
theorem Named.find?_draw (h : Named (compile d).table) (hT : Writable (compile d).table) (last : Rule)
    (id : String) (c : Char) : Option.Rel (SpelledOut c) ((compile d).table.find? id c)
      ((compile (draw (codes (compile d).table) last)).table.find? id c) := by
  have hnodup := nodup_codes hT (h.distinct hT)
  cases hfind : (compile d).table.find? id c with
  | none =>
    -- A rule of the decoded table for the symbol would come from one of the table.
    cases hfind' : (compile (draw (codes (compile d).table) last)).table.find? id c with
    | none => exact .none
    | some r' =>
      obtain ⟨hr', rfl⟩ := find?_compile_eq_some_iff.mp hfind'
      obtain ⟨r, hr, rfl, rfl⟩ := (mem_draw_transitions hnodup).mp hr'
      obtain ⟨x, hx, rfl⟩ := mem_codes.mp hr
      have hread : ((codeOf x).transition last.target).read = x.2.read := hT.symbol_read hx
      rw [h.numeral_source hT hx, hread, find?_compile_eq_some_iff.mpr ⟨(mem_rules_compile.mp hx).2, rfl⟩] at hfind
      cases hfind
  | some r =>
    obtain ⟨hr, rfl⟩ := find?_compile_eq_some_iff.mp hfind
    obtain ⟨s, hx, rfl⟩ := Table.exists_state_of_mem_transitions hr
    have hfind' : (compile (draw (codes (compile d).table) last)).table.find? s.id r.read =
        some ((codeOf (s, r)).transition last.target) :=
      find?_compile_eq_some_iff.mpr
        ⟨(mem_draw_transitions hnodup).mpr ⟨_, codeOf_mem_codes hx, h.numeral_source hT hx, rfl⟩, hT.symbol_read hx⟩
    rw [hfind']
    exact .some (h.spelledOut hT hx _)

/-- Where a rule enters a final state, the rule at the end of the code does. -/
theorem Named.isFinal_closing (h : Named (compile d).table) (hT : Writable (compile d).table)
    (hx : closing (compile d).table = some x) (hy : y ∈ (compile d).table.rules) (hfinal : y.2.target.isFinal) :
    x.2.target.isFinal :=
  (h.closes_iff hT (mem_of_closing hx)).mp (closes_of_closing hx hy ((h.closes_iff hT hy).mpr hfinal))

/-! ### The round trip -/

/-- The second diagram has what a code can keep of the first: the ends of rules for states, every rule spelled out, and
    a final state where a rule enters one. -/
structure Faithful (d d' : Diagram) : Prop where
  warnings : (compile d').warnings = #[]
  nodup : d'.nodes.Nodup
  nodes : ∀ id, id ∈ d'.nodes ↔ id ∈ (compile d).table.ends
  rules : ∀ id c, Option.Rel (SpelledOut c) ((compile d).table.find? id c) ((compile d').table.find? id c)
  final : (∃ x ∈ (compile d).table.rules, x.2.target.isFinal) →
    ∃ q, d.state? q.id = some q ∧ q.isFinal ∧ (d'.states.filter (·.isFinal)).map (·.id) = [q.id]

theorem Named.faithful_draw (h : Named (compile d).table) (hT : Writable (compile d).table)
    (hlast : (codes (compile d).table).getLast? = some last) :
    Faithful d (draw (codes (compile d).table) last) where
  warnings := draw_warnings_eq_empty_iff.mpr (nodup_codes hT (h.distinct hT))
  nodup := nodup_draw_nodes _ _
  nodes _ := h.nodes_draw hT
  rules := h.find?_draw hT last
  final := by
    rintro ⟨y, hy, hfinal⟩
    rw [getLast?_codes] at hlast
    obtain ⟨x, hclosing, rfl⟩ := Option.map_eq_some_iff.mp hlast
    have hx := mem_of_closing hclosing
    refine ⟨x.2.target, state?_target (mem_rules_compile.mp hx).2, h.isFinal_closing hT hclosing hy hfinal, ?_⟩
    rw [draw_final (codeOf_mem_codes hx), List.map_singleton, ← h.numeral_target hT hx]
    rfl

/-- The code of a diagram whose ends of rules are numerals is read back to a faithful diagram. -/
theorem faithful_decode_encode (hnamed : ∀ id ∈ (compile d).table.ends, Text.Canonical id) (he : encode d = .ok e)
    (hne : e ≠ "") : ∃ d', decode e = .ok d' ∧ Faithful d d' := by
  obtain ⟨hT, last, hlast, hdecode⟩ := exists_decode he hne
  exact ⟨_, hdecode, Named.faithful_draw hnamed hT hlast⟩

/-- A diagram with a rule that keeps its symbol, and a rule into the final state that is not the last in the table. -/
def shuttle : Diagram where
  states := [{ id := "1", isStart := true }, { id := "2", isFinal := true }, { id := "3" }]
  edges := [Edge.between "1" "2" "b,>", Edge.between "3" "1" "a,_,<"]

theorem faithful_decode_encode_shuttle : ∃ d', decode "aaababaabaaabaabababb" = .ok d' ∧ Faithful shuttle d' :=
  faithful_decode_encode (d := shuttle) (by decide) rfl (by decide)

end Tapeworks.Code
