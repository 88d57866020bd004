import Tapeworks.Compile
import Tapeworks.Proofs.Gather
import Tapeworks.Proofs.Text.Space

/-! Labels that are written are read back: specs that hold no semicolon come apart again, and a spec of three plain
    symbols is the rule that it states. A spec that is no rule has a wrong number of fields, or a field for a symbol that
    does not hold one character. -/

namespace Tapeworks

namespace Label

/-! ### Specs -/

theorem specs_eq_map {label : String} {texts : List (List Char)} (hlabel : label.toList = [';'].intercalate texts)
    (hne : texts ≠ []) (h : ∀ text ∈ texts, ';' ∉ text) : specs label = texts.map Spec.ofText := by
  rw [specs, hlabel, List.splitOn_intercalate ';' h hne]

theorem specs_intercalate {texts : List String} (hne : texts ≠ []) (h : ∀ text ∈ texts, ';' ∉ text.toList) :
    specs (String.intercalate ";" texts) = texts.map fun text => Spec.ofText text.toList := by
  have hparts : ∀ part ∈ texts.map String.toList, ';' ∉ part := fun part hpart => by
    obtain ⟨text, htext, rfl⟩ := List.mem_map.mp hpart
    exact h text htext
  rw [specs_eq_map String.toList_intercalate (by simpa using hne) hparts, List.map_map]
  rfl

/-- Symbols that stand for themselves in a field. -/
def Plain (c : Char) : Prop :=
  c ≠ ',' ∧ c ≠ ';' ∧ Text.isSpace c = false

instance (c : Char) : Decidable (Plain c) :=
  inferInstanceAs (Decidable (_ ∧ _))

theorem plain_symbol (direction : Direction) : Plain direction.symbol := by
  cases direction <;> decide

theorem ofField_symbol (direction : Direction) :
    Direction.ofField (String.ofList [direction.symbol]) = direction := by
  cases direction <;> decide

/-! ### Specs that are rules -/

theorem fieldSymbol_eq_ok_iff {field : String} {c : Char} : fieldSymbol field = .ok c ↔ field = String.ofList [c] := by
  rw [← String.toList_inj, String.toList_ofList, fieldSymbol]
  split
  · rename_i hfield
    rw [hfield]
    simp
  · rename_i hwide
    exact iff_of_false (fun h => by cases h) fun h => hwide c h

/-- The fields of a spec that is a rule are its symbols and a direction. -/
theorem Spec.rule_eq_ok_iff {spec : Spec} {rule : Rule} : spec.rule = .ok rule ↔ ∃ direction,
    Direction.ofField direction = rule.direction ∧
    spec.fields = ((rule.read :: rule.write.toList).map fun c => String.ofList [c]) ++ [direction] := by
  constructor
  · intro h
    unfold Spec.rule at h
    split at h
    · rename_i read direction hfields
      cases hread : fieldSymbol read with
      | error flaw => rw [hread] at h; cases h
      | ok c =>
        rw [hread] at h
        cases h
        exact ⟨direction, rfl, by rw [hfields, fieldSymbol_eq_ok_iff.mp hread]; rfl⟩
    · rename_i read write direction hfields
      cases hread : fieldSymbol read with
      | error flaw => rw [hread] at h; cases h
      | ok c =>
        cases hwrite : fieldSymbol write with
        | error flaw => rw [hread, hwrite] at h; cases h
        | ok c' =>
          rw [hread, hwrite] at h
          cases h
          exact ⟨direction, rfl, by rw [hfields, fieldSymbol_eq_ok_iff.mp hread, fieldSymbol_eq_ok_iff.mp hwrite]; rfl⟩
    · cases h
  · rintro ⟨direction, hdirection, hfields⟩
    have hsymbol : ∀ c : Char, fieldSymbol (String.ofList [c]) = .ok c := fun c => fieldSymbol_eq_ok_iff.mpr rfl
    obtain ⟨read, write, way⟩ := rule
    subst hdirection
    cases write with
    | none =>
      rw [Spec.rule, hfields]
      simp only [Option.toList_none, List.map_cons, List.map_nil, List.cons_append, List.nil_append, hsymbol]
      rfl
    | some write =>
      rw [Spec.rule, hfields]
      simp only [Option.toList_some, List.map_cons, List.map_nil, List.cons_append, List.nil_append, hsymbol]
      rfl

/-! ### Specs that are written -/

/-- The symbols that a rule is written with, in order. -/
def Rule.symbols (rule : Rule) : List Char :=
  rule.read :: rule.write.toList ++ [rule.direction.symbol]

/-- The symbols to read and to write stand for themselves. -/
def Rule.Plain (rule : Rule) : Prop :=
  Label.Plain rule.read ∧ ∀ c ∈ rule.write, Label.Plain c

/-- The text is the symbol with any white space around it. -/
def Padded (text : List Char) (c : Char) : Prop :=
  ∃ front back, (∀ x ∈ front, Text.isSpace x) ∧ (∀ x ∈ back, Text.isSpace x) ∧ text = front ++ c :: back

/-- The text has the symbols of the rule between commas, with any white space around them. -/
def Rule.Written (rule : Rule) (text : List Char) : Prop :=
  ∃ fields, List.Forall₂ Padded fields rule.symbols ∧ text = [','].intercalate fields

theorem Rule.Plain.symbols {rule : Rule} (h : rule.Plain) : ∀ c ∈ rule.symbols, Label.Plain c := by
  intro c hc
  rcases List.mem_append.mp hc with hc | hc
  · rcases List.mem_cons.mp hc with rfl | hc
    · exact h.1
    · exact h.2 c (Option.mem_toList.mp hc)
  · rw [List.mem_singleton.mp hc]
    exact plain_symbol rule.direction

theorem ne_of_isSpace {x c : Char} (h : Text.isSpace x) (hc : Text.isSpace c = false) : x ≠ c := by
  rintro rfl
  rw [h] at hc
  cases hc

namespace Padded

variable {text : List Char} {c : Char}

theorem refl (c : Char) : Padded [c] c :=
  ⟨[], [], fun _ h => absurd h List.not_mem_nil, fun _ h => absurd h List.not_mem_nil, rfl⟩

theorem before {x : Char} (hx : Text.isSpace x) (h : Padded text c) : Padded (x :: text) c := by
  obtain ⟨front, back, hfront, hback, rfl⟩ := h
  exact ⟨x :: front, back, List.forall_mem_cons.mpr ⟨hx, hfront⟩, hback, rfl⟩

theorem behind {x : Char} (hx : Text.isSpace x) (h : Padded text c) : Padded (text ++ [x]) c := by
  obtain ⟨front, back, hfront, hback, rfl⟩ := h
  refine ⟨front, back ++ [x], hfront, fun y hy => ?_, by rw [List.append_assoc, List.cons_append]⟩
  rcases List.mem_append.mp hy with hy | hy
  · exact hback y hy
  · rw [List.mem_singleton.mp hy]
    exact hx

/-- No separator is in a padded symbol, as none is white space. -/
theorem not_mem (h : Padded text c) {sep : Char} (hc : c ≠ sep) (hsep : Text.isSpace sep = false) : sep ∉ text := by
  obtain ⟨front, back, hfront, hback, rfl⟩ := h
  intro hmem
  rcases List.mem_append.mp hmem with hmem | hmem
  · exact ne_of_isSpace (hfront sep hmem) hsep rfl
  · rcases List.mem_cons.mp hmem with heq | hmem
    · exact hc heq.symm
    · exact ne_of_isSpace (hback sep hmem) hsep rfl

theorem trim (h : Padded text c) (hc : Text.isSpace c = false) : Text.trim text = [c] := by
  obtain ⟨front, back, hfront, hback, rfl⟩ := h
  exact Text.Trims.trim_eq ⟨⟨front, back, hfront, hback, rfl⟩, by simpa using hc, by simpa using hc⟩

end Padded

theorem map_trim_padded {fields : List (List Char)} {symbols : List Char} (h : List.Forall₂ Padded fields symbols)
    (hplain : ∀ c ∈ symbols, Text.isSpace c = false) : fields.map Text.trim = symbols.map fun c => [c] := by
  induction h with
  | nil => rfl
  | cons hpadded _ ih =>
    obtain ⟨hfirst, hrest⟩ := List.forall_mem_cons.mp hplain
    rw [List.map_cons, List.map_cons, hpadded.trim hfirst, ih hrest]

theorem mem_of_mem_intercalate {c : Char} {sep : List Char} {parts : List (List Char)}
    (h : c ∈ sep.intercalate parts) : c ∈ sep ∨ ∃ part ∈ parts, c ∈ part := by
  induction parts with
  | nil => exact absurd h List.not_mem_nil
  | cons part parts ih =>
    cases parts with
    | nil => exact Or.inr ⟨part, List.mem_singleton_self part, by simpa using h⟩
    | cons next parts =>
      rw [List.intercalate_cons_cons, List.mem_append, List.mem_append] at h
      rcases h with (hpart | hsep) | hrest
      · exact Or.inr ⟨part, List.mem_cons_self, hpart⟩
      · exact Or.inl hsep
      · rcases ih hrest with hsep | ⟨part, hpart, hc⟩
        · exact Or.inl hsep
        · exact Or.inr ⟨part, List.mem_cons_of_mem _ hpart, hc⟩

namespace Rule.Written

variable {rule : Rule} {text : List Char} (h : rule.Written text) (hplain : rule.Plain)
include h hplain

theorem not_mem : ';' ∉ text := by
  obtain ⟨fields, hfields, rfl⟩ := h
  intro hmem
  rcases mem_of_mem_intercalate hmem with hsep | ⟨field, hfield, hmem⟩
  · exact absurd hsep (by decide)
  · obtain ⟨c, hc, hpadded⟩ := exists_rel_of_mem hfields hfield
    exact hpadded.not_mem (hplain.symbols c hc).2.1 rfl hmem

theorem fields_ofText : (Spec.ofText text).fields = rule.symbols.map fun c => String.ofList [c] := by
  obtain ⟨fields, hfields, rfl⟩ := h
  have hcomma : ∀ field ∈ fields, ',' ∉ field := fun field hfield => by
    obtain ⟨c, hc, hpadded⟩ := exists_rel_of_mem hfields hfield
    exact hpadded.not_mem (hplain.symbols c hc).1 rfl
  have hne : fields ≠ [] := by
    rintro rfl
    cases hfields
  calc (Spec.ofText ([','].intercalate fields)).fields
    _ = (fields.map Text.trim).map String.ofList := by
      rw [Spec.ofText, List.splitOn_intercalate ',' hcomma hne, List.map_map]
      rfl
    _ = (rule.symbols.map fun c => [c]).map String.ofList := by
      rw [map_trim_padded hfields fun c hc => (hplain.symbols c hc).2.2]
    _ = rule.symbols.map fun c => String.ofList [c] := List.map_map

theorem rule_ofText : (Spec.ofText text).rule = .ok rule := by
  refine Spec.rule_eq_ok_iff.mpr ⟨String.ofList [rule.direction.symbol], ofField_symbol _, ?_⟩
  rw [h.fields_ofText hplain, Rule.symbols, List.map_append, List.map_singleton]

end Rule.Written

theorem rule_ofText {read write : Char} (hread : Plain read) (hwrite : Plain write) (direction : Direction) :
    (Spec.ofText [read, ',', write, ',', direction.symbol]).rule = .ok ⟨read, some write, direction⟩ := by
  have hwritten : Rule.Written ⟨read, some write, direction⟩ [read, ',', write, ',', direction.symbol] :=
    ⟨[[read], [write], [direction.symbol]], .cons (.refl _) (.cons (.refl _) (.cons (.refl _) .nil)), rfl⟩
  exact hwritten.rule_ofText ⟨hread, fun c hc => Option.mem_some.mp hc ▸ hwrite⟩

/-! ### Flaws -/

/-- What keeps a spec from being a rule. A flaw in the symbol to read is reported before one in the symbol to write. -/
inductive Spec.Flawed (spec : Spec) : Flaw → Prop
  | fieldCount (count : spec.fields.length ≠ 2 ∧ spec.fields.length ≠ 3) : Flawed spec (.fieldCount spec.fields.length)
  | read (field : String) (others : List String) (fields : spec.fields = field :: others)
      (count : others.length = 1 ∨ others.length = 2) (wide : field.length ≠ 1) : Flawed spec (.symbol field)
  | write (read field direction : String) (fields : spec.fields = [read, field, direction]) (single : read.length = 1)
      (wide : field.length ≠ 1) : Flawed spec (.symbol field)

theorem exists_fieldSymbol {field : String} (h : field.length = 1) : ∃ c, fieldSymbol field = .ok c := by
  obtain ⟨c, hc⟩ := List.length_eq_one_iff.mp (String.length_toList.trans h)
  exact ⟨c, by rw [fieldSymbol, hc]⟩

theorem fieldSymbol_of_wide {field : String} (h : field.length ≠ 1) : fieldSymbol field = .error (.symbol field) := by
  unfold fieldSymbol
  split
  · rename_i hfield
    rw [← String.length_toList, hfield] at h
    exact absurd rfl h
  · rfl

theorem Spec.Flawed.rule {spec : Spec} {flaw : Flaw} (h : spec.Flawed flaw) : spec.rule = .error flaw := by
  cases h with
  | fieldCount count =>
    unfold Spec.rule
    split
    · rename_i hfields
      exact absurd (congrArg List.length hfields) count.1
    · rename_i hfields
      exact absurd (congrArg List.length hfields) count.2
    · rfl
  | read field others fields count wide =>
    rcases count with hone | htwo
    · obtain ⟨direction, rfl⟩ := List.length_eq_one_iff.mp hone
      rw [Spec.rule, fields]
      simp only [fieldSymbol_of_wide wide]
      rfl
    · obtain ⟨write, direction, rfl⟩ := List.length_eq_two.mp htwo
      rw [Spec.rule, fields]
      simp only [fieldSymbol_of_wide wide]
      rfl
  | write read field direction fields single wide =>
    obtain ⟨c, hc⟩ := exists_fieldSymbol single
    rw [Spec.rule, fields]
    simp only [hc, fieldSymbol_of_wide wide]
    rfl

end Label
end Tapeworks
