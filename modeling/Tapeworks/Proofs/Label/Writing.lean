import Tapeworks.Proofs.Label
import Tapeworks.Proofs.Label.Grammar

/-! Rules that are written on an edge and read from it. A label that states rules of plain symbols is read as these rules,
    however much white space stands around its fields, and no other rules are ever read. What stands behind a semicolon
    is read on its own, so that a label can be continued. -/

namespace Tapeworks

namespace Label

variable {label : String} {rules : List Rule} {rule : Rule}

/-- The rule without white space. -/
def Rule.text (rule : Rule) : String :=
  String.intercalate "," (rule.symbols.map String.singleton)

/-- The rules without white space. -/
def ofRules (rules : List Rule) : String :=
  String.intercalate ";" (rules.map Rule.text)

/-- The label has the rules between semicolons, with any white space around their fields. -/
def Written (rules : List Rule) (label : String) : Prop :=
  ∃ texts, List.Forall₂ Rule.Written rules texts ∧ label.toList = [';'].intercalate texts

theorem Rule.written_text (rule : Rule) : rule.Written rule.text.toList := by
  refine ⟨rule.symbols.map fun c => [c], ?_, ?_⟩
  · exact List.forall₂_map_left_iff.mpr (List.forall₂_same.mpr fun c _ => .refl c)
  · rw [Rule.text, String.toList_intercalate, List.map_map]
    exact congrArg _ (List.map_congr_left fun c _ => String.toList_singleton c)

theorem written_ofRules (rules : List Rule) : Written rules (ofRules rules) := by
  refine ⟨rules.map fun rule => rule.text.toList, ?_, ?_⟩
  · exact List.forall₂_map_right_iff.mpr (List.forall₂_same.mpr fun rule _ => rule.written_text)
  · rw [ofRules, String.toList_intercalate, List.map_map]
    rfl

/-- The rules of a written label are its specs, one by one. -/
theorem Written.specs (h : Written rules label) (hne : rules ≠ []) (hplain : ∀ rule ∈ rules, rule.Plain) :
    (specs label).map Spec.rule = rules.map .ok := by
  obtain ⟨texts, htexts, hlabel⟩ := h
  have hsemicolon : ∀ text ∈ texts, ';' ∉ text := fun text htext => by
    obtain ⟨rule, hrule, hwritten⟩ := exists_rel_of_mem htexts.flip htext
    exact Rule.Written.not_mem hwritten (hplain rule hrule)
  have hsome : texts ≠ [] := by
    rintro rfl
    exact hne (List.forall₂_nil_right_iff.mp htexts)
  rw [specs_eq_map hlabel hsome hsemicolon, List.map_map]
  clear hlabel hsome hsemicolon hne
  induction htexts with
  | nil => rfl
  | cons hwritten _ ih =>
    obtain ⟨hfirst, hrest⟩ := List.forall_mem_cons.mp hplain
    rw [List.map_cons, List.map_cons, ih hrest, Function.comp_apply, hwritten.rule_ofText hfirst]

theorem specs_append (label label' : String) : specs (label ++ ";" ++ label') = specs label ++ specs label' := by
  have hlist : (label ++ ";" ++ label').toList = label.toList ++ ';' :: label'.toList := by simp
  rw [specs, hlist, List.splitOn_append_cons_self, List.map_append]
  rfl

/-- A trimmed field of one symbol is a plain one: it holds no separator, and no white space at its ends. -/
theorem plain_of_mem_fields {spec : Spec} {c : Char} (hspec : spec ∈ specs label)
    (hfield : String.ofList [c] ∈ spec.fields) : Plain c := by
  obtain ⟨text, htext, rfl⟩ := List.mem_map.mp hspec
  obtain ⟨field, hpart, hfield⟩ := List.mem_map.mp hfield
  have htrims : Text.Trims field [c] := Text.trims_iff.mpr (String.ofList_injective hfield)
  obtain ⟨front, back, -, -, hparts⟩ := htrims.around
  have hc : c ∈ field := by
    rw [hparts]
    simp
  obtain ⟨hmem, hcomma⟩ := mem_of_mem_splitOn hpart hc
  exact ⟨hcomma, (mem_of_mem_splitOn htext hmem).2, htrims.first c rfl⟩

theorem plain_of_rule {spec : Spec} (hspec : spec ∈ specs label) (h : spec.rule = .ok rule) : rule.Plain := by
  obtain ⟨direction, -, hfields⟩ := Spec.rule_eq_ok_iff.mp h
  have hplain : ∀ c ∈ rule.read :: rule.write.toList, Plain c := fun c hc => by
    refine plain_of_mem_fields hspec ?_
    rw [hfields]
    exact List.mem_append_left _ (List.mem_map_of_mem hc)
  exact ⟨hplain _ List.mem_cons_self, fun c hc => hplain c (List.mem_cons_of_mem _ (Option.mem_toList.mpr hc))⟩

end Label

namespace Edge

variable {e : Edge} {rules : List Label.Rule}

/-- What is written on an edge, and nothing else, is read from it. -/
structure Legible (e : Edge) : Prop where
  written : ∀ rules, rules ≠ [] → (∀ rule ∈ rules, rule.Plain) → Label.Written rules e.label →
    e.rules = rules ∧ e.rejections = []
  printed : ∀ rules, rules ≠ [] → (∀ rule ∈ rules, rule.Plain) →
    { e with label := Label.ofRules rules }.rules = rules ∧ { e with label := Label.ofRules rules }.rejections = []
  plain : ∀ rule ∈ e.rules, rule.Plain
  append : ∀ label label',
    { e with label := label ++ ";" ++ label' }.rules = { e with label }.rules ++ { e with label := label' }.rules ∧
    { e with label := label ++ ";" ++ label' }.rejections =
      { e with label }.rejections ++ { e with label := label' }.rejections

theorem rules_of_specs (h : (Label.specs e.label).map Label.Spec.rule = rules.map .ok) : e.rules = rules := by
  have hrules : e.rules = ((Label.specs e.label).map Label.Spec.rule).filterMap Except.toOption := by
    rw [Edge.rules, List.filterMap_map]
    rfl
  rw [hrules, h, List.filterMap_map]
  exact List.filterMap_some

theorem rejections_of_specs (h : (Label.specs e.label).map Label.Spec.rule = rules.map .ok) : e.rejections = [] := by
  refine List.filterMap_eq_nil_iff.mpr fun spec hspec => ?_
  have hok : spec.rule ∈ rules.map Except.ok := h ▸ List.mem_map_of_mem hspec
  obtain ⟨rule, -, hrule⟩ := List.mem_map.mp hok
  rw [← hrule]

theorem rules_of_written (hne : rules ≠ []) (hplain : ∀ rule ∈ rules, rule.Plain) (h : Label.Written rules e.label) :
    e.rules = rules ∧ e.rejections = [] :=
  ⟨rules_of_specs (h.specs hne hplain), rejections_of_specs (h.specs hne hplain)⟩

theorem legible (e : Edge) : e.Legible where
  written _ := rules_of_written
  printed rules hne hplain := rules_of_written hne hplain (Label.written_ofRules rules)
  plain rule hrule := by
    obtain ⟨spec, hspec, hsome⟩ := List.mem_filterMap.mp hrule
    cases hok : spec.rule with
    | error flaw =>
      rw [hok] at hsome
      cases hsome
    | ok rule' =>
      rw [hok] at hsome
      cases hsome
      exact Label.plain_of_rule hspec hok
  append label label' := by
    rw [Edge.rules, Edge.rejections, Label.specs_append, List.filterMap_append, List.filterMap_append]
    exact ⟨rfl, rfl⟩

theorem legible_padded :
    Label.Written [⟨'<', none, .left⟩, ⟨'é', some '>', .right⟩] " <\u3000,<;é,> , >" ∧
    (∀ rule ∈ [Label.Rule.mk '<' none .left, ⟨'é', some '>', .right⟩], rule.Plain) ∧
    (between "1" "2" " <\u3000,<;é,> , >").rules = [⟨'<', none, .left⟩, ⟨'é', some '>', .right⟩] ∧
    (between "1" "2" " <\u3000,<;é,> , >").rejections = [] ∧ Label.Plain 'é' := by
  have hfirst : Label.Rule.Written ⟨'<', none, .left⟩ [' ', '<', '\u3000', ',', '<'] :=
    ⟨[[' ', '<', '\u3000'], ['<']], .cons (.behind rfl (.before rfl (.refl _))) (.cons (.refl _) .nil), rfl⟩
  have hsecond : Label.Rule.Written ⟨'é', some '>', .right⟩ ['é', ',', '>', ' ', ',', ' ', '>'] :=
    ⟨[['é'], ['>', ' '], [' ', '>']],
      .cons (.refl _) (.cons (.behind rfl (.refl _)) (.cons (.before rfl (.refl _)) .nil)), rfl⟩
  have hwritten : Label.Written [⟨'<', none, .left⟩, ⟨'é', some '>', .right⟩] " <\u3000,<;é,> , >" :=
    ⟨_, .cons hfirst (.cons hsecond .nil), rfl⟩
  have hplain : ∀ rule ∈ [Label.Rule.mk '<' none .left, ⟨'é', some '>', .right⟩], rule.Plain := by
    refine List.forall_mem_cons.mpr ⟨⟨by decide, fun c hc => absurd hc (Option.not_mem_none c)⟩, ?_⟩
    have hsymbol : Label.Plain '>' := by decide
    exact List.forall_mem_singleton.mpr ⟨by decide, fun c hc => Option.mem_some.mp hc ▸ hsymbol⟩
  obtain ⟨hread, -, hplain', -⟩ := legible (between "1" "2" " <\u3000,<;é,> , >")
  obtain ⟨hrules, hrejections⟩ := hread _ (List.cons_ne_nil _ _) hplain hwritten
  exact ⟨hwritten, hplain, hrules, hrejections, (hplain' _ (hrules ▸ List.mem_cons_of_mem _ List.mem_cons_self)).1⟩

end Edge
end Tapeworks
