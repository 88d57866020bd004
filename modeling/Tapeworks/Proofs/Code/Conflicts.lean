import Mathlib.Data.Finset.Image
import Tapeworks.Proofs.Code.Loading
import Tapeworks.Proofs.Code.RoundTrip
import Tapeworks.Proofs.Compile.Conservation

/-! Rules of a code that are for one state and one symbol. Only the first that is compiled is kept, but decoding puts the
    rules with the same ends on one edge and so moves them up to the first of these. The rule that is kept is therefore
    the one whose ends are mentioned first in the code, and of the rules with these ends the first; every other one
    leaves a warning. -/

namespace Tapeworks.Code

variable {rules : List Rule} {last r r' winner : Rule} {i : Nat} {d : Diagram} {text : String}

/-- The state and the symbol that the rule is for. -/
def Rule.key (r : Rule) : Nat × Sign :=
  (r.source, r.read)

/-- The index of the first rule with the ends of the rule. -/
def Rule.mention (rules : List Rule) (r : Rule) : Nat :=
  (rules.map Rule.ends).idxOf r.ends

/-- The rule has the index `i` and comes before all others for its state and symbol: its ends are mentioned before
    theirs, or they are mentioned together and the rule stands before the other. -/
structure Prevails (rules : List Rule) (i : Nat) (r : Rule) : Prop where
  here : rules[i]? = some r
  least : ∀ j r', rules[j]? = some r' → r'.key = r.key →
    r.mention rules < r'.mention rules ∨ r.mention rules = r'.mention rules ∧ i ≤ j

theorem Prevails.unique {j : Nat} (h : Prevails rules i r) (h' : Prevails rules j r') (hkey : r.key = r'.key) :
    i = j := by
  have hle := h.least j r' h'.here hkey.symm
  have hge := h'.least i r h.here hkey
  omega

theorem Prevails.mem (h : Prevails rules i r) : r ∈ rules :=
  List.mem_of_getElem? h.here

/-! ### The rule that is found -/

theorem find?_draw (rules : List Rule) (last : Rule) (id : String) (c : Char) :
    (compile (draw rules last)).table.find? id c =
      ((group Rule.ends rules).find? fun r => Text.numeral r.source = id ∧ r.read.symbol = c).map
        (Rule.transition last.target) := by
  rw [find?_compile, draw_offers, List.find?_map, Option.map_map]
  rfl

theorem find?_draw_key (rules : List Rule) (last r : Rule) :
    (compile (draw rules last)).table.find? (Text.numeral r.source) r.read.symbol =
      ((group Rule.ends rules).find? (·.key = r.key)).map (Rule.transition last.target) := by
  rw [find?_draw]
  congr 2
  funext r'
  have hkey : Text.numeral r'.source = Text.numeral r.source ∧ r'.read.symbol = r.read.symbol ↔ r'.key = r.key :=
    Prod.mk_inj.symm.trans (numeral_symbol_injective.eq_iff (a := r'.key) (b := r.key))
  exact decide_eq_decide.mpr hkey

/-- Of the rules for one state and symbol, the first in the order of the edges comes before all others. -/
theorem exists_prevails (h : r ∈ rules) : ∃ i winner, Prevails rules i winner ∧ winner.key = r.key ∧
    (group Rule.ends rules).find? (·.key = r.key) = some winner := by
  -- The rules are grouped with their indices, which tell those with the same ends apart.
  have hgroup : group Rule.ends rules = (group (Rule.ends ∘ Prod.fst) rules.zipIdx).map Prod.fst := by
    rw [← group_map, List.zipIdx_map_fst]
  have hmem : ∀ x, x ∈ group (Rule.ends ∘ Prod.fst) rules.zipIdx ↔ rules[x.2]? = some x.1 := fun x =>
    (group_perm _ _).mem_iff.trans List.mem_zipIdx_iff_getElem?
  have hpairwise := pairwise_group (Rule.ends ∘ Prod.fst) (pairwise_zipIdx rules)
  rw [← List.map_map, List.zipIdx_map_fst] at hpairwise
  obtain ⟨k, hk⟩ := List.getElem?_of_mem h
  obtain ⟨⟨winner, i⟩, hfind⟩ := Option.isSome_iff_exists.mp
    (List.find?_isSome.mpr ⟨(r, k), (hmem _).mpr hk, by simp⟩ :
      ((group (Rule.ends ∘ Prod.fst) rules.zipIdx).find? fun x => x.1.key = r.key).isSome)
  have hwinner : winner.key = r.key := by simpa using List.find?_some hfind
  refine ⟨i, winner, ⟨(hmem _).mp (List.mem_of_find?_eq_some hfind), fun j r' hr' hkey => ?_⟩, hwinner, ?_⟩
  · have hfirst := eq_or_of_find?_eq_some hpairwise hfind (r', j) ((hmem _).mpr hr') (by simp [hkey, hwinner])
    rcases hfirst with he | hlt | ⟨hends, hlt⟩
    · cases he
      exact Or.inr ⟨rfl, Nat.le_refl i⟩
    · exact Or.inl hlt
    · exact Or.inr ⟨congrArg (List.idxOf · (rules.map Rule.ends)) hends, Nat.le_of_lt hlt⟩
  · rw [hgroup, List.find?_map, Function.comp_def, hfind, Option.map_some]

theorem find?_draw_eq_none {id : String} {c : Char} (h : ∀ r ∈ rules, (Text.numeral r.source, r.read.symbol) ≠ (id, c)) :
    (compile (draw rules last)).table.find? id c = none := by
  rw [find?_draw, Option.map_eq_none_iff, List.find?_eq_none]
  intro r hr hfound
  obtain ⟨hid, hc⟩ := decide_eq_true_eq.mp hfound
  exact h r ((group_perm _ _).mem_iff.mp hr) (Prod.ext hid hc)

/-! ### The number of warnings -/

theorem card_draw_offer_keys (rules : List Rule) (last : Rule) :
    ((draw rules last).offers.map Offer.key).toFinset.card = (rules.map Rule.key).toFinset.card := by
  have hperm : ((draw rules last).offers.map Offer.key).Perm
      ((rules.map Rule.key).map fun k => (Text.numeral k.1, k.2.symbol)) := by
    rw [draw_offer_keys]
    exact ((group_perm Rule.ends rules).map Rule.key).map _
  have himage : ((draw rules last).offers.map Offer.key).toFinset =
      (rules.map Rule.key).toFinset.image fun k => (Text.numeral k.1, k.2.symbol) := by
    rw [List.toFinset_eq_of_perm _ _ hperm]
    ext k
    simp
  rw [himage, Finset.card_image_of_injective _ numeral_symbol_injective]

/-- There are as many specs on the edges as there are rules. -/
theorem length_drawn_items (h : ∀ r ∈ rules, r.Positive) (last : Rule) :
    (draw rules last).items.length = rules.length := by
  have hattached : (draw rules last).edges.filter (fun e => (draw rules last).Attached e) = (draw rules last).edges :=
    List.filter_eq_self.mpr fun e he => decide_eq_true (sound_draw h e he).1
  have hspecs : ((draw rules last).edges.flatMap fun e => Label.specs e.label) =
      (group Rule.ends rules).map fun r => Label.Spec.ofText r.spec.toList := by
    rw [draw_edges, List.flatMap_map, group, gather, List.map_flatMap]
    refine List.flatMap_congr fun ends hends => ?_
    obtain ⟨r, hr, rfl⟩ := List.mem_map.mp (List.mem_eraseDups.mp hends)
    exact drawnEdge_specs hr
  rw [Diagram.items, Diagram.length_items, hattached, hspecs, List.length_map, (group_perm _ _).length_eq]

/-- Every rule is kept or leaves a warning, and one is kept for each state and symbol. -/
theorem size_warnings_draw (h : ∀ r ∈ rules, r.Positive) (last : Rule) :
    (compile (draw rules last)).warnings.size + (rules.map Rule.key).toFinset.card = rules.length := by
  have hdangling : (draw rules last).edges.filterMap (draw rules last).dangling? = [] :=
    List.filterMap_eq_nil_iff.mpr fun e he => Diagram.dangling?_eq_none_iff.mpr (sound_draw h e he).1
  have hwarnings := (Diagram.warnings_perm (draw rules last) (draw rules last).edges).length_eq
  rw [hdangling, List.nil_append] at hwarnings
  have hrules := congrArg List.length (filterMap_rule?_fates (draw rules last).items)
  rw [Diagram.items, Diagram.filterMap_offer?_items, List.length_map, length_firsts] at hrules
  have hkept := (card_draw_offer_keys rules last).symm.trans hrules.symm
  rw [← length_drawn_items h last, ← Item.length_fates [], ← Item.length_rules_add_warnings, Nat.add_comm, hkept]
  exact congrArg _ hwarnings

/-! ### Decoded codes -/

/-- What compiling keeps of the rules of a code: for each state and symbol the one that prevails, as the code has it. -/
structure Arbitrated (rules : List Rule) (last : Rule) (c : Compilation) : Prop where
  warnings : ∀ w ∈ c.warnings, ∃ edge state symbol, w = .duplicateSymbol edge state symbol
  count : c.warnings.size + (rules.map Rule.key).toFinset.card = rules.length
  found : ∀ r ∈ rules, ∃! i, ∃ winner, Prevails rules i winner ∧ winner.key = r.key ∧
    c.table.find? (Text.numeral r.source) r.read.symbol = some (winner.transition last.target)
  unfound : ∀ id symbol, (∀ r ∈ rules, (Text.numeral r.source, r.read.symbol) ≠ (id, symbol)) →
    c.table.find? id symbol = none
  clean : (rules.map Rule.key).Nodup → c.isClean ∧
    ∀ r ∈ rules, c.table.find? (Text.numeral r.source) r.read.symbol = some (r.transition last.target)

theorem arbitrated_draw (h : ∀ r ∈ rules, r.Positive) (last : Rule) :
    Arbitrated rules last (compile (draw rules last)) where
  warnings w hw := by
    obtain ⟨e, -, c, rfl⟩ := duplicate_of_mem_warnings (sound_draw h) hw
    exact ⟨_, _, _, rfl⟩
  count := size_warnings_draw h last
  found r hr := by
    obtain ⟨i, winner, hprevails, hkey, hfind⟩ := exists_prevails hr
    refine ⟨i, ⟨winner, hprevails, hkey, by rw [find?_draw_key, hfind, Option.map_some]⟩, ?_⟩
    rintro j ⟨winner', hprevails', hkey', -⟩
    exact hprevails'.unique hprevails (hkey'.trans hkey.symm)
  unfound _ _ := find?_draw_eq_none
  clean hnodup := by
    refine ⟨Array.isEmpty_iff.mpr (draw_warnings_eq_empty_iff.mpr hnodup), fun r hr => ?_⟩
    obtain ⟨i, winner, hprevails, hkey, hfind⟩ := exists_prevails hr
    have hwinner : winner = r := List.inj_on_of_nodup_map hnodup hprevails.mem hr hkey
    rw [find?_draw_key, hfind, hwinner, Option.map_some]

/-- Compiling a decoded code keeps one rule for each state and symbol of the code. -/
theorem arbitrated_decode (h : decode text = .ok d) : ∃ rules last,
    Printed rules (Text.trim text.toList) ∧ rules.getLast? = some last ∧ Arbitrated rules last (compile d) := by
  obtain ⟨rules, last, hprinted, hlast, rfl⟩ := exists_printed_of_decode h
  exact ⟨rules, last, hprinted, hlast, arbitrated_draw hprinted.positive last⟩

/-- The third rule is for the same state and symbol as the second and overtakes it, since it has the ends of the
    first. -/
def overtaking : List Rule :=
  [⟨1, 2, .b, .b, .right⟩, ⟨1, 3, .a, .a, .right⟩, ⟨1, 2, .a, .a, .right⟩]

theorem arbitrated_decode_overtaking : write overtaking = "abaabababbabaaabaaaababaabaaaab" ∧
    ∃ rules last, Printed rules (Text.trim (write overtaking).toList) ∧ rules.getLast? = some last ∧
      Arbitrated rules last (compile (draw overtaking ⟨1, 2, .a, .a, .right⟩)) :=
  ⟨by decide, arbitrated_decode (decode_write (by simp [overtaking, Rule.Positive]) rfl)⟩

example : (compile (draw overtaking ⟨1, 2, .a, .a, .right⟩)).table.find? "1" 'a' =
    some (Rule.transition 2 ⟨1, 2, .a, .a, .right⟩) := by
  decide

end Tapeworks.Code
