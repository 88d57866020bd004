import Tapeworks.Proofs.Code.RoundTrip

/-! Codes are in normal form: the decoded diagram has the very same code. The rules of a table come in the order of the
    ids of their sources, and those of one source in the order of the edges. Decoding moves a group of rules only where
    the last rule, which was moved to the end, starts the group early, and encoding moves that rule back behind the
    others. -/

namespace Tapeworks.Code

variable {t : Table} {d : Diagram} {e : String} {rules : List Rule} {last r : Rule} {x : State × Transition}

/-! ### The order of the rules of a table -/

def link (x : State × Transition) : String × String :=
  (x.1.id, x.2.target.id)

/-- The rules between the first two ends come before those between the second in the table of the diagram. -/
def Precedes (d : Diagram) (k k' : String × String) : Prop :=
  k.1 < k'.1 ∨ k.1 = k'.1 ∧ d.links.idxOf k < d.links.idxOf k'

theorem Precedes.asymm {k k' : String × String} (h : Precedes d k k') : ¬Precedes d k' k := by
  rintro (hlt' | ⟨he', hlt'⟩)
  · rcases h with hlt | ⟨he, -⟩
    · exact String.lt_irrefl _ (String.lt_trans hlt hlt')
    · exact String.ne_of_lt hlt' he.symm
  · rcases h with hlt | ⟨-, hlt⟩
    · exact String.ne_of_lt hlt he'.symm
    · exact Nat.lt_asymm hlt hlt'

theorem pairwise_idxOf {α : Type} [BEq α] [LawfulBEq α] {l : List α} (h : l.Nodup) :
    l.Pairwise fun a b => l.idxOf a < l.idxOf b :=
  List.pairwise_iff_getElem.mpr fun i j hi hj hij => by rwa [h.idxOf_getElem, h.idxOf_getElem]

/-- With one edge at most between two states, the offers of one source come in the order of their links. -/
theorem pairwise_offers (hlinks : d.links.Nodup) : d.offers.Pairwise fun o o' =>
    (o.edge.source, o.rule.target.id) = (o'.edge.source, o'.rule.target.id) ∨
      d.links.idxOf (o.edge.source, o.rule.target.id) < d.links.idxOf (o'.edge.source, o'.rule.target.id) := by
  have hends : ∀ edge, ∀ o ∈ d.offersOf edge, (o.edge.source, o.rule.target.id) = (edge.source, edge.target) := by
    intro edge o ho
    rw [(Diagram.state?_eq_some (Diagram.offersOf_target ho)).2, (Diagram.offersOf_source ho).1]
  refine List.pairwise_flatMap.mpr ⟨fun edge _ => ?_, ?_⟩
  · refine List.pairwise_of_forall_mem_list fun o ho o' ho' => Or.inl ?_
    rw [hends edge o ho, hends edge o' ho']
  · refine (List.pairwise_map.mp (pairwise_idxOf hlinks)).imp fun {edge edge'} hlt o ho o' ho' => Or.inr ?_
    rw [hends edge o ho, hends edge' o' ho']
    exact hlt

theorem pairwise_rules (hlinks : d.links.Nodup) :
    (compile d).table.rules.Pairwise fun x y => link x = link y ∨ Precedes d (link x) (link y) := by
  rw [Table.rules_eq (ascending_compile d)]
  have hstates := pairwise_states_compile d
  refine List.pairwise_flatMap.mpr ⟨fun s _ => List.pairwise_map.mpr ?_, hstates.imp fun {s s'} hlt x hx y hy => ?_⟩
  · rw [transitions_compile]
    refine List.Pairwise.sublist (firsts_sublist _ _) (List.pairwise_map.mpr ?_)
    refine ((pairwise_offers hlinks).filter _).imp_of_mem fun {o o'} ho ho' h => ?_
    have hs : o.edge.source = s.id := by simpa using (List.mem_filter.mp ho).2
    have hs' : o'.edge.source = s.id := by simpa using (List.mem_filter.mp ho').2
    rw [hs, hs'] at h
    exact h.imp id fun hlt => Or.inr ⟨rfl, hlt⟩
  · obtain ⟨r, -, rfl⟩ := List.mem_map.mp hx
    obtain ⟨r', -, rfl⟩ := List.mem_map.mp hy
    exact Or.inr (Or.inl hlt)

/-! ### The order of the rules of a code -/

def Ends.link (k : Ends) : String × String :=
  (Text.numeral k.source, Text.numeral k.target)

theorem Ends.link_injective {k k' : Ends} (h : k.link = k'.link) : k = k' :=
  Ends.ext (Text.numeral_injective (congrArg Prod.fst h)) (Text.numeral_injective (congrArg Prod.snd h))

def InOrder (d : Diagram) (rules : List Rule) : Prop :=
  rules.Pairwise fun r r' => r.ends = r'.ends ∨ Precedes d r.ends.link r'.ends.link

theorem Named.link_codeOf (h : Named t) (hT : Writable t) (hx : x ∈ t.rules) : (codeOf x).ends.link = link x :=
  Prod.ext (h.numeral_source hT hx) (h.numeral_target hT hx)

theorem Named.inOrder (h : Named (compile d).table) (hT : Writable (compile d).table) (hlinks : d.links.Nodup) :
    InOrder d ((compile d).table.rules.map codeOf) := by
  refine List.pairwise_map.mpr ((pairwise_rules hlinks).imp_of_mem fun {x y} hx hy hxy => ?_)
  rw [← h.link_codeOf hT hx, ← h.link_codeOf hT hy] at hxy
  exact hxy.imp Ends.link_injective id

theorem InOrder.group_eq (h : InOrder d rules) : group Rule.ends rules = rules :=
  group_eq_self (fun k k' (hk : Precedes d k.link k'.link) => hk.asymm) h

theorem InOrder.source_le (h : InOrder d rules) :
    rules.Pairwise fun r r' => ¬Text.numeral r'.source < Text.numeral r.source := by
  refine h.imp fun {r r'} hr hlt => ?_
  rcases hr with he | hr | ⟨he, -⟩
  · exact String.ne_of_lt hlt (congrArg (Text.numeral ·.source) he.symm)
  · exact String.lt_irrefl _ (String.lt_trans hlt hr)
  · exact String.ne_of_lt hlt he.symm

/-- A last rule that was moved to the end is drawn before rules that have other targets, and the others are drawn in
    their order. -/
theorem InOrder.gather_moved {front back : List Rule} {names : List String} (h : InOrder d (front ++ last :: back))
    (hback : ∀ r ∈ back, r.target ≠ last.target) (hnames : names.Pairwise (· < ·))
    (hmem : ∀ r ∈ front ++ last :: back, Text.numeral r.source ∈ names) :
    ∃ front' back', gather (Text.numeral ·.source) names (group Rule.ends (front ++ back ++ [last])) =
      front' ++ last :: back' ∧ front' ++ back' = front ++ back ∧ ∀ r ∈ back', r.target ≠ last.target := by
  have hsub : (front ++ back).Sublist (front ++ last :: back) := (List.sublist_cons_self last back).append_left front
  have hrest : InOrder d (front ++ back) := h.sublist hsub
  have hnodup : names.Nodup := hnames.imp String.ne_of_lt
  obtain ⟨front₁, back₁, hgroup, hold, hends⟩ := group_concat Rule.ends (front ++ back) last
  obtain ⟨front₂, back₂, hgather, hold₂, hlater⟩ :=
    gather_insert (Text.numeral ·.source) hnodup hnames (hmem last (by simp)) front₁ back₁
  rw [hrest.group_eq] at hold
  have hsame : gather (Text.numeral ·.source) names (front ++ back) = front ++ back :=
    gather_eq_self hnodup hnames (fun r hr => hmem r (hsub.mem hr)) hrest.source_le
  rw [← hold, hsame] at hold₂
  refine ⟨front₂, back₂, by rw [hgroup, hgather], hold₂.symm, fun r hr => ?_⟩
  rcases hlater r hr with ⟨hsource, hr₁⟩ | hlt
  · exact fun htarget => hends r hr₁ (Ends.ext (Text.numeral_injective hsource) htarget)
  · -- A rule with a later source was behind the last rule before that was moved.
    have hr' : r ∈ front ++ back := hold₂ ▸ List.mem_append_right _ hr
    rcases List.mem_append.mp hr' with hr' | hr'
    · exact absurd hlt ((List.pairwise_append.mp h.source_le).2.2 r hr' last List.mem_cons_self)
    · exact hback r hr'

/-! ### The code of a drawn diagram -/

def Rule.InRange (r : Rule) : Prop :=
  (0 < r.source ∧ r.source ≤ largestState) ∧ 0 < r.target ∧ r.target ≤ largestState

theorem Writable.inRange (hT : Writable t) (hr : r ∈ codes t) : r.InRange := by
  obtain ⟨x, hx, rfl⟩ := mem_codes.mp hr
  exact ⟨(hT x hx).source, (hT x hx).target⟩

theorem numbered_numeral {n : Nat} (h : 0 < n ∧ n ≤ largestState) : Numbered (Text.numeral n) := by
  rw [Numbered, number_numeral h.2]
  exact h

theorem codeOf_transition {s : State} (hr : r.InRange) (hs : Text.numeral r.source = s.id) (final : Nat) :
    codeOf (s, r.transition final) = r := by
  simp [codeOf, numberedOf, NumberedRule.signed, Rule.transition, drawnState, ← hs, number_numeral hr.1.2,
    number_numeral hr.2.2, signOf_symbol]

section Drawn

variable (hnodup : (rules.map fun r => (r.source, r.read)).Nodup) (hrange : ∀ r ∈ rules, r.InRange)
include hnodup

theorem exists_of_mem_draw_rules (hx : x ∈ (compile (draw rules last)).table.rules) :
    ∃ r ∈ rules, Text.numeral r.source = x.1.id ∧ x.2 = r.transition last.target := by
  obtain ⟨r, hr, hs, he⟩ := (mem_draw_transitions hnodup).mp (mem_rules_compile.mp hx).2
  exact ⟨r, hr, hs, he.symm⟩

include hrange

theorem writable_draw : Writable (compile (draw rules last)).table := by
  rintro ⟨s, r'⟩ hx
  obtain ⟨r, hr, hs, rfl⟩ := exists_of_mem_draw_rules hnodup hx
  have hsource : Numbered s.id := by
    rw [← hs]
    exact numbered_numeral (hrange r hr).1
  exact ⟨hsource, numbered_numeral (hrange r hr).2, signed_symbol _, signed_symbol _⟩

theorem closes_draw (hx : x ∈ (compile (draw rules last)).table.rules) :
    closes (compile (draw rules last)).table x = decide ((codeOf x).target = last.target) := by
  obtain ⟨s, r'⟩ := x
  obtain ⟨r, hr, hs, rfl⟩ := exists_of_mem_draw_rules hnodup hx
  have htarget : number (r.transition last.target).target.id = r.target := number_numeral (hrange r hr).2.2
  rw [closes, codeOf_transition (hrange r hr) hs, htarget, state?_compile, state?_draw (target_mem_numbers hr),
    Option.any_some]
  rfl

/-- The rules are written state by state, but for the one that closes the code. -/
theorem codes_draw : codes (compile (draw rules last)).table = moveLastToEnd (fun r => decide (r.target = last.target))
    (gather (Text.numeral ·.source) ((compile (draw rules last)).table.states.map (·.id)) (group Rule.ends rules)) := by
  have hrules : (compile (draw rules last)).table.rules.map codeOf =
      gather (Text.numeral ·.source) ((compile (draw rules last)).table.states.map (·.id)) (group Rule.ends rules) := by
    rw [Table.rules_eq (ascending_compile _), List.map_flatMap, gather, List.flatMap_map]
    refine List.flatMap_congr fun s _ => ?_
    rw [draw_transitions_of_nodup hnodup, List.map_map, List.map_map]
    refine (List.map_congr_left fun r hr => ?_).trans (List.map_id _)
    obtain ⟨hr, hs⟩ := List.mem_filter.mp hr
    exact codeOf_transition (hrange r ((group_perm _ _).mem_iff.mp hr)) (decide_eq_true_eq.mp hs) _
  rw [codes, arranged, moveLastToEnd_congr fun x hx => closes_draw hnodup hrange hx, ← hrules]
  exact (moveLastToEnd_map (p := fun r => decide (r.target = last.target)) codeOf _).symm

end Drawn

/-! ### Codes of decoded codes -/

/-- Of the rules behind the one that was moved to the end, none has its target. -/
theorem exists_moved (hlast : (codes t).getLast? = some last) :
    ∃ front back, t.rules.map codeOf = front ++ last :: back ∧ codes t = front ++ back ++ [last] ∧
      ∀ r ∈ back, r.target ≠ last.target := by
  rcases none_or_last (closes t) t.rules with hnone | ⟨front, x, back, hrules, hx, hback⟩
  · have hcodes : codes t = t.rules.map codeOf := congrArg _ (moveLastToEnd_of_none hnone)
    obtain ⟨front, hfront⟩ := List.getLast?_eq_some_iff.mp hlast
    exact ⟨front, [], hcodes ▸ hfront, by simpa using hfront, fun r hr => absurd hr List.not_mem_nil⟩
  · have hcodes : codes t = front.map codeOf ++ back.map codeOf ++ [codeOf x] := by
      rw [codes, arranged, hrules, moveLastToEnd_append hx hback, List.map_append, List.map_append, List.map_singleton]
    rw [hcodes, List.getLast?_concat] at hlast
    obtain rfl := Option.some.inj hlast
    refine ⟨front.map codeOf, back.map codeOf, by rw [hrules, List.map_append, List.map_cons], hcodes, ?_⟩
    intro r hr htarget
    obtain ⟨y, hy, rfl⟩ := List.mem_map.mp hr
    -- A rule with the target of the last one closes the code too, but none behind the last one does.
    have hsame : number y.2.target.id = number x.2.target.id := htarget
    exact hback y hy (by rwa [closes, hsame])

/-- Drawn with the last rule at the end, the rules are written in the same order again. -/
theorem codes_draw_eq_self {front back : List Rule} (horder : InOrder d (front ++ last :: back))
    (hback : ∀ r ∈ back, r.target ≠ last.target)
    (hnodup : ((front ++ back ++ [last]).map fun r => (r.source, r.read)).Nodup)
    (hrange : ∀ r ∈ front ++ back ++ [last], r.InRange) :
    codes (compile (draw (front ++ back ++ [last]) last)).table = front ++ back ++ [last] := by
  have hnames : ∀ r ∈ front ++ last :: back,
      Text.numeral r.source ∈ (compile (draw (front ++ back ++ [last]) last)).table.states.map (·.id) := by
    intro r hr
    have hr' : r ∈ front ++ back ++ [last] := by simpa [or_comm, or_left_comm] using hr
    have hs : (draw (front ++ back ++ [last]) last).state? (Text.numeral r.source) =
        some (drawnState last.target r.source) := state?_draw (source_mem_numbers hr')
    exact List.mem_map.mpr ⟨drawnState last.target r.source, mem_states_compile.mpr hs, rfl⟩
  obtain ⟨front', back', hgather, hrest, hback'⟩ :=
    horder.gather_moved hback (List.pairwise_map.mpr (pairwise_states_compile _)) hnames
  rw [codes_draw hnodup hrange, hgather, moveLastToEnd_append (by simp) (by simpa using hback'), hrest]

theorem Named.encode_draw (h : Named (compile d).table) (hT : Writable (compile d).table) (hlinks : d.links.Nodup)
    (hlast : (codes (compile d).table).getLast? = some last) :
    encode (draw (codes (compile d).table) last) = .ok (write (codes (compile d).table)) := by
  obtain ⟨front, back, hrules, hcodes, hback⟩ := exists_moved hlast
  have hnodup := nodup_codes hT (h.distinct hT)
  have hrange : ∀ r ∈ codes (compile d).table, r.InRange := fun r => hT.inRange
  rw [hcodes] at hnodup hrange ⊢
  have hsame := codes_draw_eq_self (hrules ▸ h.inOrder hT hlinks) hback hnodup hrange
  exact encode_eq_ok_iff.mpr ⟨writable_draw hnodup hrange, congrArg write hsame.symm⟩

/-! ### Decoded diagrams -/

theorem exists_draw_of_decode {text : String} (h : decode text = .ok d) :
    ∃ rules last, read text = .ok rules ∧ last ∈ rules ∧ d = draw rules last := by
  obtain ⟨rules, hread, h⟩ := Cursor.except_bind_eq_ok h
  cases hlast : rules.getLast? with
  | none => rw [hlast] at h; cases h
  | some last =>
    rw [hlast] at h
    cases h
    exact ⟨rules, last, hread, List.mem_of_getLast? hlast, rfl⟩

theorem nodup_draw_links (rules : List Rule) (last : Rule) : (draw rules last).links.Nodup := by
  rw [Diagram.links, draw_edges, List.map_map]
  exact List.Nodup.map (fun _ _ => Ends.link_injective) (nodup_eraseDups _)

theorem draw_rules_ne_nil (hlast : last ∈ rules) : (compile (draw rules last)).table.rules ≠ [] := by
  have hread : last.read.symbol ∈
      ((compile (draw rules last)).table.transitions (Text.numeral last.source)).map (·.read) := by
    rw [draw_transitions, mem_map_firsts, List.map_map]
    exact List.mem_map.mpr ⟨last, List.mem_filter.mpr ⟨(group_perm _ _).mem_iff.mpr hlast, by simp⟩, rfl⟩
  obtain ⟨r, hr, -⟩ := List.mem_map.mp hread
  obtain ⟨s, hs, -⟩ := Table.exists_state_of_mem_transitions hr
  exact List.ne_nil_of_mem hs

/-- A number that has a code is a word, so its numeral is canonical. -/
theorem named_draw (hT : Writable (compile (draw rules last)).table) : Named (compile (draw rules last)).table := by
  intro id hid
  obtain ⟨s, hs, rfl⟩ := exists_state_of_mem_ends hid
  obtain ⟨n, -, hn, -⟩ := state?_draw_eq_some.mp hs
  have hword := (hT.numbered hid).word?
  rw [hn] at hword ⊢
  exact Text.canonical_numeral hword

/-- Codes are in normal form. A code is that of the diagram which it is decoded to, where a diagram has one edge at most
    between two states; and any text that is decoded to a diagram with a code leads to such a code. -/
theorem encode_decode_encode :
    (∀ d e, d.links.Nodup → (∀ id ∈ (compile d).table.ends, Text.Canonical id) → encode d = .ok e → e ≠ "" →
      ∃ d', decode e = .ok d' ∧ encode d' = .ok e) ∧
    ∀ text d e, decode text = .ok d → encode d = .ok e → e ≠ "" ∧ ∃ d', decode e = .ok d' ∧ encode d' = .ok e := by
  have hstable : ∀ d e, d.links.Nodup → Named (compile d).table → encode d = .ok e → e ≠ "" →
      ∃ d', decode e = .ok d' ∧ encode d' = .ok e := by
    intro d e hlinks h he hne
    obtain ⟨hT, last, hlast, hdecode⟩ := exists_decode he hne
    obtain ⟨-, rfl⟩ := encode_eq_ok_iff.mp he
    exact ⟨_, hdecode, h.encode_draw hT hlinks hlast⟩
  refine ⟨hstable, fun text d e hd he => ?_⟩
  obtain ⟨rules, last, -, hlast, rfl⟩ := exists_draw_of_decode hd
  obtain ⟨hT, hwrite⟩ := encode_eq_ok_iff.mp he
  have hne : e ≠ "" := by
    rw [hwrite, Ne, write_eq_empty_iff, codes_eq_nil_iff]
    exact draw_rules_ne_nil hlast
  exact ⟨hne, hstable _ e (nodup_draw_links rules last) (named_draw hT) he hne⟩

theorem encode_decode_encode_shuttle :
    ∃ d', decode "aaababaabaaabaabababb" = .ok d' ∧ encode d' = .ok "aaababaabaaabaabababb" :=
  encode_decode_encode.1 shuttle _ (by decide) (by decide) rfl (by decide)

end Tapeworks.Code
