import Mathlib.Data.Finset.Card
import Tapeworks.Proofs.Code.RoundTrip

/-! Ids that are not numerals. Several ids stand for one number, and a code has nothing but the number: states are told
    apart just when the ids at the ends of rules have distinct numbers. The rule that closes the code is chosen by the
    numeral of its number, and a final state with another id is not found. -/

namespace Tapeworks.Code

variable {t : Table} {d d' : Diagram} {e : String} {last : Rule} {x y : State × Transition}

/-- What a code should keep of a diagram: its states, all of its rules, and a rule into a final state at the end. -/
structure Unconfused (d : Diagram) (e : String) (d' : Diagram) : Prop where
  states : d'.states.length = (compile d).table.ends.toFinset.card
  warnings : (compile d').warnings = #[]
  last : (∃ x ∈ (compile d).table.rules, x.2.target.isFinal) →
    ∃ rules, read e = .ok rules ∧
      ∃ x ∈ (compile d).table.rules, x.2.target.isFinal ∧ rules.getLast? = some (codeOf x)

/-- The numbers tell the ends of rules apart, and the closing rule enters a final state where a rule does. -/
structure WellSpelled (t : Table) : Prop where
  distinct : Distinct t
  final : (∃ x ∈ t.rules, x.2.target.isFinal) → ∃ x, closing t = some x ∧ x.2.target.isFinal

theorem Named.wellSpelled (h : Named (compile d).table) (hT : Writable (compile d).table) :
    WellSpelled (compile d).table where
  distinct := h.distinct hT
  final := by
    rintro ⟨y, hy, hfinal⟩
    obtain ⟨x, hx⟩ : ∃ x, closing (compile d).table = some x := by
      refine Option.isSome_iff_exists.mp ?_
      rw [closing, Option.isSome_or, Bool.or_eq_true]
      exact Or.inr (List.getLast?_isSome.mpr (List.ne_nil_of_mem hy))
    exact ⟨x, hx, h.isFinal_closing hT hx hy hfinal⟩

/-- There are as many states in a code as there are ends of rules just when these have distinct numbers. -/
theorem length_numbers_codes_iff : (numbers (codes t)).length = t.ends.toFinset.card ↔ Distinct t := by
  have himage : (numbers (codes t)).toFinset = t.ends.toFinset.image number := by
    ext n
    simp only [List.mem_toFinset, Finset.mem_image]
    exact mem_numbers_codes
  rw [← List.toFinset_card_of_nodup (nodup_numbers (codes t)), himage, Finset.card_image_iff]
  simp [Set.InjOn, Distinct]

theorem Distinct.codeOf_injOn (h : Distinct (compile d).table) (hT : Writable (compile d).table)
    (hx : x ∈ (compile d).table.rules) (hy : y ∈ (compile d).table.rules) (hxy : codeOf x = codeOf y) : x = y := by
  have hkey := h.key_eq hT hx hy (congrArg Rule.source hxy) (congrArg Rule.read hxy)
  exact List.inj_on_of_nodup_map (nodup_rules_compile d) hx hy hkey

/-- A code confuses nothing just when the ids at the ends of rules are spelled well, as numerals are. -/
theorem unconfused_iff (he : encode d = .ok e) (hne : e ≠ "") :
    ∃ d', decode e = .ok d' ∧ (Unconfused d e d' ↔ WellSpelled (compile d).table) ∧
      ((∀ id ∈ (compile d).table.ends, Text.Canonical id) → WellSpelled (compile d).table) := by
  obtain ⟨hT, last, hlast, hdecode⟩ := exists_decode he hne
  obtain ⟨-, rfl⟩ := encode_eq_ok_iff.mp he
  have hread : read (write (codes (compile d).table)) = .ok (codes (compile d).table) :=
    read_write (fun r => hT.positive) (List.ne_nil_of_mem (List.mem_of_getLast? hlast))
  have hstates : (draw (codes (compile d).table) last).states.length = (compile d).table.ends.toFinset.card ↔
      Distinct (compile d).table := by
    rw [draw_states, List.length_map, length_numbers_codes_iff]
  rw [getLast?_codes] at hlast
  obtain ⟨x, hclosing, rfl⟩ := Option.map_eq_some_iff.mp hlast
  have hx := mem_of_closing hclosing
  refine ⟨_, hdecode, ⟨fun h => ?_, fun h => ?_⟩, fun h => Named.wellSpelled h hT⟩
  · -- Distinct numbers make the last rule of the code the image of the closing rule only.
    have hd := hstates.mp h.states
    refine ⟨hd, fun hfinal => ⟨x, hclosing, ?_⟩⟩
    obtain ⟨rules, hrules, y, hy, hyf, hlast'⟩ := h.last hfinal
    cases hread.symm.trans hrules
    rw [getLast?_codes, hlast] at hlast'
    have hxy : x = y := hd.codeOf_injOn hT hx hy (Option.some.inj hlast')
    rw [hxy]
    exact hyf
  · refine ⟨hstates.mpr h.distinct, draw_warnings_eq_empty_iff.mpr (nodup_codes hT h.distinct), fun hfinal => ?_⟩
    obtain ⟨y, hy, hyf⟩ := h.final hfinal
    cases hclosing.symm.trans hy
    exact ⟨_, hread, x, hx, hyf, by rw [getLast?_codes, hlast]⟩

/-- A diagram whose final state has a leading zero in its id. -/
def respelled : Diagram where
  states := [{ id := "1" }, { id := "02", isFinal := true }, { id := "3" }]
  edges := [Edge.between "1" "02" "a,>", Edge.between "3" "1" "b,<"]

theorem unconfused_iff_respelled : ∃ d', decode "abaabaaaabaaababababa" = .ok d' ∧
    (Unconfused respelled "abaabaaaabaaababababa" d' ↔ WellSpelled (compile respelled).table) ∧
      ((∀ id ∈ (compile respelled).table.ends, Text.Canonical id) → WellSpelled (compile respelled).table) :=
  unconfused_iff (d := respelled) rfl (by decide)

/-- The rule into the final state is not moved to the end. -/
theorem respelled_confused :
    encode respelled = .ok "abaabaaaabaaababababa" ∧ ∀ d', ¬Unconfused respelled "abaabaaaabaaababababa" d' := by
  refine ⟨rfl, fun d' h => ?_⟩
  have hwrite : write [⟨1, 2, .a, .a, .right⟩, ⟨3, 1, .b, .b, .left⟩] = "abaabaaaabaaababababa" := by decide
  have hpositive : ∀ r ∈ [⟨1, 2, .a, .a, .right⟩, (⟨3, 1, .b, .b, .left⟩ : Rule)], r.Positive := by
    simp [Rule.Positive]
  have hread := read_write hpositive (by simp)
  have hother : ∀ x ∈ (compile respelled).table.rules, x.2.target.isFinal →
      some (codeOf x) ≠ some ⟨3, 1, .b, .b, .left⟩ := by decide
  obtain ⟨rules, hrules, x, hx, hfinal, hlast⟩ := h.last (by decide)
  rw [hwrite, hrules] at hread
  cases hread
  exact hother x hx hfinal hlast.symm

end Tapeworks.Code
