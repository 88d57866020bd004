import Tapeworks.Code.Encode
import Tapeworks.Proofs.Code.Reading
import Tapeworks.Proofs.Compile
import Tapeworks.Proofs.Text.Numeral

/-! The code of a diagram. A diagram has a code exactly when every compiled rule is encodable, and then the code holds one
    rule for each, in table order but for the rule that closes the code: the last one whose target, by its numeral, is
    final, or else simply the last. -/

namespace Tapeworks.Code

/-! ### Lists -/

theorem mapM_eq_ok_iff {α β ε : Type} {f : α → Except ε β} {P : α → Prop} {g : α → β}
    (hf : ∀ a b, f a = .ok b ↔ P a ∧ b = g a) {l : List α} {l' : List β} :
    l.mapM f = .ok l' ↔ (∀ a ∈ l, P a) ∧ l' = l.map g := by
  induction l generalizing l' with
  | nil => simp [pure, Except.pure, eq_comm]
  | cons a l ih =>
    rw [List.mapM_cons, List.map_cons, List.forall_mem_cons]
    constructor
    · intro h
      obtain ⟨b, hb, h⟩ := Cursor.except_bind_eq_ok h
      obtain ⟨bs, hbs, h⟩ := Cursor.except_bind_eq_ok h
      cases h
      obtain ⟨ha, rfl⟩ := (hf a b).mp hb
      obtain ⟨hl, rfl⟩ := ih.mp hbs
      exact ⟨⟨ha, hl⟩, rfl⟩
    · rintro ⟨⟨ha, hl⟩, rfl⟩
      rw [(hf a (g a)).mpr ⟨ha, rfl⟩, ih.mpr ⟨hl, rfl⟩]
      rfl

section MoveLastToEnd

variable {α β : Type} {p : α → Bool} {l front back : List α} {x : α}

theorem moveLastToEnd_of_none (h : ∀ a ∈ l, ¬p a) : moveLastToEnd p l = l := by
  have hnone : l.reverse.find? p = none := List.find?_eq_none.mpr fun a ha => h a (List.mem_reverse.mp ha)
  rw [moveLastToEnd, hnone]

theorem moveLastToEnd_append (hx : p x) (hback : ∀ a ∈ back, ¬p a) :
    moveLastToEnd p (front ++ x :: back) = front ++ back ++ [x] := by
  have hreverse : (front ++ x :: back).reverse = back.reverse ++ x :: front.reverse := by simp
  have hfind : (back.reverse ++ x :: front.reverse).find? p = some x := by
    rw [List.find?_append, List.find?_eq_none.mpr fun a ha => hback a (List.mem_reverse.mp ha), Option.none_or,
      List.find?_cons_of_pos hx]
  have herase : (back.reverse ++ x :: front.reverse).eraseP p = back.reverse ++ front.reverse := by
    rw [List.eraseP_append_right _ fun a ha => hback a (List.mem_reverse.mp ha), List.eraseP_cons_of_pos hx]
  rw [moveLastToEnd, hreverse, hfind, herase]
  simp

/-- The list has no element that satisfies `p`, or a last one. -/
theorem none_or_last (p : α → Bool) (l : List α) :
    (∀ a ∈ l, ¬p a) ∨ ∃ front x back, l = front ++ x :: back ∧ p x ∧ ∀ a ∈ back, ¬p a := by
  induction l with
  | nil => exact Or.inl fun _ ha => absurd ha List.not_mem_nil
  | cons a l ih =>
    rcases ih with hnone | ⟨front, x, back, rfl, hx, hback⟩
    · by_cases ha : p a
      · exact Or.inr ⟨[], a, l, rfl, ha, hnone⟩
      · exact Or.inl (List.forall_mem_cons.mpr ⟨ha, hnone⟩)
    · exact Or.inr ⟨a :: front, x, back, rfl, hx, hback⟩

theorem moveLastToEnd_perm (p : α → Bool) (l : List α) : (moveLastToEnd p l).Perm l := by
  rcases none_or_last p l with hnone | ⟨front, x, back, rfl, hx, hback⟩
  · rw [moveLastToEnd_of_none hnone]
  · rw [moveLastToEnd_append hx hback, List.append_assoc]
    exact (List.perm_append_singleton x back).append_left front

theorem moveLastToEnd_congr {q : α → Bool} (h : ∀ a ∈ l, p a = q a) : moveLastToEnd p l = moveLastToEnd q l := by
  rcases none_or_last q l with hnone | ⟨front, x, back, rfl, hx, hback⟩
  · rw [moveLastToEnd_of_none hnone, moveLastToEnd_of_none fun a ha => h a ha ▸ hnone a ha]
  · have hx' : p x := (h x (by simp)).trans hx
    have hback' : ∀ a ∈ back, ¬p a := fun a ha => h a (by simp [ha]) ▸ hback a ha
    rw [moveLastToEnd_append hx hback, moveLastToEnd_append hx' hback']

theorem moveLastToEnd_map (f : β → α) (l : List β) :
    moveLastToEnd p (l.map f) = (moveLastToEnd (p ∘ f) l).map f := by
  rcases none_or_last (p ∘ f) l with hnone | ⟨front, x, back, rfl, hx, hback⟩
  · have hnone' : ∀ a ∈ l.map f, ¬p a := List.forall_mem_map.mpr hnone
    rw [moveLastToEnd_of_none hnone, moveLastToEnd_of_none hnone']
  · have hx' : p (f x) := hx
    have hback' : ∀ a ∈ back.map f, ¬p a := List.forall_mem_map.mpr hback
    rw [moveLastToEnd_append hx hback, List.map_append, List.map_cons, moveLastToEnd_append hx' hback']
    simp

/-- The element at the end is the last that satisfies `p`, or the last of all. -/
theorem getLast?_moveLastToEnd (p : α → Bool) (l : List α) :
    (moveLastToEnd p l).getLast? = (l.reverse.find? p).or l.getLast? := by
  rcases none_or_last p l with hnone | ⟨front, x, back, rfl, hx, hback⟩
  · have hfind : l.reverse.find? p = none := List.find?_eq_none.mpr fun a ha => hnone a (List.mem_reverse.mp ha)
    rw [moveLastToEnd_of_none hnone, hfind, Option.none_or]
  · have hfind : (front ++ x :: back).reverse.find? p = some x := by
      rw [List.reverse_append, List.reverse_cons, List.append_assoc, List.find?_append,
        List.find?_eq_none.mpr fun a ha => hback a (List.mem_reverse.mp ha), Option.none_or, List.singleton_append,
        List.find?_cons_of_pos hx]
    rw [moveLastToEnd_append hx hback, hfind, List.getLast?_concat, Option.some_or]

end MoveLastToEnd

/-! ### Numbers and signs -/

/-- The number that an id stands for, or zero. -/
def number (id : String) : Nat :=
  (Text.word? id).getD 0

/-- The id stands for the number of a state in a code. -/
def Numbered (id : String) : Prop :=
  0 < number id ∧ number id ≤ largestState

theorem stateNumber_eq_ok_iff {id : String} {n : Nat} : stateNumber id = .ok n ↔ Numbered id ∧ n = number id := by
  unfold stateNumber Numbered number
  cases Text.word? id with
  | none => simp
  | some m =>
    dsimp only [Option.getD_some]
    split
    · rename_i hlarge
      exact ⟨fun h => (by cases h), fun h => absurd hlarge (Nat.not_lt.mpr h.1.2)⟩
    · rename_i hlarge
      split
      · rename_i hpos
        exact ⟨fun h => (by cases h; exact ⟨⟨hpos, Nat.not_lt.mp hlarge⟩, rfl⟩), fun h => by rw [h.2]⟩
      · rename_i hpos
        exact ⟨fun h => (by cases h), fun h => absurd h.1.1 hpos⟩

theorem Numbered.word? {id : String} (h : Numbered id) : Text.word? id = some (number id) := by
  unfold Numbered number at *
  cases hw : Text.word? id with
  | none => simp [hw] at h
  | some n => rfl

theorem largestState_lt_wordLimit : largestState < Text.wordLimit := by
  decide

theorem number_numeral {n : Nat} (h : n ≤ largestState) : number (Text.numeral n) = n := by
  rw [number, Text.word?_numeral (Nat.lt_of_le_of_lt h largestState_lt_wordLimit), Option.getD_some]

theorem Numbered.eq_numeral {id : String} (h : Numbered id) (hid : Text.Canonical id) : id = Text.numeral (number id) :=
  hid.eq_numeral h.word?

theorem ofSymbol?_eq_some_iff {c : Char} {s : Sign} : Sign.ofSymbol? c = some s ↔ s.symbol = c := by
  constructor
  · intro h
    unfold Sign.ofSymbol? at h
    split at h
    · cases h
      exact Eq.symm ‹c = 'a'›
    · split at h
      · cases h
        exact Eq.symm ‹c = 'b'›
      · split at h
        · cases h
          exact Eq.symm ‹c = blank›
        · split at h
          · cases h
            exact Eq.symm ‹c = '#'›
          · cases h
  · rintro rfl
    cases s <;> rfl

def signOf (c : Char) : Sign :=
  (Sign.ofSymbol? c).getD .blank

def Signed (c : Char) : Prop :=
  (Sign.ofSymbol? c).isSome

theorem sign_eq_ok_iff {c : Char} {s : Sign} : sign c = .ok s ↔ Signed c ∧ s = signOf c := by
  unfold sign Signed signOf
  cases Sign.ofSymbol? c <;> simp [eq_comm]

theorem Signed.symbol_signOf {c : Char} (h : Signed c) : (signOf c).symbol = c := by
  obtain ⟨s, hs⟩ := Option.isSome_iff_exists.mp h
  rw [signOf, hs, Option.getD_some]
  exact ofSymbol?_eq_some_iff.mp hs

theorem signed_symbol (s : Sign) : Signed s.symbol := by
  cases s <;> rfl

theorem signOf_symbol (s : Sign) : signOf s.symbol = s := by
  cases s <;> rfl

/-! ### Rules -/

/-- The rule `r` that leaves the state `s` has a code. -/
structure Encodable (s : State) (r : Transition) : Prop where
  source : Numbered s.id
  target : Numbered r.target.id
  read : Signed r.read
  write : Signed (r.write.getD r.read)

def numberedOf (x : State × Transition) : NumberedRule where
  source := number x.1.id
  target := number x.2.target.id
  read := x.2.read
  write := x.2.write.getD x.2.read
  direction := x.2.direction

def NumberedRule.signed (r : NumberedRule) : Rule where
  source := r.source
  target := r.target
  read := signOf r.read
  write := signOf r.write
  direction := r.direction

def codeOf (x : State × Transition) : Rule :=
  (numberedOf x).signed

theorem ofTransition_eq_ok_iff {s : State} {r : Transition} {n : NumberedRule} :
    NumberedRule.ofTransition s r = .ok n ↔ (Numbered s.id ∧ Numbered r.target.id) ∧ n = numberedOf (s, r) := by
  constructor
  · intro h
    obtain ⟨source, hsource, h⟩ := Cursor.except_bind_eq_ok h
    obtain ⟨target, htarget, h⟩ := Cursor.except_bind_eq_ok h
    cases h
    obtain ⟨hs, rfl⟩ := stateNumber_eq_ok_iff.mp hsource
    obtain ⟨ht, rfl⟩ := stateNumber_eq_ok_iff.mp htarget
    exact ⟨⟨hs, ht⟩, rfl⟩
  · rintro ⟨⟨hs, ht⟩, rfl⟩
    rw [NumberedRule.ofTransition, stateNumber_eq_ok_iff.mpr ⟨hs, rfl⟩, stateNumber_eq_ok_iff.mpr ⟨ht, rfl⟩]
    rfl

theorem code_eq_ok_iff {n : NumberedRule} {r : Rule} :
    n.code = .ok r ↔ (Signed n.read ∧ Signed n.write) ∧ r = n.signed := by
  constructor
  · intro h
    obtain ⟨read, hread, h⟩ := Cursor.except_bind_eq_ok h
    obtain ⟨write, hwrite, h⟩ := Cursor.except_bind_eq_ok h
    cases h
    obtain ⟨hr, rfl⟩ := sign_eq_ok_iff.mp hread
    obtain ⟨hw, rfl⟩ := sign_eq_ok_iff.mp hwrite
    exact ⟨⟨hr, hw⟩, rfl⟩
  · rintro ⟨⟨hr, hw⟩, rfl⟩
    rw [NumberedRule.code, sign_eq_ok_iff.mpr ⟨hr, rfl⟩, sign_eq_ok_iff.mpr ⟨hw, rfl⟩]
    rfl

/-! ### Codes -/

/-- The rule enters a state that the table has, by the numeral of its number, as a final state. -/
def closes (t : Table) (x : State × Transition) : Bool :=
  (t.state? (Text.numeral (number x.2.target.id))).any (·.isFinal)

/-- The rules of a table in the order in which its code has them. -/
def arranged (t : Table) : List (State × Transition) :=
  moveLastToEnd (closes t) t.rules

def codes (t : Table) : List Rule :=
  (arranged t).map codeOf

section Codes

variable {t : Table} {rules : List Rule} {r : Rule}

theorem arranged_perm (t : Table) : (arranged t).Perm t.rules :=
  moveLastToEnd_perm _ _

theorem codes_perm (t : Table) : (codes t).Perm (t.rules.map codeOf) :=
  (arranged_perm t).map codeOf

theorem mem_codes : r ∈ codes t ↔ ∃ x ∈ t.rules, codeOf x = r := by
  rw [(codes_perm t).mem_iff, List.mem_map]

theorem codeOf_mem_codes {x : State × Transition} (h : x ∈ t.rules) : codeOf x ∈ codes t :=
  mem_codes.mpr ⟨x, h, rfl⟩

theorem codes_eq_nil_iff : codes t = [] ↔ t.rules = [] := by
  rw [← List.length_eq_zero_iff, (codes_perm t).length_eq, List.length_map, List.length_eq_zero_iff]

/-- The rule at the end of the code: the last that closes it, or else the last. -/
def closing (t : Table) : Option (State × Transition) :=
  (t.rules.reverse.find? (closes t)).or t.rules.getLast?

theorem getLast?_codes (t : Table) : (codes t).getLast? = (closing t).map codeOf := by
  rw [codes, List.getLast?_map, arranged, getLast?_moveLastToEnd, closing]

theorem mem_of_closing {x : State × Transition} (h : closing t = some x) : x ∈ t.rules := by
  rcases Option.or_eq_some_iff.mp h with h | ⟨-, h⟩
  · exact List.mem_reverse.mp (List.mem_of_find?_eq_some h)
  · exact List.mem_of_getLast? h

theorem closes_of_closing {x y : State × Transition} (h : closing t = some x) (hy : y ∈ t.rules) (hc : closes t y) :
    closes t x := by
  rcases Option.or_eq_some_iff.mp h with h | ⟨hnone, -⟩
  · exact List.find?_some h
  · exact absurd hc (List.find?_eq_none.mp hnone y (List.mem_reverse.mpr hy))

theorem rulesOf_eq_ok_iff :
    rulesOf t = .ok rules ↔ (∀ x ∈ t.rules, Encodable x.1 x.2) ∧ rules = codes t := by
  have hnumbered : ∀ x n, NumberedRule.ofTransition x.1 x.2 = .ok n ↔
      (Numbered x.1.id ∧ Numbered x.2.target.id) ∧ n = numberedOf x := fun _ _ => ofTransition_eq_ok_iff
  have hcoded : moveLastToEnd (NumberedRule.entersFinal t) (t.rules.map numberedOf) = (arranged t).map numberedOf :=
    moveLastToEnd_map numberedOf t.rules
  have hsigned : (∀ n ∈ (arranged t).map numberedOf, Signed n.read ∧ Signed n.write) ↔
      ∀ x ∈ t.rules, Signed x.2.read ∧ Signed (x.2.write.getD x.2.read) := by
    rw [List.forall_mem_map]
    exact forall_congr' fun x => imp_congr_left (arranged_perm t).mem_iff
  constructor
  · intro h
    obtain ⟨numbered, hn, h⟩ := Cursor.except_bind_eq_ok h
    obtain ⟨hends, rfl⟩ := (mapM_eq_ok_iff hnumbered).mp hn
    rw [hcoded] at h
    obtain ⟨hsigns, rfl⟩ := (mapM_eq_ok_iff fun _ _ => code_eq_ok_iff).mp h
    have hsigns := hsigned.mp hsigns
    exact ⟨fun x hx => ⟨(hends x hx).1, (hends x hx).2, (hsigns x hx).1, (hsigns x hx).2⟩, List.map_map⟩
  · rintro ⟨hall, rfl⟩
    have hnum := (mapM_eq_ok_iff hnumbered).mpr ⟨fun x hx => ⟨(hall x hx).source, (hall x hx).target⟩, rfl⟩
    have hcode := (mapM_eq_ok_iff fun _ _ => code_eq_ok_iff).mpr
      ⟨hsigned.mpr fun x hx => ⟨(hall x hx).read, (hall x hx).write⟩, rfl⟩
    rw [rulesOf, hnum]
    exact (congrArg _ hcoded).trans (hcode.trans (congrArg Except.ok List.map_map))

theorem encode_eq_ok_iff {d : Diagram} {e : String} : encode d = .ok e ↔
    (∀ x ∈ (compile d).table.rules, Encodable x.1 x.2) ∧ e = write (codes (compile d).table) := by
  constructor
  · intro h
    obtain ⟨rules, hrules, h⟩ := Cursor.except_bind_eq_ok h
    cases h
    obtain ⟨hall, rfl⟩ := rulesOf_eq_ok_iff.mp hrules
    exact ⟨hall, rfl⟩
  · rintro ⟨hall, rfl⟩
    rw [encode, rulesOf_eq_ok_iff.mpr ⟨hall, rfl⟩]
    rfl

end Codes

end Tapeworks.Code
