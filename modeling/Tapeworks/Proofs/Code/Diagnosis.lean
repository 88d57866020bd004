import Tapeworks.Proofs.Code.Language

/-! What the error in a text says about the text. It is settled by the language of codes alone: a foreign character
    comes first; where all characters are letters, the text ends before the code does if it can be completed to a code,
    and otherwise a number is zero at the first letter with which it cannot be completed any more. -/

namespace Tapeworks.Code

variable {cs : List Char} {rules : List Rule} {text : String} {i p : Nat} {c : Char}

def Accepted (cs : List Char) : Prop :=
  ∃ rules, Printed rules cs

/-- The beginning of an accepted text, or all of it. -/
def Viable (cs : List Char) : Prop :=
  ∃ rest, Accepted (cs ++ rest)

theorem Accepted.viable (h : Accepted cs) : Viable cs :=
  ⟨[], by rwa [List.append_nil]⟩

theorem Viable.take (h : Viable cs) (i : Nat) : Viable (cs.take i) := by
  obtain ⟨rest, hrest⟩ := h
  exact ⟨cs.drop i ++ rest, by rwa [← List.append_assoc, List.take_append_drop]⟩

/-- A shorter beginning of a text that can be completed can be completed. -/
theorem Viable.take_le {j : Nat} (h : Viable (cs.take j)) (hij : i ≤ j) : Viable (cs.take i) := by
  have htake := h.take i
  rwa [List.take_take, Nat.min_eq_left hij] at htake

theorem viable_append (hrules : ∀ r ∈ rules, r.Positive) (h : Format.rule.Begun cs) :
    Viable (rules.flatMap Rule.letters ++ cs) := by
  obtain ⟨r, x, rest, hr, heq⟩ := h
  refine ⟨x :: rest, rules ++ [r], by simp, ?_, ?_⟩
  · intro r' hr'
    rcases List.mem_append.mp hr' with hr' | hr'
    · exact hrules r' hr'
    · rw [List.mem_singleton.mp hr']
      exact hr
  · have hletters : r.letters = cs ++ x :: rest := heq
    rw [toList_write, List.flatMap_append, List.flatMap_singleton, hletters, List.append_assoc]

/-! ### The verdict on a trimmed text -/

/-- What reading makes of a trimmed text, and why. -/
inductive Verdict (cs : List Char) : Prop
  | empty (nil : cs = []) (eq : readTrimmed cs = .error .empty)
  | invalidCharacter (front : List Char) (c : Char) (back : List Char) (append : cs = front ++ c :: back)
      (letters : ∀ x ∈ front, isLetter x) (foreign : ¬isLetter c)
      (eq : readTrimmed cs = .error (.invalidCharacter front.length c))
  | accepted (rules : List Rule) (printed : Printed rules cs) (eq : readTrimmed cs = .ok rules)
  | unexpectedEnd (part : Part) (nonempty : cs ≠ []) (letters : ∀ x ∈ cs, isLetter x) (viable : Viable cs)
      (eq : readTrimmed cs = .error (.unexpectedEnd cs.length part))
  | zeroState (i : Nat) (lt : i < cs.length) (letters : ∀ x ∈ cs, isLetter x) (viable : Viable (cs.take i))
      (dead : ¬Viable (cs.take (i + 1))) (eq : readTrimmed cs = .error (.zeroState i))

/-- Letters behind which a reader of rules is stuck cannot be completed to a code. -/
theorem not_viable_of_stuck {front : List Char} (hrules : ∀ r ∈ rules, r.Positive)
    (h : ∀ p rest, Cursor.rule ⟨p, front ++ 'b' :: rest⟩ = .error (.zeroState (p + front.length))) :
    ¬Viable (rules.flatMap Rule.letters ++ (front ++ ['b'])) := by
  rintro ⟨rest, rules', hprinted⟩
  have hassoc : rules.flatMap Rule.letters ++ (front ++ ['b']) ++ rest =
      rules.flatMap Rule.letters ++ (front ++ 'b' :: rest) := by simp
  rw [hassoc] at hprinted
  have hread := hprinted.readTrimmed
  rw [readTrimmed_append_of_error hrules hprinted.isLetter (by simp) (h _ _)] at hread
  cases hread

theorem verdict_of_failure (hrules : ∀ r ∈ rules, r.Positive)
    (hcs : ∀ c ∈ rules.flatMap Rule.letters ++ cs, isLetter c) (hne : cs ≠ []) (h : Failure .rule Cursor.rule cs) :
    Verdict (rules.flatMap Rule.letters ++ cs) := by
  cases h with
  | ended part begun eq =>
    refine .unexpectedEnd part (by simp [hne]) hcs (viable_append hrules begun) ?_
    rw [readTrimmed_append_of_error hrules hcs hne (eq _), List.length_append]
  | stuck front back letters begun eq =>
    subst letters
    have htake : (rules.flatMap Rule.letters ++ (front ++ 'b' :: back)).take
        ((rules.flatMap Rule.letters).length + front.length) = rules.flatMap Rule.letters ++ front := by
      rw [← List.append_assoc, List.take_left' List.length_append]
    have htake' : (rules.flatMap Rule.letters ++ (front ++ 'b' :: back)).take
        ((rules.flatMap Rule.letters).length + front.length + 1) = rules.flatMap Rule.letters ++ (front ++ ['b']) := by
      have hassoc : rules.flatMap Rule.letters ++ (front ++ 'b' :: back) =
          rules.flatMap Rule.letters ++ (front ++ ['b']) ++ back := by simp
      rw [hassoc, List.take_left' (by simp [Nat.add_assoc])]
    refine .zeroState ((rules.flatMap Rule.letters).length + front.length) ?_ hcs ?_ ?_ ?_
    · simp
    · rw [htake]
      exact viable_append hrules begun
    · rw [htake']
      exact not_viable_of_stuck hrules eq
    · exact readTrimmed_append_of_error hrules hcs hne (eq _ _)

theorem verdict (cs : List Char) : Verdict cs := by
  rcases eq_or_ne cs [] with rfl | hne
  · exact .empty rfl rfl
  rcases isLetter_or_first cs with hcs | ⟨front, c, back, rfl, hfront, hc⟩
  · obtain ⟨rules, hrules, rest, rfl, rfl | ⟨hrest, hfails⟩⟩ := exists_rules_append hcs
    · have hprinted : Printed rules (rules.flatMap Rule.letters ++ []) := by
        refine ⟨?_, hrules, by rw [List.append_nil, toList_write]⟩
        rintro rfl
        exact hne rfl
      exact .accepted rules hprinted hprinted.readTrimmed
    · exact verdict_of_failure hrules hcs hrest hfails
  · exact .invalidCharacter front c back rfl hfront hc (readTrimmed_invalid hfront hc)

/-! ### Errors in a trimmed text -/

/-- What an error says about a trimmed text, but for the part that is missing at the end. -/
def Diagnosis (cs : List Char) : DecodeError → Prop
  | .empty => cs = []
  | .invalidCharacter p c => ∃ front back, cs = front ++ c :: back ∧ (∀ x ∈ front, isLetter x) ∧ ¬isLetter c ∧
      p = front.length
  | .unexpectedEnd p _ => (cs ≠ [] ∧ ∀ x ∈ cs, isLetter x) ∧ (¬Accepted cs ∧ Viable cs) ∧ p = cs.length
  | .zeroState p => (∀ x ∈ cs, isLetter x) ∧ p < cs.length ∧ Viable (cs.take p) ∧ ¬Viable (cs.take (p + 1))

theorem diagnosis_of_error {e : DecodeError} (h : readTrimmed cs = .error e) : Diagnosis cs e := by
  cases verdict cs with
  | empty nil eq =>
    cases h.symm.trans eq
    exact nil
  | invalidCharacter front c back append letters foreign eq =>
    cases h.symm.trans eq
    exact ⟨front, back, append, letters, foreign, rfl⟩
  | accepted rules printed eq => cases h.symm.trans eq
  | unexpectedEnd part nonempty letters viable eq =>
    have hrejected : ¬Accepted cs := fun ⟨rules, hprinted⟩ => by
      cases eq.symm.trans hprinted.readTrimmed
    cases h.symm.trans eq
    exact ⟨⟨nonempty, letters⟩, ⟨hrejected, viable⟩, rfl⟩
  | zeroState i lt letters viable dead eq =>
    cases h.symm.trans eq
    exact ⟨letters, lt, viable, dead⟩

theorem exists_unexpectedEnd {part : Part} (h : Diagnosis cs (.unexpectedEnd p part)) :
    ∃ part, readTrimmed cs = .error (.unexpectedEnd p part) := by
  obtain ⟨⟨hne, hcs⟩, ⟨hrejected, hviable⟩, rfl⟩ := h
  cases verdict cs with
  | empty nil _ => exact absurd nil hne
  | invalidCharacter front c back append _ foreign _ => exact absurd (hcs c (by simp [append])) foreign
  | accepted rules printed _ => exact absurd ⟨rules, printed⟩ hrejected
  | unexpectedEnd part _ _ _ eq => exact ⟨part, eq⟩
  | zeroState i _ _ _ dead _ => exact absurd (hviable.take _) dead

theorem readTrimmed_of_zeroState (h : Diagnosis cs (.zeroState p)) : readTrimmed cs = .error (.zeroState p) := by
  obtain ⟨hcs, hp, hviable, hdead⟩ := h
  cases verdict cs with
  | empty nil _ => simp [nil] at hp
  | invalidCharacter front c back append _ foreign _ => exact absurd (hcs c (by simp [append])) foreign
  | accepted rules printed _ => exact absurd (Accepted.viable ⟨rules, printed⟩ |>.take _) hdead
  | unexpectedEnd _ _ _ viable _ => exact absurd (viable.take _) hdead
  | zeroState i _ _ viable dead eq =>
    -- Both positions are the length of the longest beginning that can be completed.
    have hle : i ≤ p := Nat.not_lt.mp fun hlt => hdead (viable.take_le hlt)
    have hge : p ≤ i := Nat.not_lt.mp fun hlt => dead (hviable.take_le hlt)
    rw [eq, Nat.le_antisymm hle hge]

/-! ### Errors in a text -/

theorem decode_eq_error_iff {e : DecodeError} : decode text = .error e ↔
    ∃ e', readTrimmed (Text.trim text.toList) = .error e' ∧ e'.shift (Text.margin text.toList) = e := by
  cases h : readTrimmed (Text.trim text.toList) with
  | ok rules =>
    obtain ⟨last, -, hdecode⟩ := decode_of_ok h
    simp [hdecode]
  | error e' =>
    rw [decode_of_error h]
    simp

theorem decode_append_space (text : String) {back : String} (h : ∀ c ∈ back.toList, Text.isSpace c) :
    decode (text ++ back) = decode text := by
  have htrim : Text.trim (text ++ back).toList = Text.trim text.toList := by
    rw [String.toList_append, Text.trim_append_space _ h]
  by_cases hnil : Text.trim text.toList = []
  · have hempty : ∀ text : String, Text.trim text.toList = [] → decode text = .error .empty := fun text hnil => by
      rw [decode_of_error (by rw [hnil, readTrimmed_nil]), DecodeError.shift]
    rw [hempty _ (htrim.trans hnil), hempty _ hnil]
  · have hmargin : Text.margin (text ++ back).toList = Text.margin text.toList := by
      rw [String.toList_append, Text.margin_append_space hnil]
    have hread : read (text ++ back) = read text := by
      change (readTrimmed _).mapError (·.shift (Text.margin (text ++ back).toList)) = _
      rw [htrim, hmargin]
      rfl
    rw [decode, decode, hread]

/-- What the outcome for a text says about its trimmed part, which stands behind the margin. White space behind it does
    not change the outcome. -/
structure Diagnosed (text : String) (cs : List Char) (margin : Nat) : Prop where
  accepted : (∃ d, decode text = .ok d) ↔ Accepted cs
  empty : decode text = .error .empty ↔ cs = []
  invalidCharacter : ∀ p c, decode text = .error (.invalidCharacter p c) ↔
    ∃ front back, cs = front ++ c :: back ∧ (∀ x ∈ front, isLetter x) ∧ ¬isLetter c ∧ p = margin + front.length
  character : ∀ p c, decode text = .error (.invalidCharacter p c) → text.toList[p]? = some c
  unexpectedEnd : ∀ p, (∃ part, decode text = .error (.unexpectedEnd p part)) ↔
    (cs ≠ [] ∧ ∀ x ∈ cs, isLetter x) ∧ (¬Accepted cs ∧ Viable cs) ∧ p = margin + cs.length
  zeroState : ∀ p, decode text = .error (.zeroState p) ↔
    (∀ x ∈ cs, isLetter x) ∧ ∃ i < cs.length, Viable (cs.take i) ∧ ¬Viable (cs.take (i + 1)) ∧ p = margin + i
  trailing : ∀ back : String, (∀ c ∈ back.toList, Text.isSpace c) → decode (text ++ back) = decode text

theorem decode_invalidCharacter_iff : decode text = .error (.invalidCharacter p c) ↔
    ∃ front back, Text.trim text.toList = front ++ c :: back ∧ (∀ x ∈ front, isLetter x) ∧ ¬isLetter c ∧
      p = Text.margin text.toList + front.length := by
  rw [decode_eq_error_iff]
  constructor
  · rintro ⟨e, he, hshift⟩
    cases e <;> cases hshift
    obtain ⟨front, back, heq, hfront, hc, rfl⟩ := diagnosis_of_error he
    exact ⟨front, back, heq, hfront, hc, Nat.add_comm _ _⟩
  · rintro ⟨front, back, heq, hfront, hc, rfl⟩
    refine ⟨.invalidCharacter front.length c, by rw [heq, readTrimmed_invalid hfront hc], ?_⟩
    rw [DecodeError.shift, Nat.add_comm]

theorem decode_zeroState_iff : decode text = .error (.zeroState p) ↔
    ∃ i, Diagnosis (Text.trim text.toList) (.zeroState i) ∧ p = Text.margin text.toList + i := by
  rw [decode_eq_error_iff]
  constructor
  · rintro ⟨e, he, hshift⟩
    cases e <;> cases hshift
    exact ⟨_, diagnosis_of_error he, Nat.add_comm _ _⟩
  · rintro ⟨i, h, rfl⟩
    exact ⟨.zeroState i, readTrimmed_of_zeroState h, by rw [DecodeError.shift, Nat.add_comm]⟩

theorem decode_unexpectedEnd_iff : (∃ part, decode text = .error (.unexpectedEnd p part)) ↔
    ∃ i part, Diagnosis (Text.trim text.toList) (.unexpectedEnd i part) ∧ p = Text.margin text.toList + i := by
  simp only [decode_eq_error_iff]
  constructor
  · rintro ⟨part, e, he, hshift⟩
    cases e <;> cases hshift
    exact ⟨_, _, diagnosis_of_error he, Nat.add_comm _ _⟩
  · rintro ⟨i, part, h, rfl⟩
    obtain ⟨part, hread⟩ := exists_unexpectedEnd h
    exact ⟨part, _, hread, by rw [DecodeError.shift, Nat.add_comm]⟩

theorem diagnosed_decode (text : String) :
    Diagnosed text (Text.trim text.toList) (Text.margin text.toList) where
  accepted := by
    rw [exists_decode_iff]
    exact exists_congr fun rules => readTrimmed_eq_ok_iff
  empty := by
    rw [decode_eq_error_iff]
    constructor
    · rintro ⟨e, he, hshift⟩
      cases e <;> cases hshift
      exact diagnosis_of_error he
    · intro hnil
      exact ⟨.empty, by rw [hnil, readTrimmed_nil], rfl⟩
  invalidCharacter p c := decode_invalidCharacter_iff
  character p c h := by
    obtain ⟨front, back, heq, -, -, rfl⟩ := decode_invalidCharacter_iff.mp h
    exact Text.getElem?_margin_add (by simp [heq])
  unexpectedEnd p := by
    rw [decode_unexpectedEnd_iff]
    constructor
    · rintro ⟨i, part, ⟨hcs, hviable, rfl⟩, rfl⟩
      exact ⟨hcs, hviable, rfl⟩
    · rintro ⟨hcs, hviable, rfl⟩
      exact ⟨_, .move, ⟨hcs, hviable, rfl⟩, rfl⟩
  zeroState p := by
    rw [decode_zeroState_iff]
    constructor
    · rintro ⟨i, ⟨hcs, hi, hviable, hdead⟩, rfl⟩
      exact ⟨hcs, i, hi, hviable, hdead, rfl⟩
    · rintro ⟨hcs, i, hi, hviable, hdead, rfl⟩
      exact ⟨i, ⟨hcs, hi, hviable, hdead⟩, rfl⟩
  trailing _ := decode_append_space text

end Tapeworks.Code
