import Tapeworks.Code.Decode
import Tapeworks.Proofs.Code.Readers

/-! The language of codes. A text is read just when it is what some rules, at least one, are written as; the rules are
    then those that were written, so that no text is written for two lists of rules. White space around a code is
    passed over, but counts for the positions in errors. -/

namespace Tapeworks.Code

variable {cs : List Char} {rules : List Rule} {text : String} {d : Diagram}

/-- The letters are those that the rules are written with. -/
structure Printed (rules : List Rule) (cs : List Char) : Prop where
  nonempty : rules ≠ []
  positive : ∀ r ∈ rules, r.Positive
  letters : cs = (write rules).toList

theorem Printed.eq_flatMap (h : Printed rules cs) : cs = rules.flatMap Rule.letters :=
  h.letters.trans (toList_write rules)

theorem Printed.readTrimmed (h : Printed rules cs) : readTrimmed cs = .ok rules := by
  rw [h.eq_flatMap, readTrimmed_letters h.positive h.nonempty]

theorem Printed.unique {rules' : List Rule} (h : Printed rules cs) (h' : Printed rules' cs) : rules = rules' :=
  Except.ok.inj (h.readTrimmed.symm.trans h'.readTrimmed)

theorem Printed.isLetter (h : Printed rules cs) : ∀ c ∈ cs, isLetter c := by
  intro c hc
  rw [h.eq_flatMap] at hc
  obtain ⟨r, -, hc⟩ := List.mem_flatMap.mp hc
  exact isLetter_of_mem_letters hc

/-! ### Trimmed texts -/

theorem readTrimmed_nil : readTrimmed [] = .error .empty := rfl

theorem readTrimmed_of_isLetter (h : ∀ c ∈ cs, isLetter c) (hne : cs ≠ []) :
    readTrimmed cs = rulesFrom [] ⟨0, cs⟩ := by
  have hempty : cs.isEmpty = false := by simpa using hne
  rw [readTrimmed, hempty, List.dropWhile_eq_nil_iff.mpr h]
  rfl

theorem readTrimmed_invalid {front back : List Char} {c : Char} (h : ∀ x ∈ front, isLetter x) (hc : ¬isLetter c) :
    readTrimmed (front ++ c :: back) = .error (.invalidCharacter front.length c) := by
  have hempty : (front ++ c :: back).isEmpty = false := by simp
  have htake : (front ++ c :: back).takeWhile isLetter = front := by
    rw [List.takeWhile_append_of_pos h, List.takeWhile_cons_of_neg hc, List.append_nil]
  have hdrop : (front ++ c :: back).dropWhile isLetter = c :: back := by
    rw [List.dropWhile_append_of_pos h, List.dropWhile_cons_of_neg hc]
  rw [readTrimmed, hempty, htake, hdrop]
  rfl

/-- All characters are letters, or there is a first that is none. -/
theorem isLetter_or_first (cs : List Char) : (∀ c ∈ cs, isLetter c) ∨
    ∃ front c back, cs = front ++ c :: back ∧ (∀ x ∈ front, isLetter x) ∧ ¬isLetter c := by
  induction cs with
  | nil => exact Or.inl fun _ hc => absurd hc List.not_mem_nil
  | cons x cs ih =>
    by_cases hx : isLetter x
    · rcases ih with hall | ⟨front, c, back, rfl, hfront, hc⟩
      · exact Or.inl (List.forall_mem_cons.mpr ⟨hx, hall⟩)
      · exact Or.inr ⟨x :: front, c, back, rfl, List.forall_mem_cons.mpr ⟨hx, hfront⟩, hc⟩
    · exact Or.inr ⟨[], x, cs, rfl, fun _ hx' => absurd hx' List.not_mem_nil, hx⟩

/-- Letters are those of rules, and behind them either nothing or letters from which no rule can be read. -/
theorem exists_rules_append (h : ∀ c ∈ cs, isLetter c) :
    ∃ rules : List Rule, (∀ r ∈ rules, r.Positive) ∧ ∃ rest, cs = rules.flatMap Rule.letters ++ rest ∧
      (rest = [] ∨ rest ≠ [] ∧ Failure .rule Cursor.rule rest) := by
  induction hlength : cs.length using Nat.strong_induction_on generalizing cs with
  | _ n ih =>
    rcases eq_or_ne cs [] with rfl | hne
    · exact ⟨[], fun _ hr => absurd hr List.not_mem_nil, [], rfl, Or.inl rfl⟩
    · rcases reads_rule.outcome cs h with ⟨r, rest, hr, rfl⟩ | hfails
      · have hshorter : rest.length < n := by
          rw [← hlength, List.length_append]
          exact Nat.lt_add_of_pos_left (List.length_pos_of_ne_nil (letters_ne_nil r))
        obtain ⟨rules, hrules, rest', rfl, hrest'⟩ :=
          ih rest.length hshorter (fun c hc => h c (List.mem_append_right _ hc)) rfl
        exact ⟨r :: rules, List.forall_mem_cons.mpr ⟨hr, hrules⟩, rest', (List.append_assoc _ _ _).symm, hrest'⟩
      · exact ⟨[], fun _ hr => absurd hr List.not_mem_nil, cs, rfl, Or.inr ⟨hne, hfails⟩⟩

theorem readTrimmed_append_of_error (hrules : ∀ r ∈ rules, r.Positive)
    (hcs : ∀ c ∈ rules.flatMap Rule.letters ++ cs, isLetter c) (hne : cs ≠ []) {e : DecodeError}
    (h : Cursor.rule ⟨(rules.flatMap Rule.letters).length, cs⟩ = .error e) :
    readTrimmed (rules.flatMap Rule.letters ++ cs) = .error e := by
  rw [readTrimmed_of_isLetter hcs (by simp [hne]), rulesFrom_append hrules, Nat.zero_add]
  exact rulesFrom_of_error h hne _

theorem Failure.exists_error {α : Type} {F : Format α} {read : Reader α} (h : Failure F read cs) (p : Nat) :
    ∃ e, read ⟨p, cs⟩ = .error e := by
  cases h with
  | ended part _ eq => exact ⟨_, eq p⟩
  | stuck front back letters _ eq => exact ⟨_, letters ▸ eq p back⟩

/-- Trimmed text is read just when it is printed. -/
theorem readTrimmed_eq_ok_iff : readTrimmed cs = .ok rules ↔ Printed rules cs := by
  refine ⟨fun h => ?_, Printed.readTrimmed⟩
  rcases isLetter_or_first cs with hcs | ⟨front, c, back, rfl, hfront, hc⟩
  · obtain ⟨rules', hrules', rest, rfl, rfl | ⟨hne, hfails⟩⟩ := exists_rules_append hcs
    · rw [List.append_nil] at h ⊢
      have hne : rules' ≠ [] := by
        rintro rfl
        cases h
      rw [readTrimmed_letters hrules' hne] at h
      cases h
      exact ⟨hne, hrules', (toList_write _).symm⟩
    · obtain ⟨e, he⟩ := hfails.exists_error (rules'.flatMap Rule.letters).length
      rw [readTrimmed_append_of_error hrules' hcs hne he] at h
      cases h
  · rw [readTrimmed_invalid hfront hc] at h
    cases h

/-! ### Decoding -/

theorem decode_of_ok (h : readTrimmed (Text.trim text.toList) = .ok rules) :
    ∃ last, rules.getLast? = some last ∧ decode text = .ok (draw rules last) := by
  have hne := (readTrimmed_eq_ok_iff.mp h).nonempty
  have hlast := List.getLast?_eq_some_getLast hne
  refine ⟨_, hlast, ?_⟩
  rw [decode, read, h]
  simp only [Except.mapError, bind, Except.bind, hlast]
  rfl

theorem decode_of_error {e : DecodeError} (h : readTrimmed (Text.trim text.toList) = .error e) :
    decode text = .error (e.shift (Text.margin text.toList)) := by
  rw [decode, read, h]
  rfl

theorem exists_decode_iff :
    (∃ d, decode text = .ok d) ↔ ∃ rules, readTrimmed (Text.trim text.toList) = .ok rules := by
  cases h : readTrimmed (Text.trim text.toList) with
  | ok rules =>
    obtain ⟨last, -, hdecode⟩ := decode_of_ok h
    exact iff_of_true ⟨_, hdecode⟩ ⟨_, rfl⟩
  | error e =>
    rw [decode_of_error h]
    simp

/-- A decoded diagram is the one that is drawn for the rules that the text is written for. -/
theorem exists_printed_of_decode (h : decode text = .ok d) : ∃ rules last,
    Printed rules (Text.trim text.toList) ∧ rules.getLast? = some last ∧ d = draw rules last := by
  obtain ⟨rules, hread⟩ := exists_decode_iff.mp ⟨d, h⟩
  obtain ⟨last, hlast, hdecode⟩ := decode_of_ok hread
  exact ⟨rules, last, readTrimmed_eq_ok_iff.mp hread, hlast, Except.ok.inj (h.symm.trans hdecode)⟩

theorem decode_trimmed (text : String) :
    decode text = (decode (Text.trimmed text)).mapError (·.shift (Text.margin text.toList)) := by
  have htrim : Text.trim (Text.trimmed text).toList = Text.trim text.toList := by
    rw [Text.toList_trimmed, Text.trim_trim]
  have hmargin : Text.margin (Text.trimmed text).toList = 0 := by
    rw [Text.toList_trimmed, Text.margin_trim]
  cases h : readTrimmed (Text.trim text.toList) with
  | ok rules =>
    have h' : readTrimmed (Text.trim (Text.trimmed text).toList) = .ok rules := by rw [htrim, h]
    obtain ⟨last, hlast, hdecode⟩ := decode_of_ok h
    obtain ⟨last', hlast', hdecode'⟩ := decode_of_ok h'
    rw [hlast] at hlast'
    cases hlast'
    rw [hdecode, hdecode']
    rfl
  | error e =>
    have h' : readTrimmed (Text.trim (Text.trimmed text).toList) = .error e := by rw [htrim, h]
    rw [decode_of_error h, decode_of_error h', hmargin]
    cases e <;> rfl

/-- Codes are the texts that some rules are written as, each for one list of rules, with white space around them; that
    white space moves the positions in errors and changes nothing else. -/
theorem exists_decode_iff_printed :
    (∀ cs rules, readTrimmed cs = .ok rules ↔ Printed rules cs) ∧
    ∀ text,
      ((∃ d, decode text = .ok d) ↔ ∃ rules, Printed rules (Text.trim text.toList)) ∧
      (∀ rules rules', Printed rules (Text.trim text.toList) → Printed rules' (Text.trim text.toList) →
        rules = rules') ∧
      (∀ d, decode text = .ok d ↔ decode (Text.trimmed text) = .ok d) ∧
      decode text = (decode (Text.trimmed text)).mapError (·.shift (Text.margin text.toList)) := by
  refine ⟨fun cs rules => readTrimmed_eq_ok_iff, fun text => ⟨?_, fun _ _ => Printed.unique, fun d => ?_,
    decode_trimmed text⟩⟩
  · rw [exists_decode_iff]
    exact exists_congr fun rules => readTrimmed_eq_ok_iff
  · rw [decode_trimmed text]
    cases decode (Text.trimmed text) <;> simp [Except.mapError]

theorem exists_decode_iff_printed_spaced :
    (∃ d, decode " abaabaaaab\n" = .ok d) ∧ ∃! rules, Printed rules (Text.trim " abaabaaaab\n".toList) := by
  have hprinted : Printed [⟨1, 2, .a, .a, .right⟩] (Text.trim " abaabaaaab\n".toList) :=
    ⟨List.cons_ne_nil _ _, by simp [Rule.Positive], by decide⟩
  obtain ⟨hdecode, hunique, -⟩ := exists_decode_iff_printed.2 " abaabaaaab\n"
  exact ⟨hdecode.mpr ⟨_, hprinted⟩, _, hprinted, fun rules h => hunique _ _ h hprinted⟩

/-- An error in a text is not the error in the trimmed text: its position is another. -/
theorem decode_ne_decode_trimmed : decode " x" ≠ decode (Text.trimmed " x") := by
  have hspaced : decode " x" = .error (.invalidCharacter 1 'x') := rfl
  have htrimmed : decode (Text.trimmed " x") = .error (.invalidCharacter 0 'x') := rfl
  rw [hspaced, htrimmed]
  decide

end Tapeworks.Code
