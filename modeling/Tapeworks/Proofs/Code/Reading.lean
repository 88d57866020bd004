import Mathlib.Data.List.TakeWhile
import Tapeworks.Code.Reader
import Tapeworks.Proofs.Label

/-! Written rules are read back. A reader of a part takes the letters of the part off the front and leaves the rest, so a
    run of `a`s ends at the `b` behind it, and the rules of a code come apart where they were joined. -/

namespace Tapeworks.Code

/-! ### Letters -/

/-- The letters of a rule, in order. -/
def Rule.letters (r : Rule) : List Char :=
  List.replicate r.source 'a' ++ 'b' :: (List.replicate r.target 'a' ++ 'b' ::
    (r.read.letters ++ (r.write.letters ++ [moveLetter r.direction])))

/-- A rule whose numbers are the numbers of states. -/
def Rule.Positive (r : Rule) : Prop :=
  0 < r.source ∧ 0 < r.target

theorem toList_text (r : Rule) : r.text.toList = r.letters := by
  simp [Rule.text, Rule.run, Rule.letters]

theorem toList_write (rules : List Rule) : (write rules).toList = rules.flatMap Rule.letters := by
  rw [write, String.toList_join, List.flatMap_map]
  exact congrArg (rules.flatMap ·) (funext toList_text)

theorem letters_ne_nil (r : Rule) : r.letters ≠ [] := by
  simp [Rule.letters]

theorem isLetter_of_mem_letters {r : Rule} {c : Char} (h : c ∈ r.letters) : isLetter c := by
  have hsign : ∀ s : Sign, ∀ c ∈ s.letters, isLetter c := by
    intro s
    cases s <;> simp [Sign.letters, isLetter]
  have hmove : ∀ d : Direction, isLetter (moveLetter d) := by
    intro d
    cases d <;> rfl
  simp only [Rule.letters, List.mem_append, List.mem_cons, List.mem_replicate, List.not_mem_nil, or_false] at h
  rcases h with ⟨-, rfl⟩ | rfl | ⟨-, rfl⟩ | rfl | h | h | rfl
  · rfl
  · rfl
  · rfl
  · rfl
  · exact hsign _ _ h
  · exact hsign _ _ h
  · exact hmove _

theorem isSpace_of_isLetter {c : Char} (h : isLetter c) : Text.isSpace c = false := by
  unfold isLetter at h
  rcases Bool.or_eq_true_iff.mp h with h | h
  · rw [of_decide_eq_true h]
    rfl
  · rw [of_decide_eq_true h]
    rfl

/-! ### One rule -/

namespace Cursor

theorem letter_cons (part : Part) (p : Nat) (c : Char) (rest : List Char) :
    letter part ⟨p, c :: rest⟩ = .ok (c, ⟨p + 1, rest⟩) := rfl

theorem number_run {n : Nat} (hn : 0 < n) (part : Part) (p : Nat) (rest : List Char) :
    number part ⟨p, List.replicate n 'a' ++ 'b' :: rest⟩ = .ok (n, ⟨p + n, 'b' :: rest⟩) := by
  have hrun : (List.replicate n 'a' ++ 'b' :: rest).takeWhile (· = 'a') = List.replicate n 'a' := by
    rw [List.takeWhile_append_of_pos fun c hc => by simp [List.eq_of_mem_replicate hc]]
    simp
  obtain ⟨m, rfl⟩ : ∃ m, n = m + 1 := ⟨n - 1, by omega⟩
  unfold number
  simp only [hrun, List.length_replicate]
  rw [List.drop_left' List.length_replicate]

theorem sign_letters (s : Sign) (part : Part) (p : Nat) (rest : List Char) :
    sign part ⟨p, s.letters ++ rest⟩ = .ok (s, ⟨p + 2, rest⟩) := by
  cases s <;> rfl

theorem ofMoveLetter_moveLetter (d : Direction) : ofMoveLetter (moveLetter d) = d := by
  cases d <;> rfl

theorem rule_letters {r : Rule} (h : r.Positive) (p : Nat) (rest : List Char) :
    rule ⟨p, r.letters ++ rest⟩ = .ok (r, ⟨p + r.letters.length, rest⟩) := by
  have hassoc : r.letters ++ rest = List.replicate r.source 'a' ++ 'b' :: (List.replicate r.target 'a' ++ 'b' ::
      (r.read.letters ++ (r.write.letters ++ moveLetter r.direction :: rest))) := by
    simp [Rule.letters]
  have hlength : p + r.letters.length = p + r.source + 1 + r.target + 1 + 2 + 2 + 1 := by
    have hsign : ∀ s : Sign, s.letters.length = 2 := fun s => by cases s <;> rfl
    simp only [Rule.letters, List.length_append, List.length_replicate, List.length_cons, hsign, List.length_nil]
    omega
  rw [hassoc, hlength, rule, number_run h.1]
  simp only [bind, Except.bind, pure, Except.pure, letter_cons, number_run h.2, sign_letters, ofMoveLetter_moveLetter]

end Cursor

/-! ### Whole codes -/

theorem rulesFrom_nil (found : List Rule) (p : Nat) : rulesFrom found ⟨p, []⟩ = .ok found.reverse := by
  unfold rulesFrom
  rfl

theorem rulesFrom_of_ok {c d : Cursor} {r : Rule} (h : c.rule = .ok (r, d)) (found : List Rule) :
    rulesFrom found c = rulesFrom (r :: found) d := by
  have hne : c.rest.isEmpty = false := by
    have hshorter := Cursor.rule_shorter h
    cases hrest : c.rest with
    | nil => simp [hrest] at hshorter
    | cons => rfl
  rw [rulesFrom, hne]
  simp only [Bool.false_eq_true, if_false]
  split
  · rename_i heq
    rw [h] at heq
    cases heq
  · rename_i heq
    rw [h] at heq
    cases heq
    rfl

theorem rulesFrom_of_error {c : Cursor} {e : DecodeError} (h : c.rule = .error e) (hne : c.rest ≠ [])
    (found : List Rule) : rulesFrom found c = .error e := by
  have hempty : c.rest.isEmpty = false := by simpa using hne
  rw [rulesFrom, hempty]
  simp only [Bool.false_eq_true, if_false]
  split
  · rename_i heq
    rw [h] at heq
    cases heq
    rfl
  · rename_i heq
    rw [h] at heq
    cases heq

/-- The rules in front are found, and reading goes on behind their letters. -/
theorem rulesFrom_append {rules : List Rule} (h : ∀ r ∈ rules, r.Positive) (found : List Rule) (p : Nat)
    (rest : List Char) : rulesFrom found ⟨p, rules.flatMap Rule.letters ++ rest⟩ =
      rulesFrom (rules.reverse ++ found) ⟨p + (rules.flatMap Rule.letters).length, rest⟩ := by
  induction rules generalizing found p with
  | nil => rfl
  | cons r rules ih =>
    have hrule := Cursor.rule_letters (h r List.mem_cons_self) p (rules.flatMap Rule.letters ++ rest)
    have hfound : (r :: rules).reverse ++ found = rules.reverse ++ r :: found := by simp
    rw [List.flatMap_cons, List.append_assoc, List.length_append, ← Nat.add_assoc, hfound, rulesFrom_of_ok hrule]
    exact ih (fun r' hr' => h r' (List.mem_cons_of_mem _ hr')) (r :: found) (p + r.letters.length)

theorem rulesFrom_letters {rules : List Rule} (h : ∀ r ∈ rules, r.Positive) (found : List Rule) (p : Nat) :
    rulesFrom found ⟨p, rules.flatMap Rule.letters⟩ = .ok (found.reverse ++ rules) := by
  have happend := rulesFrom_append h found p []
  rw [List.append_nil, rulesFrom_nil] at happend
  simpa using happend

theorem readTrimmed_letters {rules : List Rule} (h : ∀ r ∈ rules, r.Positive) (hne : rules ≠ []) :
    readTrimmed (rules.flatMap Rule.letters) = .ok rules := by
  have hempty : (rules.flatMap Rule.letters).isEmpty = false := by
    obtain ⟨r, rules, rfl⟩ := List.exists_cons_of_ne_nil hne
    simp [letters_ne_nil]
  have hletters : (rules.flatMap Rule.letters).dropWhile isLetter = [] :=
    List.dropWhile_eq_nil_iff.mpr fun c hc => by
      obtain ⟨r, -, hc⟩ := List.mem_flatMap.mp hc
      exact isLetter_of_mem_letters hc
  rw [readTrimmed, hempty, hletters]
  exact rulesFrom_letters h [] 0

/-- Written rules are read back, if there are any. -/
theorem read_write {rules : List Rule} (h : ∀ r ∈ rules, r.Positive) (hne : rules ≠ []) :
    read (write rules) = .ok rules := by
  have htrim : Text.trim (rules.flatMap Rule.letters) = rules.flatMap Rule.letters :=
    Text.trim_eq_self fun c hc => by
      obtain ⟨r, -, hc⟩ := List.mem_flatMap.mp hc
      exact isSpace_of_isLetter (isLetter_of_mem_letters hc)
  rw [read, toList_write, htrim, readTrimmed_letters h hne]
  rfl

theorem write_eq_empty_iff (rules : List Rule) : write rules = "" ↔ rules = [] := by
  rw [← String.toList_inj, toList_write, String.toList_empty, List.flatMap_eq_nil_iff]
  refine ⟨fun h => ?_, fun h => by simp [h]⟩
  rcases rules with - | ⟨r, rules⟩
  · rfl
  · exact absurd (h r List.mem_cons_self) (letters_ne_nil r)

end Tapeworks.Code
