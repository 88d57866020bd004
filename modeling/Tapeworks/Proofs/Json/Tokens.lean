import Tapeworks.Json.Token
import Tapeworks.Json.Writer
import Tapeworks.Proofs.Json.Number

/-! The compact text and the pretty text of a value are two spellings of the same tokens. A string literal is spelled by
    its escapes, one for each character; only a number literal needs to know what follows it. -/

namespace Tapeworks.Json

/-! ### String literals -/

/-- The part that the escape of a character is read as: a code unit for a control character without a short escape. -/
def Part.ofChar (c : Char) : Part :=
  if c.toNat < 0x20 ∧ c ∉ ['\x08', '\t', '\n', '\x0c', '\r'] then .unit c.toNat else .char c

theorem hexUnit?_control {n : Nat} (h : n < 0x20) :
    hexUnit? '0' '0' (hexChar (n / 16)) (hexChar (n % 16)) = some n := by
  have hall : ∀ n < 0x20, hexUnit? '0' '0' (hexChar (n / 16)) (hexChar (n % 16)) = some n := by decide
  exact hall n h

theorem stringParts_escape (found : List Part) (c : Char) (cs : List Char) :
    stringParts found (escape c ++ cs) = stringParts (Part.ofChar c :: found) cs := by
  unfold escape
  split
  case h_8 hquote hslash hb hf hn hr ht =>
    split
    · rename_i hlow
      have hpart : Part.ofChar c = .unit c.toNat := if_pos ⟨hlow, by simpa using ⟨hb, ht, hn, hf, hr⟩⟩
      simp [stringParts, hexUnit?_control hlow, hpart]
    · rename_i hhigh
      have hpart : Part.ofChar c = .char c := if_neg fun h => hhigh h.1
      rw [hpart, List.singleton_append, stringParts]
      · exact if_neg fun h => h.elim hhigh hslash
      all_goals simp_all
  all_goals rfl

theorem stringParts_escapes (found : List Part) (l rest : List Char) :
    stringParts found (l.flatMap escape ++ '"' :: rest) = some (found.reverse ++ l.map Part.ofChar, rest) := by
  induction l generalizing found with
  | nil => simp [stringParts]
  | cons c l ih => simp [stringParts_escape, ih]

theorem partsText_ofChar (found : List Char) (c : Char) (parts : List Part) :
    partsText found (Part.ofChar c :: parts) = partsText (c :: found) parts := by
  unfold Part.ofChar
  split
  · rename_i h
    have hlow : isLowSurrogate c.toNat = false := by simp [isLowSurrogate]; omega
    have hhigh : isHighSurrogate c.toNat = false := by simp [isHighSurrogate]; omega
    rw [partsText.eq_def]
    simp [hlow, hhigh, Char.ofNat_toNat]
  · rfl

theorem partsText_map_ofChar (found l : List Char) :
    partsText found (l.map Part.ofChar) = some (String.ofList (found.reverse ++ l)) := by
  induction l generalizing found with
  | nil => simp [partsText]
  | cons c l ih => rw [List.map_cons, partsText_ofChar, ih, List.reverse_cons, List.append_assoc, List.singleton_append]

/-! ### Single tokens -/

theorem token?_quote (s : String) (rest : List Char) :
    token? (quote (some s) ++ rest) = some (.string (some s), rest) := by
  have hparts := stringParts_escapes [] s.toList rest
  have htext := partsText_map_ofChar [] s.toList
  simp_all [quote, token?]

theorem token?_number {n : Number} (hn : n.WellFormed) {rest : List Char} (hr : Number.Ends rest) :
    token? (n.text ++ rest) = some (.number n, rest) := by
  obtain ⟨c, cs, htext, hc⟩ := Number.head?_text hn
  have hread := Number.read?_text hn hr
  rw [htext] at hread ⊢
  unfold token?
  split
  case h_11 => rw [hread]; rfl
  -- The other tokens begin with neither a minus sign nor a digit.
  all_goals
    rename_i heq
    rw [List.cons_append] at heq
    exact absurd hc (by rw [(List.cons.inj heq).1]; decide)

/-! ### Spelling -/

/-- Wherever the text stands, the tokens are read off it, if no number literal goes on after it. -/
def Spells (cs : List Char) (ts : List Token) : Prop :=
  ∀ found rest, Number.Ends rest → tokensFrom found (cs ++ rest) = tokensFrom (ts.reverse ++ found) rest

theorem tokensFrom_of_token? {found : List Token} {c : Char} {cs rest : List Char} {t : Token}
    (hs : isSpace c = false) (ht : token? (c :: cs) = some (t, rest)) :
    tokensFrom found (c :: cs) = tokensFrom (t :: found) rest := by
  rw [tokensFrom, hs, if_neg Bool.false_ne_true]
  split
  · rename_i heq
    rw [ht] at heq
    cases heq
    rfl
  · rename_i heq
    rw [ht] at heq
    cases heq

namespace Spells

theorem nil : Spells [] [] :=
  fun _ _ _ => rfl

theorem append {cs ds : List Char} {ts us : List Token} (h : Spells cs ts) (h' : Spells ds us)
    (hd : Number.Ends ds) : Spells (cs ++ ds) (ts ++ us) := by
  intro found rest hr
  rw [List.append_assoc, h _ _ (hd.append hr), h' _ _ hr, List.reverse_append, List.append_assoc]

theorem token {c : Char} {cs : List Char} {t : Token} (hs : isSpace c = false)
    (ht : ∀ rest, Number.Ends rest → token? (c :: cs ++ rest) = some (t, rest)) : Spells (c :: cs) [t] :=
  fun _ rest hr => tokensFrom_of_token? hs (ht rest hr)

/-- A bracket, brace, comma or colon ends where it stands. -/
theorem punctuation {c : Char} {t : Token} {cs : List Char} {ts : List Token} (h : Spells cs ts)
    (hs : isSpace c = false) (ht : ∀ rest, token? (c :: rest) = some (t, rest)) : Spells (c :: cs) (t :: ts) := by
  intro found rest hr
  rw [List.cons_append, tokensFrom_of_token? hs (ht _), h _ _ hr, List.reverse_cons, List.append_assoc,
    List.singleton_append]

theorem space {c : Char} {cs : List Char} {ts : List Token} (h : Spells cs ts) (hs : isSpace c = true) :
    Spells (c :: cs) ts := by
  intro found rest hr
  rw [List.cons_append, tokensFrom, hs, if_pos rfl, h _ _ hr]

theorem newLine {cs : List Char} {ts : List Token} (h : Spells cs ts) (level : Nat) :
    Spells (Value.newLine level ++ cs) ts := by
  refine space ?_ rfl
  induction 2 * level with
  | zero => exact h
  | succ k ih => exact space ih rfl

theorem quote (s : String) : Spells (Json.quote (some s)) [.string (some s)] :=
  token rfl fun rest _ => token?_quote s rest

theorem number {n : Number} (hn : n.WellFormed) : Spells n.text [.number n] := by
  obtain ⟨c, cs, htext, hc⟩ := Number.head?_text hn
  have hspace : isSpace c = false := by
    rcases hc with rfl | hdigit
    · rfl
    · refine Bool.eq_false_iff.mpr fun hs => ?_
      simp only [isSpace, Bool.or_eq_true, decide_eq_true_eq] at hs
      rcases hs with ((rfl | rfl) | rfl) | rfl <;> cases hdigit
  rw [htext]
  exact token hspace fun rest hr => htext ▸ token?_number hn hr

end Spells

end Tapeworks.Json
