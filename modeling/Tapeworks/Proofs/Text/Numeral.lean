import Tapeworks.Text.Numeral

/-! Numerals stand for their numbers. Many texts stand for one number (`7`, `07`, `+7`), but only one of them is
    canonical: the numeral. -/

namespace Tapeworks.Text

/-! ### Reading numerals -/

theorem toList_numeral (n : Nat) : (numeral n).toList = Nat.toDigits 10 n :=
  Nat.toList_repr

theorem dropPlus_of_ne {cs : List Char} (h : ∀ c ∈ cs, c ≠ '+') : dropPlus cs = cs := by
  match cs with
  | [] => rfl
  | c :: cs =>
    have hc : c ≠ '+' := h c List.mem_cons_self
    unfold dropPlus
    split
    · rename_i heq
      exact absurd (List.cons.inj heq).1 hc
    · rfl

theorem digitsValue?_toDigits (n : Nat) : digitsValue? (Nat.toDigits 10 n) = some n := by
  have hdigits : (Nat.toDigits 10 n).all Char.isDigit = true :=
    List.all_eq_true.mpr fun _ hc => Nat.isDigit_of_mem_toDigits (by decide) (by decide) hc
  simp [digitsValue?, hdigits, Nat.toDigits_ne_nil]

theorem digitsValue?_numeral (n : Nat) : digitsValue? (dropPlus (numeral n).toList) = some n := by
  have hplus : ∀ c ∈ Nat.toDigits 10 n, c ≠ '+' := fun c hc he => by
    have hdigit := Nat.isDigit_of_mem_toDigits (by decide) (by decide) hc
    subst he
    cases hdigit
  rw [toList_numeral, dropPlus_of_ne hplus, digitsValue?_toDigits]

theorem word?_numeral {n : Nat} (h : n < wordLimit) : word? (numeral n) = some n := by
  simp [word?, digitsValue?_numeral, h]

theorem word?_numeral_eq_some {m n : Nat} (h : word? (numeral n) = some m) : m = n := by
  unfold word? at h
  rw [digitsValue?_numeral, Option.bind_eq_bind, Option.bind_some] at h
  split at h
  · exact (Option.some.inj h).symm
  · cases h

theorem numeral_injective {m n : Nat} (h : numeral m = numeral n) : m = n :=
  Option.some.inj ((digitsValue?_numeral m).symm.trans (h ▸ digitsValue?_numeral n))

/-- Only zero begins with the digit zero. -/
theorem head?_toDigits {n : Nat} (h : n ≠ 0) : (Nat.toDigits 10 n).head? ≠ some '0' := by
  induction n using Nat.strongRecOn with
  | ind n ih =>
    rw [Nat.toDigits_eq_if (by decide)]
    split
    · rename_i hlt
      have hdigit : ∀ d < 10, d ≠ 0 → Nat.digitChar d ≠ '0' := by decide
      simpa using hdigit n hlt h
    · have hfirst := ih (n / 10) (by omega) (by omega)
      obtain ⟨c, cs, hcs⟩ := List.exists_cons_of_ne_nil (Nat.toDigits_ne_nil : Nat.toDigits 10 (n / 10) ≠ [])
      rw [hcs] at hfirst ⊢
      exact hfirst

/-! ### All texts that stand for a number -/

section Digits

variable {c : Char} {cs : List Char} {n : Nat}

theorem digit_lt (h : c.isDigit) : c.toNat - '0'.toNat < 10 := by
  obtain ⟨hlow, hhigh⟩ : 48 ≤ c.toNat ∧ c.toNat ≤ 57 := Char.isDigit_iff_toNat.mp h
  change c.toNat - 48 < 10
  omega

theorem digit_pos (h : c.isDigit) (hne : c ≠ '0') : 0 < c.toNat - '0'.toNat := by
  obtain ⟨hlow, hhigh⟩ : 48 ≤ c.toNat ∧ c.toNat ≤ 57 := Char.isDigit_iff_toNat.mp h
  have hzero : c.toNat ≠ 48 := fun heq => hne (Char.toNat_inj.mp heq)
  change 0 < c.toNat - 48
  omega

theorem digitChar_of_isDigit (h : c.isDigit) : Nat.digitChar (c.toNat - '0'.toNat) = c := by
  obtain ⟨hlow, hhigh⟩ : 48 ≤ c.toNat ∧ c.toNat ≤ 57 := Char.isDigit_iff_toNat.mp h
  rw [← Char.toNat_inj, Nat.toNat_digitChar_of_lt_ten (digit_lt h)]
  change 48 + (c.toNat - 48) = c.toNat
  omega

/-- Digits behind the numeral of a positive number give the numeral of another. -/
theorem toDigits_append_digits (h : ∀ d ∈ cs, d.isDigit) (hn : 0 < n) :
    Nat.toDigits 10 n ++ cs = Nat.toDigits 10 (Nat.ofDigitChars 10 cs n) := by
  induction cs generalizing n with
  | nil => exact List.append_nil _
  | cons c cs ih =>
    have hc := h c List.mem_cons_self
    have hfirst : Nat.toDigits 10 n ++ [c] = Nat.toDigits 10 (10 * n + (c.toNat - '0'.toNat)) := by
      rw [← Nat.toDigits_append_toDigits (by decide) hn (digit_lt hc), Nat.toDigits_of_lt_base (digit_lt hc),
        digitChar_of_isDigit hc]
    rw [Nat.ofDigitChars_cons, ← ih (fun d hd => h d (List.mem_cons_of_mem c hd)) (by omega), ← hfirst,
      List.append_assoc, List.singleton_append]

/-- A text of digits is a number of zeros and behind them the numeral of its value. -/
theorem exists_zeros (h : ∀ d ∈ cs, d.isDigit) (hne : cs ≠ []) :
    ∃ zeros, cs = List.replicate zeros '0' ++ Nat.toDigits 10 (Nat.ofDigitChars 10 cs 0) := by
  induction cs with
  | nil => exact absurd rfl hne
  | cons c cs ih =>
    have hrest : ∀ d ∈ cs, d.isDigit := fun d hd => h d (List.mem_cons_of_mem c hd)
    have hvalue : Nat.ofDigitChars 10 (c :: cs) 0 = Nat.ofDigitChars 10 cs (c.toNat - '0'.toNat) := by
      rw [Nat.ofDigitChars_cons, Nat.mul_zero, Nat.zero_add]
    rw [hvalue]
    by_cases hzero : c = '0'
    · subst hzero
      by_cases hnil : cs = []
      · subst hnil
        exact ⟨0, rfl⟩
      · obtain ⟨zeros, hcs⟩ := ih hrest hnil
        exact ⟨zeros + 1, congrArg ('0' :: ·) hcs⟩
    · -- The numeral begins with the first digit that is no zero.
      have hc := h c List.mem_cons_self
      refine ⟨0, ?_⟩
      rw [← toDigits_append_digits hrest (digit_pos hc hzero), Nat.toDigits_of_lt_base (digit_lt hc),
        digitChar_of_isDigit hc]
      rfl

end Digits

theorem isDigit_zeros_append {zeros n : Nat} : ∀ c ∈ List.replicate zeros '0' ++ Nat.toDigits 10 n, c.isDigit := by
  intro c hc
  rcases List.mem_append.mp hc with hzero | hdigit
  · rw [List.eq_of_mem_replicate hzero]
    rfl
  · exact Nat.isDigit_of_mem_toDigits (by decide) (by decide) hdigit

theorem digitsValue?_eq_some_iff {cs : List Char} {n : Nat} :
    digitsValue? cs = some n ↔ ∃ zeros, cs = List.replicate zeros '0' ++ Nat.toDigits 10 n := by
  unfold digitsValue?
  constructor
  · intro h
    split at h
    · cases h
    · rename_i hdigits
      simp only [Bool.or_eq_true, Bool.not_eq_true', not_or, Bool.not_eq_false, List.isEmpty_iff] at hdigits
      cases h
      exact exists_zeros (List.all_eq_true.mp hdigits.2) hdigits.1
  · rintro ⟨zeros, rfl⟩
    have hall : (List.replicate zeros '0' ++ Nat.toDigits 10 n).all Char.isDigit = true :=
      List.all_eq_true.mpr isDigit_zeros_append
    rw [hall, Nat.ofDigitChars_append, Nat.ofDigitChars_replicate_zero]
    simp [Nat.toDigits_ne_nil]

/-- The text stands for a word: there may be a plus sign, then zeros, and then the numeral of the word. -/
def Denotes (s : String) (n : Nat) : Prop :=
  n < wordLimit ∧ ∃ sign zeros, (sign = [] ∨ sign = ['+']) ∧
    s.toList = sign ++ (List.replicate zeros '0' ++ Nat.toDigits 10 n)

theorem word?_eq_some_iff {s : String} {n : Nat} : word? s = some n ↔ Denotes s n := by
  have hvalue : word? s = some n ↔ digitsValue? (dropPlus s.toList) = some n ∧ n < wordLimit := by
    unfold word?
    cases digitsValue? (dropPlus s.toList) with
    | none => simp
    | some k =>
      rw [Option.bind_eq_bind, Option.bind_some, Option.some.injEq]
      by_cases hk : k < wordLimit
      · rw [if_pos hk, Option.some.injEq]
        exact ⟨fun h => ⟨h, h ▸ hk⟩, And.left⟩
      · rw [if_neg hk]
        exact ⟨nofun, fun ⟨h, hn⟩ => absurd (h ▸ hn) hk⟩
  rw [hvalue, digitsValue?_eq_some_iff]
  constructor
  · rintro ⟨⟨zeros, hdrop⟩, hn⟩
    refine ⟨hn, ?_⟩
    unfold dropPlus at hdrop
    split at hdrop
    · rename_i cs hs
      exact ⟨['+'], zeros, Or.inr rfl, hs.trans (congrArg ('+' :: ·) hdrop)⟩
    · exact ⟨[], zeros, Or.inl rfl, hdrop⟩
  · rintro ⟨hn, sign, zeros, rfl | rfl, hs⟩
    · refine ⟨⟨zeros, ?_⟩, hn⟩
      rw [hs, List.nil_append, dropPlus_of_ne fun c hc he => ?_]
      have hdigit := isDigit_zeros_append c hc
      rw [he] at hdigit
      cases hdigit
    · exact ⟨⟨zeros, by rw [hs]; rfl⟩, hn⟩

/-! ### Canonical ids -/

/-- The id is the numeral of the word that it stands for. -/
def Canonical (id : String) : Prop :=
  (word? id).map numeral = some id

instance (id : String) : Decidable (Canonical id) :=
  inferInstanceAs (Decidable (_ = _))

theorem canonical_numeral {m n : Nat} (h : word? (numeral n) = some m) : Canonical (numeral n) := by
  rw [Canonical, h, Option.map_some, word?_numeral_eq_some h]

theorem Canonical.eq_numeral {id : String} {n : Nat} (h : Canonical id) (hn : word? id = some n) : id = numeral n := by
  rw [Canonical, hn, Option.map_some] at h
  exact (Option.some.inj h).symm

/-- `07` stands for 7 and is not its numeral. -/
example : word? "07" = some 7 ∧ ¬Canonical "07" := by decide

end Tapeworks.Text
