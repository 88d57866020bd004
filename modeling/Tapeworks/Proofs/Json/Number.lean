import Mathlib.Data.List.Basic
import Tapeworks.Json.Number
import Tapeworks.Proofs.Binary64
import Tapeworks.Proofs.Text.Numeral

/-! Number literals read back from their texts, whatever text follows that does not go on with the digits. The literals
    of binary64 numbers are among these; which number they are read as is another matter. -/

namespace Tapeworks.Json.Number

/-! ### Well-formed literals -/

/-- At least one character, and all of them digits. -/
structure IsDigits (ds : List Char) : Prop where
  ne_nil : ds ≠ []
  digits : ∀ c ∈ ds, c.isDigit = true

/-- The digits stand where a JSON number has them, and no zero comes before other integer digits. -/
structure WellFormed (n : Number) : Prop where
  whole : IsDigits n.whole
  leading : n.whole.head? = some '0' → n.whole.length = 1
  fraction : ∀ ds ∈ n.fraction, IsDigits ds
  exponent : ∀ e ∈ n.exponent, IsDigits e.2

/-- No literal that ends here goes on with the text. -/
def Ends (rest : List Char) : Prop :=
  ∀ c ∈ rest.head?, c.isDigit = false ∧ c ≠ '.' ∧ c ≠ 'e' ∧ c ≠ 'E'

theorem ends_cons {c : Char} (h : c.isDigit = false ∧ c ≠ '.' ∧ c ≠ 'e' ∧ c ≠ 'E') (cs : List Char) :
    Ends (c :: cs) := by
  rintro _ ⟨⟩
  exact h

theorem Ends.append {cs ds : List Char} (hc : Ends cs) (hd : Ends ds) : Ends (cs ++ ds) := by
  match cs with
  | [] => exact hd
  | c :: cs => exact ends_cons (hc c rfl) _

theorem isDigits_toDigits (n : Nat) : IsDigits (Nat.toDigits 10 n) :=
  ⟨Nat.toDigits_ne_nil, fun _ hc => Nat.isDigit_of_mem_toDigits (by decide) (by decide) hc⟩

theorem isDigits_zero : IsDigits ['0'] :=
  ⟨List.cons_ne_nil _ _, List.forall_mem_singleton.mpr rfl⟩

theorem IsDigits.append {ds es : List Char} (hd : IsDigits ds) (he : ∀ c ∈ es, c.isDigit = true) :
    IsDigits (ds ++ es) :=
  ⟨List.append_ne_nil_of_left_ne_nil hd.ne_nil es,
    fun c hc => (List.mem_append.mp hc).elim (hd.digits c) (he c)⟩

theorem IsDigits.take {ds : List Char} (hd : IsDigits ds) {k : Nat} (hk : k ≠ 0) : IsDigits (ds.take k) :=
  ⟨by simp [hk, hd.ne_nil], fun c hc => hd.digits c (List.mem_of_mem_take hc)⟩

theorem IsDigits.drop {ds : List Char} (hd : IsDigits ds) {k : Nat} (hk : k < ds.length) : IsDigits (ds.drop k) :=
  ⟨by simpa using hk, fun c hc => hd.digits c (List.mem_of_mem_drop hc)⟩

theorem isDigit_of_mem_replicate {k : Nat} {c : Char} (h : c ∈ List.replicate k '0') : c.isDigit = true := by
  rw [List.eq_of_mem_replicate h]
  rfl

/-! ### Reading the parts -/

theorem digits?_append {ds rest : List Char} (hd : IsDigits ds) (hr : ∀ c ∈ rest.head?, c.isDigit = false) :
    digits? (ds ++ rest) = some (ds, rest) := by
  have htake : rest.takeWhile Char.isDigit = [] := by cases rest <;> simp_all
  have hdrop : rest.dropWhile Char.isDigit = rest := by cases rest <;> simp_all
  rw [digits?, List.takeWhile_append_of_pos hd.digits, List.dropWhile_append_of_pos hd.digits, htake, hdrop]
  simp [hd.ne_nil]

theorem exponent?_text {e : Option (Bool × List Char)} {rest : List Char} (he : ∀ p ∈ e, IsDigits p.2)
    (hr : Ends rest) : exponent? (exponentText e ++ rest) = some (e, rest) := by
  match e with
  | none =>
    match rest with
    | [] => rfl
    | c :: cs => simp [exponentText, exponent?, (hr c rfl).2.2.1, (hr c rfl).2.2.2]
  | some (minus, ds) =>
    have hdigits := digits?_append (he _ rfl) fun c hc => (hr c hc).1
    cases minus <;> simp [exponentText, exponent?, exponentSign, hdigits]

theorem fraction?_text {f : Option (List Char)} {rest : List Char} (hf : ∀ ds ∈ f, IsDigits ds)
    (hr : ∀ c ∈ rest.head?, c.isDigit = false ∧ c ≠ '.') : fraction? (fractionText f ++ rest) = some (f, rest) := by
  match f with
  | none =>
    unfold fractionText fraction?
    split
    · rename_i heq
      exact absurd rfl (hr '.' (by rw [List.nil_append] at heq; rw [heq]; rfl)).2
    · rfl
  | some ds =>
    have hdigits := digits?_append (hf ds rfl) fun c hc => (hr c hc).1
    simp [fractionText, fraction?, hdigits]

theorem whole?_append {ds rest : List Char} (hd : IsDigits ds) (hz : ds.head? = some '0' → ds.length = 1)
    (hr : ∀ c ∈ rest.head?, c.isDigit = false) : whole? (ds ++ rest) = some (ds, rest) := by
  simpa [whole?, digits?_append hd hr] using hz

theorem minusSign_text {negative : Bool} {ds rest : List Char} (hd : IsDigits ds) :
    minusSign (signText negative ++ (ds ++ rest)) = (negative, ds ++ rest) := by
  cases negative with
  | true => rfl
  | false =>
    match ds, hd with
    | d :: ds, hd =>
      have hne : d ≠ '-' := fun he => absurd (hd.digits d List.mem_cons_self) (by rw [he]; decide)
      unfold signText minusSign
      split
      · rename_i heq
        exact absurd (List.cons.inj heq).1 hne
      · rfl

/-! ### Reading a literal -/

theorem head?_exponentText {e : Option (Bool × List Char)} {rest : List Char} (hr : Ends rest) :
    ∀ c ∈ (exponentText e ++ rest).head?, c.isDigit = false ∧ c ≠ '.' := by
  match e with
  | none => exact fun c hc => ⟨(hr c hc).1, (hr c hc).2.1⟩
  | some _ => rintro _ ⟨⟩; decide

theorem head?_fractionText {f : Option (List Char)} {rest : List Char} (hr : ∀ c ∈ rest.head?, c.isDigit = false) :
    ∀ c ∈ (fractionText f ++ rest).head?, c.isDigit = false := by
  match f with
  | none => exact hr
  | some _ => rintro _ ⟨⟩; decide

theorem read?_text {n : Number} (hn : n.WellFormed) {rest : List Char} (hr : Ends rest) :
    read? (n.text ++ rest) = some (n, rest) := by
  have hexponent := head?_exponentText (e := n.exponent) hr
  have hfraction := head?_fractionText (f := n.fraction) fun c hc => (hexponent c hc).1
  simp [read?, text, minusSign_text hn.whole, whole?_append hn.whole hn.leading hfraction,
    fraction?_text hn.fraction hexponent, exponent?_text hn.exponent hr]

theorem head?_text {n : Number} (hn : n.WellFormed) : ∃ c cs, n.text = c :: cs ∧ (c = '-' ∨ c.isDigit = true) := by
  obtain ⟨d, ds, hds⟩ := List.exists_cons_of_ne_nil hn.whole.ne_nil
  cases hs : n.negative with
  | true => exact ⟨'-', _, by simp [text, signText, hs]; rfl, .inl rfl⟩
  | false => exact ⟨d, _, by simp [text, signText, hs, hds]; rfl, .inr (hn.whole.digits d (by simp [hds]))⟩

/-! ### Literals of binary64 numbers -/

theorem wellFormed_layOut {negative : Bool} {ds : List Char} {point : Int} (hd : IsDigits ds)
    (hz : ds.head? = some '0' → ds.length = 1 ∧ point = 1) : (layOut negative ds point).WellFormed := by
  have hlength : ds.length ≠ 0 := fun h => hd.ne_nil (List.length_eq_zero_iff.mp h)
  have hexponent : ∀ e ∈ (none : Option (Bool × List Char)), IsDigits e.2 := fun _ h => nomatch h
  unfold layOut
  dsimp only
  split
  · -- The digits and as many zeros as reach the point.
    refine ⟨hd.append fun _ => isDigit_of_mem_replicate, fun h => ?_, ?_, hexponent⟩
    · rw [List.head?_append_of_ne_nil _ hd.ne_nil] at h
      obtain ⟨hone, hpoint⟩ := hz h
      simp [hone, hpoint]
    · rintro _ ⟨⟩
      exact isDigits_zero
  · split
    · -- The point is among the digits.
      refine ⟨hd.take (by omega), fun h => ?_, ?_, hexponent⟩
      · rw [List.head?_take, if_neg (by omega)] at h
        obtain ⟨hone, hpoint⟩ := hz h
        simp [hone, hpoint]
      · rintro _ ⟨⟩
        exact hd.drop (by omega)
    · split
      · -- Zeros come between the point and the digits.
        refine ⟨isDigits_zero, fun _ => rfl, ?_, hexponent⟩
        rintro _ ⟨⟩
        exact ⟨by simp [hd.ne_nil], fun c hc =>
          (List.mem_append.mp hc).elim isDigit_of_mem_replicate (hd.digits c)⟩
      · -- One digit before the point, the others after it.
        refine ⟨hd.take Nat.one_ne_zero, fun _ => ?_, fun fs hf => ?_, ?_⟩
        · rw [List.length_take]
          omega
        · dsimp only at hf
          split at hf
          · cases hf
          · rename_i hne
            cases hf
            exact ⟨by simpa using hne, fun c hc => hd.digits c (List.mem_of_mem_drop hc)⟩
        · rintro _ ⟨⟩
          exact isDigits_toDigits _

theorem wellFormed_ofBinary64 (x : Binary64) : (ofBinary64 x).WellFormed := by
  unfold ofBinary64
  cases hx : x.isZero with
  | true =>
    rw [if_pos rfl]
    refine ⟨isDigits_zero, fun _ => rfl, ?_, fun _ h => nomatch h⟩
    rintro _ ⟨⟩
    exact isDigits_zero
  | false =>
    rw [if_neg Bool.false_ne_true]
    refine wellFormed_layOut (isDigits_toDigits _) fun hzero => ?_
    -- Only the decimal zero begins with the digit zero.
    rcases Binary64.shortest_digits hx with hne | heq
    · exact absurd hzero (Text.head?_toDigits hne)
    · rw [heq]
      exact ⟨rfl, rfl⟩

end Tapeworks.Json.Number
