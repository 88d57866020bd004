import Tapeworks.Proofs.Code.Writing

/-! What encoding gives for a diagram. The ids of all rules are checked first, in table order, and then the symbols, in the
    order in which the rules are printed. Moving a rule to the end thus has no say in which id is refused, but it has in
    which symbol is. -/

namespace Tapeworks.Code

variable {t : Table} {x : State × Transition} {id : String} {c : Char} {e : EncodeError}

/-! ### First failures -/

/-- The element is the first of the list that does not satisfy `p`. -/
def FirstNot {α : Type} (p : α → Prop) (l : List α) (a : α) : Prop :=
  ¬p a ∧ ∃ front back, l = front ++ a :: back ∧ ∀ b ∈ front, p b

/-- The error of a computation that fails. -/
def failure? {ε α : Type} : Except ε α → Option ε
  | .error e => some e
  | .ok _ => none

section Failure

variable {α β ε : Type} {r : Except ε α} {l : List α}

theorem failure?_eq_some_iff {e : ε} : failure? r = some e ↔ r = .error e := by
  cases r <;> simp [failure?]

theorem failure?_eq_none_iff : failure? r = none ↔ ∃ a, r = .ok a := by
  cases r <;> simp [failure?]

/-- Two computations in sequence fail as the first does, or else as the second. -/
theorem failure?_bind {f : α → Except ε β} {o : Option ε} (h : ∀ a, r = .ok a → failure? (f a) = o) :
    failure? (r >>= f) = (failure? r).or o := by
  cases r with
  | error e => rfl
  | ok a => exact h a rfl

/-- A pass over a list fails as it does at the first element where it fails. -/
theorem failure?_mapM (f : α → Except ε β) (l : List α) :
    failure? (l.mapM f) = l.findSome? fun a => failure? (f a) := by
  induction l with
  | nil => rfl
  | cons a l ih =>
    have hrest : ∀ b, failure? (l.mapM f >>= fun bs => pure (b :: bs)) = l.findSome? fun a => failure? (f a) :=
      fun b => by rw [failure?_bind (o := none) fun _ _ => rfl, Option.or_none, ih]
    rw [List.mapM_cons, failure?_bind fun b _ => hrest b, List.findSome?_cons]
    cases failure? (f a) <;> rfl

/-- Two checks in sequence fail as the first that does. -/
theorem failure?_pair {γ : Type} (f : α → Except ε β) (a a' : α) (g : β → β → γ) :
    failure? (do let b ← f a; let b' ← f a'; return g b b') = [a, a'].findSome? fun a => failure? (f a) := by
  have hsecond : ∀ b, failure? (do let b' ← f a'; return g b b') = failure? (f a') := fun b => by
    rw [failure?_bind (o := none) fun _ _ => rfl, Option.or_none]
  rw [failure?_bind fun b _ => hsecond b, List.findSome?_cons, List.findSome?_cons, List.findSome?_nil]
  cases failure? (f a) <;> cases failure? (f a') <;> rfl

theorem findSome?_flatMap (f : β → Option ε) (g : α → List β) (l : List α) :
    (l.flatMap g).findSome? f = l.findSome? fun a => (g a).findSome? f := by
  induction l with
  | nil => rfl
  | cons a l ih =>
    rw [List.flatMap_cons, List.findSome?_append, ih, List.findSome?_cons]
    cases (g a).findSome? f <;> rfl

theorem findSome?_failure?_eq_none_iff {f : α → Except ε β} {p : α → Prop} (hp : ∀ a, failure? (f a) = none ↔ p a) :
    (l.findSome? fun a => failure? (f a)) = none ↔ ∀ a ∈ l, p a :=
  List.findSome?_eq_none_iff.trans (forall₂_congr fun a _ => hp a)

theorem findSome?_failure?_eq_some_iff {f : α → Except ε β} {p : α → Prop} (hp : ∀ a, failure? (f a) = none ↔ p a)
    {e : ε} : (l.findSome? fun a => failure? (f a)) = some e ↔ ∃ a, FirstNot p l a ∧ f a = .error e := by
  rw [List.findSome?_eq_some_iff]
  constructor
  · rintro ⟨front, a, back, hl, ha, hfront⟩
    have hnot : ¬p a := fun h => Option.some_ne_none e (ha.symm.trans ((hp a).mpr h))
    exact ⟨a, ⟨hnot, front, back, hl, fun b hb => (hp b).mp (hfront b hb)⟩, failure?_eq_some_iff.mp ha⟩
  · rintro ⟨a, ⟨-, front, back, hl, hfront⟩, ha⟩
    exact ⟨front, a, back, hl, failure?_eq_some_iff.mpr ha, fun b hb => (hp b).mpr (hfront b hb)⟩

end Failure

/-! ### Refused ids and symbols -/

theorem failure?_stateNumber_eq_none_iff (id : String) : failure? (stateNumber id) = none ↔ Numbered id := by
  simp only [failure?_eq_none_iff, stateNumber_eq_ok_iff, exists_and_left, exists_eq, and_true]

theorem stateNumber_eq_error_iff (h : ¬Numbered id) : stateNumber id = .error e ↔
    (∃ n, Text.word? id = some n ∧ largestState < n ∧ e = .stateTooLarge n) ∨
      (∀ n, Text.word? id = some n → ¬largestState < n) ∧ e = .nonNumericState id := by
  unfold stateNumber
  unfold Numbered number at h
  cases hw : Text.word? id with
  | none => simp [eq_comm]
  | some n =>
    rw [hw, Option.getD_some] at h
    by_cases hlarge : largestState < n
    · simp [hlarge, eq_comm]
    · have hzero : n = 0 := by omega
      simp [hzero, eq_comm]

theorem failure?_sign_eq_none_iff (c : Char) : failure? (sign c) = none ↔ Signed c := by
  simp only [failure?_eq_none_iff, sign_eq_ok_iff, exists_and_left, exists_eq, and_true]

theorem sign_eq_error_iff (h : ¬Signed c) : sign c = .error e ↔ e = .unencodableSymbol c := by
  rw [sign, Option.not_isSome_iff_eq_none.mp h, Except.error.injEq, eq_comm]

/-! ### The order of the rules -/

/-- The number of the rule's target is written as the id of a final state. -/
def Finishing (t : Table) (x : State × Transition) : Prop :=
  ∃ s ∈ t.states, s.id = Text.numeral (number x.2.target.id) ∧ s.isFinal

/-- The rules of the table with the last that is finishing, if there is one, moved to the end. -/
inductive Printing (t : Table) : List (State × Transition) → Prop
  | kept (h : ∀ x ∈ t.rules, ¬Finishing t x) : Printing t t.rules
  | moved {front back : List (State × Transition)} {x : State × Transition} (h : t.rules = front ++ x :: back)
      (hx : Finishing t x) (hback : ∀ y ∈ back, ¬Finishing t y) : Printing t (front ++ back ++ [x])

theorem closes_iff (h : Table.Ascending t.rows) : closes t x ↔ Finishing t x := by
  rw [closes, Option.any_eq_true]
  constructor
  · rintro ⟨s, hs, hfinal⟩
    exact ⟨s, (Table.state?_eq_some hs).1, (Table.state?_eq_some hs).2, hfinal⟩
  · rintro ⟨s, hs, hid, hfinal⟩
    exact ⟨s, hid ▸ Table.state?_of_mem h hs, hfinal⟩

theorem printing_arranged (h : Table.Ascending t.rows) : Printing t (arranged t) := by
  rcases none_or_last (closes t) t.rules with hnone | ⟨front, x, back, hrules, hx, hback⟩
  · rw [arranged, moveLastToEnd_of_none hnone]
    exact .kept fun x hx hfinish => hnone x hx ((closes_iff h).mpr hfinish)
  · rw [arranged, hrules, moveLastToEnd_append hx hback]
    exact .moved hrules ((closes_iff h).mp hx) fun y hy hfinish => hback y hy ((closes_iff h).mpr hfinish)

/-! ### Printed rules -/

/-- The rule of a code says the same as the rule of a table, where no write symbol means the one that is read. -/
structure Renders (x : State × Transition) (r : Rule) : Prop where
  source : Text.word? x.1.id = some r.source
  target : Text.word? x.2.target.id = some r.target
  read : r.read.symbol = x.2.read
  write : r.write.symbol = x.2.write.getD x.2.read
  direction : r.direction = x.2.direction

theorem Encodable.renders (h : Encodable x.1 x.2) : Renders x (codeOf x) where
  source := h.source.word?
  target := h.target.word?
  read := h.read.symbol_signOf
  write := h.write.symbol_signOf
  direction := rfl

theorem length_letters (r : Rule) : r.letters.length = r.source + r.target + 7 := by
  have hsign : ∀ s : Sign, s.letters.length = 2 := fun s => by cases s <;> rfl
  simp [Rule.letters, hsign]
  omega

theorem length_write (rules : List Rule) :
    (write rules).length = rules.foldr (fun r n => r.source + r.target + 7 + n) 0 := by
  rw [← String.length_toList, toList_write]
  induction rules with
  | nil => rfl
  | cons r rules ih => rw [List.flatMap_cons, List.length_append, length_letters, ih, List.foldr_cons]

/-! ### Encoding -/

/-- The symbols of the rules in the order in which they are printed. -/
def symbols (order : List (State × Transition)) : List Char :=
  order.flatMap fun x => [x.2.read, x.2.write.getD x.2.read]

theorem failure?_rulesOf (t : Table) : failure? (rulesOf t) =
    (t.ends.findSome? fun id => failure? (stateNumber id)).or
      ((symbols (arranged t)).findSome? fun c => failure? (sign c)) := by
  have hids : failure? (t.rules.mapM fun x => NumberedRule.ofTransition x.1 x.2) =
      t.ends.findSome? fun id => failure? (stateNumber id) := by
    rw [failure?_mapM, Table.ends, findSome?_flatMap]
    exact congrArg (t.rules.findSome? ·) (funext fun x => failure?_pair stateNumber x.1.id x.2.target.id _)
  have hsymbols : failure? (((arranged t).map numberedOf).mapM NumberedRule.code) =
      (symbols (arranged t)).findSome? fun c => failure? (sign c) := by
    rw [failure?_mapM, List.findSome?_map, symbols, findSome?_flatMap]
    exact congrArg ((arranged t).findSome? ·)
      (funext fun x => failure?_pair sign x.2.read (x.2.write.getD x.2.read) _)
  refine (failure?_bind fun numbered hnumbered => ?_).trans (congrArg (Option.or · _) hids)
  obtain ⟨-, rfl⟩ := (mapM_eq_ok_iff fun x n => ofTransition_eq_ok_iff).mp hnumbered
  rw [← hsymbols]
  exact congrArg (fun l => failure? (l.mapM NumberedRule.code)) (moveLastToEnd_map numberedOf t.rules)

theorem failure?_encode (d : Diagram) : failure? (encode d) = failure? (rulesOf (compile d).table) := by
  rw [encode, failure?_bind (o := none) fun _ _ => rfl, Option.or_none]

/-- Why a table has no code: the error is for the first id that is not the number of a state, or if there is none, for
    the first symbol without a code in the order in which the rules would be printed. -/
inductive Refused (t : Table) (order : List (State × Transition)) : EncodeError → Prop
  | stateTooLarge {id : String} {n : Nat} (first : FirstNot Numbered t.ends id) (hn : Text.word? id = some n)
      (large : largestState < n) : Refused t order (.stateTooLarge n)
  | nonNumericState {id : String} (first : FirstNot Numbered t.ends id)
      (small : ∀ n, Text.word? id = some n → ¬largestState < n) : Refused t order (.nonNumericState id)
  | unencodableSymbol {c : Char} (numbered : ∀ id ∈ t.ends, Numbered id) (first : FirstNot Signed (symbols order) c) :
      Refused t order (.unencodableSymbol c)

theorem rulesOf_eq_error_iff : rulesOf t = .error e ↔ Refused t (arranged t) e := by
  rw [← failure?_eq_some_iff, failure?_rulesOf, Option.or_eq_some_iff,
    findSome?_failure?_eq_some_iff failure?_stateNumber_eq_none_iff,
    findSome?_failure?_eq_none_iff failure?_stateNumber_eq_none_iff,
    findSome?_failure?_eq_some_iff failure?_sign_eq_none_iff]
  constructor
  · rintro (⟨id, hfirst, hid⟩ | ⟨hids, c, hfirst, hc⟩)
    · rcases (stateNumber_eq_error_iff hfirst.1).mp hid with ⟨n, hn, hlarge, rfl⟩ | ⟨hsmall, rfl⟩
      · exact .stateTooLarge hfirst hn hlarge
      · exact .nonNumericState hfirst hsmall
    · cases (sign_eq_error_iff hfirst.1).mp hc
      exact .unencodableSymbol hids hfirst
  · intro h
    cases h with
    | stateTooLarge first hn large =>
      exact Or.inl ⟨_, first, (stateNumber_eq_error_iff first.1).mpr (Or.inl ⟨_, hn, large, rfl⟩)⟩
    | nonNumericState first small =>
      exact Or.inl ⟨_, first, (stateNumber_eq_error_iff first.1).mpr (Or.inr ⟨small, rfl⟩)⟩
    | unencodableSymbol numbered first =>
      exact Or.inr ⟨numbered, _, first, (sign_eq_error_iff first.1).mpr rfl⟩

/-- What is emitted for a table whose rules are printed in the given order. -/
structure Emission (t : Table) (order : List (State × Transition)) (result : Except EncodeError String) : Prop where
  sorted : t.states.Pairwise fun s s' => s.id < s'.id
  listed : t.rules = t.states.flatMap fun s => (t.transitions s.id).map fun r => (s, r)
  printing : Printing t order
  accepted : (∃ text, result = .ok text) ↔ ∀ x ∈ t.rules, Encodable x.1 x.2
  printed : ∀ text, result = .ok text → ∃ rules, List.Forall₂ Renders order rules ∧ text = write rules ∧
    text.length = rules.foldr (fun r n => r.source + r.target + 7 + n) 0
  refused : ∀ e, result = .error e ↔ Refused t order e

/-- A diagram is encoded just when all its compiled rules can be, as these rules in table order but for one, and else
    refused for the first id or symbol that is in the way. -/
theorem exists_emission_encode (d : Diagram) : ∃ order, Emission (compile d).table order (encode d) := by
  refine ⟨arranged (compile d).table, pairwise_states_compile d, Table.rules_eq (ascending_compile d),
    printing_arranged (ascending_compile d), ?_, ?_, ?_⟩
  · simp only [encode_eq_ok_iff, exists_and_left, exists_eq, and_true]
  · intro text htext
    obtain ⟨hall, rfl⟩ := encode_eq_ok_iff.mp htext
    refine ⟨codes (compile d).table, ?_, rfl, length_write _⟩
    refine List.forall₂_map_right_iff.mpr (List.forall₂_same.mpr fun x hx => ?_)
    exact (hall x ((arranged_perm _).mem_iff.mp hx)).renders
  · intro e
    rw [← failure?_eq_some_iff, failure?_encode, failure?_eq_some_iff]
    exact rulesOf_eq_error_iff

/-- The rule into the final state is printed last, so that the symbol of the other one is met first. -/
example : encode { states := [{ id := "1" }, { id := "2", isFinal := true }]
                   edges := [.between "1" "2" "x,a,R", .between "1" "1" "y,a,R"] } =
    .error (.unencodableSymbol 'y') := by
  rfl

end Tapeworks.Code
