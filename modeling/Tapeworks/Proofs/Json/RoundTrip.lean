import Tapeworks.Json.Reader
import Tapeworks.Proofs.Json.Tokens

/-! A value reads back from its compact text and from its pretty text: both spell the tokens of the value, and the reader
    builds the value again out of its tokens. The value must be printable, since a string that is not Unicode text and a
    number with digits out of place have no faithful text. -/

namespace Tapeworks.Json

/-! ### The tokens of a value -/

namespace Value

mutual

def tokens : Value → List Token
  | null => [.null]
  | bool b => [.bool b]
  | number n => [.number n]
  | string s => [.string s]
  | array items => .openArray :: itemTokens items
  | object members => .openObject :: memberTokens members

/-- The tokens of the items and of the closing bracket. -/
def itemTokens : List Value → List Token
  | [] => [.closeArray]
  | [v] => tokens v ++ [.closeArray]
  | v :: vs => tokens v ++ .comma :: itemTokens vs

/-- The tokens of the members and of the closing brace. -/
def memberTokens : List (Text × Value) → List Token
  | [] => [.closeObject]
  | [(name, v)] => .string name :: .colon :: (tokens v ++ [.closeObject])
  | (name, v) :: rest => .string name :: .colon :: (tokens v ++ .comma :: memberTokens rest)

end

end Value

/-- A string is Unicode text, and a number is as wanted. -/
def Token.Fits (q : Number → Prop) : Token → Prop
  | .number n => q n
  | .string s => s.isSome
  | _ => True

/-- Every string in the value is Unicode text, and every number in it is as wanted. -/
def Value.Fits (q : Number → Prop) (v : Value) : Prop :=
  ∀ t ∈ v.tokens, t.Fits q

/-- The token has a text that reads as the token. -/
abbrev Token.IsPrintable (t : Token) : Prop :=
  t.Fits Number.WellFormed

abbrev Value.IsPrintable (v : Value) : Prop :=
  v.Fits Number.WellFormed

/-! ### Both texts spell the tokens -/

theorem Spells.name {name : Text} (h : (Token.string name).IsPrintable) : Spells (Json.quote name) [.string name] := by
  match name with
  | some s => exact .quote s

theorem Spells.closeArray : Spells [']'] [.closeArray] :=
  .token rfl fun _ _ => rfl

theorem Spells.closeObject : Spells ['}'] [.closeObject] :=
  .token rfl fun _ _ => rfl

section Punctuation

variable {cs : List Char} {ts : List Token}

theorem Spells.openArray (h : Spells cs ts) : Spells ('[' :: cs) (.openArray :: ts) :=
  h.punctuation rfl fun _ => rfl

theorem Spells.openObject (h : Spells cs ts) : Spells ('{' :: cs) (.openObject :: ts) :=
  h.punctuation rfl fun _ => rfl

theorem Spells.comma (h : Spells cs ts) : Spells (',' :: cs) (.comma :: ts) :=
  h.punctuation rfl fun _ => rfl

/-- A name and its colon, in front of the text of the member and all that follows it. -/
theorem Spells.member {name : Text} (hname : (Token.string name).IsPrintable) (h : Spells cs ts) :
    Spells (Json.quote name ++ ':' :: cs) (.string name :: .colon :: ts) :=
  (Spells.name hname).append (h.punctuation rfl fun _ => rfl) (Number.ends_cons (by decide) cs)

end Punctuation

namespace Value

/-- A member, its name in front, and what comes behind it. -/
theorem isPrintable_member {name : Text} {v : Value} {ts : List Token}
    (h : ∀ t ∈ Token.string name :: .colon :: (v.tokens ++ ts), t.IsPrintable) :
    (Token.string name).IsPrintable ∧ v.IsPrintable ∧ ∀ t ∈ ts, t.IsPrintable := by
  obtain ⟨hname, h⟩ := List.forall_mem_cons.mp h
  obtain ⟨-, h⟩ := List.forall_mem_cons.mp h
  exact ⟨hname, List.forall_mem_append.mp h⟩

-- The induction follows the writer. Behind a value comes a comma, a closing bracket or brace, or in the pretty layout a
-- line break, so that no number literal runs on.

mutual

theorem spells_compact : ∀ {v : Value}, v.IsPrintable → Spells v.compact v.tokens
  | null, _ => .token rfl fun _ _ => rfl
  | bool true, _ => .token rfl fun _ _ => rfl
  | bool false, _ => .token rfl fun _ _ => rfl
  | number _, h => .number (h _ (List.mem_singleton.mpr rfl))
  | string _, h => .name (h _ (List.mem_singleton.mpr rfl))
  | array _, h => (spells_compactItems (List.forall_mem_cons.mp h).2).openArray
  | object _, h => (spells_compactMembers (List.forall_mem_cons.mp h).2).openObject

theorem spells_compactItems : ∀ {vs : List Value}, (∀ t ∈ itemTokens vs, t.IsPrintable) →
    Spells (compactItems vs) (itemTokens vs)
  | [], _ => .closeArray
  | [v], h => by
    have hv : v.IsPrintable := (List.forall_mem_append.mp h).1
    exact (spells_compact hv).append .closeArray (Number.ends_cons (by decide) _)
  | v :: w :: vs, h => by
    have hv : v.IsPrintable := (List.forall_mem_append.mp h).1
    have hvs := (List.forall_mem_cons.mp (List.forall_mem_append.mp h).2).2
    exact (spells_compact hv).append (spells_compactItems hvs).comma (Number.ends_cons (by decide) _)

theorem spells_compactMembers : ∀ {ms : List (Text × Value)}, (∀ t ∈ memberTokens ms, t.IsPrintable) →
    Spells (compactMembers ms) (memberTokens ms)
  | [], _ => .closeObject
  | [(_, _)], h => by
    obtain ⟨hname, hv, -⟩ := isPrintable_member h
    exact ((spells_compact hv).append .closeObject (Number.ends_cons (by decide) _)).member hname
  | (_, _) :: _ :: _, h => by
    obtain ⟨hname, hv, hms⟩ := isPrintable_member h
    have hms := spells_compactMembers (List.forall_mem_cons.mp hms).2
    exact ((spells_compact hv).append hms.comma (Number.ends_cons (by decide) _)).member hname

end

mutual

theorem spells_pretty : ∀ (level : Nat) {v : Value}, v.IsPrintable → Spells (v.pretty level) v.tokens
  | _, null, _ => .token rfl fun _ _ => rfl
  | _, bool true, _ => .token rfl fun _ _ => rfl
  | _, bool false, _ => .token rfl fun _ _ => rfl
  | _, number _, h => .number (h _ (List.mem_singleton.mpr rfl))
  | _, string _, h => .name (h _ (List.mem_singleton.mpr rfl))
  | _, array [], _ => Spells.closeArray.openArray
  | level, array (_ :: _), h => (spells_prettyItems level (List.forall_mem_cons.mp h).2).openArray
  | _, object [], _ => Spells.closeObject.openObject
  | level, object (_ :: _), h => (spells_prettyMembers level (List.forall_mem_cons.mp h).2).openObject

theorem spells_prettyItems : ∀ (level : Nat) {vs : List Value}, (∀ t ∈ itemTokens vs, t.IsPrintable) →
    Spells (prettyItems level vs) (itemTokens vs)
  | level, [], _ => Spells.closeArray.newLine level
  | level, [v], h => by
    have hv : v.IsPrintable := (List.forall_mem_append.mp h).1
    have hend := (spells_pretty (level + 1) hv).append (Spells.closeArray.newLine level)
      (Number.ends_cons (by decide) _)
    simpa [prettyItems, itemTokens] using hend.newLine (level + 1)
  | level, v :: w :: vs, h => by
    have hv : v.IsPrintable := (List.forall_mem_append.mp h).1
    have hvs := spells_prettyItems level (List.forall_mem_cons.mp (List.forall_mem_append.mp h).2).2
    have hrest := (spells_pretty (level + 1) hv).append hvs.comma (Number.ends_cons (by decide) _)
    simpa [prettyItems, itemTokens] using hrest.newLine (level + 1)

theorem spells_prettyMembers : ∀ (level : Nat) {ms : List (Text × Value)}, (∀ t ∈ memberTokens ms, t.IsPrintable) →
    Spells (prettyMembers level ms) (memberTokens ms)
  | level, [], _ => Spells.closeObject.newLine level
  | level, [(_, _)], h => by
    obtain ⟨hname, hv, -⟩ := isPrintable_member h
    have hend := (spells_pretty (level + 1) hv).append (Spells.closeObject.newLine level)
      (Number.ends_cons (by decide) _)
    simpa [prettyMembers, memberTokens] using ((hend.space rfl).member hname).newLine (level + 1)
  | level, (_, _) :: _ :: _, h => by
    obtain ⟨hname, hv, hms⟩ := isPrintable_member h
    have hms := spells_prettyMembers level (List.forall_mem_cons.mp hms).2
    have hrest := (spells_pretty (level + 1) hv).append hms.comma (Number.ends_cons (by decide) _)
    simpa [prettyMembers, memberTokens] using ((hrest.space rfl).member hname).newLine (level + 1)

end

/-! ### Reading the tokens -/

theorem exists_tokens_cons (v : Value) : ∃ t ts, v.tokens = t :: ts ∧ t ≠ .closeArray := by
  cases v <;> exact ⟨_, _, rfl, nofun⟩

theorem exists_itemTokens_cons (v : Value) (vs : List Value) :
    ∃ t ts, itemTokens (v :: vs) = t :: ts ∧ t ≠ .closeArray := by
  obtain ⟨t, ts, htokens, ht⟩ := v.exists_tokens_cons
  cases vs with
  | nil => exact ⟨t, ts ++ [.closeArray], congrArg (· ++ _) htokens, ht⟩
  | cons w vs => exact ⟨t, ts ++ .comma :: itemTokens (w :: vs), congrArg (· ++ _) htokens, ht⟩

/-- An array that is not closed at once goes on like one that has begun. -/
theorem foldlM_firstItem (outer : List Frame) (v : Value) (vs : List Value) :
    (itemTokens (v :: vs)).foldlM Place.next (.firstItem outer) =
      (itemTokens (v :: vs)).foldlM Place.next (.value (.array [] :: outer)) := by
  obtain ⟨t, ts, htokens, ht⟩ := exists_itemTokens_cons v vs
  have hnext : Place.next (.firstItem outer) t = Place.next (.value (.array [] :: outer)) t := by
    cases t <;> first | rfl | exact absurd rfl ht
  rw [htokens, List.foldlM_cons, List.foldlM_cons, hnext]

theorem foldlM_firstName (outer : List Frame) (m : Text × Value) (ms : List (Text × Value)) :
    (memberTokens (m :: ms)).foldlM Place.next (.firstName outer) =
      (memberTokens (m :: ms)).foldlM Place.next (.name [] outer) := by
  cases ms <;> rfl

-- A container in the making stands in its frame, last first; the items or members that are still to come are those of
-- the induction.

mutual

theorem foldlM_tokens : ∀ (v : Value) (outer : List Frame),
    v.tokens.foldlM Place.next (.value outer) = some (.after v outer)
  | null, _ => rfl
  | bool _, _ => rfl
  | number _, _ => rfl
  | string _, _ => rfl
  | array [], _ => rfl
  | array (v :: vs), outer => (foldlM_firstItem outer v vs).trans (foldlM_itemTokens (v :: vs) [] outer nofun)
  | object [], _ => rfl
  | object (m :: ms), outer => (foldlM_firstName outer m ms).trans (foldlM_memberTokens (m :: ms) [] outer nofun)

theorem foldlM_itemTokens : ∀ (vs items : List Value) (outer : List Frame), vs ≠ [] →
    (itemTokens vs).foldlM Place.next (.value (.array items :: outer)) =
      some (.after (.array (items.reverse ++ vs)) outer)
  | [v], items, outer, _ => by
    have hv := foldlM_tokens v (.array items :: outer)
    simp [itemTokens, List.foldlM_append, hv, Place.next]
  | v :: w :: vs, items, outer, _ => by
    have hv := foldlM_tokens v (.array items :: outer)
    have hvs := foldlM_itemTokens (w :: vs) (v :: items) outer nofun
    simp [itemTokens, List.foldlM_append, hv, Place.next, hvs]

theorem foldlM_memberTokens : ∀ (ms members : List (Text × Value)) (outer : List Frame), ms ≠ [] →
    (memberTokens ms).foldlM Place.next (.name members outer) =
      some (.after (.object (members.reverse ++ ms)) outer)
  | [(name, v)], members, outer, _ => by
    have hv := foldlM_tokens v (.object members name :: outer)
    simp [memberTokens, List.foldlM_append, hv, Place.next]
  | (name, v) :: m :: ms, members, outer, _ => by
    have hv := foldlM_tokens v (.object members name :: outer)
    have hms := foldlM_memberTokens (m :: ms) ((name, v) :: members) outer nofun
    simp [memberTokens, List.foldlM_append, hv, Place.next, hms]

end

theorem valueOfTokens?_tokens (v : Value) : valueOfTokens? v.tokens = some v := by
  rw [valueOfTokens?, foldlM_tokens]

/-! ### Depth -/

mutual

/-- How many containers stand around the innermost scalar or empty container, itself included. -/
def depth : Value → Nat
  | array items => itemsDepth items + 1
  | object members => membersDepth members + 1
  | _ => 0

def itemsDepth : List Value → Nat
  | [] => 0
  | v :: vs => max v.depth (itemsDepth vs)

def membersDepth : List (Text × Value) → Nat
  | [] => 0
  | (_, v) :: ms => max v.depth (membersDepth ms)

end

-- A value leaves the level as it was. Inside a container the deepest level is at least that of the container.

mutual

theorem foldl_deepen_tokens : ∀ (v : Value) (level deepest : Nat), level ≤ deepest →
    v.tokens.foldl deepen (level, deepest) = (level, max deepest (level + v.depth))
  | null, _, _, h => congrArg _ (Nat.max_eq_left h).symm
  | bool _, _, _, h => congrArg _ (Nat.max_eq_left h).symm
  | number _, _, _, h => congrArg _ (Nat.max_eq_left h).symm
  | string _, _, _, h => congrArg _ (Nat.max_eq_left h).symm
  | array items, level, deepest, _ => by
    have h := foldl_deepen_itemTokens items level (max deepest (level + 1)) (Nat.le_max_right _ _)
    rw [tokens, List.foldl_cons, deepen, h, depth]
    grind
  | object members, level, deepest, _ => by
    have h := foldl_deepen_memberTokens members level (max deepest (level + 1)) (Nat.le_max_right _ _)
    rw [tokens, List.foldl_cons, deepen, h, depth]
    grind

theorem foldl_deepen_itemTokens : ∀ (vs : List Value) (level deepest : Nat), level + 1 ≤ deepest →
    (itemTokens vs).foldl deepen (level + 1, deepest) = (level, max deepest (level + 1 + itemsDepth vs))
  | [], level, deepest, h => by
    simp [itemTokens, deepen, itemsDepth]
    omega
  | [v], level, deepest, h => by
    simp [itemTokens, foldl_deepen_tokens v _ _ h, deepen, itemsDepth]
  | v :: w :: vs, level, deepest, h => by
    have hvs := foldl_deepen_itemTokens (w :: vs) level (max deepest (level + 1 + v.depth)) (by omega)
    simp [itemTokens, foldl_deepen_tokens v _ _ h, deepen, hvs, itemsDepth, Nat.max_assoc, Nat.add_max_add_left]

theorem foldl_deepen_memberTokens : ∀ (ms : List (Text × Value)) (level deepest : Nat), level + 1 ≤ deepest →
    (memberTokens ms).foldl deepen (level + 1, deepest) = (level, max deepest (level + 1 + membersDepth ms))
  | [], level, deepest, h => by
    simp [memberTokens, deepen, membersDepth]
    omega
  | [(_, v)], level, deepest, h => by
    simp [memberTokens, foldl_deepen_tokens v _ _ h, deepen, membersDepth]
  | (_, v) :: m :: ms, level, deepest, h => by
    have hms := foldl_deepen_memberTokens (m :: ms) level (max deepest (level + 1 + v.depth)) (by omega)
    simp [memberTokens, foldl_deepen_tokens v _ _ h, deepen, hms, membersDepth, Nat.max_assoc, Nat.add_max_add_left]

end

theorem nesting_tokens (v : Value) : nesting v.tokens = v.depth := by
  rw [nesting, foldl_deepen_tokens v 0 0 (Nat.le_refl 0), Nat.zero_max, Nat.zero_add]

theorem itemsDepth_le {k : Nat} {vs : List Value} : itemsDepth vs ≤ k ↔ ∀ v ∈ vs, v.depth ≤ k := by
  induction vs with
  | nil => simp [itemsDepth]
  | cons v vs ih => simp [itemsDepth, ih]

theorem membersDepth_le {k : Nat} {ms : List (Text × Value)} : membersDepth ms ≤ k ↔ ∀ m ∈ ms, m.2.depth ≤ k := by
  induction ms with
  | nil => simp [membersDepth]
  | cons m ms ih => simp [membersDepth, ih]

@[simp] theorem depth_bool (b : Bool) : (bool b).depth = 0 := rfl

@[simp] theorem depth_text (s : String) : (text s).depth = 0 := rfl

@[simp] theorem depth_binary64 (x : Binary64) : (binary64 x).depth = 0 := rfl

@[simp] theorem depth_array_le {k : Nat} {vs : List Value} : (array vs).depth ≤ k + 1 ↔ ∀ v ∈ vs, v.depth ≤ k := by
  rw [depth, Nat.add_le_add_iff_right, itemsDepth_le]

@[simp] theorem depth_record_le {k : Nat} {ms : List (String × Value)} :
    (record ms).depth ≤ k + 1 ↔ ∀ m ∈ ms, m.2.depth ≤ k := by
  rw [record, depth, Nat.add_le_add_iff_right, membersDepth_le, List.forall_mem_map]

/-! ### Strings and numbers inside -/

section Fits

variable {q : Number → Prop}

theorem forall_itemTokens : ∀ vs : List Value, (∀ t ∈ itemTokens vs, t.Fits q) ↔ ∀ v ∈ vs, v.Fits q
  | [] => iff_of_true (List.forall_mem_singleton.mpr trivial) (List.forall_mem_nil _)
  | [v] => by
    rw [itemTokens, List.forall_mem_append, List.forall_mem_singleton, List.forall_mem_singleton]
    exact and_iff_left trivial
  | v :: w :: vs => by
    rw [itemTokens, List.forall_mem_append, List.forall_mem_cons, forall_itemTokens, List.forall_mem_cons (a := v)]
    · exact and_congr_right' (and_iff_right trivial)
    · nofun

theorem forall_memberTokens : ∀ ms : List (String × Value),
    (∀ t ∈ memberTokens (ms.map fun (name, v) => (some name, v)), t.Fits q) ↔ ∀ m ∈ ms, m.2.Fits q
  | [] => iff_of_true (List.forall_mem_singleton.mpr trivial) (List.forall_mem_nil _)
  | [(name, v)] => by
    rw [List.map_singleton, memberTokens, List.forall_mem_cons, List.forall_mem_cons, List.forall_mem_append,
      List.forall_mem_singleton, List.forall_mem_singleton]
    exact (and_iff_right rfl).trans ((and_iff_right trivial).trans (and_iff_left trivial))
  | (name, v) :: m :: ms => by
    have hms := forall_memberTokens (m :: ms)
    rw [List.map_cons] at hms
    rw [List.map_cons, List.map_cons, memberTokens, List.forall_mem_cons, List.forall_mem_cons,
      List.forall_mem_append, List.forall_mem_cons, hms, List.forall_mem_cons (a := (name, v))]
    · exact (and_iff_right rfl).trans ((and_iff_right trivial).trans (and_congr_right' (and_iff_right trivial)))
    · nofun

@[simp] theorem fits_text (s : String) : (text s).Fits q := by
  simp [Fits, text, tokens, Token.Fits]

@[simp] theorem fits_symbol (c : Char) : (symbol c).Fits q :=
  fits_text _

@[simp] theorem fits_bool (b : Bool) : (bool b).Fits q := by
  simp [Fits, tokens, Token.Fits]

@[simp] theorem fits_binary64 {x : Binary64} : (binary64 x).Fits q ↔ q (Number.ofBinary64 x) := by
  simp [Fits, binary64, tokens, Token.Fits]

@[simp] theorem fits_array {vs : List Value} : (array vs).Fits q ↔ ∀ v ∈ vs, v.Fits q := by
  rw [Fits, tokens, List.forall_mem_cons, forall_itemTokens]
  simp [Token.Fits]

@[simp] theorem fits_record {ms : List (String × Value)} : (record ms).Fits q ↔ ∀ m ∈ ms, m.2.Fits q := by
  rw [Fits, record, tokens, List.forall_mem_cons, forall_memberTokens]
  simp [Token.Fits]

end Fits

/-- The numbers in the value are read as finite numbers. -/
abbrev IsFinite (v : Value) : Prop :=
  v.Fits fun n => n.binary64?.isSome

theorem all_isSound {v : Value} : v.tokens.all Token.isSound = true ↔ v.IsFinite := by
  have htoken : ∀ t : Token, t.isSound = true ↔ t.Fits fun n => n.binary64?.isSome := by
    intro t
    cases t <;> simp [Token.isSound, Token.Fits]
  simp only [List.all_eq_true, htoken]
  rfl

/-! ### Texts that spell a value -/

end Value

theorem tokens_of_spells {cs : List Char} {ts : List Token} (h : Spells cs ts) : tokens cs = some ts := by
  have hnil := h [] [] nofun
  rw [List.append_nil, List.append_nil] at hnil
  rw [tokens, hnil, tokensFrom, List.reverse_reverse]

namespace Value

/-- The text spells the value, whatever white space it has. -/
def IsSpelled (v : Value) (text : String) : Prop :=
  Spells text.toList v.tokens

variable {v : Value} {text : String}

theorem isSpelled_compactText (h : v.IsPrintable) : v.IsSpelled v.compactText := by
  rw [IsSpelled, compactText, String.toList_ofList]
  exact spells_compact h

theorem isSpelled_prettyText (h : v.IsPrintable) : v.IsSpelled v.prettyText := by
  rw [IsSpelled, prettyText, String.toList_ofList]
  exact spells_pretty 0 h

theorem IsSpelled.line (h : v.IsSpelled text) : v.IsSpelled (text ++ "\n") := by
  have hline : Spells ['\n'] [] := Spells.nil.space rfl
  rw [IsSpelled, String.toList_append]
  simpa using Spells.append h hline (Number.ends_cons (by decide) [])

theorem read?_of_isSpelled (h : v.IsSpelled text) : read? text = some v := by
  rw [read?, tokens_of_spells h, Option.bind_eq_bind, Option.bind_some, valueOfTokens?_tokens]

/-- A text that is kept whole reads as the value that it spells. -/
theorem readWhole?_of_isSpelled (h : v.IsSpelled text) (hd : v.depth ≤ deepestWhole) (hf : v.IsFinite) :
    readWhole? text = some v := by
  rw [readWhole?, tokens_of_spells h, Option.bind_eq_bind, Option.bind_some, all_isSound.mpr hf, nesting_tokens,
    Bool.true_and, if_pos (decide_eq_true hd), valueOfTokens?_tokens]

/-- A number that is too large spoils the text that it stands in. -/
theorem readWhole?_of_not_isFinite (h : v.IsSpelled text) (hf : ¬v.IsFinite) : readWhole? text = none := by
  have hsound : v.tokens.all Token.isSound = false := Bool.eq_false_iff.mpr (hf ∘ all_isSound.mp)
  rw [readWhole?, tokens_of_spells h, Option.bind_eq_bind, Option.bind_some, hsound, Bool.false_and,
    if_neg Bool.false_ne_true]

end Value

end Tapeworks.Json
