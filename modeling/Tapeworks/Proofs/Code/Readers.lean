import Tapeworks.Proofs.Code.Reading

/-! What a reader makes of the letters `a` and `b`. They start with the letters of a value, which is read, or the reader
    fails: at their end, where a value has begun and is not finished, or at a `b` where a number should begin, whatever
    follows. The parts of a rule are read so, and pairs of parts are, hence rules; and a code is read rule by rule. -/

namespace Tapeworks.Code

variable {α β : Type}

/-- The values that can be written, and their letters. -/
structure Format (α : Type) where
  Valid : α → Prop
  letters : α → List Char

abbrev Reader (α : Type) :=
  Cursor → Except DecodeError (α × Cursor)

/-- The letters in front of a further letter of a value. -/
def Format.Begun (F : Format α) (cs : List Char) : Prop :=
  ∃ a x rest, F.Valid a ∧ F.letters a = cs ++ x :: rest

/-- How reading a value from the letters fails. The last letter of a stuck reader makes it fail before any others. -/
inductive Failure (F : Format α) (read : Reader α) (cs : List Char) : Prop
  | ended (part : Part) (begun : F.Begun cs)
      (eq : ∀ p, read ⟨p, cs⟩ = .error (.unexpectedEnd (p + cs.length) part))
  | stuck (front back : List Char) (letters : cs = front ++ 'b' :: back) (begun : F.Begun front)
      (eq : ∀ p rest, read ⟨p, front ++ 'b' :: rest⟩ = .error (.zeroState (p + front.length)))

structure Reads (F : Format α) (read : Reader α) : Prop where
  value : ∀ a, F.Valid a → ∀ p rest, read ⟨p, F.letters a ++ rest⟩ = .ok (a, ⟨p + (F.letters a).length, rest⟩)
  outcome : ∀ cs, (∀ c ∈ cs, isLetter c) →
    (∃ a rest, F.Valid a ∧ cs = F.letters a ++ rest) ∨ Failure F read cs

theorem eq_a_or_eq_b {c : Char} (h : isLetter c) : c = 'a' ∨ c = 'b' := by
  simpa [isLetter] using h

/-! ### Pairs -/

section Pairs

variable {F : Format α} {G : Format β} {read : Reader α} {read' : Reader β}

def Format.pair (F : Format α) (G : Format β) : Format (α × β) where
  Valid x := F.Valid x.1 ∧ G.Valid x.2
  letters x := F.letters x.1 ++ G.letters x.2

def Reader.pair (read : Reader α) (read' : Reader β) : Reader (α × β) := fun c => do
  let (a, c) ← read c
  let (b, c) ← read' c
  return ((a, b), c)

theorem Format.Begun.left {cs : List Char} (h : F.Begun cs) (hne : ∃ b, G.Valid b) : (F.pair G).Begun cs := by
  obtain ⟨a, x, rest, ha, heq⟩ := h
  obtain ⟨b, hb⟩ := hne
  exact ⟨(a, b), x, rest ++ G.letters b, ⟨ha, hb⟩, by simp [Format.pair, heq]⟩

theorem Format.Begun.right {cs : List Char} {a : α} (h : G.Begun cs) (ha : F.Valid a) :
    (F.pair G).Begun (F.letters a ++ cs) := by
  obtain ⟨b, x, rest, hb, heq⟩ := h
  exact ⟨(a, b), x, rest, ⟨ha, hb⟩, by simp [Format.pair, heq]⟩

theorem pair_of_error {c : Cursor} {e : DecodeError} (h : read c = .error e) : read.pair read' c = .error e := by
  rw [Reader.pair, h]
  rfl

theorem Reads.pair_append (hF : Reads F read) {a : α} (ha : F.Valid a) (p : Nat) (cs : List Char) :
    read.pair read' ⟨p, F.letters a ++ cs⟩ =
      (read' ⟨p + (F.letters a).length, cs⟩).map fun x => ((a, x.1), x.2) := by
  rw [Reader.pair, hF.value a ha]
  rfl

/-- What fails in the second part fails in the pair, behind the letters of the first. -/
theorem Failure.right (hF : Reads F read) {a : α} (ha : F.Valid a) {cs : List Char} (h : Failure G read' cs) :
    Failure (F.pair G) (read.pair read') (F.letters a ++ cs) := by
  cases h with
  | ended part begun eq =>
    refine .ended part (begun.right ha) fun p => ?_
    rw [hF.pair_append ha, eq, List.length_append, Nat.add_assoc]
    rfl
  | stuck front back letters begun eq =>
    refine .stuck (F.letters a ++ front) back (by rw [letters, List.append_assoc]) (begun.right ha) fun p rest => ?_
    rw [List.append_assoc, hF.pair_append ha, eq, List.length_append, Nat.add_assoc]
    rfl

theorem Failure.left (hne : ∃ b, G.Valid b) {cs : List Char} (h : Failure F read cs) :
    Failure (F.pair G) (read.pair read') cs := by
  cases h with
  | ended part begun eq => exact .ended part (begun.left hne) fun p => pair_of_error (eq p)
  | stuck front back letters begun eq =>
    exact .stuck front back letters (begun.left hne) fun p rest => pair_of_error (eq p rest)

theorem Reads.pair (hF : Reads F read) (hG : Reads G read') (hne : ∃ b, G.Valid b) :
    Reads (F.pair G) (read.pair read') where
  value := by
    rintro ⟨a, b⟩ ⟨ha, hb⟩ p rest
    have hassoc : (F.pair G).letters (a, b) ++ rest = F.letters a ++ (G.letters b ++ rest) := List.append_assoc _ _ _
    have hlength : p + ((F.pair G).letters (a, b)).length = p + (F.letters a).length + (G.letters b).length := by
      rw [Format.pair, List.length_append, Nat.add_assoc]
    rw [hassoc, hF.pair_append ha, hG.value b hb, hlength]
    rfl
  outcome := by
    intro cs hcs
    rcases hF.outcome cs hcs with ⟨a, rest, ha, rfl⟩ | hfails
    · rcases hG.outcome rest fun c hc => hcs c (List.mem_append_right _ hc) with ⟨b, rest', hb, rfl⟩ | hfails
      · exact Or.inl ⟨(a, b), rest', ⟨ha, hb⟩, (List.append_assoc _ _ _).symm⟩
      · exact Or.inr (hfails.right hF ha)
    · exact Or.inr (hfails.left hne)

/-- The same values under other names. -/
theorem Reads.map {f : α → β} (hF : Reads F read) (hsurj : ∀ b, ∃ a, f a = b)
    (hvalid : ∀ a, G.Valid (f a) ↔ F.Valid a) (hletters : ∀ a, G.letters (f a) = F.letters a) :
    Reads G fun c => (fun x => (f x.1, x.2)) <$> read c := by
  have hbegun : ∀ {cs}, F.Begun cs → G.Begun cs := fun {cs} ⟨a, x, rest, ha, heq⟩ =>
    ⟨f a, x, rest, (hvalid a).mpr ha, (hletters a).trans heq⟩
  refine ⟨fun b hb p rest => ?_, fun cs hcs => ?_⟩
  · obtain ⟨a, rfl⟩ := hsurj b
    rw [hletters, hF.value a ((hvalid a).mp hb)]
    rfl
  · rcases hF.outcome cs hcs with ⟨a, rest, ha, rfl⟩ | ⟨part, begun, eq⟩ | ⟨front, back, letters, begun, eq⟩
    · exact Or.inl ⟨f a, rest, (hvalid a).mpr ha, by rw [hletters]⟩
    · exact Or.inr (.ended part (hbegun begun) fun p => by rw [eq]; rfl)
    · exact Or.inr (.stuck front back letters (hbegun begun) fun p rest => by rw [eq]; rfl)

end Pairs

/-! ### The parts of a rule -/

/-- A number with the `b` that ends it. -/
def Format.number : Format Nat where
  Valid n := 0 < n
  letters n := List.replicate n 'a' ++ ['b']

def Reader.number (part endPart : Part) : Reader Nat := fun c => do
  let (n, c) ← c.number part
  let (_, c) ← c.letter endPart
  return (n, c)

def Format.sign : Format Sign where
  Valid _ := True
  letters := Sign.letters

def Format.move : Format Direction where
  Valid _ := True
  letters d := [moveLetter d]

def Reader.move : Reader Direction := fun c => do
  let (x, c) ← c.letter .move
  return (ofMoveLetter x, c)

/-- Letters are a run of `a`s, which ends with them or at a `b`. -/
theorem exists_run {cs : List Char} (h : ∀ c ∈ cs, isLetter c) :
    ∃ n, cs = List.replicate n 'a' ∨ ∃ rest, cs = List.replicate n 'a' ++ 'b' :: rest := by
  induction cs with
  | nil => exact ⟨0, Or.inl rfl⟩
  | cons c cs ih =>
    rcases eq_a_or_eq_b (h c List.mem_cons_self) with rfl | rfl
    · obtain ⟨n, rfl | ⟨rest, rfl⟩⟩ := ih fun c hc => h c (List.mem_cons_of_mem _ hc)
      · exact ⟨n + 1, Or.inl rfl⟩
      · exact ⟨n + 1, Or.inr ⟨rest, rfl⟩⟩
    · exact ⟨0, Or.inr ⟨cs, rfl⟩⟩

theorem number_replicate {n : Nat} (hn : 0 < n) (part : Part) (p : Nat) :
    Cursor.number part ⟨p, List.replicate n 'a'⟩ = .ok (n, ⟨p + n, []⟩) := by
  obtain ⟨m, rfl⟩ : ∃ m, n = m + 1 := ⟨n - 1, by omega⟩
  simp [Cursor.number]

theorem reads_number (part endPart : Part) : Reads .number (.number part endPart) where
  value n hn p rest := by
    have hassoc : Format.number.letters n ++ rest = List.replicate n 'a' ++ 'b' :: rest := by simp [Format.number]
    rw [hassoc, Reader.number, Cursor.number_run hn]
    simp [Format.number, bind, Except.bind, pure, Except.pure, Cursor.letter, Nat.add_assoc]
  outcome cs hcs := by
    obtain ⟨n, hrun⟩ := exists_run hcs
    rcases Nat.eq_zero_or_pos n with rfl | hn
    · have hbegun : Format.number.Begun [] := ⟨1, 'a', ['b'], Nat.one_pos, rfl⟩
      rcases hrun with rfl | ⟨rest, rfl⟩
      · exact Or.inr (.ended part hbegun fun _ => rfl)
      · exact Or.inr (.stuck [] rest rfl hbegun fun _ _ => rfl)
    · rcases hrun with rfl | ⟨rest, rfl⟩
      · refine Or.inr (.ended endPart ⟨n, 'b', [], hn, rfl⟩ fun p => ?_)
        rw [Reader.number, number_replicate hn, List.length_replicate]
        rfl
      · exact Or.inl ⟨n, rest, hn, by simp [Format.number]⟩

theorem exists_sign {x y : Char} (hx : isLetter x) (hy : isLetter y) : ∃ s : Sign, s.letters = [x, y] := by
  rcases eq_a_or_eq_b hx with rfl | rfl <;> rcases eq_a_or_eq_b hy with rfl | rfl
  · exact ⟨.a, rfl⟩
  · exact ⟨.b, rfl⟩
  · exact ⟨.blank, rfl⟩
  · exact ⟨.hash, rfl⟩

theorem reads_sign (part : Part) : Reads .sign (Cursor.sign part) where
  value s _ p rest := by
    cases s <;> rfl
  outcome cs hcs := by
    match cs with
    | [] => exact Or.inr (.ended part ⟨.a, 'a', ['a'], trivial, rfl⟩ fun _ => rfl)
    | [x] =>
      obtain ⟨s, hs⟩ := exists_sign (hcs x List.mem_cons_self) (rfl : isLetter 'a')
      exact Or.inr (.ended part ⟨s, 'a', [], trivial, hs⟩ fun _ => rfl)
    | x :: y :: rest =>
      obtain ⟨s, hs⟩ := exists_sign (hcs x List.mem_cons_self) (hcs y (List.mem_cons_of_mem _ List.mem_cons_self))
      exact Or.inl ⟨s, rest, trivial, by simp [Format.sign, hs]⟩

theorem reads_move : Reads .move .move where
  value d _ p rest := by
    cases d <;> rfl
  outcome cs hcs := by
    match cs with
    | [] => exact Or.inr (.ended .move ⟨.left, 'a', [], trivial, rfl⟩ fun _ => rfl)
    | x :: rest =>
      rcases eq_a_or_eq_b (hcs x List.mem_cons_self) with rfl | rfl
      · exact Or.inl ⟨.left, rest, trivial, rfl⟩
      · exact Or.inl ⟨.right, rest, trivial, rfl⟩

/-! ### Rules -/

def Format.rule : Format Rule where
  Valid := Rule.Positive
  letters := Rule.letters

def Rule.ofParts (x : Nat × Nat × Sign × Sign × Direction) : Rule where
  source := x.1
  target := x.2.1
  read := x.2.2.1
  write := x.2.2.2.1
  direction := x.2.2.2.2

def Reader.parts : Reader (Nat × Nat × Sign × Sign × Direction) :=
  (Reader.number .source .sourceEnd).pair ((Reader.number .target .targetEnd).pair
    (Reader.pair (Cursor.sign .read) (Reader.pair (Cursor.sign .write) .move)))

theorem rule_eq_parts (c : Cursor) : c.rule = (fun x => (Rule.ofParts x.1, x.2)) <$> Reader.parts c := by
  simp only [Cursor.rule, Reader.parts, Reader.pair, Reader.number, Reader.move, bind_assoc, pure_bind, map_bind,
    map_pure]
  rfl

theorem reads_rule : Reads .rule Cursor.rule := by
  have hparts := (reads_number .source .sourceEnd).pair ((reads_number .target .targetEnd).pair
    ((reads_sign .read).pair ((reads_sign .write).pair reads_move ⟨.left, trivial⟩) ⟨(.a, .left), trivial, trivial⟩)
    ⟨(.a, .a, .left), trivial, trivial, trivial⟩) ⟨(1, .a, .a, .left), Nat.one_pos, trivial, trivial, trivial⟩
  have hrule : Reads .rule fun c => (fun x => (Rule.ofParts x.1, x.2)) <$> Reader.parts c := by
    refine hparts.map (fun r => ⟨(r.source, r.target, r.read, r.write, r.direction), rfl⟩) (fun x => ?_) fun x => ?_
    · simp [Format.rule, Format.pair, Format.number, Format.sign, Format.move, Rule.ofParts, Rule.Positive]
    · simp [Format.rule, Format.pair, Format.number, Format.sign, Format.move, Rule.ofParts, Rule.letters]
  rwa [← funext rule_eq_parts] at hrule

end Tapeworks.Code
