import Mathlib.Data.List.Basic
import Mathlib.Data.List.Forall2
import Tapeworks.Label
import Tapeworks.Proofs.Text.Space

/-! The grammar of labels as parsing expressions: ordered choice, repetition that takes all it can get, and nothing
    skipped between. A label is never refused, and what is parsed are its specs and their fields: the parts between
    semicolons, and in them the parts between commas. -/

namespace Tapeworks.Label

/-! ### Parsing expressions -/

/-- What a parsed part of a label is. -/
inductive Kind
  | label
  | spec
  | field
  | finish
  deriving DecidableEq, Repr

inductive Pattern
  | start
  | any
  | char (c : Char)
  | seq (first second : Pattern)
  | either (first second : Pattern)
  | many (body : Pattern)
  | absent (body : Pattern)
  | node (kind : Kind) (body : Pattern)

inductive Tree
  | node (kind : Kind) (text : List Char) (children : List Tree)

namespace Tree

def kind : Tree → Kind
  | node kind _ _ => kind

def text : Tree → List Char
  | node _ text _ => text

def children : Tree → List Tree
  | node _ _ children => children

end Tree

/-- The text that a pattern matches, the trees of its nodes, and the rest of the text. -/
structure Match where
  text : List Char
  trees : List Tree
  rest : List Char

/-- The outcome of a pattern on the rest of a text when `front` comes before it: a match, or none. -/
inductive Parses : Pattern → List Char → List Char → Option Match → Prop
  | start {cs} : Parses .start [] cs (some ⟨[], [], cs⟩)
  | started {c front cs} : Parses .start (c :: front) cs none
  | any {front c cs} : Parses .any front (c :: cs) (some ⟨[c], [], cs⟩)
  | anyEnd {front} : Parses .any front [] none
  | char {c front cs} : Parses (.char c) front (c :: cs) (some ⟨[c], [], cs⟩)
  | charOther {c x front cs} (h : x ≠ c) : Parses (.char c) front (x :: cs) none
  | charEnd {c front} : Parses (.char c) front [] none
  | seq {p q front cs m n} (hp : Parses p front cs (some m)) (hq : Parses q (front ++ m.text) m.rest (some n)) :
      Parses (.seq p q) front cs (some ⟨m.text ++ n.text, m.trees ++ n.trees, n.rest⟩)
  | seqFirst {p q front cs} (hp : Parses p front cs none) : Parses (.seq p q) front cs none
  | seqSecond {p q front cs m} (hp : Parses p front cs (some m)) (hq : Parses q (front ++ m.text) m.rest none) :
      Parses (.seq p q) front cs none
  | eitherFirst {p q front cs m} (hp : Parses p front cs (some m)) : Parses (.either p q) front cs (some m)
  | eitherSecond {p q front cs r} (hp : Parses p front cs none) (hq : Parses q front cs r) :
      Parses (.either p q) front cs r
  | manyDone {p front cs} (hp : Parses p front cs none) : Parses (.many p) front cs (some ⟨[], [], cs⟩)
  | manyMore {p front cs m n} (hp : Parses p front cs (some m))
      (hq : Parses (.many p) (front ++ m.text) m.rest (some n)) :
      Parses (.many p) front cs (some ⟨m.text ++ n.text, m.trees ++ n.trees, n.rest⟩)
  | absent {p front cs} (hp : Parses p front cs none) : Parses (.absent p) front cs (some ⟨[], [], cs⟩)
  | present {p front cs m} (hp : Parses p front cs (some m)) : Parses (.absent p) front cs none
  | node {kind p front cs m} (hp : Parses p front cs (some m)) :
      Parses (.node kind p) front cs (some ⟨m.text, [.node kind m.text m.trees], m.rest⟩)
  | nodeNone {kind p front cs} (hp : Parses p front cs none) : Parses (.node kind p) front cs none

variable {front cs rest : List Char}

theorem Parses.unique {p : Pattern} {r r' : Option Match} (h : Parses p front cs r) (h' : Parses p front cs r') :
    r = r' := by
  induction h generalizing r' with
  | start | started | any | anyEnd | char | charEnd =>
    cases h'
    all_goals first | rfl | contradiction
  | charOther hne =>
    cases h' with
    | char => exact absurd rfl hne
    | charOther => rfl
  | seq _ _ ihp ihq =>
    cases h' with
    | seq hp hq =>
      cases ihp hp
      cases ihq hq
      rfl
    | seqFirst hp => cases ihp hp
    | seqSecond hp hq =>
      cases ihp hp
      cases ihq hq
  | seqFirst _ ihp =>
    cases h' with
    | seq hp | seqSecond hp => cases ihp hp
    | seqFirst => rfl
  | seqSecond _ _ ihp ihq =>
    cases h' with
    | seq hp hq =>
      cases ihp hp
      cases ihq hq
    | seqFirst | seqSecond => rfl
  | eitherFirst _ ihp =>
    cases h' with
    | eitherFirst hp => exact ihp hp
    | eitherSecond hp => cases ihp hp
  | eitherSecond _ _ ihp ihq =>
    cases h' with
    | eitherFirst hp => cases ihp hp
    | eitherSecond _ hq => exact ihq hq
  | manyDone _ ihp =>
    cases h' with
    | manyDone => rfl
    | manyMore hp => cases ihp hp
  | manyMore _ _ ihp ihq =>
    cases h' with
    | manyDone hp => cases ihp hp
    | manyMore hp hq =>
      cases ihp hp
      cases ihq hq
      rfl
  | absent _ ihp =>
    cases h' with
    | absent => rfl
    | present hp => cases ihp hp
  | present _ ihp =>
    cases h' with
    | absent hp => cases ihp hp
    | present => rfl
  | node _ ihp =>
    cases h' with
    | node hp =>
      cases ihp hp
      rfl
    | nodeNone hp => cases ihp hp
  | nodeNone _ ihp =>
    cases h' with
    | node hp => cases ihp hp
    | nodeNone => rfl

/-! ### The grammar -/

namespace Grammar

/-- The end of the text, which leaves a node of its own. -/
def finish : Pattern :=
  .node .finish (.absent .any)

def field : Pattern :=
  .node .field (.many (.seq (.absent (.either (.char ',') (.char ';'))) .any))

/-- One or more of a pattern, with separators between them. -/
def separated (sep : Char) (p : Pattern) : Pattern :=
  .seq p (.many (.seq (.char sep) p))

def spec : Pattern :=
  .node .spec (separated ',' field)

def label : Pattern :=
  .node .label (.seq .start (.seq (separated ';' spec) finish))

end Grammar

def fieldTree (field : List Char) : Tree :=
  .node .field field []

def specTree (spec : List Char) : Tree :=
  .node .spec spec ((spec.splitOn ',').map fieldTree)

def labelTree (label : List Char) : Tree :=
  .node .label label ((label.splitOn ';').map specTree ++ [.node .finish [] []])

/-- The spec of a node: its text, and the texts of its fields without white space around them. -/
def Spec.ofTree (tree : Tree) : Spec where
  text := String.ofList tree.text
  fields := (tree.children.filter (·.kind = .field)).map fun child => String.ofList (Text.trim child.text)

/-- The specs among the nodes of a label. -/
def specsOfTree (tree : Tree) : List Spec :=
  (tree.children.filter (·.kind = .spec)).map Spec.ofTree

theorem specsOfTree_labelTree (label : String) : specsOfTree (labelTree label.toList) = specs label := by
  have hfields : ∀ fields : List (List Char), (fields.map fieldTree).filter (·.kind = .field) = fields.map fieldTree :=
    fun fields => List.filter_eq_self.mpr (by simp [fieldTree, Tree.kind])
  have hspecs : ∀ texts : List (List Char), (texts.map specTree).filter (·.kind = .spec) = texts.map specTree :=
    fun texts => List.filter_eq_self.mpr (by simp [specTree, Tree.kind])
  have hspec : ∀ text, Spec.ofTree (specTree text) = Spec.ofText text := fun text => by
    rw [Spec.ofTree, Spec.ofText, specTree, Tree.children, hfields, List.map_map]
    rfl
  rw [specsOfTree, labelTree, Tree.children, List.filter_append, hspecs]
  simp [Tree.kind, specs, hspec]

/-! ### Labels parse -/

/-- The text goes on with nothing, or with a separator. -/
def Stops (separators cs : List Char) : Prop :=
  ∀ c ∈ cs.head?, c ∈ separators

theorem mem_of_mem_splitOn {a c : Char} {part : List Char} (h : part ∈ cs.splitOn a) (hc : c ∈ part) :
    c ∈ cs ∧ c ≠ a := by
  induction cs generalizing part with
  | nil =>
    rw [List.splitOn_nil, List.mem_singleton] at h
    rw [h] at hc
    exact absurd hc List.not_mem_nil
  | cons x cs ih =>
    rw [List.splitOn_cons_eq_if_modifyHead] at h
    split at h
    · rcases List.mem_cons.mp h with rfl | h
      · exact absurd hc List.not_mem_nil
      · exact ⟨List.mem_cons_of_mem _ (ih h hc).1, (ih h hc).2⟩
    · rename_i hx
      obtain ⟨head, parts, hparts⟩ := List.exists_cons_of_ne_nil (List.splitOn_ne_nil a cs)
      rw [hparts, List.modifyHead_cons] at h
      rcases List.mem_cons.mp h with rfl | h
      · rcases List.mem_cons.mp hc with rfl | hc
        · exact ⟨List.mem_cons_self, by simpa using hx⟩
        · have hmem := ih (hparts ▸ List.mem_cons_self) hc
          exact ⟨List.mem_cons_of_mem _ hmem.1, hmem.2⟩
      · have hmem := ih (hparts ▸ List.mem_cons_of_mem _ h) hc
        exact ⟨List.mem_cons_of_mem _ hmem.1, hmem.2⟩

theorem parses_absent_separator (hstops : Stops [',', ';'] rest) :
    Parses (.seq (.absent (.either (.char ',') (.char ';'))) .any) front rest none := by
  match rest with
  | [] => exact .seqSecond (.absent (.eitherSecond .charEnd .charEnd)) .anyEnd
  | c :: rest =>
    have hc : c = ',' ∨ c = ';' := by simpa using hstops c rfl
    rcases hc with rfl | rfl
    · exact .seqFirst (.present (.eitherFirst .char))
    · exact .seqFirst (.present (.eitherSecond (.charOther (by decide)) .char))

theorem parses_field {field : List Char} (h : ∀ c ∈ field, c ≠ ',' ∧ c ≠ ';') (hstops : Stops [',', ';'] rest)
    (front : List Char) : Parses Grammar.field front (field ++ rest) (some ⟨field, [fieldTree field], rest⟩) := by
  suffices hmany : ∀ front, Parses (.many (.seq (.absent (.either (.char ',') (.char ';'))) .any)) front
      (field ++ rest) (some ⟨field, [], rest⟩) from .node (hmany front)
  induction field with
  | nil => exact fun front => .manyDone (parses_absent_separator hstops)
  | cons c field ih =>
    intro front
    obtain ⟨hcomma, hsemicolon⟩ := h c List.mem_cons_self
    have hone : Parses (.seq (.absent (.either (.char ',') (.char ';'))) .any) front (c :: (field ++ rest))
        (some ⟨[c], [], field ++ rest⟩) :=
      .seq (.absent (.eitherSecond (.charOther hcomma) (.charOther hsemicolon))) .any
    exact .manyMore hone (ih (fun c hc => h c (List.mem_cons_of_mem _ hc)) _)

/-- Items behind separators are parsed one by one, if each is parsed wherever the text stops behind it. -/
theorem parses_separated {p : Pattern} {sep : Char} {seps : List Char} {tree : List Char → Tree}
    {items : List (List Char)} (hsep : sep ∈ seps) (hstops : Stops seps rest) (hother : ∀ c ∈ rest.head?, c ≠ sep)
    (h : ∀ item ∈ items, ∀ front rest, Stops seps rest → Parses p front (item ++ rest) (some ⟨item, [tree item], rest⟩))
    (front : List Char) : Parses (.many (.seq (.char sep) p)) front (items.flatMap (sep :: ·) ++ rest)
      (some ⟨items.flatMap (sep :: ·), items.map tree, rest⟩) := by
  induction items generalizing front with
  | nil =>
    refine .manyDone (.seqFirst ?_)
    match rest with
    | [] => exact .charEnd
    | c :: rest => exact .charOther (hother c rfl)
  | cons item items ih =>
    have hnext : Stops seps (items.flatMap (sep :: ·) ++ rest) := by
      cases items with
      | nil => exact hstops
      | cons item items => simpa [Stops] using hsep
    have hone : Parses (.seq (.char sep) p) front (sep :: (item ++ (items.flatMap (sep :: ·) ++ rest)))
        (some ⟨sep :: item, [tree item], items.flatMap (sep :: ·) ++ rest⟩) :=
      .seq .char (h item List.mem_cons_self _ _ hnext)
    have hrest := ih (fun item hitem => h item (List.mem_cons_of_mem _ hitem)) (front ++ sep :: item)
    have happend : (item :: items).flatMap (sep :: ·) ++ rest =
        sep :: (item ++ (items.flatMap (sep :: ·) ++ rest)) := by simp
    rw [happend]
    exact .manyMore hone hrest

theorem splitOn_eq_cons (sep : Char) (cs : List Char) :
    ∃ first others, cs.splitOn sep = first :: others ∧ cs = first ++ others.flatMap (sep :: ·) := by
  obtain ⟨first, others, hsplit⟩ := List.exists_cons_of_ne_nil (List.splitOn_ne_nil sep cs)
  refine ⟨first, others, hsplit, ?_⟩
  have hjoin : ∀ (first : List Char) (others : List (List Char)),
      [sep].intercalate (first :: others) = first ++ others.flatMap (sep :: ·) := by
    intro first others
    induction others generalizing first with
    | nil => simp [List.intercalate]
    | cons next others ih => simp [List.intercalate_cons_cons, ih]
  rw [← hjoin, ← hsplit, List.intercalate_splitOn]

/-- A text is parsed as its parts between separators, if each part is parsed wherever the text stops behind it. -/
theorem parses_splitOn {p : Pattern} {sep : Char} {seps : List Char} {tree : List Char → Tree} (hsep : sep ∈ seps)
    (hstops : Stops seps rest) (hother : ∀ c ∈ rest.head?, c ≠ sep)
    (h : ∀ item ∈ cs.splitOn sep, ∀ front rest, Stops seps rest →
      Parses p front (item ++ rest) (some ⟨item, [tree item], rest⟩)) (front : List Char) :
    Parses (Grammar.separated sep p) front (cs ++ rest) (some ⟨cs, (cs.splitOn sep).map tree, rest⟩) := by
  obtain ⟨first, others, hsplit, hcs⟩ := splitOn_eq_cons sep cs
  rw [hsplit] at h ⊢
  clear hsplit
  subst hcs
  have hnext : Stops seps (others.flatMap (sep :: ·) ++ rest) := by
    cases others with
    | nil => exact hstops
    | cons => simpa [Stops] using hsep
  have hothers := parses_separated hsep hstops hother (fun item hitem => h item (List.mem_cons_of_mem _ hitem))
    (front ++ first)
  rw [List.append_assoc]
  exact .seq (h first List.mem_cons_self front _ hnext) hothers

theorem parses_spec {spec : List Char} (h : ∀ c ∈ spec, c ≠ ';') (hstops : Stops [';'] rest) (front : List Char) :
    Parses Grammar.spec front (spec ++ rest) (some ⟨spec, [specTree spec], rest⟩) := by
  have hstops' : Stops [',', ';'] rest := fun c hc => List.mem_cons_of_mem _ (hstops c hc)
  have hother : ∀ c ∈ rest.head?, c ≠ ',' := fun c hc => by
    rw [List.mem_singleton.mp (hstops c hc)]
    decide
  refine .node (parses_splitOn List.mem_cons_self hstops' hother (fun field hfield front rest hstops => ?_) front)
  refine parses_field (fun c hc => ?_) hstops front
  obtain ⟨hmem, hcomma⟩ := mem_of_mem_splitOn hfield hc
  exact ⟨hcomma, h c hmem⟩

theorem parses_label (cs : List Char) : Parses Grammar.label [] cs (some ⟨cs, [labelTree cs], []⟩) := by
  have hspecs : Parses (Grammar.separated ';' Grammar.spec) [] (cs ++ [])
      (some ⟨cs, (cs.splitOn ';').map specTree, []⟩) := by
    refine parses_splitOn (List.mem_singleton_self ';') (by simp [Stops]) (by simp) (fun spec hspec front rest => ?_) []
    exact fun hstops => parses_spec (fun c hc => (mem_of_mem_splitOn hspec hc).2) hstops front
  have hfinish : Parses Grammar.finish cs [] (some ⟨[], [.node .finish [] []], []⟩) := .node (.absent .anyEnd)
  rw [List.append_nil] at hspecs
  have hlabel := Parses.seq .start (.seq hspecs hfinish)
  rw [List.append_nil] at hlabel
  exact .node hlabel

/-- A label is never refused, and the specs that are parsed are those between its semicolons. -/
theorem parses_label_iff {label : String} {outcome : Option Match} : Parses Grammar.label [] label.toList outcome ↔
    outcome = some ⟨label.toList, [labelTree label.toList], []⟩ :=
  ⟨fun h => h.unique (parses_label _), fun h => h ▸ parses_label _⟩

/-! ### What is parsed -/

/-- The specs are the parts of the label between semicolons, and their fields are the parts of a spec between commas,
    without white space around them. -/
structure Divides (label : String) (parsed : List Spec) : Prop where
  texts : parsed.map (·.text.toList) = label.toList.splitOn ';'
  joined : String.intercalate ";" (parsed.map (·.text)) = label
  fields : ∀ spec ∈ parsed, List.Forall₂ Text.Trims (spec.text.toList.splitOn ',') (spec.fields.map String.toList)
  specCount : parsed.length = label.toList.count ';' + 1
  fieldCount : ∀ spec ∈ parsed, spec.fields.length = spec.text.toList.count ',' + 1

theorem length_splitOn (a : Char) (cs : List Char) : (cs.splitOn a).length = cs.count a + 1 := by
  induction cs with
  | nil => rfl
  | cons c cs ih =>
    rw [List.splitOn_cons_eq_if_modifyHead, List.count_cons]
    split
    · rw [List.length_cons, ih]
    · rw [List.length_modifyHead, ih, Nat.add_zero]

theorem map_text_specs (label : String) : (specs label).map (·.text.toList) = label.toList.splitOn ';' := by
  rw [specs, List.map_map]
  exact (List.map_congr_left fun cs _ => String.toList_ofList).trans (List.map_id _)

theorem intercalate_text_specs (label : String) : String.intercalate ";" ((specs label).map (·.text)) = label := by
  refine String.toList_inj.mp ?_
  rw [String.toList_intercalate, List.map_map]
  exact (congrArg _ (map_text_specs label)).trans (List.intercalate_splitOn ';')

theorem Spec.fields_ofText (cs : List Char) :
    (Spec.ofText cs).fields.map String.toList = (cs.splitOn ',').map Text.trim := by
  rw [Spec.ofText, List.map_map]
  exact List.map_congr_left fun field _ => String.toList_ofList

theorem divides_specs (label : String) : Divides label (specs label) where
  texts := map_text_specs label
  joined := intercalate_text_specs label
  fields spec hspec := by
    obtain ⟨cs, -, rfl⟩ := List.mem_map.mp hspec
    rw [Spec.fields_ofText, Spec.ofText, String.toList_ofList]
    exact List.forall₂_map_right_iff.mpr (List.forall₂_same.mpr fun field _ => Text.trims_trim field)
  specCount := by rw [specs, List.length_map, length_splitOn]
  fieldCount spec hspec := by
    obtain ⟨cs, -, rfl⟩ := List.mem_map.mp hspec
    rw [Spec.ofText, List.length_map, length_splitOn, String.toList_ofList]

/-- The grammar takes every label as a whole, in one way, and divides it at its semicolons and commas. -/
theorem exists_divides (label : String) : ∃ tree,
    (∀ outcome, Parses Grammar.label [] label.toList outcome ↔ outcome = some ⟨label.toList, [tree], []⟩) ∧
    specsOfTree tree = specs label ∧ Divides label (specsOfTree tree) := by
  refine ⟨labelTree label.toList, fun outcome => parses_label_iff, specsOfTree_labelTree label, ?_⟩
  rw [specsOfTree_labelTree]
  exact divides_specs label

theorem exists_divides_spaced : ∃ tree, Parses Grammar.label [] " a ,,>;".toList (some ⟨" a ,,>;".toList, [tree], []⟩) ∧
    specsOfTree tree = [⟨" a ,,>", ["a", "", ">"]⟩, ⟨"", [""]⟩] ∧
    List.Forall₂ Text.Trims [" a ".toList, [], ['>']] [['a'], [], ['>']] := by
  obtain ⟨tree, hparses, hspecs, hdivides⟩ := exists_divides " a ,,>;"
  have hspecs : specsOfTree tree = [⟨" a ,,>", ["a", "", ">"]⟩, ⟨"", [""]⟩] := hspecs
  have hfirst : ⟨" a ,,>", ["a", "", ">"]⟩ ∈ specsOfTree tree := hspecs ▸ List.mem_cons_self
  exact ⟨tree, (hparses _).mpr rfl, hspecs, hdivides.fields _ hfirst⟩

end Tapeworks.Label
