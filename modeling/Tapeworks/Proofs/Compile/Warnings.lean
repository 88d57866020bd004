import Mathlib.Data.List.Pairwise
import Tapeworks.Proofs.Compile.Conservation

/-! The order of the warnings. They come edge by edge, but of one label the flawed specs come first and the repeated rules
    after them, each in the order of the specs. So the warnings are in the order of the dropped parts just when no
    repeated rule stands before a flawed spec of its label. -/

namespace Tapeworks

/-! ### Dropped parts -/

/-- A dropped part of a diagram, with the index of its edge and that of its spec in the label. An edge that is dropped as
    a whole counts as its first spec. -/
structure Drop where
  edge : Nat
  spec : Nat
  warning : Warning

namespace Drop

def isRepeat (x : Drop) : Bool :=
  x.warning.isRepeat

/-- The part stands before the other one in the diagram. -/
def Before (x y : Drop) : Prop :=
  x.edge < y.edge ∨ x.edge = y.edge ∧ x.spec < y.spec

/-- The part is met before the other one: the edges come in order, and of an edge flawed specs before repeated rules. -/
def MetBefore (x y : Drop) : Prop :=
  x.edge < y.edge ∨ x.edge = y.edge ∧
    (¬x.isRepeat ∧ y.isRepeat ∨ x.isRepeat = y.isRepeat ∧ x.spec < y.spec)

end Drop

namespace Diagram

/-- All specs on the edges before the one with the index. -/
def itemsBefore (d : Diagram) (i : Nat) : List Item :=
  (d.edges.take i).flatMap d.itemsOf

/-- The diagram has the part, and it is dropped. -/
def Drops (d : Diagram) (x : Drop) : Prop :=
  ∃ e, d.edges[x.edge]? = some e ∧ (x.spec = 0 ∧ d.dangling? e = some x.warning ∨
    ∃ item, (d.itemsOf e)[x.spec]? = some item ∧
      item.fate (d.itemsBefore x.edge ++ (d.itemsOf e).take x.spec) = .dropped x.warning)

/-- The warnings are those of dropped parts that come in the order of the diagram. -/
def InOrder (d : Diagram) (warnings : List Warning) : Prop :=
  ∃ drops : List Drop, drops.map (·.warning) = warnings ∧ (∀ x ∈ drops, d.Drops x) ∧ drops.Pairwise Drop.Before

/-- The dropped parts of the edge with the index, in order. -/
def dropsOf (d : Diagram) (e : Edge) (i : Nat) : List Drop :=
  (d.dangling? e).toList.map (Drop.mk i 0) ++ (d.itemsOf e).zipIdx.filterMap fun x =>
    (x.1.fate (d.itemsBefore i ++ (d.itemsOf e).take x.2)).warning?.map (Drop.mk i x.2)

/-- The dropped parts of the diagram, in order. -/
def drops (d : Diagram) : List Drop :=
  d.edges.zipIdx.flatMap fun x => d.dropsOf x.1 x.2

/-- The dropped parts of an edge as they are met. -/
def metOf (d : Diagram) (e : Edge) (i : Nat) : List Drop :=
  (d.dropsOf e i).filter (!·.isRepeat) ++ (d.dropsOf e i).filter (·.isRepeat)

/-- The dropped parts of the diagram as they are met. -/
def met (d : Diagram) : List Drop :=
  d.edges.zipIdx.flatMap fun x => d.metOf x.1 x.2

end Diagram

variable {d : Diagram} {e : Edge} {i : Nat} {x y : Drop} {before xs : List Item}

/-! ### Warnings of one edge -/

theorem Item.fates_eq_map_zipIdx (before xs : List Item) :
    fates before xs = xs.zipIdx.map fun x => x.1.fate (before ++ xs.take x.2) := by
  induction xs using List.reverseRecOn with
  | nil => rfl
  | append_singleton xs x ih =>
    have hold : ∀ y ∈ xs.zipIdx, y.1.fate (before ++ (xs ++ [x]).take y.2) = y.1.fate (before ++ xs.take y.2) :=
      fun y hy => by
        have hlt : y.2 < xs.length := List.snd_lt_of_mem_zipIdx hy
        rw [List.take_append_of_le_length (Nat.le_of_lt hlt)]
    rw [fates_concat, List.zipIdx_append, List.map_append, List.map_congr_left hold, ← ih]
    simp

theorem map_warning_dropsOf (d : Diagram) (e : Edge) (i : Nat) : (d.dropsOf e i).map (·.warning) =
    (d.dangling? e).toList ++ (Item.fates (d.itemsBefore i) (d.itemsOf e)).filterMap Fate.warning? := by
  rw [Diagram.dropsOf, List.map_append, List.map_map, List.map_filterMap, Item.fates_eq_map_zipIdx, List.filterMap_map]
  congr 1
  · exact List.map_id _
  · refine List.filterMap_congr fun x _ => ?_
    rw [Function.comp_apply, Option.map_map]
    exact Option.map_id' ..

theorem isRepeat_of_dangling? {w : Warning} (h : d.dangling? e = some w) : w.isRepeat = false := by
  have hdangling := Diagram.isDangling_of_dangling? h
  cases w with
  | duplicateSymbol edge state symbol => cases hdangling
  | _ => rfl

/-- What an edge adds to the warnings are those of its dropped parts as they are met. -/
theorem warningsOf_eq {taken : List (String × Char)}
    (htaken : ∀ k, some k ∈ (d.itemsBefore i).map Item.key? ↔ k ∈ taken) :
    d.warningsOf taken e = (d.metOf e i).map (·.warning) := by
  have hfilter : ∀ p : Warning → Bool, ((d.dropsOf e i).filter fun x => p x.warning).map (·.warning) =
      ((d.dangling? e).toList ++ (Item.fates (d.itemsBefore i) (d.itemsOf e)).filterMap Fate.warning?).filter p :=
    fun p => by rw [← map_warning_dropsOf, List.filter_map]; rfl
  rw [Diagram.metOf, List.map_append]
  refine Eq.trans ?_ (congrArg₂ (· ++ ·) (hfilter fun w => !w.isRepeat) (hfilter Warning.isRepeat)).symm
  by_cases he : d.Attached e
  · obtain ⟨s, target, hs, ht, hitems⟩ := Diagram.itemsOf_of_attached he
    obtain ⟨hflawed, hrepeated⟩ := filter_warning?_fates e target (Label.specs e.label) htaken
    rw [Diagram.dangling?_eq_none_iff.mpr he, Option.toList_none, List.nil_append, hitems, hflawed, hrepeated,
      Diagram.warningsOf, Diagram.offersOf, hs, ht]
    rfl
  · obtain ⟨w, hdangling, hwarnings⟩ := Diagram.warningsOf_of_not_attached he taken
    rw [hdangling, hwarnings, Diagram.itemsOf_of_not_attached he]
    simp [Item.fates, isRepeat_of_dangling? hdangling]

/-! ### Warnings of the diagram -/

theorem compileEdges_warnings_eq (edges rest : List Edge) (hedges : d.edges = edges ++ rest) :
    (d.compileEdges edges).warnings.toList =
      (edges.zipIdx.flatMap fun x => d.metOf x.1 x.2).map (·.warning) := by
  induction edges using List.reverseRecOn generalizing rest with
  | nil => rfl
  | append_singleton edges e ih =>
    have hbefore : d.itemsBefore edges.length = edges.flatMap d.itemsOf := by
      rw [Diagram.itemsBefore, hedges, List.append_assoc, List.take_left]
    have htaken : ∀ k, some k ∈ (d.itemsBefore edges.length).map Item.key? ↔
        k ∈ (edges.flatMap d.offersOf).map Offer.key := fun k => by
      rw [hbefore, Item.mem_keys, Diagram.filterMap_offer?_items]
    rw [Diagram.compileEdges_warnings_concat, ih ([e] ++ rest) (by rw [hedges, List.append_assoc]),
      warningsOf_eq htaken, List.zipIdx_append, List.flatMap_append, List.map_append]
    simp

/-- The warnings are those of the dropped parts as they are met. -/
theorem warnings_compile_eq (d : Diagram) : (compile d).warnings.toList = d.met.map (·.warning) :=
  compileEdges_warnings_eq d.edges [] (List.append_nil _).symm

/-! ### Places of the dropped parts -/

theorem warning?_eq_some_iff {fate : Fate} {w : Warning} : fate.warning? = some w ↔ fate = .dropped w := by
  cases fate <;> simp [Fate.warning?]

theorem mem_dropsOf (h : d.edges[i]? = some e) : x ∈ d.dropsOf e i ↔ d.Drops x ∧ x.edge = i := by
  rw [Diagram.dropsOf, List.mem_append, List.mem_map, List.mem_filterMap]
  constructor
  · rintro (⟨w, hw, rfl⟩ | ⟨⟨item, j⟩, hitem, hx⟩)
    · exact ⟨⟨e, h, Or.inl ⟨rfl, Option.mem_toList.mp hw⟩⟩, rfl⟩
    · obtain ⟨w, hw, rfl⟩ := Option.map_eq_some_iff.mp hx
      refine ⟨⟨e, h, Or.inr ⟨item, List.mk_mem_zipIdx_iff_getElem?.mp hitem, warning?_eq_some_iff.mp hw⟩⟩, rfl⟩
  · rintro ⟨⟨e', he', hdropped⟩, rfl⟩
    cases h.symm.trans he'
    rcases hdropped with ⟨hspec, hw⟩ | ⟨item, hitem, hfate⟩
    · exact Or.inl ⟨x.warning, Option.mem_toList.mpr hw, by rw [← hspec]⟩
    · refine Or.inr ⟨(item, x.spec), List.mk_mem_zipIdx_iff_getElem?.mpr hitem, ?_⟩
      rw [warning?_eq_some_iff.mpr hfate]
      rfl

theorem mem_drops : x ∈ d.drops ↔ d.Drops x := by
  rw [Diagram.drops, List.mem_flatMap]
  constructor
  · rintro ⟨⟨e, i⟩, he, hx⟩
    exact ((mem_dropsOf (List.mk_mem_zipIdx_iff_getElem?.mp he)).mp hx).1
  · intro hx
    obtain ⟨e, he, -⟩ := id hx
    exact ⟨(e, x.edge), List.mk_mem_zipIdx_iff_getElem?.mpr he, (mem_dropsOf he).mpr ⟨hx, rfl⟩⟩

theorem edge_of_mem_dropsOf (h : x ∈ d.dropsOf e i) : x.edge = i := by
  rcases List.mem_append.mp h with h | h
  · obtain ⟨w, -, rfl⟩ := List.mem_map.mp h
    rfl
  · obtain ⟨y, -, hx⟩ := List.mem_filterMap.mp h
    obtain ⟨w, -, rfl⟩ := Option.map_eq_some_iff.mp hx
    rfl

theorem mem_metOf : x ∈ d.metOf e i ↔ x ∈ d.dropsOf e i :=
  (List.perm_append_comm.trans (List.filter_append_perm _ _)).mem_iff

theorem met_perm (d : Diagram) : d.met.Perm d.drops :=
  List.Perm.flatMap_left _ fun _ _ => List.perm_append_comm.trans (List.filter_append_perm _ _)

/-- The dropped parts of an edge are in order. -/
theorem pairwise_dropsOf (d : Diagram) (e : Edge) (i : Nat) : (d.dropsOf e i).Pairwise fun x y => x.spec < y.spec := by
  by_cases he : d.Attached e
  · rw [Diagram.dropsOf, Diagram.dangling?_eq_none_iff.mpr he, Option.toList_none, List.map_nil, List.nil_append,
      List.pairwise_filterMap]
    refine (pairwise_zipIdx _).imp fun {a b} hab x hx y hy => ?_
    obtain ⟨w, -, rfl⟩ := Option.map_eq_some_iff.mp hx
    obtain ⟨w', -, rfl⟩ := Option.map_eq_some_iff.mp hy
    exact hab
  · obtain ⟨w, hdangling, -⟩ := Diagram.warningsOf_of_not_attached he []
    rw [Diagram.dropsOf, hdangling, Diagram.itemsOf_of_not_attached he]
    exact List.pairwise_singleton _ _

/-- What is ordered within every edge, for the parts of each edge in whatever order, is ordered in the diagram. -/
theorem pairwise_flatMap_edges {R : Drop → Drop → Prop} {f : Edge → Nat → List Drop}
    (hedge : ∀ e i, ∀ x ∈ f e i, x.edge = i) (hlater : ∀ x y, x.edge < y.edge → R x y)
    (hone : ∀ e i, (f e i).Pairwise R) (edges : List Edge) :
    (edges.zipIdx.flatMap fun x => f x.1 x.2).Pairwise R := by
  refine List.pairwise_flatMap.mpr ⟨fun x _ => hone x.1 x.2, (pairwise_zipIdx edges).imp fun {a b} hab x hx y hy => ?_⟩
  refine hlater x y ?_
  rwa [hedge _ _ x hx, hedge _ _ y hy]

theorem pairwise_drops (d : Diagram) : d.drops.Pairwise Drop.Before := by
  refine pairwise_flatMap_edges (R := Drop.Before) (f := d.dropsOf) (fun _ _ _ => edge_of_mem_dropsOf)
    (fun _ _ => Or.inl) (fun e i => ?_) d.edges
  refine (pairwise_dropsOf d e i).imp_of_mem fun {x y} hx hy hxy => Or.inr ⟨?_, hxy⟩
  rw [edge_of_mem_dropsOf hx, edge_of_mem_dropsOf hy]

theorem pairwise_met (d : Diagram) : d.met.Pairwise Drop.MetBefore := by
  refine pairwise_flatMap_edges (R := Drop.MetBefore) (f := d.metOf)
    (fun _ _ _ hx => edge_of_mem_dropsOf (mem_metOf.mp hx)) (fun _ _ => Or.inl) (fun e i => ?_) d.edges
  have hedge : ∀ x ∈ d.dropsOf e i, ∀ y ∈ d.dropsOf e i, x.edge = y.edge := fun x hx y hy => by
    rw [edge_of_mem_dropsOf hx, edge_of_mem_dropsOf hy]
  refine List.pairwise_append.mpr ⟨?_, ?_, fun x hx y hy => ?_⟩
  · refine ((pairwise_dropsOf d e i).filter _).imp_of_mem fun {x y} hx hy hxy => ?_
    obtain ⟨hx, hflawed⟩ := List.mem_filter.mp hx
    obtain ⟨hy, hflawed'⟩ := List.mem_filter.mp hy
    exact Or.inr ⟨hedge x hx y hy, Or.inr ⟨by simp_all, hxy⟩⟩
  · refine ((pairwise_dropsOf d e i).filter _).imp_of_mem fun {x y} hx hy hxy => ?_
    obtain ⟨hx, hrepeat⟩ := List.mem_filter.mp hx
    obtain ⟨hy, hrepeat'⟩ := List.mem_filter.mp hy
    exact Or.inr ⟨hedge x hx y hy, Or.inr ⟨by rw [hrepeat, hrepeat'], hxy⟩⟩
  · obtain ⟨hx, hflawed⟩ := List.mem_filter.mp hx
    obtain ⟨hy, hrepeat⟩ := List.mem_filter.mp hy
    exact Or.inr ⟨hedge x hx y hy, Or.inl ⟨by simpa using hflawed, hrepeat⟩⟩

/-! ### When the warnings are in order -/

theorem Drop.Before.asymm (h : x.Before y) : ¬y.Before x := by
  unfold Drop.Before at *
  omega

/-- Of the lists of dropped parts in order, with as many warnings as there are, there is only one. -/
theorem eq_drops {drops : List Drop} (hdrops : ∀ x ∈ drops, d.Drops x) (hpairwise : drops.Pairwise Drop.Before)
    (hlength : drops.length = d.drops.length) : drops = d.drops := by
  have hnodup : drops.Nodup := hpairwise.imp fun {x y} h he => by
    subst he
    exact h.asymm h
  have hsubset : drops ⊆ d.drops := fun x hx => mem_drops.mpr (hdrops x hx)
  have hperm := (List.subperm_of_subset hnodup hsubset).perm_of_length_le (Nat.le_of_eq hlength.symm)
  exact hperm.eq_of_pairwise (fun _ _ _ _ h h' => absurd h' h.asymm) hpairwise (pairwise_drops d)

theorem flatMap_inj {α β : Type} {f g : α → List β} {l : List α} (hlength : ∀ a ∈ l, (f a).length = (g a).length)
    (h : l.flatMap f = l.flatMap g) : ∀ a ∈ l, f a = g a := by
  induction l with
  | nil => exact fun _ ha => absurd ha List.not_mem_nil
  | cons a l ih =>
    obtain ⟨hfirst, hrest⟩ := List.forall_mem_cons.mp hlength
    rw [List.flatMap_cons, List.flatMap_cons] at h
    obtain ⟨ha, hl⟩ := List.append_inj h hfirst
    exact List.forall_mem_cons.mpr ⟨ha, ih hrest hl⟩

/-- The warnings of an edge are in order just when no repeated rule stands before a flawed spec. -/
theorem map_warning_metOf_iff (d : Diagram) (e : Edge) (i : Nat) :
    (d.metOf e i).map (·.warning) = (d.dropsOf e i).map (·.warning) ↔
      ∀ x ∈ d.dropsOf e i, ∀ y ∈ d.dropsOf e i, x.isRepeat → ¬y.isRepeat → y.spec < x.spec := by
  have hspec := pairwise_dropsOf d e i
  constructor
  · intro h
    rw [Diagram.metOf, List.map_append] at h
    have hparted : ((d.dropsOf e i).map (·.warning)).Pairwise fun w w' => !w'.isRepeat → !w.isRepeat := by
      refine pairwise_of_filter_append_filter_not ((congrArg₂ (· ++ ·) ?_ ?_).trans h)
      · rw [List.filter_map]
        rfl
      · rw [List.filter_map]
        simp only [Bool.not_not]
        rfl
    rw [List.pairwise_map, List.pairwise_iff_getElem] at hparted
    rw [List.pairwise_iff_getElem] at hspec
    intro x hx y hy hrepeat hflawed
    obtain ⟨a, ha, rfl⟩ := List.getElem_of_mem hx
    obtain ⟨b, hb, rfl⟩ := List.getElem_of_mem hy
    rcases Nat.lt_trichotomy a b with hab | rfl | hba
    · have hnot := hparted a b ha hb hab (by simpa [Drop.isRepeat] using hflawed)
      simp_all [Drop.isRepeat]
    · exact absurd hrepeat hflawed
    · exact hspec b a hb ha hba
  · intro h
    have hparted : (d.dropsOf e i).Pairwise fun x y => !y.isRepeat → !x.isRepeat :=
      hspec.imp_of_mem fun {x y} hx hy hxy hflawed => by
        by_contra hrepeat
        have hyx := h x hx y hy (by simpa using hrepeat) (by simpa using hflawed)
        omega
    have hmet := filter_append_filter_not hparted
    simp only [Bool.not_not] at hmet
    rw [Diagram.metOf, hmet]

/-- The warnings are in order just when no repeated rule stands before a flawed spec of its label. -/
theorem inOrder_compile_iff (d : Diagram) : d.InOrder (compile d).warnings.toList ↔
    ∀ x y, d.Drops x → d.Drops y → x.edge = y.edge → x.isRepeat → ¬y.isRepeat → y.spec < x.spec := by
  rw [warnings_compile_eq, Diagram.met, List.map_flatMap]
  constructor
  · rintro ⟨drops, hwarnings, hdrops, hpairwise⟩
    have hlength : drops.length = d.drops.length := by
      rw [← (met_perm d).length_eq, ← List.length_map (f := Drop.warning), hwarnings, Diagram.met, ← List.map_flatMap,
        List.length_map]
    rw [eq_drops hdrops hpairwise hlength, Diagram.drops, List.map_flatMap] at hwarnings
    have hblocks := flatMap_inj (fun a _ => by
      rw [List.length_map, List.length_map]
      exact ((List.perm_append_comm.trans (List.filter_append_perm _ _)).length_eq).symm) hwarnings
    intro x y hx hy hedge hrepeat hflawed
    obtain ⟨e, he, -⟩ := id hx
    have hblock := (hblocks (e, x.edge) (List.mk_mem_zipIdx_iff_getElem?.mpr he)).symm
    exact (map_warning_metOf_iff d e x.edge).mp hblock x ((mem_dropsOf he).mpr ⟨hx, rfl⟩) y
      ((mem_dropsOf he).mpr ⟨hy, hedge.symm⟩) hrepeat hflawed
  · intro h
    refine ⟨d.drops, ?_, fun x hx => mem_drops.mp hx, pairwise_drops d⟩
    rw [Diagram.drops, List.map_flatMap]
    refine List.flatMap_congr fun a ha => ((map_warning_metOf_iff d a.1 a.2).mpr fun x hx y hy => ?_).symm
    have he := List.mem_zipIdx_iff_getElem?.mp ha
    exact h x y ((mem_dropsOf he).mp hx).1 ((mem_dropsOf he).mp hy).1
      ((edge_of_mem_dropsOf hx).trans (edge_of_mem_dropsOf hy).symm)

/-- Every dropped part leaves its warning as it is met, and this is the order of the diagram just when no repeated rule
    stands before a flawed spec of its label. -/
theorem warnings_met (d : Diagram) :
    (∃ drops : List Drop, drops.map (·.warning) = (compile d).warnings.toList ∧ (∀ x, x ∈ drops ↔ d.Drops x) ∧
      drops.Pairwise Drop.MetBefore) ∧
    (d.InOrder (compile d).warnings.toList ↔
      ∀ x y, d.Drops x → d.Drops y → x.edge = y.edge → x.isRepeat → ¬y.isRepeat → y.spec < x.spec) :=
  ⟨⟨d.met, (warnings_compile_eq d).symm, fun _ => (met_perm d).mem_iff.trans mem_drops, pairwise_met d⟩,
    inOrder_compile_iff d⟩

/-- A label whose second rule repeats the first and whose third spec has one field. -/
def stutter : Diagram where
  states := [{ id := "1" }, { id := "2" }]
  edges := [Edge.between "1" "2" "a,>;a,<;b"]

theorem stutter_not_inOrder : ¬stutter.InOrder (compile stutter).warnings.toList := by
  intro h
  have hrepeat : stutter.Drops ⟨0, 1, .duplicateSymbol "e1-2" "1" 'a'⟩ :=
    ⟨Edge.between "1" "2" "a,>;a,<;b", rfl, Or.inr ⟨_, rfl, rfl⟩⟩
  have hflawed : stutter.Drops ⟨0, 2, .malformedRule "e1-2" "b" 1⟩ :=
    ⟨Edge.between "1" "2" "a,>;a,<;b", rfl, Or.inr ⟨_, rfl, rfl⟩⟩
  exact absurd ((inOrder_compile_iff stutter).mp h _ _ hrepeat hflawed rfl rfl (by decide)) (by decide)

end Tapeworks
