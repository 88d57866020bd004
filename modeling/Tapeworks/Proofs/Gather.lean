import Mathlib.Data.Finset.Card
import Mathlib.Data.List.Forall2
import Mathlib.Data.List.Induction
import Mathlib.Data.List.Perm.Basic

/-! Lists by keys. `firsts` keeps the first element of every key. `gather` puts the elements of one key together, in a
    given order of the keys, and `group` does so in the order in which the keys are met. Gathering neither loses nor
    repeats an element, keeps the order among the elements of one key, and leaves a list alone that is in order. -/

namespace Tapeworks

variable {α κ : Type} [DecidableEq κ] {key : α → κ} {ks : List κ} {l : List α}

/-! ### First elements -/

/-- The elements whose key no earlier element has. -/
def firsts (key : α → κ) (l : List α) : List α :=
  l.eraseDupsBy fun a b => key a == key b

@[simp] theorem firsts_nil : firsts key [] = [] := rfl

theorem firsts_cons (a : α) (l : List α) : firsts key (a :: l) = a :: firsts key (l.filter (key · ≠ key a)) := by
  simp [firsts, List.eraseDupsBy_cons]

theorem firsts_concat (key : α → κ) (l : List α) (a : α) :
    firsts key (l ++ [a]) = if key a ∈ l.map key then firsts key l else firsts key l ++ [a] := by
  match l with
  | [] => simp [firsts_cons]
  | b :: l =>
    rw [List.cons_append, firsts_cons, firsts_cons, List.filter_append]
    by_cases hab : key a = key b
    · simp [hab]
    · have ih := firsts_concat key (l.filter (key · ≠ key b)) a
      have hmem : key a ∈ (l.filter (key · ≠ key b)).map key ↔ key a ∈ l.map key := by
        simp only [List.mem_map, List.mem_filter, decide_eq_true_eq]
        exact ⟨fun ⟨x, hx, he⟩ => ⟨x, hx.1, he⟩, fun ⟨x, hx, he⟩ => ⟨x, ⟨hx, he ▸ hab⟩, he⟩⟩
      have hone : [a].filter (key · ≠ key b) = [a] := by simp [hab]
      rw [hone, ih]
      simp only [hmem, List.map_cons, List.mem_cons, hab, false_or]
      split <;> rfl
termination_by l.length
decreasing_by exact Nat.lt_succ_of_le (List.length_filter_le _ _)

theorem firsts_sublist (key : α → κ) (l : List α) : (firsts key l).Sublist l := by
  induction l using List.reverseRecOn with
  | nil => exact .slnil
  | append_singleton l a ih =>
    rw [firsts_concat]
    split
    · exact ih.trans (List.sublist_append_left l [a])
    · exact ih.append (List.Sublist.refl [a])

theorem mem_map_firsts {k : κ} : k ∈ (firsts key l).map key ↔ k ∈ l.map key := by
  induction l using List.reverseRecOn with
  | nil => rfl
  | append_singleton l a ih =>
    rw [firsts_concat]
    split
    · rename_i ha
      rw [ih, List.map_append, List.mem_append]
      refine ⟨Or.inl, fun h => h.elim id fun h => ?_⟩
      rwa [List.map_singleton, List.mem_singleton.mp h] at *
    · rw [List.map_append, List.map_append, List.mem_append, List.mem_append, ih]

theorem nodup_firsts (key : α → κ) (l : List α) : ((firsts key l).map key).Nodup := by
  induction l using List.reverseRecOn with
  | nil => exact List.nodup_nil
  | append_singleton l a ih =>
    rw [firsts_concat]
    split
    · exact ih
    · rename_i ha
      rw [List.map_append, List.map_singleton]
      exact List.nodup_append.mpr ⟨ih, by simp, fun x hx y hy => by
        rw [List.mem_singleton.mp hy]
        exact fun he => ha (mem_map_firsts.mp (he ▸ hx))⟩

theorem firsts_eq_self (h : (l.map key).Nodup) : firsts key l = l := by
  induction l using List.reverseRecOn with
  | nil => rfl
  | append_singleton l a ih =>
    rw [List.map_append, List.map_singleton, List.nodup_append] at h
    have ha : key a ∉ l.map key := fun hm => h.2.2 _ hm _ (List.mem_singleton_self _) rfl
    rw [firsts_concat, if_neg ha, ih h.1]

theorem firsts_map {β : Type} (key : α → κ) (f : β → α) (l : List β) :
    firsts key (l.map f) = (firsts (key ∘ f) l).map f := by
  induction l using List.reverseRecOn with
  | nil => rfl
  | append_singleton l b ih =>
    rw [List.map_append, List.map_singleton, firsts_concat, firsts_concat, ih, List.map_map]
    by_cases hb : key (f b) ∈ l.map (key ∘ f) <;> simp [hb]

/-- The first elements of a part that is made up of whole keys, which another key may tell apart within it. -/
theorem filter_firsts {κ' : Type} [DecidableEq κ'] {key' : α → κ'} {p : α → Bool}
    (hwhole : ∀ a b, key a = key b → p a = p b) (hkey : ∀ a b, p a → p b → (key a = key b ↔ key' a = key' b))
    (l : List α) : (firsts key l).filter p = firsts key' (l.filter p) := by
  induction l using List.reverseRecOn with
  | nil => rfl
  | append_singleton l a ih =>
    rw [firsts_concat, List.filter_append]
    cases ha : p a with
    | false =>
      rw [List.filter_cons_of_neg (by simp [ha]), List.filter_nil, List.append_nil, ← ih]
      split
      · rfl
      · rw [List.filter_append, List.filter_cons_of_neg (by simp [ha]), List.filter_nil, List.append_nil]
    | true =>
      have hmem : key' a ∈ (l.filter p).map key' ↔ key a ∈ l.map key := by
        simp only [List.mem_map, List.mem_filter]
        constructor
        · rintro ⟨b, ⟨hb, hpb⟩, he⟩
          exact ⟨b, hb, (hkey b a hpb ha).mpr he⟩
        · rintro ⟨b, hb, he⟩
          have hpb : p b := (hwhole b a he).trans ha
          exact ⟨b, ⟨hb, hpb⟩, (hkey b a hpb ha).mp he⟩
      rw [List.filter_cons_of_pos ha, List.filter_nil, firsts_concat, ← ih]
      simp only [hmem]
      split
      · rfl
      · rw [List.filter_append, List.filter_cons_of_pos ha, List.filter_nil]

theorem find?_firsts (key : α → κ) (l : List α) (k : κ) :
    (firsts key l).find? (key · = k) = l.find? (key · = k) := by
  induction l using List.reverseRecOn with
  | nil => rfl
  | append_singleton l a ih =>
    rw [firsts_concat, List.find?_append, ← ih]
    split
    · rename_i ha
      cases hfind : (firsts key l).find? (key · = k) with
      | some b => rfl
      | none =>
        -- The key of the last element is not `k`, since an earlier element has it.
        have hne : key a ≠ k := by
          rintro rfl
          obtain ⟨b, hb, he⟩ := List.mem_map.mp (mem_map_firsts.mpr ha)
          exact List.find?_eq_none.mp hfind b hb (by simp [he])
        simp [hne]
    · exact List.find?_append

theorem eraseDups_eq_firsts (ks : List κ) : ks.eraseDups = firsts id ks := rfl

theorem nodup_eraseDups (ks : List κ) : ks.eraseDups.Nodup := by
  simpa [eraseDups_eq_firsts] using nodup_firsts id ks

theorem eraseDups_sublist (ks : List κ) : ks.eraseDups.Sublist ks :=
  firsts_sublist id ks

theorem eraseDups_concat (ks : List κ) (k : κ) :
    (ks ++ [k]).eraseDups = if k ∈ ks then ks.eraseDups else ks.eraseDups ++ [k] := by
  simpa [eraseDups_eq_firsts] using firsts_concat id ks k

theorem eraseDups_map {β γ : Type} [BEq β] [LawfulBEq β] [BEq γ] [LawfulBEq γ] {f : β → γ}
    (hf : Function.Injective f) (l : List β) : (l.map f).eraseDups = l.eraseDups.map f := by
  match l with
  | [] => rfl
  | b :: l =>
    have hrest : (l.map f).filter (fun c => !c == f b) = (l.filter fun c => !c == b).map f := by
      rw [List.filter_map]
      congr 2
      funext c
      simp [hf.eq_iff]
    rw [List.map_cons, List.eraseDups_cons, List.eraseDups_cons, hrest, eraseDups_map hf, List.map_cons]
termination_by l.length
decreasing_by exact Nat.lt_succ_of_le (List.length_filter_le _ _)

/-- Where keys are distinct, a look-up finds whatever has the key. -/
theorem find?_key_eq_some_iff (h : (l.map key).Nodup) {k : κ} {a : α} :
    l.find? (key · = k) = some a ↔ a ∈ l ∧ key a = k := by
  refine ⟨fun hf => ⟨List.mem_of_find?_eq_some hf, by simpa using List.find?_some hf⟩, ?_⟩
  rintro ⟨ha, rfl⟩
  obtain ⟨front, back, rfl⟩ := List.append_of_mem ha
  rw [List.map_append, List.nodup_append] at h
  have hfront : front.find? (key · = key a) = none :=
    List.find?_eq_none.mpr fun b hb he =>
      h.2.2 _ (List.mem_map_of_mem hb) _ (List.mem_map_of_mem List.mem_cons_self) (by simpa using he)
  rw [List.find?_append, hfront]
  simp

theorem length_firsts (key : α → κ) (l : List α) : (firsts key l).length = (l.map key).toFinset.card := by
  have hkeys : ((firsts key l).map key).toFinset = (l.map key).toFinset :=
    Finset.ext fun k => by rw [List.mem_toFinset, List.mem_toFinset, mem_map_firsts]
  rw [← hkeys, List.toFinset_card_of_nodup (nodup_firsts key l), List.length_map]

/-- The element that is found comes before all others that satisfy `p`. -/
theorem eq_or_of_find?_eq_some {p : α → Bool} {R : α → α → Prop} {a : α} (h : l.Pairwise R)
    (hfind : l.find? p = some a) : ∀ b ∈ l, p b → b = a ∨ R a b := by
  obtain ⟨-, front, back, rfl, hfront⟩ := List.find?_eq_some_iff_append.mp hfind
  intro b hb hpb
  rcases List.mem_append.mp hb with hb | hb
  · exact absurd hpb (by simpa using hfront b hb)
  · exact (List.mem_cons.mp hb).imp id ((List.pairwise_cons.mp (List.pairwise_append.mp h).2.1).1 b)

/-! ### Lists in order -/

/-- Lists in a strict order are settled by their elements. -/
theorem eq_of_mem_iff {R : α → α → Prop} (hasymm : ∀ a b, R a b → ¬R b a) {l' : List α} (h : l.Pairwise R)
    (h' : l'.Pairwise R) (hmem : ∀ a, a ∈ l ↔ a ∈ l') : l = l' := by
  have hne : ∀ {a b : α}, R a b → a ≠ b := by
    rintro a _ hab rfl
    exact hasymm a a hab hab
  have hperm := (List.perm_ext_iff_of_nodup (h.imp hne) (h'.imp hne)).mpr hmem
  exact hperm.eq_of_pairwise (fun a b _ _ hab hba => absurd hba (hasymm a b hab)) h h'

/-- A list in a strict order with one element more has it in one place. -/
theorem exists_eq_append_cons {R : α → α → Prop} (hasymm : ∀ a b, R a b → ¬R b a) {l' : List α} {a : α}
    (h : l.Pairwise R) (h' : l'.Pairwise R) (ha : a ∉ l) (hmem : ∀ b, b ∈ l' ↔ b = a ∨ b ∈ l) :
    ∃ front back, l = front ++ back ∧ l' = front ++ a :: back := by
  obtain ⟨front, back, rfl⟩ := List.append_of_mem ((hmem a).mpr (Or.inl rfl))
  have hrest : (front ++ back).Pairwise R := h'.sublist ((List.sublist_cons_self a back).append_left front)
  have hfresh : a ∉ front ++ back := by
    intro ha
    rcases List.mem_append.mp ha with ha | ha
    · have haa := (List.pairwise_append.mp h').2.2 a ha a List.mem_cons_self
      exact hasymm a a haa haa
    · have haa := (List.pairwise_cons.mp (List.pairwise_append.mp h').2.1).1 a ha
      exact hasymm a a haa haa
  refine ⟨front, back, eq_of_mem_iff hasymm h hrest fun b => ?_, rfl⟩
  have hb := hmem b
  rw [List.mem_append, List.mem_cons] at hb
  rw [List.mem_append] at hfresh ⊢
  constructor
  · intro hbl
    rcases hb.mpr (Or.inr hbl) with hfront | rfl | hback
    · exact Or.inl hfront
    · exact absurd hbl ha
    · exact Or.inr hback
  · intro hrest
    rcases hb.mp (hrest.imp id Or.inr) with rfl | hbl
    · exact absurd hrest hfresh
    · exact hbl

/-! ### Related lists -/

theorem exists_rel_of_mem {β : Type} {R : α → β → Prop} {l' : List β} (h : List.Forall₂ R l l') {a : α} (ha : a ∈ l) :
    ∃ b ∈ l', R a b := by
  induction h with
  | nil => exact absurd ha List.not_mem_nil
  | cons hfirst _ ih =>
    rcases List.mem_cons.mp ha with rfl | ha
    · exact ⟨_, List.mem_cons_self, hfirst⟩
    · obtain ⟨b, hb, hrel⟩ := ih ha
      exact ⟨b, List.mem_cons_of_mem _ hb, hrel⟩

/-- Related lists in which related elements pass alike have related first elements that pass. -/
theorem rel_find? {β : Type} {R : α → β → Prop} {l' : List β} {p : α → Bool} {q : β → Bool} (h : List.Forall₂ R l l')
    (hpq : ∀ a b, R a b → p a = q b) : Option.Rel R (l.find? p) (l'.find? q) := by
  induction h with
  | nil => exact .none
  | @cons a b l l' hfirst _ ih =>
    cases hp : p a with
    | true =>
      rw [List.find?_cons_of_pos hp, List.find?_cons_of_pos (hpq a b hfirst ▸ hp)]
      exact .some hfirst
    | false =>
      have hq : q b = false := hpq a b hfirst ▸ hp
      rw [List.find?_cons_of_neg (by simp [hp]), List.find?_cons_of_neg (by simp [hq])]
      exact ih

/-! ### Indices -/

theorem pairwise_zipIdx (l : List α) : l.zipIdx.Pairwise fun x y => x.2 < y.2 := by
  have h := List.pairwise_lt_range' (s := 0) (n := l.length) 1
  rw [← List.zipIdx_map_snd, List.pairwise_map] at h
  exact h

/-- Keys without repetition come in the order in which they are met. -/
theorem pairwise_eraseDups (ks : List κ) : ks.eraseDups.Pairwise fun k k' => ks.idxOf k < ks.idxOf k' := by
  induction ks using List.reverseRecOn with
  | nil => exact .nil
  | append_singleton ks k ih =>
    have hold : ks.eraseDups.Pairwise fun a b => (ks ++ [k]).idxOf a < (ks ++ [k]).idxOf b :=
      ih.imp_of_mem fun {a b} ha hb hab => by
        rwa [List.idxOf_append_of_mem (List.mem_eraseDups.mp ha), List.idxOf_append_of_mem (List.mem_eraseDups.mp hb)]
    rw [eraseDups_concat]
    split
    · exact hold
    · rename_i hk
      refine List.pairwise_append.mpr ⟨hold, List.pairwise_singleton _ _, fun a ha b hb => ?_⟩
      rw [List.mem_singleton.mp hb, List.idxOf_append_of_mem (List.mem_eraseDups.mp ha),
        List.idxOf_append_of_notMem hk, List.idxOf_cons_self, Nat.add_zero]
      exact List.idxOf_lt_length_of_mem (List.mem_eraseDups.mp ha)

theorem find?_perm {l' : List α} (h : l.Perm l') (hnodup : (l.map key).Nodup) (k : κ) :
    l'.find? (key · = k) = l.find? (key · = k) := by
  have hnodup' : (l'.map key).Nodup := (h.map key).nodup_iff.mp hnodup
  refine Option.ext fun a => ?_
  rw [find?_key_eq_some_iff hnodup, find?_key_eq_some_iff hnodup', h.mem_iff]

/-! ### Gathered elements -/

/-- The elements with a key in `ks`, those of one key together, in the order of the keys. -/
def gather (key : α → κ) (ks : List κ) (l : List α) : List α :=
  ks.flatMap fun k => l.filter (key · = k)

@[simp] theorem gather_nil : gather key [] l = [] := rfl

theorem gather_cons (k : κ) (ks : List κ) (l : List α) :
    gather key (k :: ks) l = l.filter (key · = k) ++ gather key ks l := rfl

theorem gather_append (ks ks' : List κ) (l : List α) :
    gather key (ks ++ ks') l = gather key ks l ++ gather key ks' l :=
  List.flatMap_append

theorem mem_gather {a : α} : a ∈ gather key ks l ↔ a ∈ l ∧ key a ∈ ks := by
  simp only [gather, List.mem_flatMap, List.mem_filter, decide_eq_true_eq]
  exact ⟨fun ⟨_, hk, ha, he⟩ => ⟨ha, he ▸ hk⟩, fun ⟨ha, hk⟩ => ⟨key a, hk, ha, rfl⟩⟩

theorem filter_gather (p : α → Bool) : (gather key ks l).filter p = gather key ks (l.filter p) := by
  simp only [gather, List.filter_flatMap, List.filter_filter, Bool.and_comm]

theorem gather_filter {p : α → Bool} (h : ∀ a ∈ l, key a ∈ ks → p a) :
    gather key ks (l.filter p) = gather key ks l := by
  rw [← filter_gather, List.filter_eq_self]
  exact fun a ha => h a (mem_gather.mp ha).1 (mem_gather.mp ha).2

theorem gather_filter_ne {k : κ} (hk : k ∉ ks) :
    gather key ks (l.filter fun a => !decide (key a = k)) = gather key ks l :=
  gather_filter fun a _ ha => by
    have hne : key a ≠ k := fun he => hk (he ▸ ha)
    simpa using hne

theorem gather_perm (hks : ks.Nodup) (hmem : ∀ a ∈ l, key a ∈ ks) : (gather key ks l).Perm l := by
  induction ks generalizing l with
  | nil => rw [List.eq_nil_iff_forall_not_mem.mpr fun a ha => absurd (hmem a ha) List.not_mem_nil]; rfl
  | cons k ks ih =>
    obtain ⟨hk, hks⟩ := List.nodup_cons.mp hks
    rw [gather_cons, ← gather_filter_ne hk]
    refine (List.Perm.append_left _ (ih hks fun a ha => ?_)).trans (List.filter_append_perm _ l)
    obtain ⟨ha, hne⟩ := List.mem_filter.mp ha
    exact (List.mem_cons.mp (hmem a ha)).resolve_left (by simpa using hne)

/-- Where no element comes before one that satisfies `p` without satisfying it too, these make up the front. -/
theorem filter_append_filter_not {p : α → Bool} (h : l.Pairwise fun a b => p b → p a) :
    l.filter p ++ l.filter (!p ·) = l := by
  induction l with
  | nil => rfl
  | cons a l ih =>
    obtain ⟨ha, hl⟩ := List.pairwise_cons.mp h
    cases hp : p a
    · have hnone : l.filter p = [] :=
        List.filter_eq_nil_iff.mpr fun b hb hpb => by simpa [hp] using ha b hb hpb
      have hall : l.filter (!p ·) = l :=
        List.filter_eq_self.mpr fun b hb => by simpa using List.filter_eq_nil_iff.mp hnone b hb
      rw [List.filter_cons_of_neg (by simp [hp]), List.filter_cons_of_pos (by simp [hp]), hnone, hall, List.nil_append]
    · rw [List.filter_cons_of_pos hp, List.filter_cons_of_neg (by simp [hp]), List.cons_append, ih hl]

theorem pairwise_of_filter_append_filter_not {p : α → Bool} (h : l.filter p ++ l.filter (!p ·) = l) :
    l.Pairwise fun a b => p b → p a := by
  rw [← h]
  refine List.pairwise_append.mpr ⟨?_, ?_, fun a ha _ _ _ => List.of_mem_filter ha⟩
  · exact List.pairwise_of_forall_mem_list fun a ha _ _ _ => List.of_mem_filter ha
  · refine List.pairwise_of_forall_mem_list fun _ _ b hb hpb => ?_
    simpa [hpb] using List.of_mem_filter hb

/-- Gathering leaves a list alone whose elements come in the order of their keys. -/
theorem gather_eq_self {before : κ → κ → Prop} (hnodup : ks.Nodup) (hks : ks.Pairwise before)
    (hmem : ∀ a ∈ l, key a ∈ ks) (h : l.Pairwise fun a b => ¬before (key b) (key a)) : gather key ks l = l := by
  induction ks generalizing l with
  | nil => rw [List.eq_nil_iff_forall_not_mem.mpr fun a ha => absurd (hmem a ha) List.not_mem_nil]; rfl
  | cons k ks ih =>
    obtain ⟨hk, hnodup⟩ := List.nodup_cons.mp hnodup
    obtain ⟨hfirst, hks⟩ := List.pairwise_cons.mp hks
    have hlater : ∀ a ∈ l.filter fun a => !decide (key a = k), key a ∈ ks := fun a ha => by
      obtain ⟨ha, hne⟩ := List.mem_filter.mp ha
      exact (List.mem_cons.mp (hmem a ha)).resolve_left (by simpa using hne)
    rw [gather_cons, ← gather_filter_ne hk, ih hnodup hks hlater (h.filter _)]
    refine filter_append_filter_not (h.imp_of_mem fun {a b} ha _ hab hb => ?_)
    by_contra hne
    have ha' : key a ∈ ks := hlater a (List.mem_filter.mpr ⟨ha, by simpa using hne⟩)
    rw [decide_eq_true_eq] at hb
    exact hab (hb ▸ hfirst _ ha')

/-- A further element is gathered behind the elements of its key. -/
theorem gather_insert (key : α → κ) {before : κ → κ → Prop} {x : α} (hnodup : ks.Nodup) (hks : ks.Pairwise before)
    (hx : key x ∈ ks) (front back : List α) :
    ∃ front' back', gather key ks (front ++ x :: back) = front' ++ x :: back' ∧
      gather key ks (front ++ back) = front' ++ back' ∧
      ∀ b ∈ back', (key b = key x ∧ b ∈ back) ∨ before (key x) (key b) := by
  induction ks with
  | nil => cases hx
  | cons k ks ih =>
    obtain ⟨hk, hnodup⟩ := List.nodup_cons.mp hnodup
    obtain ⟨hfirst, hks⟩ := List.pairwise_cons.mp hks
    simp only [gather_cons, List.filter_append]
    by_cases hxk : key x = k
    · have hsame : gather key ks (front ++ x :: back) = gather key ks (front ++ back) := by
        rw [← gather_filter_ne hk, ← gather_filter_ne (l := front ++ back) hk]
        simp [hxk]
      refine ⟨front.filter (key · = k), back.filter (key · = k) ++ gather key ks (front ++ back), ?_, ?_, ?_⟩
      · rw [hsame, List.filter_cons_of_pos (by simp [hxk]), List.append_assoc, List.cons_append]
      · rw [List.append_assoc]
      · intro b hb
        rcases List.mem_append.mp hb with hb | hb
        · obtain ⟨hb, hbk⟩ := List.mem_filter.mp hb
          exact Or.inl ⟨(decide_eq_true_eq.mp hbk).trans hxk.symm, hb⟩
        · exact Or.inr (hxk ▸ hfirst _ (mem_gather.mp hb).2)
    · obtain ⟨front', back', h₁, h₂, h₃⟩ := ih hnodup hks ((List.mem_cons.mp hx).resolve_left hxk)
      refine ⟨(front ++ back).filter (key · = k) ++ front', back', ?_, ?_, h₃⟩
      · rw [h₁, List.filter_cons_of_neg (by simpa using hxk), List.filter_append, List.append_assoc, List.append_assoc,
          List.append_assoc]
      · rw [h₂, List.filter_append, List.append_assoc, List.append_assoc, List.append_assoc]

/-! ### Groups -/

/-- The elements of one key together, in the order in which the keys are met. -/
def group (key : α → κ) (l : List α) : List α :=
  gather key (l.map key).eraseDups l

theorem group_perm (key : α → κ) (l : List α) : (group key l).Perm l :=
  gather_perm (nodup_eraseDups _) fun _ ha => List.mem_eraseDups.mpr (List.mem_map_of_mem ha)

theorem group_map {β : Type} (key : α → κ) (f : β → α) (l : List β) :
    group key (l.map f) = (group (key ∘ f) l).map f := by
  rw [group, group, gather, gather, List.map_flatMap, List.map_map]
  refine List.flatMap_congr fun k _ => ?_
  rw [List.filter_map]
  rfl

/-- Elements are grouped in the order in which their keys are met, and those of one key keep their order. -/
theorem pairwise_group {R : α → α → Prop} (key : α → κ) (h : l.Pairwise R) : (group key l).Pairwise fun a b =>
    (l.map key).idxOf (key a) < (l.map key).idxOf (key b) ∨ key a = key b ∧ R a b := by
  have hkey : ∀ k, ∀ a ∈ l.filter (key · = k), key a = k := fun k a ha => by
    simpa using List.of_mem_filter ha
  refine List.pairwise_flatMap.mpr ⟨fun k _ => ?_, (pairwise_eraseDups _).imp fun {k k'} hlt a ha b hb => Or.inl ?_⟩
  · exact (h.filter _).imp_of_mem fun {a b} ha hb hab => Or.inr ⟨(hkey k a ha).trans (hkey k b hb).symm, hab⟩
  · rwa [hkey k a ha, hkey k' b hb]

/-- Grouping leaves a list alone whose elements come in the order of their keys. -/
theorem group_eq_self {before : κ → κ → Prop} (hasymm : ∀ k k', before k k' → ¬before k' k)
    (h : l.Pairwise fun a b => key a = key b ∨ before (key a) (key b)) : group key l = l := by
  have hks : (l.map key).eraseDups.Pairwise fun k k' => k = k' ∨ before k k' :=
    List.Pairwise.sublist (eraseDups_sublist _) (List.pairwise_map.mpr h)
  have hbefore : (l.map key).eraseDups.Pairwise before :=
    (hks.and (nodup_eraseDups _)).imp fun hkk => hkk.1.resolve_left hkk.2
  refine gather_eq_self (nodup_eraseDups _) hbefore (fun _ ha => List.mem_eraseDups.mpr (List.mem_map_of_mem ha))
    (h.imp fun hab hba => ?_)
  rcases hab with he | hab
  · rw [he] at hba
    exact hasymm _ _ hba hba
  · exact hasymm _ _ hab hba

/-- A further element at the end joins the elements of its key. -/
theorem group_concat (key : α → κ) (l : List α) (x : α) :
    ∃ front back, group key (l ++ [x]) = front ++ x :: back ∧ group key l = front ++ back ∧
      ∀ b ∈ back, key b ≠ key x := by
  unfold group
  rw [List.map_append, List.map_singleton, eraseDups_concat]
  split
  · rename_i hx
    have hks : (l.map key).eraseDups.Pairwise fun k k' => k' ≠ k := (nodup_eraseDups _).imp Ne.symm
    obtain ⟨front, back, h₁, h₂, h₃⟩ := gather_insert key (nodup_eraseDups _) hks (List.mem_eraseDups.mpr hx) l []
    rw [List.append_nil] at h₂
    exact ⟨front, back, h₁, h₂, fun b hb => (h₃ b hb).elim (fun h => absurd h.2 List.not_mem_nil) id⟩
  · rename_i hx
    refine ⟨_, [], ?_, (List.append_nil _).symm, fun _ hb => absurd hb List.not_mem_nil⟩
    have hold : gather key (l.map key).eraseDups (l ++ [x]) = gather key (l.map key).eraseDups l := by
      have hx' : key x ∉ (l.map key).eraseDups := fun h => hx (List.mem_eraseDups.mp h)
      rw [← gather_filter_ne hx', ← gather_filter_ne (l := l) hx']
      simp
    have hnew : l.filter (key · = key x) = [] :=
      List.filter_eq_nil_iff.mpr fun a ha he => hx (decide_eq_true_eq.mp he ▸ List.mem_map_of_mem ha)
    rw [gather_append, hold, gather_cons, gather_nil, List.filter_append, hnew]
    simp

end Tapeworks
