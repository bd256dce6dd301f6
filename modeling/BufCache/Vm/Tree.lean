import BufCache.Vm.Basic
import Mathlib.Data.List.Pairwise
import Mathlib.Data.List.Perm.Basic

/-!
# Sv39 page tables in memory

A page table is a tree of page-table pages three levels deep. Entry `i` of the page at `t` is the
PTE at `t + 8 * i`; a valid entry of a level-2 or level-1 page points to the page-table page of
the level below, and a valid entry of a level-0 page maps a page of memory. The tree is read
from memory every time: `children`, `tables`, `ptePtr` and `pte0` are what `walk` would find.

A tree is well formed when its root is a page, its page-table pages are distinct and nonzero
(a pointer to a page is never null), the valid entries of levels 2 and 1 have none of `R`, `W`,
`X`, and the valid entries of level 0 have one of them.

The frame lemma says that two memories that hold the same bytes in every page-table page give
the same tree; what one store to a level-0 entry, and what linking a fresh zeroed page under an
invalid entry, do to the tree comes after it. Both are what `walk` and its callers do.
-/

namespace BufCache.Vm

/-- PTE `i` of the page-table page at `t`: `((pte_t *)t)[i]`. -/
def pteAt (m : Mem) (t i : Nat) : Nat := read64 m (t + 8 * i)

/-- The page that entry `i` of the page at `t` points to, if the entry is valid. -/
def child (m : Mem) (t i : Nat) : Option Nat :=
  if pteAt m t i &&& PTE_V ≠ 0 then some (PTE2PA (pteAt m t i)) else none

/-- The pages that the valid entries of the page at `t` point to, in the order of the entries. -/
def children (m : Mem) (t : Nat) : List Nat := (List.range 512).filterMap (child m t)

/-- The page-table pages of the subtree whose root `t` is at `level`, each subtree before the
page that points to it: the order in which `proc_free_k_pagetable` frees them. -/
def subtree (m : Mem) (t : Nat) : Nat → List Nat
  | 0 => [t]
  | level + 1 => (children m t).flatMap (fun c => subtree m c level) ++ [t]

/-- The page-table pages of the tree with root `pt`. -/
def tables (m : Mem) (pt : Nat) : List Nat := subtree m pt 2

/-- The address of the level-0 PTE for `va`, when both entries on the way to it are valid. -/
def ptePtr (m : Mem) (pt va : Nat) : Option Nat :=
  (child m pt (PX 2 va)).bind fun t => (child m t (PX 1 va)).map fun t => t + 8 * PX 0 va

/-- The level-0 PTE for `va`. A missing level-0 page reads as the invalid PTE 0, which is what a
freshly zeroed page holds. -/
def pte0 (m : Mem) (pt va : Nat) : Nat := ((ptePtr m pt va).map (read64 m)).getD 0

/-- The tree at `pt` is a well-formed Sv39 tree. -/
structure WellFormed (m : Mem) (pt : Nat) : Prop where
  aligned : pt % PGSIZE = 0
  nonnull : 0 ∉ tables m pt
  nodup : (tables m pt).Nodup
  inner : ∀ t ∈ pt :: children m pt, ∀ i < 512, pteAt m t i % 2 = 1 → pteAt m t i &&& PTE_RWX = 0
  leaf : ∀ t ∈ (children m pt).flatMap (children m), ∀ i < 512,
    pteAt m t i % 2 = 1 → pteAt m t i &&& PTE_RWX ≠ 0

/-- `m'` holds the bytes `m` holds in the page at `t`. -/
def AgreeOn (m m' : Mem) (t : Nat) : Prop := ∀ j < PGSIZE, m' (t + j) = m (t + j)

section View

variable {m m' : Mem} {pt t c i va p : Nat}

theorem child_eq_some : child m t i = some c ↔ pteAt m t i % 2 = 1 ∧ PTE2PA (pteAt m t i) = c := by
  simp [child]

theorem child_eq_none : child m t i = none ↔ pteAt m t i % 2 = 0 := by
  simp [child]

theorem mem_children : c ∈ children m t ↔ ∃ i < 512, child m t i = some c := by
  simp [children]

theorem aligned_of_child (h : child m t i = some c) : c % PGSIZE = 0 ∧ c < 2 ^ 64 := by
  obtain ⟨-, rfl⟩ := child_eq_some.1 h
  exact ⟨PTE2PA_aligned, PTE2PA_lt⟩

theorem aligned_of_mem_children (h : c ∈ children m t) : c % PGSIZE = 0 ∧ c < 2 ^ 64 := by
  obtain ⟨i, -, hi⟩ := mem_children.1 h
  exact aligned_of_child hi

@[simp] theorem subtree_zero : subtree m t 0 = [t] := rfl

theorem subtree_succ (l : Nat) :
    subtree m t (l + 1) = (children m t).flatMap (fun c => subtree m c l) ++ [t] := rfl

theorem mem_subtree_self (l : Nat) : t ∈ subtree m t l := by
  cases l <;> simp [subtree_succ]

theorem mem_tables :
    t ∈ tables m pt ↔ t = pt ∨ t ∈ children m pt ∨ ∃ c ∈ children m pt, t ∈ children m c := by
  simp only [tables, subtree_succ, subtree_zero, List.mem_append, List.mem_flatMap,
    List.mem_singleton]
  constructor
  · rintro ((⟨c, hc, (⟨d, hd, rfl⟩ | rfl)⟩) | rfl)
    · exact .inr (.inr ⟨c, hc, hd⟩)
    · exact .inr (.inl hc)
    · exact .inl rfl
  · rintro (rfl | hc | ⟨c, hc, hd⟩)
    · exact .inr rfl
    · exact .inl ⟨t, hc, .inr rfl⟩
    · exact .inl ⟨c, hc, .inl ⟨t, hd, rfl⟩⟩

theorem ptePtr_eq_some : ptePtr m pt va = some p ↔
    ∃ t₁ t₀, child m pt (PX 2 va) = some t₁ ∧ child m t₁ (PX 1 va) = some t₀ ∧
      p = t₀ + 8 * PX 0 va := by
  simp only [ptePtr, Option.bind_eq_some, Option.map_eq_some']
  constructor
  · rintro ⟨t₁, h₁, t₀, h₀, rfl⟩
    exact ⟨t₁, t₀, h₁, h₀, rfl⟩
  · rintro ⟨t₁, t₀, h₁, h₀, rfl⟩
    exact ⟨t₁, h₁, t₀, h₀, rfl⟩

theorem PX_lt (l va : Nat) : PX l va < 512 := Nat.mod_lt _ (by decide)

/-! ### The frame lemma -/

theorem AgreeOn.trans {m'' : Mem} (h : AgreeOn m m' t) (h' : AgreeOn m' m'' t) : AgreeOn m m'' t :=
  fun j hj => (h' j hj).trans (h j hj)

theorem AgreeOn.pteAt (h : AgreeOn m m' t) (hi : i < 512) : pteAt m' t i = pteAt m t i := by
  simp only [Vm.pteAt, read64]
  exact readLE_congr fun j hj => by
    simpa only [Nat.add_assoc] using h (8 * i + j) (by simp only [PGSIZE]; omega)

theorem AgreeOn.child (h : AgreeOn m m' t) (hi : i < 512) : child m' t i = child m t i := by
  simp only [Vm.child, h.pteAt hi]

theorem AgreeOn.children (h : AgreeOn m m' t) : children m' t = children m t :=
  List.filterMap_congr fun _ hi => h.child (List.mem_range.1 hi)

/-- Memories that agree on the root and the level-1 pages have the same page-table pages. -/
theorem tables_congr (hr : AgreeOn m m' pt) (h₁ : ∀ c ∈ children m pt, AgreeOn m m' c) :
    tables m' pt = tables m pt := by
  rw [tables, tables, subtree_succ, subtree_succ, hr.children]
  exact congrArg (· ++ [pt]) (List.flatMap_congr fun c hc => by
    simp only [subtree_succ, subtree_zero, (h₁ c hc).children])

theorem ptePtr_congr (hr : AgreeOn m m' pt) (h₁ : ∀ c ∈ children m pt, AgreeOn m m' c) :
    ptePtr m' pt va = ptePtr m pt va := by
  simp only [ptePtr, hr.child (PX_lt 2 va)]
  cases hc : child m pt (PX 2 va) with
  | none => simp only [Option.none_bind]
  | some c =>
    simp only [Option.some_bind,
      (h₁ c (mem_children.2 ⟨_, PX_lt 2 va, hc⟩)).child (PX_lt 1 va)]

/-- Where `ptePtr` points: a slot of a level-0 page of the tree. -/
theorem slot_of_ptePtr (h : ptePtr m pt va = some p) :
    ∃ c ∈ children m pt, ∃ t ∈ children m c, p = t + 8 * PX 0 va := by
  obtain ⟨t₁, t₀, h₁, h₀, rfl⟩ := ptePtr_eq_some.1 h
  exact ⟨t₁, mem_children.2 ⟨_, PX_lt 2 va, h₁⟩, t₀, mem_children.2 ⟨_, PX_lt 1 va, h₀⟩, rfl⟩

/-- The frame lemma: a memory that holds the same bytes in every page-table page of the tree
holds the same tree. -/
theorem pte0_congr (h : ∀ u ∈ tables m pt, AgreeOn m m' u) : pte0 m' pt va = pte0 m pt va := by
  have hr := h pt (mem_tables.2 (.inl rfl))
  have h₁ : ∀ c ∈ children m pt, AgreeOn m m' c := fun c hc => h c (mem_tables.2 (.inr (.inl hc)))
  simp only [pte0, ptePtr_congr hr h₁]
  cases hp : ptePtr m pt va with
  | none => simp only [Option.map_none', Option.getD_none]
  | some p =>
    obtain ⟨c, hc, t, ht, rfl⟩ := slot_of_ptePtr hp
    simpa only [Option.map_some', Option.getD_some] using
      (h t (mem_tables.2 (.inr (.inr ⟨c, hc, ht⟩)))).pteAt (PX_lt 0 va)

theorem tables_congr_of_agree (h : ∀ u ∈ tables m pt, AgreeOn m m' u) :
    tables m' pt = tables m pt :=
  tables_congr (h pt (mem_tables.2 (.inl rfl))) fun c hc => h c (mem_tables.2 (.inr (.inl hc)))

theorem WellFormed.congr (hw : WellFormed m pt) (h : ∀ u ∈ tables m pt, AgreeOn m m' u) :
    WellFormed m' pt := by
  have hr := h pt (mem_tables.2 (.inl rfl))
  have h₁ : ∀ c ∈ children m pt, AgreeOn m m' c := fun c hc => h c (mem_tables.2 (.inr (.inl hc)))
  have ht := tables_congr hr h₁
  have hc : ∀ u ∈ pt :: children m pt, ∀ i < 512, pteAt m' u i = pteAt m u i := by
    rintro u (_ | ⟨_, hu⟩) i hi
    · exact hr.pteAt hi
    · exact (h₁ u hu).pteAt hi
  refine ⟨hw.aligned, by rw [ht]; exact hw.nonnull, by rw [ht]; exact hw.nodup, ?_, ?_⟩
  · rw [hr.children]
    intro u hu i hi
    rw [hc u hu i hi]
    exact hw.inner u hu i hi
  · rw [hr.children, List.flatMap_congr fun c hc => (h₁ c hc).children]
    intro u hu i hi
    obtain ⟨c, hc', hu'⟩ := List.mem_flatMap.1 hu
    rw [(h u (mem_tables.2 (.inr (.inr ⟨c, hc', hu'⟩)))).pteAt hi]
    exact hw.leaf u hu i hi

/-! ### The empty tree -/

theorem pteAt_of_zero (h : ∀ j < PGSIZE, m (t + j) = 0) (hi : i < 512) : pteAt m t i = 0 :=
  read64_of_zero fun j hj => by
    rw [Nat.add_assoc]
    exact h _ (by simp only [PGSIZE]; omega)

theorem children_of_zero (h : ∀ j < PGSIZE, m (t + j) = 0) : children m t = [] := by
  unfold children
  exact List.filterMap_eq_nil_iff.2 fun i hi =>
    child_eq_none.2 (by rw [pteAt_of_zero h (List.mem_range.1 hi)])

theorem tables_of_zero (h : ∀ j < PGSIZE, m (pt + j) = 0) : tables m pt = [pt] := by
  rw [tables, subtree_succ, children_of_zero h, List.flatMap_nil, List.nil_append]

theorem pte0_of_zero (h : ∀ j < PGSIZE, m (pt + j) = 0) : pte0 m pt va = 0 := by
  simp [pte0, ptePtr, child_eq_none.2 (show pteAt m pt (PX 2 va) % 2 = 0 by
    rw [pteAt_of_zero h (PX_lt 2 va)])]

/-- A root page of zeros is a well-formed tree with no page-table page below it. -/
theorem WellFormed.of_zero (ha : pt % PGSIZE = 0) (h0 : pt ≠ 0)
    (h : ∀ j < PGSIZE, m (pt + j) = 0) : WellFormed m pt := by
  refine ⟨ha, ?_, ?_, ?_, ?_⟩ <;> simp only [tables_of_zero h, children_of_zero h]
  · simpa using h0.symm
  · simp
  · simp only [List.mem_singleton, forall_eq]
    intro i hi hv
    rw [pteAt_of_zero h hi] at hv
    simp at hv
  · simp

end View

/-! ### Lists -/

section Lists

variable {α β : Type} {f g : α → Option β} {F G : α → List β} {a b : α} {x : β}

/-- In a `filterMap` without duplicates over a list without duplicates, two elements that `f`
sends to the same value are one element. -/
theorem filterMap_inj : ∀ {l : List α}, l.Nodup → (l.filterMap f).Nodup → a ∈ l → b ∈ l →
    f a = some x → f b = some x → a = b
  | [], _, _, ha, _, _, _ => by simp at ha
  | y :: l, hl, h, ha, hb, hfa, hfb => by
    rw [List.nodup_cons] at hl
    rcases List.mem_cons.1 ha with rfl | ha' <;> rcases List.mem_cons.1 hb with rfl | hb'
    · rfl
    · simp only [List.filterMap_cons, hfa, List.nodup_cons] at h
      exact absurd (List.mem_filterMap.2 ⟨b, hb', hfb⟩) h.1
    · simp only [List.filterMap_cons, hfb, List.nodup_cons] at h
      exact absurd (List.mem_filterMap.2 ⟨a, ha', hfa⟩) h.1
    · refine filterMap_inj hl.2 ?_ ha' hb' hfa hfb
      cases hy : f y <;> simp only [List.filterMap_cons, hy] at h
      · exact h
      · exact h.of_cons

/-- A `filterMap` in which one element that gave nothing now gives `x`. -/
theorem filterMap_perm_update : ∀ {l : List α}, l.Nodup → a ∈ l → f a = none → g a = some x →
    (∀ b ∈ l, b ≠ a → g b = f b) → (l.filterMap g).Perm (x :: l.filterMap f)
  | [], _, ha, _, _, _ => by simp at ha
  | y :: l, hl, ha, hfa, hga, h => by
    rw [List.nodup_cons] at hl
    rcases List.mem_cons.1 ha with rfl | ha
    · simp only [List.filterMap_cons, hfa, hga]
      rw [List.filterMap_congr fun b hb => h b (List.mem_cons_of_mem _ hb) (ne_of_mem_of_not_mem hb hl.1)]
    · have ih := filterMap_perm_update hl.2 ha hfa hga fun b hb => h b (List.mem_cons_of_mem _ hb)
      have hy : g y = f y := h y (List.mem_cons_self _ _) (ne_of_mem_of_not_mem ha hl.1).symm
      simp only [List.filterMap_cons, hy]
      cases f y with
      | none => exact ih
      | some z => exact (ih.cons z).trans (List.Perm.swap _ _ _)

/-- A `flatMap` in which the image of one element gained `x`. -/
theorem flatMap_perm_update : ∀ {l : List α}, l.Nodup → a ∈ l → (G a).Perm (x :: F a) →
    (∀ b ∈ l, b ≠ a → G b = F b) → (l.flatMap G).Perm (x :: l.flatMap F)
  | [], _, ha, _, _ => by simp at ha
  | y :: l, hl, ha, hga, h => by
    rw [List.nodup_cons] at hl
    simp only [List.flatMap_cons]
    rcases List.mem_cons.1 ha with rfl | ha
    · rw [List.flatMap_congr fun b hb => h b (List.mem_cons_of_mem _ hb) (ne_of_mem_of_not_mem hb hl.1)]
      exact hga.append_right _
    · have ih := flatMap_perm_update hl.2 ha hga fun b hb => h b (List.mem_cons_of_mem _ hb)
      rw [h y (List.mem_cons_self _ _) (ne_of_mem_of_not_mem ha hl.1).symm]
      exact (ih.append_left _).trans List.perm_middle

end Lists

/-! ### What distinct page-table pages give -/

section Distinct

variable {m : Mem} {pt t c c' u i j va va' p v q : Nat}

theorem tables_eq : tables m pt = (children m pt).flatMap (fun c => children m c ++ [c]) ++ [pt] := by
  simp only [tables, subtree_succ, subtree_zero, List.flatMap_singleton']

theorem WellFormed.aligned_of_mem (hw : WellFormed m pt) (h : t ∈ tables m pt) :
    t % PGSIZE = 0 := by
  rcases mem_tables.1 h with rfl | hc | ⟨c, -, hc⟩
  · exact hw.aligned
  · exact (aligned_of_mem_children hc).1
  · exact (aligned_of_mem_children hc).1

theorem WellFormed.ne_zero_of_mem (hw : WellFormed m pt) (h : t ∈ tables m pt) : t ≠ 0 :=
  fun h0 => hw.nonnull (h0 ▸ h)

/-- The level-1 pages are distinct from each other, and each level-1 page is distinct from the
pages below it; no level-0 page hangs under two level-1 pages; the root is none of them. -/
theorem WellFormed.split (hw : WellFormed m pt) :
    (∀ c ∈ children m pt, (children m c).Nodup ∧ c ∉ children m c) ∧
    (children m pt).Pairwise (fun c c' => (children m c ++ [c]).Disjoint (children m c' ++ [c'])) ∧
    pt ∉ (children m pt).flatMap (fun c => children m c ++ [c]) := by
  have h := hw.nodup
  rw [tables_eq, List.nodup_append, List.nodup_flatMap] at h
  refine ⟨fun c hc => ?_, h.1.2, fun hp => h.2.2 hp (List.mem_singleton_self _)⟩
  have := h.1.1 c hc
  rw [List.nodup_append] at this
  exact ⟨this.1, fun h' => this.2.2 h' (List.mem_singleton_self _)⟩

theorem WellFormed.children_nodup (hw : WellFormed m pt) (ht : t ∈ pt :: children m pt) :
    (children m t).Nodup := by
  rcases List.mem_cons.1 ht with rfl | ht
  · exact hw.split.2.1.imp_of_mem fun _ _ hd h => by
      subst h
      exact hd (List.mem_append_right _ (List.mem_singleton_self _))
        (List.mem_append_right _ (List.mem_singleton_self _))
  · exact (hw.split.1 t ht).1

theorem WellFormed.level0_unique (hw : WellFormed m pt) (hc : c ∈ children m pt)
    (hc' : c' ∈ children m pt) (h : t ∈ children m c) (h' : t ∈ children m c') : c = c' := by
  by_contra hne
  exact hw.split.2.1.forall (fun _ _ => List.disjoint_symm) hc hc' hne
    (List.mem_append_left _ h) (List.mem_append_left _ h')

theorem WellFormed.root_ne_level1 (hw : WellFormed m pt) (hc : c ∈ children m pt) : c ≠ pt := by
  rintro rfl
  exact hw.split.2.2 (List.mem_flatMap.2 ⟨c, hc, List.mem_append_right _ (List.mem_singleton_self _)⟩)

theorem WellFormed.root_ne_level0 (hw : WellFormed m pt) (hc : c ∈ children m pt)
    (h : t ∈ children m c) : t ≠ pt := by
  rintro rfl
  exact hw.split.2.2 (List.mem_flatMap.2 ⟨c, hc, List.mem_append_left _ h⟩)

theorem WellFormed.level1_ne_level0 (hw : WellFormed m pt) (hc : c ∈ children m pt)
    (hc' : c' ∈ children m pt) (h : t ∈ children m c) : t ≠ c' := by
  rintro rfl
  rcases eq_or_ne c t with rfl | hne
  · exact (hw.split.1 c hc).2 h
  · exact hw.split.2.1.forall (fun _ _ => List.disjoint_symm) hc hc' hne
      (List.mem_append_left _ h) (List.mem_append_right _ (List.mem_singleton_self _))

theorem mem_tables_of_upper (h : t ∈ pt :: children m pt) : t ∈ tables m pt := by
  rcases List.mem_cons.1 h with rfl | h
  · exact mem_tables.2 (.inl rfl)
  · exact mem_tables.2 (.inr (.inl h))

theorem WellFormed.upper_ne_level0 (hw : WellFormed m pt) (ht : t ∈ pt :: children m pt)
    (hc : c ∈ children m pt) (hu : u ∈ children m c) : u ≠ t := by
  rcases List.mem_cons.1 ht with rfl | ht
  · exact hw.root_ne_level0 hc hu
  · exact hw.level1_ne_level0 hc ht hu

/-- Entries of one page that point to the same page are one entry. -/
theorem WellFormed.child_inj (hw : WellFormed m pt) (ht : t ∈ pt :: children m pt)
    (hi : i < 512) (hj : j < 512) (h : child m t i = some c) (h' : child m t j = some c) : i = j :=
  filterMap_inj (List.nodup_range 512) (by rw [← children]; exact hw.children_nodup ht)
    (List.mem_range.2 hi) (List.mem_range.2 hj) h h'

theorem PX_eq_of_page (h : va / PGSIZE = va' / PGSIZE) (l : Nat) : PX l va = PX l va' := by
  simp only [PX, pow_add, ← Nat.div_div_eq_div_mul]
  rw [show va / 2 ^ 12 = va' / 2 ^ 12 from h]

theorem ptePtr_of_page (h : va / PGSIZE = va' / PGSIZE) : ptePtr m pt va = ptePtr m pt va' := by
  simp only [ptePtr, PX_eq_of_page h]

/-- Two addresses below `MAXVA` with the same three indices are in the same page. -/
theorem page_of_PX (hva : va < MAXVA) (hva' : va' < MAXVA) (h2 : PX 2 va = PX 2 va')
    (h1 : PX 1 va = PX 1 va') (h0 : PX 0 va = PX 0 va') : va / PGSIZE = va' / PGSIZE := by
  simp only [PX, PGSIZE, MAXVA] at *
  omega

theorem pte0_of_page (h : va / PGSIZE = va' / PGSIZE) : pte0 m pt va = pte0 m pt va' := by
  simp only [pte0, ptePtr_of_page h]

/-- A valid level-0 PTE is read through `ptePtr`. -/
theorem ptePtr_of_valid (h : pte0 m pt va % 2 = 1) :
    ∃ p, ptePtr m pt va = some p ∧ read64 m p = pte0 m pt va := by
  cases hp : ptePtr m pt va with
  | none => simp [pte0, hp] at h
  | some p => exact ⟨p, rfl, by simp [pte0, hp]⟩

/-- A valid level-0 PTE of a well-formed tree is a leaf. -/
theorem WellFormed.pte0_leaf (hw : WellFormed m pt) (h : pte0 m pt va % 2 = 1) :
    pte0 m pt va &&& PTE_RWX ≠ 0 := by
  obtain ⟨p, hp, hread⟩ := ptePtr_of_valid h
  obtain ⟨c, hc, t, ht, rfl⟩ := slot_of_ptePtr hp
  rw [← hread] at h ⊢
  exact hw.leaf t (List.mem_flatMap.2 ⟨c, hc, ht⟩) _ (PX_lt 0 va) h

theorem WellFormed.slot_ne_zero (hw : WellFormed m pt) (h : ptePtr m pt va = some p) : p ≠ 0 := by
  obtain ⟨c, hc, t, ht, rfl⟩ := slot_of_ptePtr h
  have := hw.ne_zero_of_mem (mem_tables.2 (.inr (.inr ⟨c, hc, ht⟩)))
  omega

/-- In a well-formed tree, distinct pages below `MAXVA` have distinct level-0 PTEs. -/
theorem WellFormed.ptePtr_inj (hw : WellFormed m pt) (hva : va < MAXVA) (hva' : va' < MAXVA)
    (h : ptePtr m pt va = some p) (h' : ptePtr m pt va' = some p) :
    va / PGSIZE = va' / PGSIZE := by
  obtain ⟨t₁, t₀, h₁, h₀, rfl⟩ := ptePtr_eq_some.1 h
  obtain ⟨t₁', t₀', h₁', h₀', he⟩ := ptePtr_eq_some.1 h'
  have hc := mem_children.2 ⟨_, PX_lt 2 va, h₁⟩
  have hc' := mem_children.2 ⟨_, PX_lt 2 va', h₁'⟩
  have a₀ := (aligned_of_child h₀).1
  have a₀' := (aligned_of_child h₀').1
  have := PX_lt 0 va
  have := PX_lt 0 va'
  simp only [PGSIZE] at a₀ a₀'
  have e₀ : t₀ = t₀' := by omega
  have e0 : PX 0 va = PX 0 va' := by omega
  subst e₀
  have e₁ := hw.level0_unique hc hc' (mem_children.2 ⟨_, PX_lt 1 va, h₀⟩)
    (mem_children.2 ⟨_, PX_lt 1 va', h₀'⟩)
  subst e₁
  exact page_of_PX hva hva'
    (hw.child_inj (List.mem_cons_self _ _) (PX_lt 2 va) (PX_lt 2 va') h₁ h₁')
    (hw.child_inj (List.mem_cons_of_mem _ hc) (PX_lt 1 va) (PX_lt 1 va') h₀ h₀') e0

end Distinct

/-! ### A store to a level-0 PTE -/

section Store

variable {m : Mem} {pt t u i j va va' p v q : Nat} {c : UInt8}

theorem agreeOn_write64 (ht : t % PGSIZE = 0) (hu : u % PGSIZE = 0) (hi : i < 512)
    (hne : t ≠ u) : AgreeOn m (write64 m (t + 8 * i) v) u :=
  fun j hj => if_neg (by simp only [PGSIZE] at *; omega)

theorem agreeOn_memset (hq : q % PGSIZE = 0) (hu : u % PGSIZE = 0) (hne : q ≠ u) :
    AgreeOn m (memset m q c PGSIZE) u :=
  fun j hj => if_neg (by simp only [PGSIZE] at *; omega)

theorem agreeOn_memmove {o n src : Nat} (hq : q % PGSIZE = 0) (hu : u % PGSIZE = 0) (hne : q ≠ u)
    (ho : o + n ≤ PGSIZE) : AgreeOn m (memmove m (q + o) src n) u :=
  fun j hj => if_neg (by simp only [PGSIZE] at *; omega)

theorem pteAt_write64 (hp : p % 8 = 0) (hu : u % 8 = 0) :
    pteAt (write64 m p v) u j = if u + 8 * j = p then v % 2 ^ 64 else pteAt m u j := by
  split_ifs with h
  · rw [pteAt, h, read64_write64_self]
  · exact read64_write64_of_disjoint (by omega)

theorem slot_aligned (hp : ptePtr m pt va = some p) : p % 8 = 0 := by
  obtain ⟨_, t₀, -, h₀, rfl⟩ := ptePtr_eq_some.1 hp
  have := (aligned_of_child h₀).1
  simp only [PGSIZE] at this
  omega

variable (hw : WellFormed m pt) (hp : ptePtr m pt va = some p)
include hw hp

/-- A store to the level-0 PTE of `va` leaves the root and the level-1 pages alone. -/
theorem store_agreeOn (hu : u ∈ pt :: children m pt) : AgreeOn m (write64 m p v) u := by
  obtain ⟨c, hc, t, ht, rfl⟩ := slot_of_ptePtr hp
  have hne := hw.upper_ne_level0 hu hc ht
  exact agreeOn_write64 (aligned_of_mem_children ht).1 (hw.aligned_of_mem (mem_tables_of_upper hu))
    (PX_lt 0 va) hne

theorem tables_store : tables (write64 m p v) pt = tables m pt :=
  tables_congr (store_agreeOn hw hp (List.mem_cons_self _ _))
    fun _ hc => store_agreeOn hw hp (List.mem_cons_of_mem _ hc)

theorem ptePtr_store : ptePtr (write64 m p v) pt va' = ptePtr m pt va' :=
  ptePtr_congr (store_agreeOn hw hp (List.mem_cons_self _ _))
    fun _ hc => store_agreeOn hw hp (List.mem_cons_of_mem _ hc)

/-- A store to the level-0 PTE of `va` changes the level-0 PTE of that page and of no other. -/
theorem pte0_store (hva : va < MAXVA) (hva' : va' < MAXVA) :
    pte0 (write64 m p v) pt va' = if va' / PGSIZE = va / PGSIZE then v % 2 ^ 64 else pte0 m pt va' := by
  rw [pte0, ptePtr_store hw hp]
  split_ifs with h
  · rw [ptePtr_of_page h, hp, Option.map_some', Option.getD_some, read64_write64_self]
  · cases hp' : ptePtr m pt va' with
    | none => simp [pte0, hp']
    | some p' =>
      have hne : p' ≠ p := fun e => h (hw.ptePtr_inj hva' hva hp' (e ▸ hp))
      have := slot_aligned hp
      have := slot_aligned hp'
      simp only [pte0, hp', Option.map_some', Option.getD_some]
      exact read64_write64_of_disjoint (by omega)

/-- Storing an invalid PTE or a leaf keeps the tree well formed. -/
theorem WellFormed.store (hv : v < 2 ^ 64) (hleaf : v % 2 = 1 → v &&& PTE_RWX ≠ 0) :
    WellFormed (write64 m p v) pt := by
  have hr := store_agreeOn (v := v) hw hp (List.mem_cons_self _ _)
  have h₁ : ∀ c ∈ children m pt, AgreeOn m (write64 m p v) c :=
    fun _ hc => store_agreeOn hw hp (List.mem_cons_of_mem _ hc)
  have ht := tables_store (v := v) hw hp
  refine ⟨hw.aligned, by rw [ht]; exact hw.nonnull, by rw [ht]; exact hw.nodup, ?_, ?_⟩
  · rw [hr.children]
    intro u hu j hj
    rw [(store_agreeOn hw hp hu).pteAt hj]
    exact hw.inner u hu j hj
  · rw [hr.children, List.flatMap_congr fun c hc => (h₁ c hc).children]
    intro u hu j hj
    obtain ⟨c, hc, hu'⟩ := List.mem_flatMap.1 hu
    have := (aligned_of_mem_children hu').1
    rw [pteAt_write64 (slot_aligned hp) (by simp only [PGSIZE] at this; omega)]
    split_ifs
    · rw [Nat.mod_eq_of_lt hv]
      exact hleaf
    · exact hw.leaf u hu j hj

end Store

/-! ### Linking a fresh zeroed page under an invalid entry -/

/-- `memset(q, 0, PGSIZE); *pte = PA2PTE(q) | PTE_V`: `walk` gives the page `q` it got from
`kalloc` to the entry at `pte`. -/
def link (m : Mem) (pte q : Nat) : Mem := write64 (memset m q 0 PGSIZE) pte (PA2PTE q ||| PTE_V)

section Entries

variable {m : Mem} {t u i j q : Nat}

theorem pteAt_link (ht : t % PGSIZE = 0) (hq : q % PGSIZE = 0) (hq64 : q < 2 ^ 64) (hi : i < 512)
    (hu : u % PGSIZE = 0) (hj : j < 512) :
    pteAt (link m (t + 8 * i) q) u j =
      if u = t ∧ j = i then PA2PTE q + 1 else if u = q then 0 else pteAt m u j := by
  have hv : PA2PTE q + 1 < 2 ^ 64 := by simp only [PA2PTE, PGSIZE]; omega
  simp only [PGSIZE] at ht hq hu
  rw [link, PA2PTE_or (by decide), PTE_V, pteAt_write64 (by omega) (by omega), Nat.mod_eq_of_lt hv]
  by_cases h : u = t ∧ j = i
  · rw [if_pos (by omega), if_pos h]
  · rw [if_neg (by omega), if_neg h]
    split_ifs with huq
    · exact read64_memset_zero (by omega) (by simp only [PGSIZE]; omega)
    · exact read64_memset_of_disjoint (by simp only [PGSIZE]; omega)

theorem child_link (ht : t % PGSIZE = 0) (hq : q % PGSIZE = 0) (hq64 : q < 2 ^ 64) (hi : i < 512)
    (hu : u % PGSIZE = 0) (hj : j < 512) :
    child (link m (t + 8 * i) q) u j =
      if u = t ∧ j = i then some q else if u = q then none else child m u j := by
  rw [child, pteAt_link ht hq hq64 hi hu hj]
  by_cases h : u = t ∧ j = i
  · have hv : (PA2PTE q + 1) &&& PTE_V ≠ 0 := by rw [and_PTE_V]; simp only [PA2PTE]; omega
    rw [if_pos h, if_pos h, if_pos hv, PTE2PA_PA2PTE_add (by decide) hq hq64]
  · rw [if_neg h, if_neg h]
    by_cases huq : u = q
    · rw [if_pos huq, if_pos huq]
      rfl
    · rw [if_neg huq, if_neg huq, child]

end Entries

/-- `walk` may link the page `q` under entry `i` of the page-table page `t` of the tree at `pt`:
the entry is invalid, and `q` is a nonzero page outside the tree. -/
structure CanLink (m : Mem) (pt t i q : Nat) : Prop where
  wf : WellFormed m pt
  upper : t ∈ pt :: children m pt
  index : i < 512
  invalid : pteAt m t i % 2 = 0
  aligned : q % PGSIZE = 0
  nonnull : q ≠ 0
  lt : q < 2 ^ 64
  fresh : q ∉ tables m pt

namespace CanLink

variable {m : Mem} {pt t i q u j va : Nat} (h : CanLink m pt t i q)
include h

theorem ne_of_mem (hu : u ∈ tables m pt) : u ≠ q := fun e => h.fresh (e ▸ hu)

theorem t_aligned : t % PGSIZE = 0 := h.wf.aligned_of_mem (mem_tables_of_upper h.upper)

theorem t_ne : t ≠ q := h.ne_of_mem (mem_tables_of_upper h.upper)

theorem root_ne : pt ≠ q := h.ne_of_mem (mem_tables.2 (.inl rfl))

theorem entry (hu : u % PGSIZE = 0) (hj : j < 512) :
    pteAt (link m (t + 8 * i) q) u j =
      if u = t ∧ j = i then PA2PTE q + 1 else if u = q then 0 else pteAt m u j :=
  pteAt_link h.t_aligned h.aligned h.lt h.index hu hj

theorem child_eq (hu : u % PGSIZE = 0) (hj : j < 512) :
    child (link m (t + 8 * i) q) u j =
      if u = t ∧ j = i then some q else if u = q then none else child m u j :=
  child_link h.t_aligned h.aligned h.lt h.index hu hj

theorem children_fresh : children (link m (t + 8 * i) q) q = [] := by
  unfold children
  exact List.filterMap_eq_nil_iff.2 fun j hj => by
    rw [h.child_eq h.aligned (List.mem_range.1 hj), if_neg fun e => h.t_ne e.1.symm, if_pos rfl]

theorem children_other (hu : u % PGSIZE = 0) (hut : u ≠ t) (huq : u ≠ q) :
    children (link m (t + 8 * i) q) u = children m u := by
  unfold children
  exact List.filterMap_congr fun j hj => by
    rw [h.child_eq hu (List.mem_range.1 hj), if_neg fun e => hut e.1, if_neg huq]

theorem children_self : (children (link m (t + 8 * i) q) t).Perm (q :: children m t) := by
  unfold children
  exact filterMap_perm_update (List.nodup_range 512) (List.mem_range.2 h.index)
    (child_eq_none.2 h.invalid) (by rw [h.child_eq h.t_aligned h.index, if_pos ⟨rfl, rfl⟩])
    fun j hj hji => by
      rw [h.child_eq h.t_aligned (List.mem_range.1 hj), if_neg fun e => hji e.2, if_neg h.t_ne]

theorem agree (hu : u % PGSIZE = 0) (hut : u ≠ t) (huq : u ≠ q) :
    AgreeOn m (link m (t + 8 * i) q) u := fun j hj =>
  (agreeOn_write64 (m := memset m q 0 PGSIZE) (v := PA2PTE q ||| PTE_V) h.t_aligned hu h.index
    (Ne.symm hut) j hj).trans (agreeOn_memset h.aligned hu (Ne.symm huq) j hj)

theorem children_level1 (hc : c ∈ children m pt) (hct : c ≠ t) :
    children (link m (t + 8 * i) q) c = children m c :=
  h.children_other (aligned_of_mem_children hc).1 hct (h.ne_of_mem (mem_tables.2 (.inr (.inl hc))))

/-- The level-1 pages after the link are the old ones and `q`. -/
theorem level1_sub (hc : c ∈ children (link m (t + 8 * i) q) pt) : c = q ∨ c ∈ children m pt := by
  rcases List.mem_cons.1 h.upper with rfl | ht
  · exact List.mem_cons.1 (h.children_self.mem_iff.1 hc)
  · rw [h.children_other h.wf.aligned (h.wf.root_ne_level1 ht).symm h.root_ne] at hc
    exact .inr hc

/-- The page-table pages after the link are the old ones and `q`. -/
theorem tables_perm : (tables (link m (t + 8 * i) q) pt).Perm (q :: tables m pt) := by
  simp only [tables_eq]
  rw [← List.cons_append]
  rcases List.mem_cons.1 h.upper with rfl | ht
  · refine ((h.children_self.flatMap_right _).append_right _).trans ?_
    rw [List.flatMap_cons, h.children_fresh, List.nil_append, List.singleton_append,
      List.flatMap_congr fun c hc => by rw [h.children_level1 hc (h.wf.root_ne_level1 hc)]]
  · rw [h.children_other h.wf.aligned (h.wf.root_ne_level1 ht).symm h.root_ne]
    refine List.Perm.append_right _ (flatMap_perm_update (h.wf.children_nodup
      (List.mem_cons_self _ _)) ht ?_ fun c hc hct => by rw [h.children_level1 hc hct])
    rw [← List.cons_append]
    exact h.children_self.append_right _

/-- The root and level-1 pages after the link are the old ones and `q`. -/
theorem upper_sub (hu : u ∈ pt :: children (link m (t + 8 * i) q) pt) :
    u = q ∨ u ∈ pt :: children m pt := by
  rcases List.mem_cons.1 hu with rfl | hu
  · exact .inr (List.mem_cons_self _ _)
  · exact (h.level1_sub hu).imp_right (List.mem_cons_of_mem _)

/-- The level-0 pages after the link are the old ones and `q`, none of them `t`. -/
theorem lower_sub
    (hu : u ∈ (children (link m (t + 8 * i) q) pt).flatMap (children (link m (t + 8 * i) q))) :
    u ≠ t ∧ (u = q ∨ u ∈ (children m pt).flatMap (children m)) := by
  obtain ⟨c, hc, hu⟩ := List.mem_flatMap.1 hu
  rcases h.level1_sub hc with rfl | hc'
  · rw [h.children_fresh] at hu
    simp at hu
  by_cases hct : c = t
  · subst hct
    rcases List.mem_cons.1 (h.children_self.mem_iff.1 hu) with rfl | hu
    · exact ⟨h.t_ne.symm, .inl rfl⟩
    · exact ⟨h.wf.upper_ne_level0 h.upper hc' hu, .inr (List.mem_flatMap.2 ⟨_, hc', hu⟩)⟩
  · rw [h.children_level1 hc' hct] at hu
    exact ⟨h.wf.upper_ne_level0 h.upper hc' hu, .inr (List.mem_flatMap.2 ⟨c, hc', hu⟩)⟩

/-- Linking an empty page changes no level-0 PTE: whatever the new entry leads to reads as 0. -/
theorem pte0_eq : pte0 (link m (t + 8 * i) q) pt va = pte0 m pt va := by
  simp only [pte0, ptePtr]
  rw [h.child_eq h.wf.aligned (PX_lt 2 va), if_neg h.root_ne]
  by_cases h2 : pt = t ∧ PX 2 va = i
  · obtain ⟨rfl, e⟩ := h2
    rw [if_pos ⟨rfl, e⟩, child_eq_none.2 (e ▸ h.invalid), Option.some_bind,
      h.child_eq h.aligned (PX_lt 1 va), if_neg fun e => h.t_ne e.1.symm, if_pos rfl]
    simp
  rw [if_neg h2]
  cases h₁ : child m pt (PX 2 va) with
  | none => simp
  | some c =>
    have hc : c ∈ children m pt := mem_children.2 ⟨_, PX_lt 2 va, h₁⟩
    simp only [Option.some_bind]
    rw [h.child_eq (aligned_of_child h₁).1 (PX_lt 1 va),
      if_neg (h.ne_of_mem (mem_tables.2 (.inr (.inl hc))))]
    by_cases h1 : c = t ∧ PX 1 va = i
    · obtain ⟨rfl, e⟩ := h1
      rw [if_pos ⟨rfl, e⟩, child_eq_none.2 (e ▸ h.invalid)]
      simp only [Option.map_some', Option.getD_some, Option.map_none', Option.getD_none]
      have := h.entry (m := m) h.aligned (PX_lt 0 va)
      rwa [if_neg fun e => h.t_ne e.1.symm, if_pos rfl] at this
    rw [if_neg h1]
    cases h₀ : child m c (PX 1 va) with
    | none => simp
    | some d =>
      have hd : d ∈ children m c := mem_children.2 ⟨_, PX_lt 1 va, h₀⟩
      simp only [Option.map_some', Option.getD_some]
      have := h.entry (m := m) (aligned_of_child h₀).1 (PX_lt 0 va)
      rwa [if_neg fun e => h.wf.upper_ne_level0 h.upper hc hd e.1,
        if_neg (h.ne_of_mem (mem_tables.2 (.inr (.inr ⟨c, hc, hd⟩))))] at this

theorem wellFormed : WellFormed (link m (t + 8 * i) q) pt := by
  have hperm := h.tables_perm
  refine ⟨h.wf.aligned, ?_, ?_, ?_, ?_⟩
  · rw [hperm.mem_iff, List.mem_cons]
    rintro (e | e)
    · exact h.nonnull e.symm
    · exact h.wf.nonnull e
  · rw [hperm.nodup_iff, List.nodup_cons]
    exact ⟨h.fresh, h.wf.nodup⟩
  · intro u hu j hj hv
    rcases h.upper_sub hu with rfl | hu'
    · rw [h.entry h.aligned hj, if_neg fun e => h.t_ne e.1.symm, if_pos rfl] at hv
      simp at hv
    rw [h.entry (h.wf.aligned_of_mem (mem_tables_of_upper hu')) hj] at hv ⊢
    split_ifs at hv ⊢
    · rw [PA2PTE_add_and_RWX (by decide)]
      rfl
    · exact h.wf.inner u hu' j hj hv
  · intro u hu j hj hv
    obtain ⟨hut, rfl | hu'⟩ := h.lower_sub hu
    · rw [h.entry h.aligned hj, if_neg fun e => hut e.1, if_pos rfl] at hv
      simp at hv
    obtain ⟨c, hc, hu''⟩ := List.mem_flatMap.1 hu'
    rw [h.entry (aligned_of_mem_children hu'').1 hj, if_neg fun e => hut e.1,
      if_neg (h.ne_of_mem (mem_tables.2 (.inr (.inr ⟨c, hc, hu''⟩))))] at hv ⊢
    exact h.wf.leaf u hu' j hj hv

end CanLink

/-! ### A tree with one path

`onePath m r t₁ t₀` links the page `t₁` under entry 0 of the root `r`, and `t₀` under entry 0 of
`t₁`, as `walk(r, va, 1)` does for an address below 2 MB; the level-0 PTEs of those addresses
are then the entries of `t₀`. The examples of the later modules store their leaves there. -/

def onePath (m : Mem) (r t₁ t₀ : Nat) : Mem := link (link m (r + 8 * 0) t₁) (t₁ + 8 * 0) t₀

/-- The pages of one path below a zeroed root. -/
structure PathPages (m : Mem) (r t₁ t₀ : Nat) : Prop where
  zero : ∀ j < PGSIZE, m (r + j) = 0
  aligned : r % PGSIZE = 0 ∧ t₁ % PGSIZE = 0 ∧ t₀ % PGSIZE = 0
  nonnull : r ≠ 0 ∧ t₁ ≠ 0 ∧ t₀ ≠ 0
  distinct : t₁ ≠ r ∧ t₀ ≠ r ∧ t₀ ≠ t₁
  lt : t₁ < 2 ^ 64 ∧ t₀ < 2 ^ 64

namespace PathPages

variable {m : Mem} {r t₁ t₀ : Nat} (h : PathPages m r t₁ t₀)
include h

theorem canLink₁ : CanLink m r r 0 t₁ :=
  ⟨.of_zero h.aligned.1 h.nonnull.1 h.zero, List.mem_cons_self _ _, by decide,
    by rw [pteAt_of_zero h.zero (by decide)], h.aligned.2.1, h.nonnull.2.1, h.lt.1,
    by simpa [tables_of_zero h.zero] using h.distinct.1⟩

theorem canLink₀ : CanLink (link m (r + 8 * 0) t₁) r t₁ 0 t₀ := by
  have h₁ := h.canLink₁
  refine ⟨h₁.wellFormed, List.mem_cons_of_mem _ (h₁.children_self.mem_iff.2 (List.mem_cons_self _ _)),
    by decide, ?_, h.aligned.2.2, h.nonnull.2.2, h.lt.2, ?_⟩
  · rw [h₁.entry h.aligned.2.1 (by decide), if_neg fun e => h.distinct.1 e.1, if_pos rfl]
  · rw [h₁.tables_perm.mem_iff, tables_of_zero h.zero]
    simp [h.distinct.2.1, h.distinct.2.2]

theorem wellFormed : WellFormed (onePath m r t₁ t₀) r := h.canLink₀.wellFormed

theorem tables : (Vm.tables (onePath m r t₁ t₀) r).Perm [t₀, t₁, r] :=
  h.canLink₀.tables_perm.trans (.cons t₀ (by simpa [tables_of_zero h.zero] using h.canLink₁.tables_perm))

end PathPages

/-- The leaf `PA2PTE(pa) | PTE_W | PTE_R | PTE_U | PTE_V` of a user page. -/
def userLeaf (pa : Nat) : Nat := PA2PTE pa ||| PTE_W ||| PTE_R ||| PTE_U ||| PTE_V

/-- The root 4096 with one path to the level-0 page 12288, whose entries 0 and 1 hold `e₀` and
`e₁`: the user pages 0 and 1. -/
def twoPages (e₀ e₁ : Nat) : Mem :=
  write64 (write64 (onePath (fun _ => 0) 4096 8192 12288) 12288 e₀) 12296 e₁

/-- The tree `twoPages` writes nothing from 16384 on. -/
theorem twoPages_high {e₀ e₁ x : Nat} (hx : 16384 ≤ x) : twoPages e₀ e₁ x = 0 := by
  simp (disch := omega) only [twoPages, write64, writeLE, onePath, link, memset, PGSIZE, if_neg]

theorem twoPages_path : PathPages (fun _ => 0) 4096 8192 12288 :=
  ⟨fun _ _ => rfl, by decide, by decide, by decide, by decide⟩

/-- The stores of `twoPages` fill two slots of the level-0 page 12288 and touch no other page. -/
theorem twoPages_agreeOn {e₀ e₁ u : Nat} (hu : u % PGSIZE = 0) (hne : u ≠ 12288) :
    AgreeOn (onePath (fun _ => 0) 4096 8192 12288) (twoPages e₀ e₁) u := fun j hj => by
  simp only [PGSIZE] at hu hj
  simp only [twoPages, write64, writeLE]
  rw [if_neg (by omega), if_neg (by omega)]

/-- Whatever the entries `e₀` and `e₁` hold, leaves or not, the page-table pages of
`twoPages e₀ e₁` are 12288, 8192, 4096. -/
theorem twoPages_tables (e₀ e₁ : Nat) : (tables (twoPages e₀ e₁) 4096).Perm [12288, 8192, 4096] := by
  have hw := twoPages_path.wellFormed
  obtain ⟨c, hc, t, ht, e⟩ := slot_of_ptePtr
    (show ptePtr (onePath (fun _ => 0) 4096 8192 12288) 4096 0 = some 12288 by decide)
  rw [show PX 0 0 = 0 from rfl] at e
  have hup : ∀ u ∈ 4096 :: children (onePath (fun _ => 0) 4096 8192 12288) 4096,
      AgreeOn (onePath (fun _ => 0) 4096 8192 12288) (twoPages e₀ e₁) u := fun u hu =>
    twoPages_agreeOn (hw.aligned_of_mem (mem_tables_of_upper hu))
      (by have := hw.upper_ne_level0 hu hc ht; omega)
  rw [tables_congr (hup _ (List.mem_cons_self _ _)) fun c hc => hup c (List.mem_cons_of_mem _ hc)]
  exact twoPages_path.tables

/-- The tree `twoPages e₀ e₁` is well formed when `e₀` and `e₁` are invalid or leaves. -/
theorem twoPages_wf (e₀ e₁ : Nat) (h₀ : e₀ < 2 ^ 64) (h₀' : e₀ % 2 = 1 → e₀ &&& PTE_RWX ≠ 0)
    (h₁ : e₁ < 2 ^ 64) (h₁' : e₁ % 2 = 1 → e₁ &&& PTE_RWX ≠ 0) :
    WellFormed (twoPages e₀ e₁) 4096 ∧ (tables (twoPages e₀ e₁) 4096).Perm [12288, 8192, 4096] := by
  have hw := twoPages_path.wellFormed
  have hp₀ : ptePtr (onePath (fun _ => 0) 4096 8192 12288) 4096 0 = some 12288 := by decide
  have hp₁ : ptePtr (write64 (onePath (fun _ => 0) 4096 8192 12288) 12288 e₀) 4096 4096 =
      some 12296 := by
    rw [ptePtr_store hw hp₀]
    decide
  exact ⟨(hw.store hp₀ h₀ h₀').store hp₁ h₁ h₁', twoPages_tables e₀ e₁⟩

/-- The level-0 PTEs of `twoPages e₀ e₁`: `e₀` for the page 0, `e₁` for the page 4096, and 0
for every other page. -/
theorem twoPages_pte0 {e₀ e₁ va : Nat} (h₀ : e₀ < 2 ^ 64) (h₀' : e₀ % 2 = 1 → e₀ &&& PTE_RWX ≠ 0)
    (hva : va < MAXVA) :
    pte0 (twoPages e₀ e₁) 4096 va =
      if va / PGSIZE = 1 then e₁ % 2 ^ 64 else if va / PGSIZE = 0 then e₀ else 0 := by
  have hw := twoPages_path.wellFormed
  have hp₀ : ptePtr (onePath (fun _ => 0) 4096 8192 12288) 4096 0 = some 12288 := by decide
  have hp₁ : ptePtr (write64 (onePath (fun _ => 0) 4096 8192 12288) 12288 e₀) 4096 4096 =
      some 12296 := by
    rw [ptePtr_store hw hp₀]
    decide
  have hpath : pte0 (onePath (fun _ => 0) 4096 8192 12288) 4096 va = 0 := by
    rw [onePath, twoPages_path.canLink₀.pte0_eq, twoPages_path.canLink₁.pte0_eq,
      pte0_of_zero fun _ _ => rfl]
  rw [twoPages, pte0_store (hw.store hp₀ h₀ h₀') hp₁ (by decide) hva,
    pte0_store hw hp₀ (by decide) hva, hpath, Nat.mod_eq_of_lt h₀]
  rfl

/-- The root of `twoPages e₀ e₁` holds nothing past its entry 0. -/
theorem twoPages_root {e₀ e₁ i : Nat} (hi : 1 ≤ i) (hi' : i < 512) :
    pteAt (twoPages e₀ e₁) 4096 i = 0 :=
  read64_of_zero fun j hj => by
    simp (disch := omega) only [twoPages, write64, writeLE, onePath, link, memset, PGSIZE, if_neg]

end BufCache.Vm
