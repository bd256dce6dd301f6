import BufCache.Vm.Walk

/-!
# How many pages a tree takes

A page-table page of a tree sits under an entry of the root (a level-1 page) or under an entry of
a level-1 page (a level-0 page). `InSlots I J` bounds where the valid entries are: an entry `i`
of the root only for `i ∈ I`, and an entry `j` of the page under root entry `i` only for
`(i, j) ∈ J`. A well-formed tree within the slots has at most `1 + I.length + J.length` pages,
and fewer when a pair of `J` leads to no page (`InSlots.length_le`, `InSlots.length_lt`). `walk`
with `alloc` at an address whose indices are slots keeps the tree within them (`walk_inSlots`),
and so does a store to a level-0 PTE (`InSlots.store`). Since `kalloc` only moves pages from the
free list to the tree (`Extends.length_eq`), a tree within the slots that has, free or in it,
`1 + I.length + J.length` pages never meets an empty free list while a pair of `J` still leads
to no page.
-/

namespace BufCache.Vm

/-- The valid entries of the tree at `pt` are among the slots `I` of the root and the pairs `J`
of a root entry and an entry of the level-1 page under it. -/
structure InSlots (I : List Nat) (J : List (Nat × Nat)) (m : Mem) (pt : Nat) : Prop where
  root : ∀ i < 512, ∀ c, child m pt i = some c → i ∈ I
  level1 : ∀ i < 512, ∀ c, child m pt i = some c → ∀ j < 512, ∀ d, child m c j = some d →
    (i, j) ∈ J

/-- The level-0 page under entry `ij.2` of the page under entry `ij.1` of the root. -/
def lowAt (m : Mem) (pt : Nat) (ij : Nat × Nat) : Option Nat :=
  (child m pt ij.1).bind fun c => child m c ij.2

/-! ### Counting the pages -/

section Count

variable {I : List Nat} {J : List (Nat × Nat)} {m : Mem} {pt : Nat}

theorem length_flatMap_append_singleton (f : Nat → List Nat) :
    ∀ l : List Nat, (l.flatMap fun c => f c ++ [c]).length = l.length + (l.flatMap f).length
  | [] => rfl
  | c :: l => by
    simp only [List.flatMap_cons, List.length_append, List.length_cons, List.length_singleton,
      List.length_nil, length_flatMap_append_singleton f l]
    omega

theorem tables_length (m : Mem) (pt : Nat) : (tables m pt).length =
    1 + (children m pt).length + ((children m pt).flatMap (children m)).length := by
  rw [tables_eq, List.length_append, length_flatMap_append_singleton, List.length_singleton]
  omega

theorem length_filterMap_lt {α β : Type} {f : α → Option β} {l : List α} {x : α} (hx : x ∈ l)
    (h : f x = none) : (l.filterMap f).length < l.length := by
  rw [List.length_filterMap_eq_countP, List.countP_eq_length_filter]
  exact List.length_filter_lt_length_iff_exists.2 ⟨x, hx, by simp [h]⟩

/-- A tree within the slots has its root, a level-1 page for each slot of `I` that leads to one,
and a level-0 page for each pair of `J` that leads to one. -/
theorem InSlots.length_le_filterMap (hw : WellFormed m pt) (h : InSlots I J m pt) :
    (tables m pt).length ≤
      1 + (I.filterMap (child m pt)).length + (J.filterMap (lowAt m pt)).length := by
  have h₁ : (children m pt).length ≤ (I.filterMap (child m pt)).length :=
    (List.subperm_of_subset (hw.children_nodup (List.mem_cons_self _ _)) fun c hc => by
      obtain ⟨i, hi, hc⟩ := mem_children.1 hc
      exact List.mem_filterMap.2 ⟨i, h.root i hi c hc, hc⟩).length_le
  have hnd : ((children m pt).flatMap (children m)).Nodup :=
    List.nodup_flatMap.2 ⟨fun c hc => (hw.split.1 c hc).1, hw.split.2.1.imp fun hd _ h₁ h₂ =>
      hd (List.mem_append_left _ h₁) (List.mem_append_left _ h₂)⟩
  have h₀ : ((children m pt).flatMap (children m)).length ≤ (J.filterMap (lowAt m pt)).length :=
    (List.subperm_of_subset hnd fun d hd => by
      obtain ⟨c, hc, hd⟩ := List.mem_flatMap.1 hd
      obtain ⟨i, hi, hc'⟩ := mem_children.1 hc
      obtain ⟨j, hj, hd'⟩ := mem_children.1 hd
      exact List.mem_filterMap.2 ⟨(i, j), h.level1 i hi c hc' j hj d hd', by
        simp only [lowAt, hc', hd', Option.some_bind]⟩).length_le
  rw [tables_length]
  omega

/-- A tree within the slots has at most one page per slot, and its root. -/
theorem InSlots.length_le (hw : WellFormed m pt) (h : InSlots I J m pt) :
    (tables m pt).length ≤ 1 + I.length + J.length := by
  have := h.length_le_filterMap hw
  have := List.length_filterMap_le (child m pt) I
  have := List.length_filterMap_le (lowAt m pt) J
  omega

/-- ... and fewer when some pair of `J` leads to no page. -/
theorem InSlots.length_lt (hw : WellFormed m pt) (h : InSlots I J m pt) {ij : Nat × Nat}
    (hij : ij ∈ J) (hn : lowAt m pt ij = none) : (tables m pt).length < 1 + I.length + J.length := by
  have := h.length_le_filterMap hw
  have := List.length_filterMap_le (child m pt) I
  have := length_filterMap_lt hij hn
  omega

/-- A level-0 PTE with no place in the tree has no level-0 page above it. -/
theorem lowAt_of_ptePtr {va : Nat} (h : ptePtr m pt va = none) :
    lowAt m pt (PX 2 va, PX 1 va) = none := by
  simp only [ptePtr, lowAt] at h ⊢
  cases hc : child m pt (PX 2 va) with
  | none => rfl
  | some c =>
    rw [hc, Option.some_bind] at h
    exact Option.map_eq_none'.1 h

/-- Pages move from the free list to the tree, and their number stays. -/
theorem Extends.length_eq {s s' : Kmem} (h : Extends pt s s') :
    (tables s'.mem pt).length + s'.freelist.length = (tables s.mem pt).length + s.freelist.length := by
  obtain ⟨l, hl, hp⟩ := h.taken
  rw [hp.length_eq, hl, List.length_append, List.length_append]
  omega

end Count

/-! ### What keeps a tree within its slots -/

section Keep

variable {I : List Nat} {J : List (Nat × Nat)}

/-- Memories that agree on the root and the level-1 pages have the same entries there. -/
theorem InSlots.congr {m m' : Mem} {pt : Nat} (h : InSlots I J m pt) (hr : AgreeOn m m' pt)
    (h₁ : ∀ c ∈ children m pt, AgreeOn m m' c) : InSlots I J m' pt := by
  refine ⟨fun i hi c hc => h.root i hi c (by rwa [hr.child hi] at hc), fun i hi c hc j hj d hd => ?_⟩
  rw [hr.child hi] at hc
  exact h.level1 i hi c hc j hj d (by rwa [(h₁ c (mem_children.2 ⟨i, hi, hc⟩)).child hj] at hd)

/-- Linking a page under entry `k` of `t`, a slot of `I` if `t` is the root and a pair of `J`
with the root entry above `t` otherwise. -/
theorem InSlots.link {m : Mem} {pt t k q : Nat} (h : InSlots I J m pt) (hc : CanLink m pt t k q)
    (hI : t = pt → k ∈ I) (hJ : ∀ i < 512, child m pt i = some t → (i, k) ∈ J) :
    InSlots I J (Vm.link m (t + 8 * k) q) pt := by
  have hroot : ∀ i < 512, child (Vm.link m (t + 8 * k) q) pt i =
      if pt = t ∧ i = k then some q else child m pt i := fun i hi => by
    rw [hc.child_eq hc.wf.aligned hi, if_neg hc.root_ne]
  refine ⟨fun i hi c h' => ?_, fun i hi c h' j hj d hd => ?_⟩
  · rw [hroot i hi] at h'
    split_ifs at h' with he
    · exact he.2 ▸ hI he.1.symm
    · exact h.root i hi c h'
  rw [hroot i hi] at h'
  split_ifs at h' with he
  · -- the new page holds no valid entry
    cases h'
    rw [hc.child_eq hc.aligned hj, if_neg fun e => hc.t_ne e.1.symm, if_pos rfl] at hd
    cases hd
  have hcm : c ∈ children m pt := mem_children.2 ⟨i, hi, h'⟩
  rw [hc.child_eq (aligned_of_child h').1 hj,
    if_neg (hc.ne_of_mem (mem_tables.2 (.inr (.inl hcm))))] at hd
  split_ifs at hd with he'
  · obtain ⟨rfl, rfl⟩ := he'
    exact hJ i hi h'
  · exact h.level1 i hi c h' j hj d hd

/-- A store to a level-0 PTE keeps the root and the level-1 pages. -/
theorem InSlots.store {m : Mem} {pt va p v : Nat} (h : InSlots I J m pt) (hw : WellFormed m pt)
    (hp : ptePtr m pt va = some p) : InSlots I J (write64 m p v) pt :=
  h.congr (store_agreeOn hw hp (List.mem_cons_self _ _))
    fun _ hc => store_agreeOn hw hp (List.mem_cons_of_mem _ hc)

variable {s s' : Kmem} {pt va t level : Nat} {r : Option Nat}

/-- One turn of `walk` with `alloc` at an entry of `t` that the slots allow. -/
theorem walkLevel_inSlots (hw : WellFormed s.mem pt) (hf : Fresh pt s)
    (ht : t ∈ pt :: children s.mem pt) (h : InSlots I J s.mem pt) (hI : t = pt → PX level va ∈ I)
    (hJ : ∀ i < 512, child s.mem pt i = some t → (i, PX level va) ∈ J)
    (hl : walkLevel s true level va t = (r, s')) : InSlots I J s'.mem pt := by
  rcases walkLevel_cases hf hl with ⟨-, -, -, rfl⟩ | ⟨-, -, -, rfl⟩ | ⟨q, rest, hv, hfl, -, rfl⟩
  · exact h
  · exact h
  have hq := hf.page q (hfl ▸ List.mem_cons_self _ _)
  exact h.link ⟨hw, ht, PX_lt _ _, hv, hq.1, hq.2.1, hq.2.2,
    hf.fresh q (hfl ▸ List.mem_cons_self _ _)⟩ hI hJ

/-- `walk` with `alloc` at an address whose indices are slots keeps the tree within them. -/
theorem walk_inSlots {p : Nat} (hw : WellFormed s.mem pt) (hf : Fresh pt s) (h : InSlots I J s.mem pt)
    (hI : PX 2 va ∈ I) (hJ : (PX 2 va, PX 1 va) ∈ J) (hwalk : walk s pt va true = .ok (p, s')) :
    InSlots I J s'.mem pt := by
  have hva : va < MAXVA := by
    by_contra hva
    rw [walk_error (Nat.not_lt.1 hva)] at hwalk
    cases hwalk
  simp only [walk, if_neg (Nat.not_le.2 hva)] at hwalk
  rcases h₁ : walkLevel s true 2 va pt with ⟨r₁, s₁⟩
  rw [h₁] at hwalk
  have hI₁ := walkLevel_inSlots hw hf (List.mem_cons_self _ _) h (fun _ => hI)
    (fun i hi hc => ((hw.root_ne_level1 (mem_children.2 ⟨i, hi, hc⟩)) rfl).elim) h₁
  rcases r₁ with _ | t₁
  · cases hwalk
    exact hI₁
  obtain ⟨g₁, -, c₁, -, -⟩ := walkLevel_alloc hw hf (List.mem_cons_self _ _) h₁
  have hmem : t₁ ∈ children s₁.mem pt := mem_children.2 ⟨_, PX_lt 2 va, c₁ t₁ rfl⟩
  dsimp only at hwalk
  rcases h₂ : walkLevel s₁ true 1 va t₁ with ⟨r₂, s₂⟩
  rw [h₂] at hwalk
  have hI₂ := walkLevel_inSlots g₁.wf (g₁.toExtends.fresh hf) (List.mem_cons_of_mem _ hmem) hI₁
    (fun e => absurd e (g₁.wf.root_ne_level1 hmem))
    (fun i hi hc => by
      rw [g₁.wf.child_inj (List.mem_cons_self _ _) hi (PX_lt 2 va) hc (c₁ t₁ rfl)]
      exact hJ) h₂
  rcases r₂ with _ | t₀ <;> cases hwalk <;> exact hI₂

end Keep

end BufCache.Vm
