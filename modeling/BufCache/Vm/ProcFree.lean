import BufCache.Vm.Tree

/-!
# `proc_free_k_pagetable`

`proc_free_k_pagetable(k_pagetable)` (lines 430-446) frees a process's kernel page table: for
each of the 512 entries that is valid with `PTE_R`, `PTE_W` and `PTE_X` clear it frees the page
the entry points to, recursively, and clears the entry; then it frees the page itself. It never
looks at what a leaf maps.

The recursion is modelled with fuel, the number of nested calls allowed. On a well-formed tree
three are enough, and the call passes to `kfree` exactly the page-table pages of the tree, each
once, every subtree before the page that points to it, the root last, and changes no byte outside
them: `procFreeKPagetable_correct`. A page that a leaf maps is freed when, and only when, it is
also a page-table page of the tree, as in a kernel table that maps all of physical memory:
`procFree_frees_mapped_page`.
-/

namespace BufCache.Vm

/-- One turn of the loop of `proc_free_k_pagetable(k_pagetable)` (lines 434-443) at the entry
`i`, with `free` for the recursive call. -/
def freeEntry (free : Kmem → Nat → Option Kmem) (s : Kmem) (kPagetable i : Nat) : Option Kmem :=
  let pte := pteAt s.mem kPagetable i
  if pte &&& PTE_V ≠ 0 ∧ pte &&& (PTE_R ||| PTE_W ||| PTE_X) = 0 then
    (free s (PTE2PA pte)).map fun s => s.setMem (write64 s.mem (kPagetable + 8 * i) 0)
  else some s

/-- `proc_free_k_pagetable(k_pagetable)` (lines 430-446) with `fuel` nested calls left, `none`
when they run out. -/
def procFreeKPagetable : Nat → Kmem → Nat → Option Kmem
  | 0, _, _ => none
  | fuel + 1, s, kPagetable =>
    ((List.range 512).foldlM (fun s i => freeEntry (procFreeKPagetable fuel) s kPagetable i) s).map
      fun s => s.kfree kPagetable

/-- What a call that frees the pages `l` leaves in `s'`, from `s`: `l` passed to `kfree` in order
and pushed on the free list, and no byte changed outside `l` and the page `w` whose entries it
clears. -/
structure Freed (l : List Nat) (w : Nat) (s s' : Kmem) : Prop where
  freed : s'.freed = s.freed ++ l
  freelist : s'.freelist = l.reverse ++ s.freelist
  frame : ∀ u, u % PGSIZE = 0 → u ∉ w :: l → AgreeOn s.mem s'.mem u

namespace Freed

variable {l l' : List Nat} {w i : Nat} {s s' s'' : Kmem}

theorem refl : Freed [] w s s :=
  ⟨(List.append_nil _).symm, rfl, fun _ _ _ _ _ => rfl⟩

theorem trans (h : Freed l w s s') (h' : Freed l' w s' s'') : Freed (l ++ l') w s s'' := by
  refine ⟨by rw [h'.freed, h.freed, List.append_assoc], by
    rw [h'.freelist, h.freelist, List.reverse_append, List.append_assoc], fun u hu hn => ?_⟩
  simp only [List.mem_cons, List.mem_append, not_or] at hn
  exact (h.frame u hu (by simp [hn])).trans (h'.frame u hu (by simp [hn]))

/-- A call that frees `w` among `l` may clear the entries of another page. -/
theorem widen (h : Freed l w s s') (hw : w ∈ l) (w' : Nat) : Freed l w' s s' :=
  ⟨h.freed, h.freelist, fun u hu hn => h.frame u hu fun hm =>
    hn (List.mem_cons_of_mem _ ((List.mem_cons.1 hm).elim (fun e => e ▸ hw) id))⟩

/-- `k_pagetable[i] = 0`. -/
theorem clear (hw : w % PGSIZE = 0) (hi : i < 512) :
    Freed [] w s (s.setMem (write64 s.mem (w + 8 * i) 0)) :=
  ⟨(List.append_nil _).symm, rfl, fun _ hu hn =>
    agreeOn_write64 hw hu hi fun e => hn (e ▸ List.mem_cons_self _ _)⟩

/-- `kfree(k_pagetable)`. -/
theorem kfree : Freed [w] w s (s.kfree w) :=
  ⟨rfl, rfl, fun _ _ _ _ _ => rfl⟩

end Freed

/-- The pages of a subtree are pages, as its root is. -/
theorem aligned_of_mem_subtree {m : Mem} {u : Nat} (level : Nat) :
    ∀ {t}, t % PGSIZE = 0 → u ∈ subtree m t level → u % PGSIZE = 0 := by
  induction level with
  | zero =>
    intro t ht h
    rw [subtree_zero, List.mem_singleton] at h
    rwa [h]
  | succ level ih =>
    intro t ht h
    rw [subtree_succ, List.mem_append, List.mem_flatMap, List.mem_singleton] at h
    rcases h with ⟨c, hc, h⟩ | rfl
    · exact ih (aligned_of_mem_children hc).1 h
    · exact ht

/-- The subtree of `t` at `level` has the shape `WellFormed` asks of a tree: the valid entries of
its upper pages have `PTE_R`, `PTE_W` and `PTE_X` clear, and those of its level-0 pages are
leaves. -/
def Shaped (m : Mem) (t : Nat) : Nat → Prop
  | 0 => ∀ i < 512, pteAt m t i % 2 = 1 → pteAt m t i &&& PTE_RWX ≠ 0
  | level + 1 => (∀ i < 512, pteAt m t i % 2 = 1 → pteAt m t i &&& PTE_RWX = 0) ∧
      ∀ c ∈ children m t, Shaped m c level

theorem WellFormed.shaped {m : Mem} {pt : Nat} (hw : WellFormed m pt) : Shaped m pt 2 :=
  ⟨hw.inner pt (List.mem_cons_self _ _), fun c hc => ⟨hw.inner c (List.mem_cons_of_mem _ hc),
    fun g hg => hw.leaf g (List.mem_flatMap.2 ⟨c, hc, hg⟩)⟩⟩

section Entry

variable {free : Kmem → Nat → Option Kmem} {s : Kmem} {t i : Nat}

/-- An entry that is invalid, or a leaf, is left alone. -/
theorem freeEntry_skip (h : pteAt s.mem t i % 2 = 0 ∨ pteAt s.mem t i &&& PTE_RWX ≠ 0) :
    freeEntry free s t i = some s := by
  rw [freeEntry, if_neg]
  rintro ⟨h₁, h₂⟩
  rw [and_PTE_V] at h₁
  exact h.elim h₁ (· h₂)

/-- A valid entry with `PTE_R`, `PTE_W` and `PTE_X` clear: the page it points to is freed, then
the entry is cleared. -/
theorem freeEntry_inner (hv : pteAt s.mem t i % 2 = 1) (hr : pteAt s.mem t i &&& PTE_RWX = 0) :
    freeEntry free s t i = (free s (PTE2PA (pteAt s.mem t i))).map
      fun s => s.setMem (write64 s.mem (t + 8 * i) 0) := by
  rw [freeEntry, if_pos ⟨by rw [and_PTE_V, hv]; decide, hr⟩]

theorem foldlM_skip {f : Kmem → Nat → Option Kmem} :
    ∀ {is : List Nat}, (∀ i ∈ is, f s i = some s) → is.foldlM f s = some s
  | [], _ => rfl
  | i :: is, h => by
    rw [List.foldlM_cons, h i (List.mem_cons_self _ _)]
    exact foldlM_skip fun j hj => h j (List.mem_cons_of_mem _ hj)

end Entry

section Loop

variable {m : Mem} {t k f : Nat}

/-- The loop of `proc_free_k_pagetable(t)`, when the call on each page below frees its subtree:
it frees the subtrees, apart and as in `m`, in the order of the entries, clearing the entries. -/
theorem freeLoop_spec (ht : t % PGSIZE = 0)
    (hinner : ∀ i < 512, pteAt m t i % 2 = 1 → pteAt m t i &&& PTE_RWX = 0)
    (hchild : ∀ c ∈ children m t, (subtree m c k).Nodup → ∀ s : Kmem,
      (∀ u ∈ subtree m c k, AgreeOn m s.mem u) →
      ∃ s', procFreeKPagetable f s c = some s' ∧ Freed (subtree m c k) c s s')
    (is : List Nat) : ∀ (s : Kmem), (∀ i ∈ is, i < 512) → is.Nodup →
      (t :: (is.filterMap (child m t)).flatMap fun c => subtree m c k).Nodup →
      (∀ i ∈ is, pteAt s.mem t i = pteAt m t i) →
      (∀ u ∈ (is.filterMap (child m t)).flatMap (fun c => subtree m c k), AgreeOn m s.mem u) →
      ∃ s', is.foldlM (fun s i => freeEntry (procFreeKPagetable f) s t i) s = some s' ∧
        Freed ((is.filterMap (child m t)).flatMap fun c => subtree m c k) t s s' := by
  induction is with
  | nil => exact fun s _ _ _ _ _ => ⟨s, rfl, Freed.refl⟩
  | cons i is ih =>
  intro s hlt hnd hnodup hpte hag
  have hi := hlt i (List.mem_cons_self _ _)
  have hlt' : ∀ j ∈ is, j < 512 := fun j hj => hlt j (List.mem_cons_of_mem _ hj)
  have hpte' : ∀ j ∈ is, pteAt s.mem t j = pteAt m t j := fun j hj =>
    hpte j (List.mem_cons_of_mem _ hj)
  have hpi := hpte i (List.mem_cons_self _ _)
  rw [List.nodup_cons] at hnd
  cases hc : child m t i with
  | none =>
    -- an invalid entry is left alone
    simp only [List.filterMap_cons, hc] at hnodup hag ⊢
    obtain ⟨s', hrun, hpost⟩ := ih s hlt' hnd.2 hnodup hpte' hag
    refine ⟨s', ?_, hpost⟩
    rw [List.foldlM_cons, freeEntry_skip (.inl (by rw [hpi]; exact child_eq_none.1 hc))]
    exact hrun
  | some c =>
    -- the page `c` below the entry `i`: its subtree is freed, then the entry cleared
    obtain ⟨hv, hcv⟩ := child_eq_some.1 hc
    simp only [List.filterMap_cons, hc, List.flatMap_cons] at hnodup hag ⊢
    rw [List.nodup_cons, List.nodup_append] at hnodup
    obtain ⟨htn, hndc, hndl, hdis⟩ := hnodup
    have hcc : c ∈ subtree m c k := mem_subtree_self k
    have hout : ∀ u, u ∉ subtree m c k → u ∉ c :: subtree m c k := fun u hu h => by
      rcases List.mem_cons.1 h with rfl | h
      · exact hu hcc
      · exact hu h
    obtain ⟨s₁, hrun₁, hpost₁⟩ := hchild c (mem_children.2 ⟨i, hi, hc⟩) hndc s
      fun u hu => hag u (List.mem_append_left _ hu)
    have htc : AgreeOn s.mem s₁.mem t :=
      hpost₁.frame t ht (hout t fun h => htn (List.mem_append_left _ h))
    -- the rest of the loop sees the entries and the subtrees as they were
    have hrest : ∀ u ∈ (is.filterMap (child m t)).flatMap (fun c => subtree m c k),
        u % PGSIZE = 0 ∧ AgreeOn s.mem s₁.mem u ∧ u ≠ t := fun u hu => by
      obtain ⟨c', hc', hu'⟩ := List.mem_flatMap.1 hu
      obtain ⟨j, -, hj⟩ := List.mem_filterMap.1 hc'
      have hua := aligned_of_mem_subtree k (aligned_of_child hj).1 hu'
      refine ⟨hua, hpost₁.frame u hua (hout u fun h => hdis h hu), fun e => ?_⟩
      subst e
      exact htn (List.mem_append_right _ hu)
    obtain ⟨s', hrun, hpost⟩ := ih (s₁.setMem (write64 s₁.mem (t + 8 * i) 0)) hlt' hnd.2
      (List.nodup_cons.2 ⟨fun h => htn (List.mem_append_right _ h), hndl⟩)
      (fun j hj => by
        have hji : j ≠ i := fun e => hnd.1 (e ▸ hj)
        rw [Kmem.setMem_mem, pteAt_write64 (by simp only [PGSIZE] at ht; omega)
          (by simp only [PGSIZE] at ht; omega), if_neg (by omega), htc.pteAt (hlt' j hj)]
        exact hpte' j hj)
      fun u hu => by
        obtain ⟨hua, hag₁, hut⟩ := hrest u hu
        exact ((hag u (List.mem_append_right _ hu)).trans hag₁).trans
          (agreeOn_write64 ht hua hi (Ne.symm hut))
    refine ⟨s', ?_, by simpa using (hpost₁.widen hcc t).trans ((Freed.clear ht hi).trans hpost)⟩
    rw [List.foldlM_cons, freeEntry_inner (by rw [hpi]; exact hv)
      (by rw [hpi]; exact hinner i hi hv), hpi, hcv, hrun₁]
    exact hrun

end Loop

/-- `proc_free_k_pagetable(t)` on a subtree of the shape of a tree: with more than `level` nested
calls it returns, having freed every subtree before the page that points to it. -/
theorem procFree_spec {m : Mem} (level : Nat) :
    ∀ {t fuel : Nat} {s : Kmem}, Shaped m t level → (subtree m t level).Nodup → t % PGSIZE = 0 →
      level < fuel → (∀ u ∈ subtree m t level, AgreeOn m s.mem u) →
      ∃ s', procFreeKPagetable fuel s t = some s' ∧ Freed (subtree m t level) t s s' := by
  induction level with
  | zero =>
    -- a level-0 page holds leaves only: nothing below it is freed
    intro t fuel s hs _ ht hf hag
    obtain ⟨f, rfl⟩ : ∃ f, fuel = f + 1 := ⟨fuel - 1, by omega⟩
    have hpte : ∀ i < 512, pteAt s.mem t i = pteAt m t i := fun i hi =>
      (hag t (mem_subtree_self 0)).pteAt hi
    refine ⟨s.kfree t, ?_, Freed.kfree⟩
    have hskip : ∀ i ∈ List.range 512, freeEntry (procFreeKPagetable f) s t i = some s :=
      fun i hi => by
        have hi := List.mem_range.1 hi
        apply freeEntry_skip
        rw [hpte i hi]
        by_cases hv : pteAt m t i % 2 = 1
        · exact .inr (hs i hi hv)
        · exact .inl (by omega)
    rw [procFreeKPagetable, foldlM_skip hskip]
    rfl
  | succ k ih =>
    -- the loop frees the subtree of each page below, then the page goes to `kfree`
    intro t fuel s hs hnd ht hf hag
    obtain ⟨f, rfl⟩ : ∃ f, fuel = f + 1 := ⟨fuel - 1, by omega⟩
    rw [subtree_succ] at hnd hag ⊢
    have hnd' : (t :: (children m t).flatMap fun c => subtree m c k).Nodup :=
      (List.perm_append_singleton _ _).nodup_iff.1 hnd
    obtain ⟨s', hrun, hpost⟩ := freeLoop_spec ht hs.1
      (fun c hc hndc s hagc => @ih c f s (hs.2 c hc) hndc (aligned_of_mem_children hc).1
        (by omega) hagc)
      (List.range 512) s (fun i hi => List.mem_range.1 hi) (List.nodup_range _) hnd'
      (fun i hi => (hag t (List.mem_append_right _ (List.mem_singleton_self _))).pteAt
        (List.mem_range.1 hi))
      fun u hu => hag u (List.mem_append_left _ hu)
    exact ⟨s'.kfree t, by rw [procFreeKPagetable, hrun]; rfl, hpost.trans Freed.kfree⟩

/-- `proc_free_k_pagetable(pt)` on a well-formed tree returns, having passed to `kfree` each of
its page-table pages once, the root last; no byte outside them changed. -/
theorem procFreeKPagetable_correct {s : Kmem} {pt fuel : Nat} (hw : WellFormed s.mem pt)
    (hfuel : 3 ≤ fuel) :
    ∃ s', procFreeKPagetable fuel s pt = some s' ∧ Freed (tables s.mem pt) pt s s' :=
  procFree_spec 2 hw.shaped hw.nodup hw.aligned hfuel fun _ _ _ _ => rfl

/-- Freeing the tree `twoPages (userLeaf 16384) 0`. -/
theorem procFreeKPagetable_correct_twoPages :
    WellFormed (twoPages (userLeaf 16384) 0) 4096 ∧ 3 ≤ 3 ∧
    ∃ s', procFreeKPagetable 3 ⟨twoPages (userLeaf 16384) 0, [], []⟩ 4096 = some s' ∧
      Freed (tables (twoPages (userLeaf 16384) 0) 4096) 4096
        ⟨twoPages (userLeaf 16384) 0, [], []⟩ s' := by
  have hw := (twoPages_wf (userLeaf 16384) 0 (by decide) (by decide) (by decide) (by decide)).1
  exact ⟨hw, le_rfl, procFreeKPagetable_correct (s := ⟨twoPages (userLeaf 16384) 0, [], []⟩) hw le_rfl⟩

/-- A tree whose user page 0 is mapped to its own level-0 page 12288, as a kernel table that maps
all of physical memory maps its own pages: `proc_free_k_pagetable` passes 12288 to `kfree`. -/
theorem procFree_frees_mapped_page :
    WellFormed (twoPages (userLeaf 12288) 0) 4096 ∧
    pte0 (twoPages (userLeaf 12288) 0) 4096 0 % 2 = 1 ∧
    PTE2PA (pte0 (twoPages (userLeaf 12288) 0) 4096 0) = 12288 ∧
    ∃ s', procFreeKPagetable 3 ⟨twoPages (userLeaf 12288) 0, [], []⟩ 4096 = some s' ∧
      12288 ∈ s'.freed := by
  obtain ⟨hw, ht⟩ := twoPages_wf (userLeaf 12288) 0 (by decide) (by decide) (by decide) (by decide)
  obtain ⟨s', hrun, hpost⟩ := procFree_spec (s := ⟨twoPages (userLeaf 12288) 0, [], []⟩) 2
    hw.shaped hw.nodup hw.aligned (show 2 < 3 by decide) fun _ _ _ _ => rfl
  refine ⟨hw, by decide, by decide, s', hrun, ?_⟩
  rw [hpost.freed, List.nil_append]
  exact ht.mem_iff.2 (List.mem_cons_self _ _)

end BufCache.Vm
