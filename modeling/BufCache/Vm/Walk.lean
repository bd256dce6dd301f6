import BufCache.Vm.Tree

/-!
# `walk`

`walk(pagetable, va, alloc)` (lines 69-83) goes down the tree from the root, two levels, and
returns the address of the level-0 PTE for `va`, or 0. Without `alloc` it only reads, and what it
returns is `ptePtr`. With `alloc` it takes a page from `kalloc` for each invalid entry on its way
and links it in zeroed. On a well-formed tree whose free list holds fresh pages, that keeps the
tree well formed, changes no level-0 PTE and no byte outside the tree's pages, and fails only
when the free list has run out: `Grows` says this, and `walk_alloc` proves it.
-/

namespace BufCache.Vm

/-- One turn of the loop of `walk` at `level`: the next page-table page, or `none` where `walk`
returns 0. -/
def walkLevel (s : Kmem) (alloc : Bool) (level va pagetable : Nat) : Option Nat × Kmem :=
  let pte := pagetable + 8 * PX level va
  if read64 s.mem pte &&& PTE_V ≠ 0 then (some (PTE2PA (read64 s.mem pte)), s)
  else if !alloc then (none, s)
  else
    let (p, s) := s.kalloc
    if p = 0 then (none, s) else (some p, s.setMem (link s.mem pte p))

/-- `walk(pagetable, va, alloc)`: the address of the level-0 PTE for `va`, or 0. It panics on
an address at or above `MAXVA`. -/
def walk (s : Kmem) (pagetable va : Nat) (alloc : Bool) : Except String (Nat × Kmem) :=
  if MAXVA ≤ va then .error "walk"
  else
    match walkLevel s alloc 2 va pagetable with
    | (none, s) => .ok (0, s)
    | (some t, s) =>
      match walkLevel s alloc 1 va t with
      | (none, s) => .ok (0, s)
      | (some t, s) => .ok (t + 8 * PX 0 va, s)

section NoAlloc

variable {s : Kmem} {pt va level t : Nat}

theorem walkLevel_noalloc : walkLevel s false level va t = (child s.mem t (PX level va), s) := by
  simp only [walkLevel, child, pteAt]
  split_ifs <;> simp_all

/-- Without `alloc`, `walk` reads the tree and returns `ptePtr`, or 0 where it is `none`. -/
theorem walk_noalloc (hva : va < MAXVA) :
    walk s pt va false = .ok ((ptePtr s.mem pt va).getD 0, s) := by
  simp only [walk, if_neg (Nat.not_le.2 hva), walkLevel_noalloc, ptePtr]
  cases child s.mem pt (PX 2 va) with
  | none => rfl
  | some t =>
    simp only [walkLevel_noalloc, Option.some_bind]
    cases child s.mem t (PX 1 va) <;> rfl

theorem walk_error (hva : MAXVA ≤ va) (alloc : Bool) : walk s pt va alloc = .error "walk" := by
  simp [walk, hva]

/-- On a valid entry `walk` goes down, whatever `alloc` is. -/
theorem walkLevel_of_child {c : Nat} (h : child s.mem t (PX level va) = some c) (alloc : Bool) :
    walkLevel s alloc level va t = (some c, s) := by
  simp only [child, pteAt] at h
  split_ifs at h with hv
  cases h
  simp only [walkLevel, if_pos hv]

/-- Where the level-0 PTE of `va` is in the tree, `walk` returns it and takes no page. -/
theorem walk_of_ptePtr {p : Nat} (hva : va < MAXVA) (h : ptePtr s.mem pt va = some p)
    (alloc : Bool) : walk s pt va alloc = .ok (p, s) := by
  obtain ⟨t₁, t₀, h₁, h₀, rfl⟩ := ptePtr_eq_some.1 h
  simp only [walk, if_neg (Nat.not_le.2 hva), walkLevel_of_child h₁, walkLevel_of_child h₀]

end NoAlloc

/-- Pages that `kalloc` may hand to the tree at `pt`: distinct nonzero pages outside it. -/
structure Fresh (pt : Nat) (s : Kmem) : Prop where
  nodup : s.freelist.Nodup
  page : ∀ q ∈ s.freelist, q % PGSIZE = 0 ∧ q ≠ 0 ∧ q < 2 ^ 64
  fresh : ∀ q ∈ s.freelist, q ∉ tables s.mem pt

/-- `s'` is `s` with pages from the head of the free list made page-table pages of the tree at
`pt`, which is still well formed, and no byte outside the tree's pages changed. -/
structure Extends (pt : Nat) (s s' : Kmem) : Prop where
  wf : WellFormed s'.mem pt
  taken : ∃ l, s.freelist = l ++ s'.freelist ∧ (tables s'.mem pt).Perm (l ++ tables s.mem pt)
  frame : ∀ u, u % PGSIZE = 0 → u ∉ tables s'.mem pt → AgreeOn s.mem s'.mem u
  freed : s'.freed = s.freed

/-- `Extends`, where moreover every level-0 PTE is what it was: `walk` with `alloc`. -/
structure Grows (pt : Nat) (s s' : Kmem) extends Extends pt s s' : Prop where
  pte0 : ∀ va, pte0 s'.mem pt va = pte0 s.mem pt va

namespace Extends

variable {pt : Nat} {s s' s'' : Kmem}

theorem refl (hw : WellFormed s.mem pt) : Extends pt s s :=
  ⟨hw, ⟨[], rfl, by rw [List.nil_append]⟩, fun _ _ _ _ _ => rfl, rfl⟩

theorem mem_tables (h : Extends pt s s') {u : Nat} (hu : u ∈ tables s.mem pt) :
    u ∈ tables s'.mem pt := by
  obtain ⟨l, -, hp⟩ := h.taken
  exact hp.mem_iff.2 (List.mem_append_right _ hu)

theorem trans (h : Extends pt s s') (h' : Extends pt s' s'') : Extends pt s s'' := by
  obtain ⟨l, hl, hp⟩ := h.taken
  obtain ⟨l', hl', hp'⟩ := h'.taken
  refine ⟨h'.wf, ⟨l ++ l', by rw [hl, hl', List.append_assoc], ?_⟩, fun u hu hn j hj => ?_,
    by rw [h'.freed, h.freed]⟩
  · refine hp'.trans ((hp.append_left l').trans ?_)
    rw [← List.append_assoc]
    exact (List.perm_append_comm.append_right _)
  · rw [h'.frame u hu hn j hj, h.frame u hu (fun h'' => hn (h'.mem_tables h'')) j hj]

/-- What remains on the free list is still fresh. -/
theorem fresh (h : Extends pt s s') (hf : Fresh pt s) : Fresh pt s' := by
  obtain ⟨l, hl, hp⟩ := h.taken
  have hn := hf.nodup
  rw [hl, List.nodup_append] at hn
  refine ⟨hn.2.1, fun q hq => hf.page q (hl ▸ List.mem_append_right _ hq), fun q hq ht => ?_⟩
  rcases List.mem_append.1 (hp.mem_iff.1 ht) with h₁ | h₁
  · exact hn.2.2 h₁ hq
  · exact hf.fresh q (hl ▸ List.mem_append_right _ hq) h₁

/-- Pages off the free list and outside a tree stay outside it as it grows. -/
theorem not_mem {t : Nat} (h : Extends pt s s') (hl : t ∉ s.freelist)
    (ht : t ∉ tables s.mem pt) : t ∉ tables s'.mem pt := fun ht' => by
  obtain ⟨l, hl', hp⟩ := h.taken
  rcases List.mem_append.1 (hp.mem_iff.1 ht') with h₁ | h₁
  · exact hl (hl' ▸ List.mem_append_left _ h₁)
  · exact ht h₁

/-- A store to the level-0 PTE of `va` of an invalid PTE or a leaf. -/
theorem store {va p v : Nat} (hw : WellFormed s.mem pt) (hp : ptePtr s.mem pt va = some p)
    (hv : v < 2 ^ 64) (hleaf : v % 2 = 1 → v &&& PTE_RWX ≠ 0) :
    Extends pt s (s.setMem (write64 s.mem p v)) := by
  refine ⟨hw.store hp hv hleaf, ⟨[], rfl, by rw [Kmem.setMem_mem, tables_store hw hp,
    List.nil_append]⟩, fun u hu hn => ?_, rfl⟩
  obtain ⟨c, hc, t, ht, rfl⟩ := slot_of_ptePtr hp
  rw [Kmem.setMem_mem, tables_store hw hp] at hn
  exact agreeOn_write64 (aligned_of_mem_children ht).1 hu (PX_lt 0 va)
    fun e => hn (e ▸ Vm.mem_tables.2 (.inr (.inr ⟨c, hc, ht⟩)))

end Extends

/-- `kalloc` hands out `d`, and memory changes outside the tree only: what is left on the free
list is fresh. -/
theorem Fresh.pop {pt d : Nat} {rest : List Nat} {s : Kmem} {m : Mem} (hf : Fresh pt s)
    (hcons : s.freelist = d :: rest) (hm : ∀ u ∈ tables s.mem pt, AgreeOn s.mem m u) :
    Fresh pt ({ s with freelist := rest }.setMem m) := by
  have hn := hf.nodup
  rw [hcons, List.nodup_cons] at hn
  refine ⟨hn.2, fun q hq => hf.page q (hcons ▸ List.mem_cons_of_mem _ hq), fun q hq => ?_⟩
  rw [Kmem.setMem_mem, tables_congr_of_agree hm]
  exact hf.fresh q (hcons ▸ List.mem_cons_of_mem _ hq)

/-! ### A tree grown after a page was taken off the free list

The loops of `uvmalloc` and `uvmcopy` take a page `d` from `kalloc`, fill it (the memory `m`),
and map it with `mappages`, whose `walk` may take more pages from what is left, `rest`. -/

section Pop

variable {pt t q : Nat} {rest : List Nat} {s s₂ : Kmem} {m : Mem}

/-- What is left on the free list is a part of `rest`. -/
theorem Extends.pop_freelist (hext : Extends pt ({ s with freelist := rest }.setMem m) s₂)
    (hq : q ∈ s₂.freelist) : q ∈ rest := by
  obtain ⟨l, hl : rest = l ++ s₂.freelist, -⟩ := hext.taken
  exact hl ▸ List.mem_append_right _ hq

/-- A page of `rest` is still free or is now a page-table page. -/
theorem Extends.pop_rest (hext : Extends pt ({ s with freelist := rest }.setMem m) s₂)
    (hq : q ∈ rest) : q ∈ s₂.freelist ∨ q ∈ tables s₂.mem pt := by
  obtain ⟨l, hl : rest = l ++ s₂.freelist, hperm⟩ := hext.taken
  rcases List.mem_append.1 (hl ▸ hq) with h | h
  · exact .inr (hperm.mem_iff.2 (List.mem_append_left _ h))
  · exact .inl h

/-- A page-table page after the turn was one before, or came from `rest`. -/
theorem Extends.pop_tables (hagree : ∀ u ∈ tables s.mem pt, AgreeOn s.mem m u)
    (hext : Extends pt ({ s with freelist := rest }.setMem m) s₂) (ht : t ∈ tables s₂.mem pt) :
    t ∈ rest ∨ t ∈ tables s.mem pt := by
  obtain ⟨l, hl : rest = l ++ s₂.freelist, hperm⟩ := hext.taken
  rw [Kmem.setMem_mem, tables_congr_of_agree hagree] at hperm
  exact (List.mem_append.1 (hperm.mem_iff.1 ht)).imp_left fun h => hl ▸ List.mem_append_left _ h

theorem Extends.pop_mem_tables (hagree : ∀ u ∈ tables s.mem pt, AgreeOn s.mem m u)
    (hext : Extends pt ({ s with freelist := rest }.setMem m) s₂) (ht : t ∈ tables s.mem pt) :
    t ∈ tables s₂.mem pt :=
  hext.mem_tables (by rwa [Kmem.setMem_mem, tables_congr_of_agree hagree])

/-- A page off `rest` and outside the tree stays outside it, with the bytes `m` gave it. -/
theorem Extends.pop_out (hagree : ∀ u ∈ tables s.mem pt, AgreeOn s.mem m u)
    (hext : Extends pt ({ s with freelist := rest }.setMem m) s₂) (hq : q % PGSIZE = 0)
    (h₁ : q ∉ rest) (h₂ : q ∉ tables s.mem pt) : q ∉ tables s₂.mem pt ∧ AgreeOn m s₂.mem q := by
  have := hext.not_mem h₁ (by rwa [Kmem.setMem_mem, tables_congr_of_agree hagree])
  exact ⟨this, hext.frame q hq this⟩

end Pop

theorem Grows.refl {pt : Nat} {s : Kmem} (hw : WellFormed s.mem pt) : Grows pt s s :=
  ⟨Extends.refl hw, fun _ => rfl⟩

theorem Grows.trans {pt : Nat} {s s' s'' : Kmem} (h : Grows pt s s') (h' : Grows pt s' s'') :
    Grows pt s s'' :=
  ⟨h.toExtends.trans h'.toExtends, fun va => by rw [h'.pte0, h.pte0]⟩

section Alloc

variable {s s' : Kmem} {pt va t level : Nat} {r : Option Nat}

/-- The three ways one turn of `walk` with `alloc` goes on fresh pages: down a valid entry, out of
pages at an invalid one, or down the page `q` from `kalloc` linked zeroed under it. -/
theorem walkLevel_cases (hf : Fresh pt s) (h : walkLevel s true level va t = (r, s')) :
    (∃ c, child s.mem t (PX level va) = some c ∧ r = some c ∧ s' = s) ∨
    (child s.mem t (PX level va) = none ∧ s.freelist = [] ∧ r = none ∧ s' = s) ∨
    ∃ q rest, pteAt s.mem t (PX level va) % 2 = 0 ∧ s.freelist = q :: rest ∧ r = some q ∧
      s' = { s with freelist := rest }.setMem (link s.mem (t + 8 * PX level va) q) := by
  by_cases hv : read64 s.mem (t + 8 * PX level va) % 2 = 0
  swap
  · simp only [walkLevel, and_PTE_V, hv, ne_eq, not_false_eq_true, if_true, Prod.mk.injEq] at h
    exact .inl ⟨_, by simp only [child, pteAt, and_PTE_V, hv, ne_eq, not_false_eq_true, if_true],
      h.1.symm, h.2.symm⟩
  simp only [walkLevel, and_PTE_V, hv, ne_eq, not_true_eq_false, if_false, Bool.not_true,
    Bool.false_eq_true] at h
  cases hl : s.freelist with
  | nil =>
    simp only [Kmem.kalloc_nil hl, if_true, Prod.mk.injEq] at h
    exact .inr (.inl ⟨child_eq_none.2 hv, rfl, h.1.symm, h.2.symm⟩)
  | cons q l =>
    simp only [Kmem.kalloc_cons hl, (hf.page q (hl ▸ List.mem_cons_self _ _)).2.1, if_false,
      Prod.mk.injEq] at h
    exact .inr (.inr ⟨q, l, hv, rfl, h.1.symm, h.2.symm⟩)

/-- One turn of `walk` with `alloc` at a root or level-1 page `t`. -/
theorem walkLevel_alloc (hw : WellFormed s.mem pt) (hf : Fresh pt s)
    (ht : t ∈ pt :: children s.mem pt) (h : walkLevel s true level va t = (r, s')) :
    Grows pt s s' ∧ (r = none → s' = s ∧ s.freelist = [] ∧ child s.mem t (PX level va) = none) ∧
    (∀ c, r = some c → child s'.mem t (PX level va) = some c) ∧
    (∀ u, u % PGSIZE = 0 → u ≠ t → u ∈ tables s.mem pt → AgreeOn s.mem s'.mem u) ∧
    s.freelist.length ≤ s'.freelist.length + 1 := by
  have hsame : ∀ u, AgreeOn s.mem s.mem u := fun _ _ _ => rfl
  rcases walkLevel_cases hf h with ⟨c, hc, rfl, rfl⟩ | ⟨hc, hnil, rfl, rfl⟩ |
    ⟨q, l, hv, hl, rfl, rfl⟩
  · exact ⟨Grows.refl hw, by simp, fun c' e => by cases e; exact hc, fun u _ _ _ => hsame u,
      by omega⟩
  · exact ⟨Grows.refl hw, fun _ => ⟨rfl, hnil, hc⟩, by simp, fun u _ _ _ => hsame u, by simp⟩
  obtain ⟨hqa, hq0, hq64⟩ := hf.page q (hl ▸ List.mem_cons_self _ _)
  have hc : CanLink s.mem pt t (PX level va) q :=
    ⟨hw, ht, PX_lt _ _, hv, hqa, hq0, hq64, hf.fresh q (hl ▸ List.mem_cons_self _ _)⟩
  have hqt : ∀ u, u ∈ tables s.mem pt → u ≠ q := fun u hu e => hc.fresh (e ▸ hu)
  simp only [Kmem.setMem_mem, Kmem.setMem_freelist, Kmem.setMem_freed]
  refine ⟨⟨⟨hc.wellFormed, ⟨[q], by simp [hl], by simpa only [List.singleton_append] using
    hc.tables_perm⟩, fun u hu hn => hc.agree hu ?_ ?_, rfl⟩, fun va => hc.pte0_eq⟩, by simp,
    fun c e => ?_, fun u hu hut hut' => hc.agree hu hut (hqt u hut'), by simp [hl]⟩
  · rintro rfl
    exact hn (hc.tables_perm.mem_iff.2 (List.mem_cons_of_mem _ (mem_tables_of_upper ht)))
  · rintro rfl
    exact hn (hc.tables_perm.mem_iff.2 (List.mem_cons_self _ _))
  · cases e
    simp only [hc.child_eq hc.t_aligned (PX_lt _ _), and_self, if_true]

/-- `walk` with `alloc` on a well-formed tree and fresh pages keeps the tree well formed and its
level-0 PTEs, takes at most two pages, and returns 0 only once `kalloc` has nothing left. -/
theorem walk_alloc (hw : WellFormed s.mem pt) (hf : Fresh pt s) (hva : va < MAXVA) :
    ∃ p s', walk s pt va true = .ok (p, s') ∧ Grows pt s s' ∧
      (p = 0 → s'.freelist = [] ∧ s.freelist.length < 2 ∧ ptePtr s'.mem pt va = none) ∧
      (p ≠ 0 → ptePtr s'.mem pt va = some p) ∧ s.freelist.length ≤ s'.freelist.length + 2 := by
  simp only [walk, if_neg (Nat.not_le.2 hva)]
  rcases h₁ : walkLevel s true 2 va pt with ⟨r₁, s₁⟩
  obtain ⟨g₁, n₁, c₁, -, l₁⟩ := walkLevel_alloc hw hf (List.mem_cons_self _ _) h₁
  rcases r₁ with _ | t₁
  · obtain ⟨rfl, hnil, hc⟩ := n₁ rfl
    exact ⟨0, _, rfl, g₁, fun _ => ⟨hnil, by simp [hnil], by simp [ptePtr, hc]⟩, fun h => absurd rfl h,
      by omega⟩
  have ht₁ : t₁ ∈ children s₁.mem pt := mem_children.2 ⟨_, PX_lt 2 va, c₁ t₁ rfl⟩
  dsimp only
  rcases h₂ : walkLevel s₁ true 1 va t₁ with ⟨r₂, s₂⟩
  obtain ⟨g₂, n₂, c₂, o₂, l₂⟩ :=
    walkLevel_alloc g₁.wf (g₁.toExtends.fresh hf) (List.mem_cons_of_mem _ ht₁) h₂
  rcases r₂ with _ | t₀
  · obtain ⟨rfl, hnil, hc⟩ := n₂ rfl
    exact ⟨0, _, rfl, g₁, fun _ => ⟨hnil, by simp only [hnil, List.length_nil] at l₁; omega,
      by simp [ptePtr, c₁ t₁ rfl, hc]⟩, fun h => absurd rfl h, by omega⟩
  have hroot : child s₂.mem pt (PX 2 va) = some t₁ := by
    rw [(o₂ pt g₁.wf.aligned (g₁.wf.root_ne_level1 ht₁).symm
      (mem_tables.2 (.inl rfl))).child (PX_lt 2 va)]
    exact c₁ t₁ rfl
  have ht₀ := c₂ t₀ rfl
  have hne : t₀ ≠ 0 := g₂.wf.ne_zero_of_mem (mem_tables.2 (.inr (.inr
    ⟨t₁, mem_children.2 ⟨_, PX_lt 2 va, hroot⟩, mem_children.2 ⟨_, PX_lt 1 va, ht₀⟩⟩)))
  exact ⟨t₀ + 8 * PX 0 va, s₂, rfl, g₁.trans g₂, fun h => by omega,
    fun _ => ptePtr_eq_some.2 ⟨t₁, t₀, hroot, ht₀, rfl⟩, by omega⟩

end Alloc

end BufCache.Vm
