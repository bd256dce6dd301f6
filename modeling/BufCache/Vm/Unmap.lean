import BufCache.Vm.Walk

/-!
# `uvmunmap` and `uvmdealloc`

`uvmunmap(pagetable, va, npages, do_free)` (lines 154-170) clears the level-0 PTEs of `npages`
pages from the page-aligned `va`, and with `do_free` passes the page each one mapped to `kfree`.
It panics on an unaligned `va` and on a page that is not mapped by a leaf. `uvmdealloc(pagetable,
oldsz, newsz)` (lines 227-236) unmaps and frees the pages from `PGROUNDUP(newsz)` up to
`PGROUNDUP(oldsz)`; it is how `uvmalloc` and `uvmcopy` undo what they mapped.

`uvmunmapLoop_spec` says what the loop does when every page it visits is mapped by a leaf: the
tree keeps its page-table pages and stays well formed, those PTEs become 0 and no other level-0
PTE changes, the pages they mapped go to `kfree` in order, and no byte outside the page-table
pages changes.
-/

namespace BufCache.Vm

/-- The loop of `uvmunmap` (lines 160-169), from the page `a` while `a < last`. -/
def uvmunmapLoop (s : Kmem) (pagetable a last : Nat) (doFree : Bool) : Except String Kmem :=
  if a < last then
    match walk s pagetable a false with
    | .error e => .error e
    | .ok (pte, s) =>
      if pte = 0 then .error "uvmunmap: walk"
      else if read64 s.mem pte &&& PTE_V = 0 then .error "uvmunmap: not mapped"
      else if PTE_FLAGS (read64 s.mem pte) = PTE_V then .error "uvmunmap: not a leaf"
      else
        let s := if doFree then s.kfree (PTE2PA (read64 s.mem pte)) else s
        uvmunmapLoop (s.setMem (write64 s.mem pte 0)) pagetable (a + PGSIZE) last doFree
  else .ok s
termination_by last - a
decreasing_by simp only [PGSIZE]; omega

/-- `uvmunmap(pagetable, va, npages, do_free)` (lines 154-170); `do_free` is a flag. -/
def uvmunmap (s : Kmem) (pagetable va npages : Nat) (doFree : Bool) : Except String Kmem :=
  if va % PGSIZE ≠ 0 then .error "uvmunmap: not aligned"
  else uvmunmapLoop s pagetable va ((va + npages * PGSIZE) % 2 ^ 64) doFree

/-- `(uint64)(int)n`: `uvmdealloc` computes `npages` as an `int` and passes it as a `uint64`. -/
def intToUint64 (n : Nat) : Nat :=
  if n % 2 ^ 32 < 2 ^ 31 then n % 2 ^ 32 else n % 2 ^ 32 + (2 ^ 64 - 2 ^ 32)

/-- `uvmdealloc(pagetable, oldsz, newsz)` (lines 227-236). -/
def uvmdealloc (s : Kmem) (pagetable oldsz newsz : Nat) : Except String (Nat × Kmem) :=
  if newsz ≥ oldsz then .ok (oldsz, s)
  else if PGROUNDUP newsz < PGROUNDUP oldsz then
    match uvmunmap s pagetable (PGROUNDUP newsz)
      (intToUint64 ((PGROUNDUP oldsz - PGROUNDUP newsz) / PGSIZE)) true with
    | .error e => .error e
    | .ok s => .ok (newsz, s)
  else .ok (newsz, s)

/-- The pages the leaves of the `n` pages from `a` map to, in order: what `uvmunmap` frees. -/
def leafPages (m : Mem) (pt a n : Nat) : List Nat :=
  (List.range n).map fun i => PTE2PA (pte0 m pt (a + i * PGSIZE))

/-- What `uvmunmap` of the `n` pages from `a` leaves in `s'`, started in `s`: the same page-table
pages, well formed, the PTEs of those pages 0 and every other as it was, no byte outside the
page-table pages changed, and with `do_free` the pages the leaves mapped freed in order. -/
structure UnmapPost (s : Kmem) (pt a n : Nat) (doFree : Bool) (s' : Kmem) : Prop where
  wf : WellFormed s'.mem pt
  tables_eq : tables s'.mem pt = tables s.mem pt
  frame : ∀ u, u % PGSIZE = 0 → u ∉ tables s.mem pt → AgreeOn s.mem s'.mem u
  cleared : ∀ va < MAXVA, pte0 s'.mem pt va = if a ≤ va ∧ va < a + n * PGSIZE then 0 else pte0 s.mem pt va
  freed : s'.freed = s.freed ++ if doFree then leafPages s.mem pt a n else []
  freelist : s'.freelist = (if doFree then (leafPages s.mem pt a n).reverse else []) ++ s.freelist

theorem leafPages_succ (m : Mem) (pt a n : Nat) :
    leafPages m pt a (n + 1) = PTE2PA (pte0 m pt a) :: leafPages m pt (a + PGSIZE) n := by
  simp only [leafPages, List.range_succ_eq_map, List.map_cons, List.map_map, Nat.zero_mul,
    Nat.add_zero, Function.comp_def, Nat.succ_mul, Nat.add_assoc, Nat.add_comm PGSIZE]

theorem leafPages_congr {m m' : Mem} {pt a n : Nat}
    (h : ∀ i < n, pte0 m' pt (a + i * PGSIZE) = pte0 m pt (a + i * PGSIZE)) :
    leafPages m' pt a n = leafPages m pt a n :=
  List.map_congr_left fun i hi => by rw [h i (List.mem_range.1 hi)]

section Loop

variable {s : Kmem} {pt a last p n : Nat} {doFree : Bool}

/-- A page whose PTE, at `p`, is valid with only `PTE_V` among its flags: `uvmunmap` panics. -/
theorem uvmunmapLoop_notLeaf (ha : a < last) (hp : walk s pt a false = .ok (p, s)) (hp0 : p ≠ 0)
    (hv : read64 s.mem p % 2 = 1) (hl : PTE_FLAGS (read64 s.mem p) = PTE_V) :
    uvmunmapLoop s pt a last doFree = .error "uvmunmap: not a leaf" := by
  rw [uvmunmapLoop, if_pos ha]
  simp only [hp, hp0, and_PTE_V, hv, hl, if_false, if_true, one_ne_zero]

/-- One turn of the loop at a page mapped by a leaf, whose PTE is at `p`. -/
theorem uvmunmapLoop_step (ha : a < last) (hp : walk s pt a false = .ok (p, s)) (hp0 : p ≠ 0)
    (hv : read64 s.mem p % 2 = 1) (hl : PTE_FLAGS (read64 s.mem p) ≠ PTE_V) :
    uvmunmapLoop s pt a last doFree =
      uvmunmapLoop ((if doFree then s.kfree (PTE2PA (read64 s.mem p)) else s).setMem
        (write64 s.mem p 0)) pt (a + PGSIZE) last doFree := by
  rw [uvmunmapLoop, if_pos ha]
  simp only [hp, hp0, and_PTE_V, hv, hl, if_false, one_ne_zero]
  cases doFree <;> rfl

/-- The loop of `uvmunmap` over `n` pages that leaves map, on a well-formed tree: it does not
panic, and `UnmapPost` holds. -/
theorem uvmunmapLoop_spec (hw : WellFormed s.mem pt) (ha : a % PGSIZE = 0)
    (hend : a + n * PGSIZE ≤ MAXVA)
    (hleaf : ∀ i < n, pte0 s.mem pt (a + i * PGSIZE) % 2 = 1 ∧
      PTE_FLAGS (pte0 s.mem pt (a + i * PGSIZE)) ≠ PTE_V) :
    ∃ s', uvmunmapLoop s pt a (a + n * PGSIZE) doFree = .ok s' ∧ UnmapPost s pt a n doFree s' := by
  induction n generalizing s a with
  | zero =>
    refine ⟨s, by rw [uvmunmapLoop, if_neg (by omega)], hw, rfl, fun _ _ _ _ _ => rfl,
      fun va _ => by rw [if_neg (by omega)], by simp [leafPages], by simp [leafPages]⟩
  | succ n ih =>
  have hP : PGSIZE = 4096 := rfl
  have hM : MAXVA = 274877906944 := rfl
  rw [Nat.succ_mul, hP, hM] at hend
  have haM : a < MAXVA := by rw [hM]; omega
  have hlt : ∀ i < n, a + PGSIZE + i * PGSIZE < MAXVA := fun i hi => by rw [hP, hM]; omega
  obtain ⟨hv, hl⟩ := hleaf 0 (by omega)
  rw [Nat.zero_mul, Nat.add_zero] at hv hl
  obtain ⟨p, hp, hread⟩ := ptePtr_of_valid hv
  obtain ⟨c, hc, t, ht, rfl⟩ := slot_of_ptePtr hp
  have htab : t ∈ tables s.mem pt := mem_tables.2 (.inr (.inr ⟨c, hc, ht⟩))
  -- the PTE of `a` cleared, every other as it was
  have hpte : ∀ va < MAXVA, pte0 (write64 s.mem (t + 8 * PX 0 a) 0) pt va =
      if va / PGSIZE = a / PGSIZE then 0 else pte0 s.mem pt va := fun va hva => by
    rw [pte0_store hw hp haM hva]
    rfl
  obtain ⟨s', hrun, hpost⟩ := ih (a := a + PGSIZE)
    (s := (if doFree then s.kfree (PTE2PA (read64 s.mem (t + 8 * PX 0 a))) else s).setMem
      (write64 s.mem (t + 8 * PX 0 a) 0))
    (hw.store hp (by decide) (by simp)) (by rw [hP] at ha ⊢; omega) (by rw [hP, hM]; omega)
    fun i hi => by
      rw [Kmem.setMem_mem, hpte _ (hlt i hi), if_neg (by rw [hP] at ha ⊢; omega),
        show a + PGSIZE + i * PGSIZE = a + (i + 1) * PGSIZE by rw [Nat.succ_mul]; omega]
      exact hleaf (i + 1) (by omega)
  have hfree : leafPages (write64 s.mem (t + 8 * PX 0 a) 0) pt (a + PGSIZE) n =
      leafPages s.mem pt (a + PGSIZE) n := leafPages_congr fun i hi => by
    rw [hpte _ (hlt i hi), if_neg (by rw [hP] at ha ⊢; omega)]
  refine ⟨s', ?_, hpost.wf, ?_, fun u hu hn => ?_, fun va hva => ?_, ?_, ?_⟩
  · rw [uvmunmapLoop_step (by rw [hP]; omega) (by rw [walk_noalloc haM, hp]; rfl)
      (hw.slot_ne_zero hp) (by rw [hread]; exact hv) (by rw [hread]; exact hl),
      show a + (n + 1) * PGSIZE = a + PGSIZE + n * PGSIZE by rw [Nat.succ_mul]; omega]
    exact hrun
  · rw [hpost.tables_eq, Kmem.setMem_mem, tables_store hw hp]
  · have h₁ := agreeOn_write64 (m := s.mem) (v := 0) (hw.aligned_of_mem htab) hu (PX_lt 0 a)
      fun e => hn (e ▸ htab)
    exact h₁.trans (hpost.frame u hu (by rw [Kmem.setMem_mem, tables_store hw hp]; exact hn))
  · rw [hpost.cleared va hva, Kmem.setMem_mem, hpte va hva]
    simp only [hP] at *
    split_ifs <;> first | rfl | omega
  · rw [hpost.freed, Kmem.setMem_mem, hfree]
    cases doFree <;> simp [leafPages_succ, hread]
  · rw [hpost.freelist, Kmem.setMem_mem, hfree]
    cases doFree <;> simp [leafPages_succ, hread]

end Loop

section Calls

variable {s : Kmem} {pt va n oldsz newsz : Nat} {doFree : Bool}

theorem UnmapPost.zero (hw : WellFormed s.mem pt) (a : Nat) : UnmapPost s pt a 0 doFree s :=
  ⟨hw, rfl, fun _ _ _ _ _ => rfl, fun va _ => by rw [if_neg (by omega)], by simp [leafPages],
    by simp [leafPages]⟩

/-- `uvmunmap` of `n` pages that leaves map, from a page-aligned `va`. -/
theorem uvmunmap_spec (hw : WellFormed s.mem pt) (ha : va % PGSIZE = 0)
    (hend : va + n * PGSIZE ≤ MAXVA)
    (hleaf : ∀ i < n, pte0 s.mem pt (va + i * PGSIZE) % 2 = 1 ∧
      PTE_FLAGS (pte0 s.mem pt (va + i * PGSIZE)) ≠ PTE_V) :
    ∃ s', uvmunmap s pt va n doFree = .ok s' ∧ UnmapPost s pt va n doFree s' := by
  rw [uvmunmap, if_neg (not_not.2 ha), Nat.mod_eq_of_lt (by simp only [MAXVA] at hend; omega)]
  exact uvmunmapLoop_spec hw ha hend hleaf

theorem PGROUNDUP_eq {sz : Nat} (h : sz ≤ MAXVA) :
    PGROUNDUP sz = (sz + PGSIZE - 1) / PGSIZE * PGSIZE := by
  rw [PGROUNDUP, Nat.mod_eq_of_lt (by simp only [MAXVA, PGSIZE] at *; omega)]

theorem intToUint64_of_lt {k : Nat} (h : k < 2 ^ 31) : intToUint64 k = k := by
  rw [intToUint64, Nat.mod_eq_of_lt (by omega), if_pos h]

/-- `uvmdealloc` from `oldsz` down to `newsz`, when the pages between are mapped by leaves: it
unmaps them and frees the pages they map. -/
theorem uvmdealloc_spec (hw : WellFormed s.mem pt) (hlt : newsz < oldsz) (hold : oldsz ≤ MAXVA)
    (hleaf : ∀ i < (PGROUNDUP oldsz - PGROUNDUP newsz) / PGSIZE,
      pte0 s.mem pt (PGROUNDUP newsz + i * PGSIZE) % 2 = 1 ∧
      PTE_FLAGS (pte0 s.mem pt (PGROUNDUP newsz + i * PGSIZE)) ≠ PTE_V) :
    ∃ s', uvmdealloc s pt oldsz newsz = .ok (newsz, s') ∧
      UnmapPost s pt (PGROUNDUP newsz) ((PGROUNDUP oldsz - PGROUNDUP newsz) / PGSIZE) true s' := by
  have hup := PGROUNDUP_eq hold
  have hup' := PGROUNDUP_eq (Nat.le_of_lt (Nat.lt_of_lt_of_le hlt hold))
  rw [uvmdealloc, if_neg (Nat.not_le.2 hlt)]
  split_ifs with h
  · obtain ⟨s', hrun, hpost⟩ := @uvmunmap_spec _ _ _ _ true hw
      (by simp only [hup', PGSIZE]; omega)
      (by simp only [hup, hup', PGSIZE, MAXVA] at hold ⊢; omega) hleaf
    rw [intToUint64_of_lt (by simp only [hup, hup', PGSIZE, MAXVA] at hold ⊢; omega), hrun]
    exact ⟨s', rfl, hpost⟩
  · rw [Nat.sub_eq_zero_of_le (Nat.not_lt.1 h), Nat.zero_div]
    exact ⟨s, rfl, UnmapPost.zero hw _⟩

end Calls

end BufCache.Vm
