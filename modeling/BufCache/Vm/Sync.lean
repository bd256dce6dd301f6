import BufCache.Vm.Walk

/-!
# `sync_pagetable`

`sync_pagetable(u_pagetable, k_pagetable, start, end)` (lines 464-471) copies level-0 PTEs of a
process's user page table into its kernel page table with `PTE_U` cleared, so that the kernel
can use user addresses. Its loop runs `address` from `start` in steps of `PGSIZE` while
`address < end`; for each it takes the user PTE with `walk(u_pagetable, address, 0)` and the
kernel PTE with `walk(k_pagetable, address, 1)`.

`syncPagetable_spec` says what a call does on two well-formed trees with disjoint page-table
pages, every visited page mapped in the user tree and two fresh pages for `kalloc` per turn:
the user tree is left alone, the kernel tree grows by fresh pages, every visited page gets the
user PTE without `PTE_U`, and no other level-0 PTE of the kernel tree changes. The pages visited
are those of `start`, `start + PGSIZE`, ... below `end`, so from an unaligned `start` the last
page of `[start, end)` can be left out: `sync_misses_last_page`.
-/

namespace BufCache.Vm

/-- `sync_pagetable(u_pagetable, k_pagetable, start, end)` (lines 464-471) from `address` on, with
`stop` for `end`. `*pte` through a null `pte` faults: an error here. `address += PGSIZE` cannot
wrap: `walk` panics first, at `MAXVA`. -/
def syncPagetable (s : Kmem) (uPagetable kPagetable address stop : Nat) : Except String Kmem :=
  if address < stop then
    match walk s uPagetable address false with
    | .error e => .error e
    | .ok (pte, s) =>
      match walk s kPagetable address true with
      | .error e => .error e
      | .ok (kernelPte, s) =>
        if pte = 0 ∨ kernelPte = 0 then .error "null pointer"
        else
          syncPagetable (s.setMem (write64 s.mem kernelPte (read64 s.mem pte &&& (2 ^ 64 - 1 - PTE_U))))
            uPagetable kPagetable (address + PGSIZE) stop
  else .ok s
termination_by stop - address
decreasing_by simp only [PGSIZE]; omega

/-- The page of `va` is one the loop visits from `address` while below `stop`. -/
def Visited (address stop va : Nat) : Prop :=
  address / PGSIZE ≤ va / PGSIZE ∧ address + PGSIZE * (va / PGSIZE - address / PGSIZE) < stop

instance (address stop va : Nat) : Decidable (Visited address stop va) :=
  inferInstanceAs (Decidable (_ ∧ _))

section Visited

variable {address stop va : Nat}

theorem not_visited (h : stop ≤ address) : ¬ Visited address stop va := by
  simp only [Visited]
  omega

/-- One turn: the page of `address`, then the pages from `address + PGSIZE`. -/
theorem visited_step (h : address < stop) :
    Visited address stop va ↔ va / PGSIZE = address / PGSIZE ∨ Visited (address + PGSIZE) stop va := by
  simp only [Visited, PGSIZE]
  omega

end Visited

theorem and_notU_mod_two (e : Nat) : (e &&& (2 ^ 64 - 1 - PTE_U)) % 2 = e % 2 := by
  rw [← and_PTE_V, ← and_PTE_V, Nat.and_assoc]
  rfl

theorem and_notU_RWX (e : Nat) : e &&& (2 ^ 64 - 1 - PTE_U) &&& PTE_RWX = e &&& PTE_RWX := by
  rw [Nat.and_assoc]
  rfl

/-- What `sync_pagetable` started in `s` leaves in `s'`: the kernel tree `k` grown by fresh pages,
the user tree `u` untouched, and the kernel PTE of every visited page the user PTE without
`PTE_U`, every other as it was. -/
structure SyncPost (s : Kmem) (u k address stop : Nat) (s' : Kmem) : Prop where
  kernel : Extends k s s'
  user : ∀ t ∈ tables s.mem u, AgreeOn s.mem s'.mem t
  synced : ∀ va < MAXVA, pte0 s'.mem k va =
    if Visited address stop va then pte0 s.mem u va &&& (2 ^ 64 - 1 - PTE_U) else pte0 s.mem k va

section Spec

variable {s s₁ : Kmem} {u k address stop p q : Nat}

/-- One turn of the loop, once the two `walk`s have returned the user PTE `p` and the kernel PTE
`q`, both nonzero. -/
theorem syncPagetable_step (ha : address < stop) (hp : walk s u address false = .ok (p, s))
    (hq : walk s k address true = .ok (q, s₁)) (hp0 : p ≠ 0) (hq0 : q ≠ 0) :
    syncPagetable s u k address stop =
      syncPagetable (s₁.setMem (write64 s₁.mem q (read64 s₁.mem p &&& (2 ^ 64 - 1 - PTE_U))))
        u k (address + PGSIZE) stop := by
  rw [syncPagetable, if_pos ha]
  simp only [hp, hq, hp0, hq0, or_self, if_false]

/-- The loop of `sync_pagetable` on two well-formed trees apart, every visited page mapped in the
user tree and two fresh pages per turn: it returns, with `SyncPost`. -/
theorem syncPagetable_spec (hu : WellFormed s.mem u) (hk : WellFormed s.mem k)
    (hdis : ∀ t ∈ tables s.mem u, t ∉ tables s.mem k) (hf : Fresh k s)
    (hfu : ∀ q ∈ s.freelist, q ∉ tables s.mem u) (hstop : stop ≤ MAXVA)
    (hmap : ∀ va, Visited address stop va → pte0 s.mem u va % 2 = 1)
    (hfree : 2 * ((stop - address + PGSIZE - 1) / PGSIZE) ≤ s.freelist.length) :
    ∃ s', syncPagetable s u k address stop = .ok s' ∧ SyncPost s u k address stop s' := by
  obtain ⟨n, hn⟩ : ∃ n, stop - address = n := ⟨_, rfl⟩
  induction n using Nat.strong_induction_on generalizing s address with
  | _ n ih =>
  by_cases ha : address < stop
  swap
  · refine ⟨s, by rw [syncPagetable, if_neg ha], Extends.refl hk, fun _ _ _ _ => rfl, fun va _ => ?_⟩
    rw [if_neg (not_visited (Nat.not_lt.1 ha))]
  have hP : PGSIZE = 4096 := rfl
  have haM : address < MAXVA := by omega
  have hfl : ∀ t ∈ tables s.mem u, t ∉ s.freelist := fun t ht hl => hfu t hl ht
  -- the user PTE, at `p`
  obtain ⟨p, hp, hread⟩ := ptePtr_of_valid (hmap address ((visited_step ha).2 (.inl rfl)))
  -- the kernel PTE, at `q`, from `walk` with `alloc`, which has the pages it needs
  obtain ⟨q, s₁, hwalk, hg, h0, hq, hlen⟩ := walk_alloc hk hf haM
  have hq0 : q ≠ 0 := fun e => by
    have := (h0 e).2.1
    rw [hP] at hfree
    omega
  have hu₁ : ∀ t ∈ tables s.mem u, AgreeOn s.mem s₁.mem t := fun t ht =>
    hg.frame t (hu.aligned_of_mem ht) (hg.not_mem (hfl t ht) (hdis t ht))
  -- the store of the user PTE without `PTE_U`
  have hv : read64 s₁.mem p = pte0 s.mem u address := by
    obtain ⟨c, hc, t, ht, rfl⟩ := slot_of_ptePtr hp
    rw [← hread]
    exact (hu₁ t (mem_tables.2 (.inr (.inr ⟨c, hc, ht⟩)))).pteAt (PX_lt 0 address)
  have hext : Extends k s (s₁.setMem (write64 s₁.mem q (read64 s₁.mem p &&& (2 ^ 64 - 1 - PTE_U)))) :=
    hg.toExtends.trans (Extends.store hg.wf (hq hq0) (Nat.and_lt_two_pow _ (by decide)) fun h => by
      rw [hv, and_notU_RWX]
      exact hu.pte0_leaf (by rwa [hv, and_notU_mod_two] at h))
  have hu₂ : ∀ t ∈ tables s.mem u, AgreeOn s.mem
      (write64 s₁.mem q (read64 s₁.mem p &&& (2 ^ 64 - 1 - PTE_U))) t := fun t ht =>
    hext.frame t (hu.aligned_of_mem ht) (hext.not_mem (hfl t ht) (hdis t ht))
  have htu := tables_congr_of_agree hu₂
  -- the rest of the loop
  obtain ⟨s', hrun, hpost⟩ := ih (stop - (address + PGSIZE)) (by rw [hP]; omega)
    (s := s₁.setMem (write64 s₁.mem q (read64 s₁.mem p &&& (2 ^ 64 - 1 - PTE_U))))
    (hu.congr hu₂) hext.wf
    (fun t ht => by
      rw [Kmem.setMem_mem, htu] at ht
      exact hext.not_mem (hfl t ht) (hdis t ht))
    (hext.fresh hf)
    (fun q' hq' ht => by
      obtain ⟨l, hl, -⟩ := hext.taken
      rw [Kmem.setMem_mem, htu] at ht
      exact hfu q' (hl ▸ List.mem_append_right _ hq') ht)
    (fun va hva => by
      rw [Kmem.setMem_mem, pte0_congr hu₂]
      exact hmap va ((visited_step ha).2 (.inr hva)))
    (by
      simp only [Kmem.setMem_freelist, hP] at hlen hfree ⊢
      omega) (show stop - (address + PGSIZE) = stop - (address + PGSIZE) from rfl)
  refine ⟨s', by rw [syncPagetable_step ha (by rw [walk_noalloc haM, hp]; rfl) hwalk
    (hu.slot_ne_zero hp) hq0]; exact hrun, hext.trans hpost.kernel, fun t ht =>
    (hu₂ t ht).trans (hpost.user t (by rw [Kmem.setMem_mem, htu]; exact ht)), fun va hva => ?_⟩
  rw [hpost.synced va hva, Kmem.setMem_mem, pte0_congr hu₂, pte0_store hg.wf (hq hq0) haM hva,
    hg.pte0, hv]
  by_cases h₁ : Visited (address + PGSIZE) stop va
  · rw [if_pos h₁, if_pos ((visited_step ha).2 (.inr h₁))]
  by_cases h₂ : va / PGSIZE = address / PGSIZE
  · rw [if_neg h₁, if_pos h₂, if_pos ((visited_step ha).2 (.inl h₂)),
      Nat.mod_eq_of_lt (Nat.and_lt_two_pow _ (by decide)), pte0_of_page h₂]
  · rw [if_neg h₁, if_neg h₂, if_neg fun h => ((visited_step ha).1 h).elim h₂ h₁]

end Spec

/-- From a page-aligned `address`, the loop visits exactly the pages that overlap
`[address, stop)`. -/
theorem visited_iff_overlaps {address stop va : Nat} (h : address % PGSIZE = 0) :
    Visited address stop va ↔ PGROUNDDOWN va < stop ∧ address < PGROUNDDOWN va + PGSIZE := by
  simp only [Visited, PGROUNDDOWN, PGSIZE] at *
  omega

/-- `sync_pagetable(u, k, 100, 4150)` from `twoPages` visits only the address 100, so the page
1, which `[100, 4150)` overlaps, keeps its kernel PTE 0. -/
theorem sync_misses_last_page :
    WellFormed (twoPages (userLeaf 16384) (userLeaf 20480)) 4096 ∧
    WellFormed (twoPages (userLeaf 16384) (userLeaf 20480)) 24576 ∧
    (∀ t ∈ tables (twoPages (userLeaf 16384) (userLeaf 20480)) 4096,
      t ∉ tables (twoPages (userLeaf 16384) (userLeaf 20480)) 24576) ∧
    100 ≤ 4150 ∧ 4150 ≤ PLIC ∧
    pte0 (twoPages (userLeaf 16384) (userLeaf 20480)) 4096 0 % 2 = 1 ∧
    pte0 (twoPages (userLeaf 16384) (userLeaf 20480)) 4096 4096 % 2 = 1 ∧
    ∃ s', syncPagetable ⟨twoPages (userLeaf 16384) (userLeaf 20480), [28672, 32768], []⟩
        4096 24576 100 4150 = .ok s' ∧
      pte0 s'.mem 24576 4096 ≠
        pte0 (twoPages (userLeaf 16384) (userLeaf 20480)) 4096 4096 &&& (2 ^ 64 - 1 - PTE_U) := by
  obtain ⟨hu, ht⟩ := twoPages_wf (userLeaf 16384) (userLeaf 20480) (by decide) (by decide)
    (by decide) (by decide)
  have hz : ∀ j < PGSIZE, twoPages (userLeaf 16384) (userLeaf 20480) (24576 + j) = 0 :=
    fun _ _ => twoPages_high (by omega)
  have hk := WellFormed.of_zero (by decide) (by decide) hz
  have hdis : ∀ t ∈ tables (twoPages (userLeaf 16384) (userLeaf 20480)) 4096,
      t ∉ tables (twoPages (userLeaf 16384) (userLeaf 20480)) 24576 := by
    intro t h
    rw [ht.mem_iff] at h
    rw [tables_of_zero hz]
    simp only [List.mem_cons, List.mem_singleton, List.not_mem_nil, or_false] at h ⊢
    omega
  have hmap : ∀ va, Visited 100 4150 va →
      pte0 (twoPages (userLeaf 16384) (userLeaf 20480)) 4096 va % 2 = 1 := fun va hva => by
    simp only [Visited, PGSIZE] at hva
    rw [pte0_of_page (show va / PGSIZE = 0 / PGSIZE by simp only [PGSIZE]; omega)]
    decide
  obtain ⟨s', hrun, hpost⟩ := syncPagetable_spec
    (s := ⟨twoPages (userLeaf 16384) (userLeaf 20480), [28672, 32768], []⟩) hu hk hdis
    ⟨by decide, by decide, fun q hq => by
      rw [tables_of_zero hz]
      simp only [List.mem_cons, List.mem_singleton, List.not_mem_nil, or_false] at hq ⊢
      omega⟩
    (fun q hq h => by
      rw [ht.mem_iff] at h
      simp only [List.mem_cons, List.mem_singleton, List.not_mem_nil, or_false] at hq h
      omega)
    (by decide) hmap (by decide)
  refine ⟨hu, hk, hdis, by decide, by decide, hmap 0 (by decide), by decide, s', hrun, ?_⟩
  rw [hpost.synced 4096 (by decide), if_neg (by decide), pte0_of_zero hz]
  decide

end BufCache.Vm
