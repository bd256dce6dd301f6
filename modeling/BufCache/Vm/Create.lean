import BufCache.Vm.Kvm
import BufCache.Vm.Copyout
import BufCache.Vm.Freewalk

/-!
# `uvmcreate`, `uvminit` and `uvmclear`

`uvmcreate()` (lines 175-181) makes an empty user page table: a zeroed page from `kalloc`, or 0.
`uvminit(pagetable, src, sz)` (lines 186-196) loads the first process's code: it takes a page,
zeroes it, maps it at the user address 0 and copies the `sz < PGSIZE` bytes of `src` into it.
It checks neither what `kalloc` returned nor what `mappages` returned. `uvmclear(pagetable, va)`
(lines 300-306) clears `PTE_U` in the level-0 PTE of `va`, which `exec` does to the page below
the user stack.

With four free pages and the code outside them, `uvmcreate` then `uvminit` give a tree that maps
the user page 0 and nothing else, to a page holding the code then zeros, every page taken being
that page or a page-table page of the tree (`uvminit_first`). Such a tree has at most three
page-table pages, so its root has one valid entry, and `uvmfree(pagetable, PGSIZE)` frees it
without a panic: the pages passed to `kfree` are exactly those the two calls took
(`uvminit_uvmfree`). After `uvmclear` the page keeps its PTE but for `PTE_U`, and `copyout` into
it fails without writing anything (`uvmclear_guard`).
-/

namespace BufCache.Vm

/-- `uvmcreate()` (lines 175-181): the root of an empty tree, or 0 when memory is exhausted. -/
def uvmcreate (s : Kmem) : Nat × Kmem :=
  let (pagetable, s) := s.kalloc
  if pagetable = 0 then (0, s) else (pagetable, s.setMem (memset s.mem pagetable 0 PGSIZE))

/-- The flags `uvminit` maps the first user page with. -/
def initPerm : Nat := PTE_W ||| PTE_R ||| PTE_X ||| PTE_U

/-- `uvminit(pagetable, src, sz)` (lines 186-196), with `src` an address of the same memory. -/
def uvminit (s : Kmem) (pagetable src sz : Nat) : Except String Kmem :=
  if sz ≥ PGSIZE then .error "inituvm: more than a page"
  else
    let (mem, s) := s.kalloc
    let s := s.setMem (memset s.mem mem 0 PGSIZE)
    match mappages s pagetable 0 PGSIZE mem initPerm with
    | .error e => .error e
    | .ok (_, s) => .ok (s.setMem (memmove s.mem mem src sz))

/-- `uvmclear(pagetable, va)` (lines 300-306): `*pte &= ~PTE_U`, and the panic where `walk`
finds no level-0 page. -/
def uvmclear (s : Kmem) (pagetable va : Nat) : Except String Kmem :=
  match walk s pagetable va false with
  | .error e => .error e
  | .ok (pte, s) =>
    if pte = 0 then .error "uvmclear"
    else .ok (s.setMem (write64 s.mem pte (read64 s.mem pte &&& (2 ^ 64 - 1 - PTE_U))))

/-! ### The first process -/

section Init

variable {s : Kmem} {pt a pa perm : Nat}

/-- `uvminit` below a page, with a page to give: `mappages` of the zeroed page, then the copy. -/
theorem uvminit_cons {mem src sz : Nat} {l : List Nat} (hsz : sz < PGSIZE)
    (h : s.freelist = mem :: l) :
    uvminit s pt src sz =
      match mappages ({ s with freelist := l }.setMem (memset s.mem mem 0 PGSIZE)) pt 0 PGSIZE mem
        initPerm with
      | .error e => .error e
      | .ok (_, s) => .ok (s.setMem (memmove s.mem mem src sz)) := by
  rw [uvminit, if_neg (by omega), Kmem.kalloc_cons h]

/-- `uvmcreate()` then `uvminit(pagetable, src, sz)` from four free pages: the tree maps only the
user page 0, holding the `sz` bytes then zeros, and only the pages taken changed. -/
theorem uvminit_spec {src sz : Nat} (hfree : FreePages s) (hlen : 4 ≤ s.freelist.length)
    (hsz : sz < PGSIZE) (hsrc : ∀ q ∈ s.freelist, ∀ j < sz, PGROUNDDOWN (src + j) ≠ q) :
    ∃ pt s₁ mem l s', uvmcreate s = (pt, s₁) ∧ uvminit s₁ pt src sz = .ok s' ∧
      s.freelist = pt :: mem :: l ++ s'.freelist ∧ (tables s'.mem pt).Perm (l ++ [pt]) ∧
      l.length ≤ 2 ∧ s'.freed = s.freed ∧ WellFormed s'.mem pt ∧
      (∀ va < MAXVA, pte0 s'.mem pt va =
        if va < PGSIZE then PA2PTE mem ||| initPerm ||| PTE_V else 0) ∧
      (∀ j < PGSIZE, s'.mem (mem + j) = if j < sz then s.mem (src + j) else 0) ∧
      ∀ u, u % PGSIZE = 0 → u ∉ pt :: mem :: l → AgreeOn s.mem s'.mem u := by
  have hP : PGSIZE = 4096 := rfl
  obtain ⟨p₀, p₁, rest, hfl⟩ : ∃ p₀ p₁ rest, s.freelist = p₀ :: p₁ :: rest := by
    match h : s.freelist with
    | p₀ :: p₁ :: rest => exact ⟨p₀, p₁, rest, rfl⟩
    | [] | [_] => rw [h] at hlen; simp at hlen
  have hpage : ∀ q ∈ s.freelist, q % PGSIZE = 0 ∧ q ≠ 0 ∧ q < 2 ^ 64 := hfree.page
  have hnd := hfree.nodup
  rw [hfl] at hpage hnd hlen hsrc
  simp only [List.nodup_cons, List.mem_cons, not_or] at hnd
  obtain ⟨⟨h01, h0r⟩, h1r, hrest⟩ := hnd
  obtain ⟨h0a, h00, -⟩ := hpage p₀ (.head _)
  obtain ⟨h1a, -, h1lt⟩ := hpage p₁ (.tail _ (.head _))
  -- the root `p₀`, then the user page `p₁`, both zeroed
  have hcreate : uvmcreate s = (p₀, { s with freelist := p₁ :: rest }.setMem
      (memset s.mem p₀ 0 PGSIZE)) := by
    simp [uvmcreate, Kmem.kalloc_cons hfl, h00]
  set s₁ : Kmem := { s with freelist := p₁ :: rest }.setMem (memset s.mem p₀ 0 PGSIZE) with hs₁
  set s₂ : Kmem := { s₁ with freelist := rest }.setMem (memset s₁.mem p₁ 0 PGSIZE) with hs₂
  have hzero₀ : ∀ j < PGSIZE, s₂.mem (p₀ + j) = 0 := fun j hj => by
    simp only [hs₂, hs₁, Kmem.setMem_mem, memset]
    rw [if_neg (by simp only [hP] at h0a h1a ⊢; omega),
      if_pos ⟨Nat.le_add_right _ _, Nat.add_lt_add_left hj _⟩]
  have hw₂ : WellFormed s₂.mem p₀ := WellFormed.of_zero h0a h00 hzero₀
  have hf₂ : Fresh p₀ s₂ := ⟨hrest, fun q hq => hpage q (.tail _ (.tail _ hq)), fun q hq ht => by
    rw [tables_of_zero hzero₀, List.mem_singleton] at ht
    exact h0r (ht ▸ hq)⟩
  obtain ⟨s₃, hmap, hext, hpte, hlen₃⟩ := mappages_one_of_two hw₂ hf₂
    (show 0 % PGSIZE = 0 by decide) (show 0 < MAXVA by decide) (show initPerm < 1024 by decide)
    (by decide) (show p₁ < 2 ^ 64 from h1lt) (by rw [pte0_of_zero hzero₀])
    (by simp only [hs₂, Kmem.setMem_freelist]; simp at hlen; omega)
  -- the pages of the tree came from the free list, so the user page is not among them
  obtain ⟨l, hl, hperm⟩ := hext.taken
  replace hl : rest = l ++ s₃.freelist := hl
  rw [tables_of_zero hzero₀] at hperm
  have htab : ∀ u ∈ tables s₃.mem p₀, u = p₀ ∨ u ∈ l := fun u hu => by
    simpa [or_comm] using hperm.subset hu
  have hp₁ : p₁ ∉ tables s₃.mem p₀ := fun h =>
    (htab p₁ h).elim (fun e => h01 e.symm) fun e => h1r (hl ▸ List.mem_append_left _ e)
  -- no page outside the root, the user page and the pages `walk` took changed
  have hframe : ∀ u, u % PGSIZE = 0 → u ∉ p₀ :: p₁ :: l → AgreeOn s.mem s₃.mem u :=
    fun u hu hn => by
      simp only [List.mem_cons, not_or] at hn
      refine ((agreeOn_memset h0a hu (Ne.symm hn.1)).trans
        (agreeOn_memset h1a hu (Ne.symm hn.2.1))).trans (hext.frame u hu fun h => ?_)
      exact (htab u h).elim hn.1 hn.2.2
  have hcopy : ∀ u, u % PGSIZE = 0 → u ≠ p₁ →
      AgreeOn s₃.mem (memmove s₃.mem p₁ src sz) u := fun u hu hne => by
    rw [show memmove s₃.mem p₁ src sz = memmove s₃.mem (p₁ + 0) src sz by rw [Nat.add_zero]]
    exact agreeOn_memmove h1a hu (Ne.symm hne) (by omega)
  have hagree : ∀ u ∈ tables s₃.mem p₀, AgreeOn s₃.mem (memmove s₃.mem p₁ src sz) u :=
    fun u hu => hcopy u (hext.wf.aligned_of_mem hu) fun e => hp₁ (e ▸ hu)
  refine ⟨p₀, s₁, p₁, l, s₃.setMem (memmove s₃.mem p₁ src sz), hcreate,
    by rw [uvminit_cons hsz rfl, hmap], by rw [hfl, hl]; rfl, ?_, ?_, hext.freed,
    hext.wf.congr hagree, fun va hva => ?_, fun j hj => ?_, fun u hu hn =>
      (hframe u hu hn).trans (hcopy u hu fun e => hn (e ▸ .tail _ (.head _)))⟩
  · rw [Kmem.setMem_mem, tables_congr_of_agree hagree]
    exact hperm
  · have h₃ : s₂.freelist.length ≤ s₃.freelist.length + 2 := hlen₃
    simp only [hs₂, Kmem.setMem_freelist, hl, List.length_append] at h₃
    omega
  · rw [Kmem.setMem_mem, pte0_congr hagree, hpte va hva, remapped_one (by decide),
      pte0_of_zero hzero₀]
    by_cases hv : va < PGSIZE
    · rw [if_pos (by simp only [hP] at hv ⊢; omega), if_pos hv]
    · rw [if_neg (by simp only [hP] at hv ⊢; omega), if_neg hv]
  · simp only [Kmem.setMem_mem, memmove]
    by_cases hj' : j < sz
    · -- a byte of the code, on a page no call took
      rw [if_pos ⟨by omega, by omega⟩, if_pos hj', Nat.add_sub_cancel_left]
      have hx := hframe (PGROUNDDOWN (src + j)) (by simp only [PGROUNDDOWN, hP]; omega)
        (fun h => hsrc _ (List.cons_subset_cons _ (List.cons_subset_cons _
          (hl ▸ List.subset_append_left _ _)) h) j hj' rfl)
        ((src + j) % PGSIZE) (Nat.mod_lt _ (by decide))
      rwa [show PGROUNDDOWN (src + j) + (src + j) % PGSIZE = src + j by
        simp only [PGROUNDDOWN, hP]; omega] at hx
    · rw [if_neg (by omega), if_neg hj']
      -- the user page is not a page of the tree, so it keeps the zeros of its `memset`
      have h := hext.frame p₁ h1a hp₁ j hj
      rw [h, hs₂, Kmem.setMem_mem]
      exact if_pos ⟨by omega, by omega⟩

/-- `uvmcreate()` then `uvminit`: the tree maps only the user page 0, to a free page holding the
code then zeros, and every page taken is that page or a page-table page. -/
theorem uvminit_first {src sz : Nat} (hfree : FreePages s) (hlen : 4 ≤ s.freelist.length)
    (hsz : sz < PGSIZE) (hsrc : ∀ q ∈ s.freelist, ∀ j < sz, PGROUNDDOWN (src + j) ≠ q) :
    ∃ pt s₁ mem l s', uvmcreate s = (pt, s₁) ∧ uvminit s₁ pt src sz = .ok s' ∧
      s.freelist = pt :: mem :: l ++ s'.freelist ∧ (tables s'.mem pt).Perm (l ++ [pt]) ∧
      WellFormed s'.mem pt ∧
      (∀ va < MAXVA, pte0 s'.mem pt va =
        if va < PGSIZE then PA2PTE mem ||| initPerm ||| PTE_V else 0) ∧
      ∀ j < PGSIZE, s'.mem (mem + j) = if j < sz then s.mem (src + j) else 0 := by
  obtain ⟨pt, s₁, mem, l, s', h₁, h₂, h₃, h₄, -, -, h₅, h₆, h₇, -⟩ :=
    uvminit_spec hfree hlen hsz hsrc
  exact ⟨pt, s₁, mem, l, s', h₁, h₂, h₃, h₄, h₅, h₆, h₇⟩

/-- The first process from four free pages, with 52 bytes of code at `0x10000`. -/
theorem uvminit_first_four :
    FreePages ⟨fun _ => 0, [4096, 8192, 12288, 16384], []⟩ ∧ 4 ≤ [4096, 8192, 12288, 16384].length ∧ 52 < PGSIZE ∧
    (∀ q ∈ [4096, 8192, 12288, 16384], ∀ j < 52, PGROUNDDOWN (0x10000 + j) ≠ q) ∧
    ∃ pt s₁ mem l s', uvmcreate ⟨fun _ => 0, [4096, 8192, 12288, 16384], []⟩ = (pt, s₁) ∧ uvminit s₁ pt 0x10000 52 = .ok s' ∧
      [4096, 8192, 12288, 16384] = pt :: mem :: l ++ s'.freelist ∧
      (tables s'.mem pt).Perm (l ++ [pt]) ∧ WellFormed s'.mem pt ∧
      (∀ va < MAXVA, pte0 s'.mem pt va =
        if va < PGSIZE then PA2PTE mem ||| initPerm ||| PTE_V else 0) ∧
      ∀ j < PGSIZE, s'.mem (mem + j) = if j < 52 then (0 : UInt8) else 0 := by
  have hfree : FreePages ⟨fun _ => 0, [4096, 8192, 12288, 16384], []⟩ := ⟨by decide, by decide⟩
  have hsrc : ∀ q ∈ [4096, 8192, 12288, 16384], ∀ j < 52, PGROUNDDOWN (0x10000 + j) ≠ q := by
    intro q hq j hj
    simp only [List.mem_cons, List.mem_singleton, List.not_mem_nil, or_false] at hq
    simp only [PGROUNDDOWN, PGSIZE]
    omega
  exact ⟨hfree, by decide, by decide, hsrc, uvminit_first hfree (by decide) (by decide) hsrc⟩

end Init

/-! ### The first process freed -/

section Free

variable {s : Kmem}

/-- A well-formed tree of at most three page-table pages that maps `va` has no valid root entry
but the one `va` goes through: another would point to a fourth page. -/
theorem WellFormed.root_entry_eq {m : Mem} {pt va i : Nat} (hw : WellFormed m pt)
    (h3 : (tables m pt).length ≤ 3) (hva : pte0 m pt va % 2 = 1) (hi : i < 512)
    (hv : pteAt m pt i % 2 = 1) : i = PX 2 va := by
  obtain ⟨p, hp, -⟩ := ptePtr_of_valid hva
  obtain ⟨t₁, t₀, h₁, h₀, -⟩ := ptePtr_eq_some.1 hp
  have hc : child m pt i = some (PTE2PA (pteAt m pt i)) := child_eq_some.2 ⟨hv, rfl⟩
  have ht₁ : t₁ ∈ children m pt := mem_children.2 ⟨_, PX_lt 2 va, h₁⟩
  have hc' : PTE2PA (pteAt m pt i) ∈ children m pt := mem_children.2 ⟨_, hi, hc⟩
  have ht₀ : t₀ ∈ children m t₁ := mem_children.2 ⟨_, PX_lt 1 va, h₀⟩
  by_contra hne
  have hne' : PTE2PA (pteAt m pt i) ≠ t₁ := fun e =>
    hne (hw.child_inj (List.mem_cons_self _ _) hi (PX_lt 2 va) hc (e ▸ h₁))
  -- the root, the two level-1 pages and the level-0 page below `va`: four distinct pages
  have h4 : [pt, t₁, PTE2PA (pteAt m pt i), t₀].Subperm (tables m pt) := by
    refine List.subperm_of_subset ?_ fun x hx => ?_
    · simp only [List.nodup_cons, List.mem_cons, List.mem_singleton, List.not_mem_nil, not_or,
        List.nodup_nil, not_false_eq_true, and_true]
      exact ⟨⟨(hw.root_ne_level1 ht₁).symm, (hw.root_ne_level1 hc').symm,
        (hw.root_ne_level0 ht₁ ht₀).symm⟩, ⟨hne'.symm, (hw.level1_ne_level0 ht₁ ht₁ ht₀).symm⟩,
        (hw.level1_ne_level0 ht₁ hc' ht₀).symm⟩
    · simp only [List.mem_cons, List.mem_singleton, List.not_mem_nil, or_false] at hx
      rcases hx with rfl | rfl | rfl | rfl
      exacts [mem_tables.2 (.inl rfl), mem_tables.2 (.inr (.inl ht₁)),
        mem_tables.2 (.inr (.inl hc')), mem_tables.2 (.inr (.inr ⟨t₁, ht₁, ht₀⟩))]
  have := h4.length_le
  simp only [List.length_cons, List.length_nil] at this
  omega

/-- The first process from `uvmcreate()` and `uvminit` to `uvmfree(pagetable, PGSIZE)`: all three
return, and `kfree` gets back exactly the pages taken; no other page changed. -/
theorem uvminit_uvmfree {src sz fuel : Nat} (hfree : FreePages s) (hlen : 4 ≤ s.freelist.length)
    (hsz : sz < PGSIZE) (hsrc : ∀ q ∈ s.freelist, ∀ j < sz, PGROUNDDOWN (src + j) ≠ q)
    (hfuel : 3 ≤ fuel) :
    ∃ pt s₁ s₂ s₃ taken fr, uvmcreate s = (pt, s₁) ∧ uvminit s₁ pt src sz = .ok s₂ ∧
      uvmfree fuel s₂ pt PGSIZE = some (.ok s₃) ∧ s.freelist = taken ++ s₂.freelist ∧
      s₃.freed = s.freed ++ fr ∧ fr.Perm taken ∧ s₃.freelist = fr.reverse ++ s₂.freelist ∧
      ∀ u, u % PGSIZE = 0 → u ∉ taken → AgreeOn s.mem s₃.mem u := by
  obtain ⟨pt, s₁, mem, l, s₂, hc, hi, hfl, hperm, hl2, hfreed, hw, hpte, -, hframe⟩ :=
    uvminit_spec hfree hlen hsz hsrc
  have hup : PGROUNDUP PGSIZE = PGSIZE := rfl
  have hmem := hfree.page mem (by rw [hfl]; exact .tail _ (.head _))
  -- the user page is mapped by a leaf, nothing else is, and the root has no other entry
  have h0 : pte0 s₂.mem pt 0 = PA2PTE mem ||| initPerm ||| PTE_V := by
    rw [hpte 0 (by decide), if_pos (by decide)]
  have hleaf : ∀ va < PGROUNDUP PGSIZE, pte0 s₂.mem pt va % 2 = 1 ∧
      PTE_FLAGS (pte0 s₂.mem pt va) ≠ PTE_V := fun va hva => by
    rw [hpte va (by rw [hup] at hva; exact lt_trans hva (by decide)), if_pos (hup ▸ hva)]
    exact ⟨leaf_valid (by decide), by rw [PTE_FLAGS_leaf (by decide)]; decide⟩
  have habove : ∀ va, PGROUNDUP PGSIZE ≤ va → va < MAXVA → pte0 s₂.mem pt va % 2 = 0 :=
    fun va h hva => by rw [hpte va hva, if_neg (by rw [hup] at h; omega)]
  have hhigh : ∀ i, 256 ≤ i → i < 512 → pteAt s₂.mem pt i % 2 = 0 := fun i h hi => by
    by_contra hv
    have := hw.root_entry_eq
      (by rw [hperm.length_eq, List.length_append, List.length_singleton]; omega)
      (show pte0 s₂.mem pt 0 % 2 = 1 by rw [h0]; exact leaf_valid (by decide)) hi (by omega)
    rw [show PX 2 0 = 0 from rfl] at this
    omega
  obtain ⟨s₃, hrun, hfr, hfl₃, hfr₃⟩ := uvmfree_spec hw (by decide) hfuel hleaf habove hhigh
  -- the page that leaf maps is the user page
  have hleafp : leafPages s₂.mem pt 0 (PGROUNDUP PGSIZE / PGSIZE) = [mem] := by
    rw [hup, Nat.div_self (by decide)]
    simp only [leafPages, show List.range 1 = [0] from rfl, List.map_singleton, Nat.zero_mul, Nat.add_zero, h0,
      PTE2PA_leaf (by decide : initPerm < 1024) hmem.2.2, List.singleton_inj]
    simp only [PGROUNDDOWN, PGSIZE] at hmem ⊢
    omega
  refine ⟨pt, s₁, s₂, s₃, pt :: mem :: l, mem :: tables s₂.mem pt, hc, hi, hrun, hfl,
    by rw [hfr, hleafp, hfreed, List.append_assoc, List.singleton_append], ?_,
    by rw [hfl₃, hleafp]; simp, ?_⟩
  · refine (hperm.cons mem).trans (List.perm_iff_count.2 fun a => ?_)
    simp only [List.count_cons, List.count_append, List.count_nil]
    omega
  · intro u hu hn
    have ht : u ∉ tables s₂.mem pt := fun h => hn (by
      have := hperm.subset h
      simp only [List.mem_append, List.mem_singleton] at this
      rcases this with h' | rfl
      exacts [.tail _ (.tail _ h'), .head _])
    exact (hframe u hu hn).trans (hfr₃ u hu ht)

/-- The first process from four free pages, with 52 bytes of code at `0x10000`, to its end. -/
theorem uvminit_uvmfree_four :
    FreePages ⟨fun _ => 0, [4096, 8192, 12288, 16384], []⟩ ∧ 4 ≤ [4096, 8192, 12288, 16384].length ∧
    52 < PGSIZE ∧ (∀ q ∈ [4096, 8192, 12288, 16384], ∀ j < 52, PGROUNDDOWN (0x10000 + j) ≠ q) ∧
    3 ≤ 3 ∧
    ∃ pt s₁ s₂ s₃ taken fr, uvmcreate ⟨fun _ => 0, [4096, 8192, 12288, 16384], []⟩ = (pt, s₁) ∧
      uvminit s₁ pt 0x10000 52 = .ok s₂ ∧ uvmfree 3 s₂ pt PGSIZE = some (.ok s₃) ∧
      [4096, 8192, 12288, 16384] = taken ++ s₂.freelist ∧ s₃.freed = [] ++ fr ∧ fr.Perm taken ∧
      s₃.freelist = fr.reverse ++ s₂.freelist ∧
      ∀ u, u % PGSIZE = 0 → u ∉ taken → AgreeOn (fun _ => 0) s₃.mem u := by
  have hfree : FreePages ⟨fun _ => 0, [4096, 8192, 12288, 16384], []⟩ := ⟨by decide, by decide⟩
  have hsrc : ∀ q ∈ [4096, 8192, 12288, 16384], ∀ j < 52, PGROUNDDOWN (0x10000 + j) ≠ q := by
    intro q hq j hj
    simp only [List.mem_cons, List.mem_singleton, List.not_mem_nil, or_false] at hq
    simp only [PGROUNDDOWN, PGSIZE]
    omega
  exact ⟨hfree, by decide, by decide, hsrc, le_rfl,
    uvminit_uvmfree hfree (by decide) (by decide) hsrc le_rfl⟩

end Free

/-! ### The guard page -/

section Clear

variable {s : Kmem} {pt va : Nat}

theorem and_notU_U (e : Nat) : e &&& (2 ^ 64 - 1 - PTE_U) &&& PTE_U = 0 := by
  rw [Nat.and_assoc, show (2 ^ 64 - 1 - PTE_U) &&& PTE_U = 0 from rfl, Nat.and_zero]

/-- `uvmclear(va)` on a tree that maps `va`: only the PTE of `va` changes, losing `PTE_U`, and
every `copyout` into that page fails, writing nothing. -/
theorem uvmclear_guard (hw : WellFormed s.mem pt) (hva : va < MAXVA)
    (hmap : pte0 s.mem pt va % 2 = 1) :
    ∃ s', uvmclear s pt va = .ok s' ∧ WellFormed s'.mem pt ∧ tables s'.mem pt = tables s.mem pt ∧
      (∀ va' < MAXVA, pte0 s'.mem pt va' = if va' / PGSIZE = va / PGSIZE
        then pte0 s.mem pt va &&& (2 ^ 64 - 1 - PTE_U) else pte0 s.mem pt va') ∧
      ∀ dstva src len, 0 < len → dstva / PGSIZE = va / PGSIZE →
        copyout s' pt dstva src len = .ok (-1, s') := by
  obtain ⟨p, hp, hread⟩ := ptePtr_of_valid hmap
  obtain ⟨v, hv⟩ : ∃ v, v = read64 s.mem p &&& (2 ^ 64 - 1 - PTE_U) := ⟨_, rfl⟩
  have hvlt : v < 2 ^ 64 := by
    rw [hv]
    exact Nat.lt_of_le_of_lt Nat.and_le_left read64_lt
  have hw' : WellFormed (write64 s.mem p v) pt := hw.store hp hvlt fun h => by
    rw [hv, and_notU_mod_two, hread] at h
    rw [hv, and_notU_RWX, hread]
    exact hw.pte0_leaf h
  have hpte : ∀ va' < MAXVA, pte0 (write64 s.mem p v) pt va' = if va' / PGSIZE = va / PGSIZE
      then pte0 s.mem pt va &&& (2 ^ 64 - 1 - PTE_U) else pte0 s.mem pt va' := fun va' hva' => by
    rw [pte0_store hw hp hva hva', Nat.mod_eq_of_lt hvlt, hv, hread]
  refine ⟨s.setMem (write64 s.mem p v), ?_, hw', tables_store hw hp, hpte,
    fun dstva src len hlen hpage => ?_⟩
  · simp only [uvmclear, walk_noalloc hva, hp, Option.getD_some, if_neg (hw.slot_ne_zero hp), hv]
  -- `walkaddr` sees the page without `PTE_U`: 0
  have hpg : PGROUNDDOWN dstva / PGSIZE = va / PGSIZE := by
    simp only [PGROUNDDOWN, PGSIZE] at hpage ⊢
    omega
  have hlt : PGROUNDDOWN dstva < MAXVA := by
    simp only [PGROUNDDOWN, PGSIZE, MAXVA] at hpage hva ⊢
    omega
  rw [copyout_of_walkaddr hlen (walkaddr_eq hw'), userPA, Kmem.setMem_mem, hpte _ hlt, if_pos hpg,
    and_notU_U]
  simp

/-- The page 1 of the tree `twoPages` made a guard page. -/
theorem uvmclear_guard_twoPages :
    WellFormed (twoPages (userLeaf 16384) (userLeaf 20480)) 4096 ∧ 4096 < MAXVA ∧ pte0 (twoPages (userLeaf 16384) (userLeaf 20480)) 4096 4096 % 2 = 1 ∧
    ∃ s', uvmclear ⟨twoPages (userLeaf 16384) (userLeaf 20480), [], []⟩ 4096 4096 = .ok s' ∧ WellFormed s'.mem 4096 ∧
      tables s'.mem 4096 = tables (twoPages (userLeaf 16384) (userLeaf 20480)) 4096 ∧
      (∀ va' < MAXVA, pte0 s'.mem 4096 va' = if va' / PGSIZE = 4096 / PGSIZE
        then pte0 (twoPages (userLeaf 16384) (userLeaf 20480)) 4096 4096 &&& (2 ^ 64 - 1 - PTE_U) else pte0 (twoPages (userLeaf 16384) (userLeaf 20480)) 4096 va') ∧
      ∀ dstva src len, 0 < len → dstva / PGSIZE = 4096 / PGSIZE →
        copyout s' 4096 dstva src len = .ok (-1, s') := by
  have hw := (twoPages_wf (userLeaf 16384) (userLeaf 20480) (by decide) (by decide) (by decide)
    (by decide)).1
  exact ⟨hw, by decide, by decide, uvmclear_guard (s := ⟨twoPages (userLeaf 16384) (userLeaf 20480), [], []⟩) hw (by decide) (by decide)⟩

end Clear

end BufCache.Vm
