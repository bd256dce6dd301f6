import BufCache.Vm.Mappages
import BufCache.Vm.Unmap

/-!
# `uvmcopy`

`uvmcopy(old, new, sz)` (lines 272-295) copies a parent's memory into a child's page table: for
each page below `sz` it reads old's level-0 PTE (it panics when there is none or it is invalid),
takes a page from `kalloc`, copies old's page into it and maps it in `new` with old's flags. When
`kalloc` or `mappages` fails it frees the page it holds and goes to `err`, which unmaps and frees
the pages copied so far with `uvmunmap(new, 0, i / PGSIZE, 1)`, and returns -1.

The loop keeps `CopyInv`: what it has mapped in `new`, with what, where every page it took from
the free list went, and that every page outside the free list and new's page-table pages holds
what it held. `uvmcopy_correct` says what a call does when old's tree, the pages it maps and the
free list are apart from new's page-table pages. Where one of old's pages is a page-table page
of `new`, mapping a page in `new` writes into it, and where a valid level-0 PTE of `old` is no
leaf, the `err` path panics: `uvmcopy_overwrites_old_or_panics`.
-/

namespace BufCache.Vm

/-- The code at `err` (lines 292-294): unmap and free the pages below `i`, and return -1. -/
def uvmcopyErr (s : Kmem) (new i : Nat) : Except String (Int × Kmem) :=
  match uvmunmap s new 0 (i / PGSIZE) true with
  | .error e => .error e
  | .ok s => .ok (-1, s)

/-- The loop of `uvmcopy(old, new, sz)` (lines 279-290) from the page `i`. -/
def uvmcopyLoop (s : Kmem) (old new sz i : Nat) : Except String (Int × Kmem) :=
  if _h : i < sz then
    match walk s old i false with
    | .error e => .error e
    | .ok (pte, s) =>
      if pte = 0 then .error "uvmcopy: pte should exist"
      else if read64 s.mem pte &&& PTE_V = 0 then .error "uvmcopy: page not present"
      else
        let pa := PTE2PA (read64 s.mem pte)
        let flags := PTE_FLAGS (read64 s.mem pte)
        let (mem, s) := s.kalloc
        if mem = 0 then uvmcopyErr s new i
        else
          let s := s.setMem (memmove s.mem mem pa PGSIZE)
          match mappages s new i PGSIZE mem flags with
          | .error e => .error e
          | .ok (r, s) =>
            if r ≠ 0 then uvmcopyErr (s.kfree mem) new i
            else uvmcopyLoop s old new sz (i + PGSIZE)
  else .ok (0, s)
termination_by sz - i
decreasing_by simp only [PGSIZE]; omega

/-- `uvmcopy(old, new, sz)` (lines 272-295). -/
def uvmcopy (s : Kmem) (old new sz : Nat) : Except String (Int × Kmem) := uvmcopyLoop s old new sz 0

section Turns

variable {s s₂ : Kmem} {old new sz i p d : Nat} {rest : List Nat}

theorem uvmcopyLoop_done (h : ¬ i < sz) : uvmcopyLoop s old new sz i = .ok (0, s) := by
  rw [uvmcopyLoop, dif_neg h]

/-- The level-0 PTE of `i` in `old` is valid at `p`, and `kalloc` fails: `err`. -/
theorem uvmcopyLoop_oom (h : i < sz) (hi : i < MAXVA) (hp : ptePtr s.mem old i = some p)
    (hp0 : p ≠ 0) (hv : read64 s.mem p % 2 = 1) (hnil : s.freelist = []) :
    uvmcopyLoop s old new sz i = uvmcopyErr s new i := by
  rw [uvmcopyLoop, dif_pos h]
  simp only [walk_of_ptePtr hi hp, hp0, and_PTE_V, hv, if_false, one_ne_zero,
    Kmem.kalloc_nil hnil, if_true]

/-- The page `d` from `kalloc` holds old's page, and `mappages` fails: `kfree(d)`, then `err`. -/
theorem uvmcopyLoop_mapfail (h : i < sz) (hi : i < MAXVA) (hp : ptePtr s.mem old i = some p)
    (hp0 : p ≠ 0) (hv : read64 s.mem p % 2 = 1) (hcons : s.freelist = d :: rest) (hd0 : d ≠ 0)
    (hm : mappages ({ s with freelist := rest }.setMem
      (memmove s.mem d (PTE2PA (read64 s.mem p)) PGSIZE)) new i PGSIZE d
      (PTE_FLAGS (read64 s.mem p)) = .ok (-1, s₂)) :
    uvmcopyLoop s old new sz i = uvmcopyErr (s₂.kfree d) new i := by
  rw [uvmcopyLoop, dif_pos h]
  simp only [walk_of_ptePtr hi hp, hp0, and_PTE_V, hv, if_false, one_ne_zero,
    Kmem.kalloc_cons hcons, hd0, hm, ne_eq, Int.reduceNeg, Int.reduceEq, not_false_eq_true, if_true]

/-- The page `i` mapped in `new` to the page `d` holding old's page: the loop goes on. -/
theorem uvmcopyLoop_next (h : i < sz) (hi : i < MAXVA) (hp : ptePtr s.mem old i = some p)
    (hp0 : p ≠ 0) (hv : read64 s.mem p % 2 = 1) (hcons : s.freelist = d :: rest) (hd0 : d ≠ 0)
    (hm : mappages ({ s with freelist := rest }.setMem
      (memmove s.mem d (PTE2PA (read64 s.mem p)) PGSIZE)) new i PGSIZE d
      (PTE_FLAGS (read64 s.mem p)) = .ok (0, s₂)) :
    uvmcopyLoop s old new sz i = uvmcopyLoop s₂ old new sz (i + PGSIZE) := by
  rw [uvmcopyLoop, dif_pos h]
  simp only [walk_of_ptePtr hi hp, hp0, and_PTE_V, hv, if_false, one_ne_zero,
    Kmem.kalloc_cons hcons, hd0, hm, ne_eq, not_true_eq_false]

end Turns

/-- The leaf `uvmcopy` maps the page `d` with, for old's leaf `e`: valid, and a leaf to
`uvmunmap`. -/
theorem copy_leaf {e d : Nat} (he : e &&& PTE_RWX ≠ 0) :
    (PA2PTE d ||| PTE_FLAGS e ||| PTE_V) % 2 = 1 ∧
      PTE_FLAGS (PA2PTE d ||| PTE_FLAGS e ||| PTE_V) ≠ PTE_V := by
  have hf : PTE_FLAGS e < 1024 := Nat.mod_lt _ (by decide)
  refine ⟨leaf_valid hf, fun h => he ?_⟩
  rw [PTE_FLAGS_leaf hf] at h
  rw [and_flags (show PTE_RWX < 1024 by decide), ← or_PTE_V_and_RWX, h]
  rfl

theorem PTE2PA_copy_leaf {e d : Nat} (hd : d % PGSIZE = 0) (hd' : d < 2 ^ 64) :
    PTE2PA (PA2PTE d ||| PTE_FLAGS e ||| PTE_V) = d := by
  rw [PTE2PA_leaf (show PTE_FLAGS e < 1024 from Nat.mod_lt _ (by decide)) hd']
  simp only [PGROUNDDOWN, PGSIZE] at *
  omega

/-- The start of `uvmcopy(old, new, sz)` the theorems are about: `sz ≤ MAXVA`; `old` a well-formed
tree that maps every page below `sz`; `new` a well-formed tree that maps none of them, with fresh
pages on the free list; and new's page-table pages apart from old's page-table pages and from the
pages `old` maps below `sz`, and so are the free pages. -/
structure CopyPre (s : Kmem) (old new sz : Nat) : Prop where
  size : sz ≤ MAXVA
  old_wf : WellFormed s.mem old
  old_mapped : ∀ va < sz, pte0 s.mem old va % 2 = 1
  new_wf : WellFormed s.mem new
  new_fresh : Fresh new s
  new_unmapped : ∀ va < sz, pte0 s.mem new va % 2 = 0
  tables_apart : ∀ t ∈ tables s.mem new, t ∉ tables s.mem old
  pages_apart : ∀ va < sz, PTE2PA (pte0 s.mem old va) ∉ tables s.mem new
  free_apart : ∀ q ∈ s.freelist, q ∉ tables s.mem old ∧ ∀ va < sz, PTE2PA (pte0 s.mem old va) ≠ q

/-- What `uvmcopy(old, new, sz)` started in `s` leaves when it returns `r` in `s'`: 0 or -1; old's
page-table pages and the pages it maps below `sz` hold what they held; `new` is well formed, its
level-0 PTEs from `PGROUNDUP(sz)` on as they were, and only pages from the free list were freed.
On 0, every page below `sz` is mapped in `new`, with old's flags, to its own page from the free
list holding the bytes of old's page, and nothing was freed. On -1, every level-0 PTE of `new` is
as it was or 0, and every page that was free is free again or a page-table page of `new`. -/
structure UvmcopyPost (s : Kmem) (old new sz : Nat) (r : Int) (s' : Kmem) : Prop where
  result : r = 0 ∨ r = -1
  old_tables : ∀ t ∈ tables s.mem old, AgreeOn s.mem s'.mem t
  old_pages : ∀ va < sz, AgreeOn s.mem s'.mem (PTE2PA (pte0 s.mem old va))
  wf : WellFormed s'.mem new
  others : ∀ va < MAXVA, PGROUNDUP sz ≤ va → pte0 s'.mem new va = pte0 s.mem new va
  freed : ∃ fr, s'.freed = s.freed ++ fr ∧ (∀ q ∈ fr, q ∈ s.freelist) ∧ (r = 0 → fr = [])
  copied : r = 0 → ∀ va < sz, ∃ d,
    pte0 s'.mem new va = PA2PTE d ||| PTE_FLAGS (pte0 s.mem old va) ||| PTE_V ∧
      d ∈ s.freelist ∧ ∀ j < PGSIZE, s'.mem (d + j) = s.mem (PTE2PA (pte0 s.mem old va) + j)
  distinct : r = 0 → ∀ va < sz, ∀ va' < sz,
    PTE2PA (pte0 s'.mem new va) = PTE2PA (pte0 s'.mem new va') → va / PGSIZE = va' / PGSIZE
  restored : r = -1 → ∀ va < MAXVA,
    pte0 s'.mem new va = pte0 s.mem new va ∨ pte0 s'.mem new va = 0
  reclaimed : r = -1 → ∀ q ∈ s.freelist, q ∈ s'.freelist ∨ q ∈ tables s'.mem new

/-- What the loop of `uvmcopy` has done from `s₀` when it reaches the page `i` in `s`: `new` is
well formed with fresh pages on the free list, a part of the first one; its page-table pages were
page-table pages or free; every page that was free is still free, a page-table page, or the page
of a page below `i`; those pages are mapped with old's flags to distinct pages from the free list
holding old's pages, which are not page-table pages; no other level-0 PTE of `new` changed, no
page outside the free list and new's page-table pages changed, and nothing was freed. -/
structure CopyInv (s₀ : Kmem) (old new i : Nat) (s : Kmem) : Prop where
  wf : WellFormed s.mem new
  fresh : Fresh new s
  sub : ∀ q ∈ s.freelist, q ∈ s₀.freelist
  tables_sub : ∀ t ∈ tables s.mem new, t ∈ tables s₀.mem new ∨ t ∈ s₀.freelist
  used : ∀ q ∈ s₀.freelist, q ∈ s.freelist ∨ q ∈ tables s.mem new ∨
    ∃ va < i, PTE2PA (pte0 s.mem new va) = q
  copied : ∀ va < i, ∃ d,
    pte0 s.mem new va = PA2PTE d ||| PTE_FLAGS (pte0 s₀.mem old va) ||| PTE_V ∧
      d % PGSIZE = 0 ∧ d < 2 ^ 64 ∧ d ∈ s₀.freelist ∧ d ∉ s.freelist ∧ d ∉ tables s.mem new ∧
      ∀ j < PGSIZE, s.mem (d + j) = s₀.mem (PTE2PA (pte0 s₀.mem old va) + j)
  distinct : ∀ va < i, ∀ va' < i,
    PTE2PA (pte0 s.mem new va) = PTE2PA (pte0 s.mem new va') → va / PGSIZE = va' / PGSIZE
  others : ∀ va < MAXVA, i ≤ va → pte0 s.mem new va = pte0 s₀.mem new va
  frame : ∀ u, u % PGSIZE = 0 → u ∉ s₀.freelist → u ∉ tables s₀.mem new → AgreeOn s₀.mem s.mem u
  freed : s.freed = s₀.freed

namespace CopyInv

variable {s₀ s s₂ : Kmem} {old new sz i d : Nat} {rest : List Nat}

theorem start (hc : CopyPre s old new sz) : CopyInv s old new 0 s :=
  ⟨hc.new_wf, hc.new_fresh, fun _ h => h, fun _ h => .inl h, fun _ h => .inl h,
    fun _ h => absurd h (Nat.not_lt_zero _), fun _ h => absurd h (Nat.not_lt_zero _),
    fun _ _ _ => rfl, fun _ _ _ _ _ _ => rfl, rfl⟩

section Old

variable (hc : CopyPre s₀ old new sz) (inv : CopyInv s₀ old new i s)
include hc inv

/-- Old's page-table pages are untouched. -/
theorem old_tables : ∀ t ∈ tables s₀.mem old, AgreeOn s₀.mem s.mem t := fun t ht =>
  inv.frame t (hc.old_wf.aligned_of_mem ht) (fun h => (hc.free_apart t h).1 ht)
    fun h => hc.tables_apart t h ht

/-- Old's pages below `sz` are untouched. -/
theorem old_page {va : Nat} (hva : va < sz) : AgreeOn s₀.mem s.mem (PTE2PA (pte0 s₀.mem old va)) :=
  inv.frame _ PTE2PA_aligned (fun h => (hc.free_apart _ h).2 va hva rfl) (hc.pages_apart va hva)

/-- The PTE `walk(old, i, 0)` returns: old's level-0 PTE of `i` as it was. -/
theorem old_pte (hisz : i < sz) :
    ∃ p, ptePtr s.mem old i = some p ∧ p ≠ 0 ∧ read64 s.mem p = pte0 s₀.mem old i := by
  have hag := inv.old_tables hc
  obtain ⟨p, hp, -⟩ := ptePtr_of_valid (hc.old_mapped i hisz)
  have hp' : ptePtr s.mem old i = some p := by
    rw [ptePtr_congr (hag old (mem_tables_of_upper (List.mem_cons_self _ _)))
      fun c hc' => hag c (mem_tables_of_upper (List.mem_cons_of_mem _ hc')), hp]
  refine ⟨p, hp', hc.old_wf.slot_ne_zero hp, ?_⟩
  rw [← pte0_congr hag, pte0, hp', Option.map_some', Option.getD_some]

end Old

/-- The page `d` from the free list filled with a copy: the tree is what it was. -/
theorem moved (inv : CopyInv s₀ old new i s) (hd : d ∈ s.freelist) (pa : Nat) :
    ∀ u ∈ tables s.mem new, AgreeOn s.mem (memmove s.mem d pa PGSIZE) u := fun _ hu =>
  agreeOn_memmove (o := 0) (inv.fresh.page d hd).1 (inv.wf.aligned_of_mem hu)
    (fun e => inv.fresh.fresh d hd (e ▸ hu)) (Nat.le_of_eq (Nat.zero_add _))

/-- One turn of the loop: the page `i` mapped in `new`, with old's flags, to the page `d` from
`kalloc` holding a copy of old's page. -/
theorem next (hc : CopyPre s₀ old new sz) (inv : CopyInv s₀ old new i s)
    (hcons : s.freelist = d :: rest) (hi : i % PGSIZE = 0) (hisz : i < sz)
    (hext : Extends new ({ s with freelist := rest }.setMem
      (memmove s.mem d (PTE2PA (pte0 s₀.mem old i)) PGSIZE)) s₂)
    (hpte : ∀ va < MAXVA, pte0 s₂.mem new va =
      remapped (pte0 s.mem new) i (i + PGSIZE) d (PTE_FLAGS (pte0 s₀.mem old i)) va) :
    CopyInv s₀ old new (i + PGSIZE) s₂ := by
  have hiM : i < MAXVA := lt_of_lt_of_le hisz hc.size
  have hiP : i + PGSIZE ≤ MAXVA := by simp only [PGSIZE, MAXVA] at hi hiM ⊢; omega
  have hd : d ∈ s.freelist := hcons ▸ List.mem_cons_self _ _
  obtain ⟨hda, -, hd64⟩ := inv.fresh.page d hd
  have hd₀ : d ∈ s₀.freelist := inv.sub d hd
  have hdr : d ∉ rest := by
    have hn := inv.fresh.nodup
    rw [hcons, List.nodup_cons] at hn
    exact hn.1
  have hagree := inv.moved hd (PTE2PA (pte0 s₀.mem old i))
  have hrest : ∀ {q}, q ∈ rest → q ∈ s₀.freelist := fun h =>
    inv.sub _ (hcons ▸ List.mem_cons_of_mem _ h)
  -- a page outside the page `i` keeps its PTE, the page `i` is mapped to `d`
  have hold : ∀ va < MAXVA, (va < i ∨ i + PGSIZE ≤ va) → pte0 s₂.mem new va = pte0 s.mem new va :=
    fun va hva h => by
      rw [hpte va hva, remapped_one hi, if_neg (by simp only [PGSIZE] at hi h ⊢; omega)]
  have hpage : ∀ va, i ≤ va → va < i + PGSIZE → va / PGSIZE = i / PGSIZE := fun va h₁ h₂ => by
    simp only [PGSIZE] at hi h₁ h₂ ⊢
    omega
  have hnew : ∀ va < MAXVA, i ≤ va → va < i + PGSIZE →
      pte0 s₂.mem new va = PA2PTE d ||| PTE_FLAGS (pte0 s₀.mem old va) ||| PTE_V :=
    fun va hva h₁ h₂ => by
      rw [hpte va hva, remapped_one hi, if_pos (hpage va h₁ h₂), pte0_of_page (hpage va h₁ h₂)]
  -- the pages below `i` are mapped to pages off the free list
  have hprev : ∀ va < i, PTE2PA (pte0 s₂.mem new va) ∉ s.freelist := fun va hva => by
    obtain ⟨d', h₁', hda', hd64', -, hds', -⟩ := inv.copied va hva
    rw [hold va (by omega) (.inl hva), h₁', PTE2PA_copy_leaf hda' hd64']
    exact hds'
  refine ⟨hext.wf, hext.fresh (inv.fresh.pop hcons hagree), fun q hq => hrest (hext.pop_freelist hq),
    fun t ht => ?_, fun q hq => ?_, fun va hva => ?_, fun va hva va' hva' he => ?_,
    fun va hva h => ?_, fun u hu h₁ h₂ => ?_, by rw [hext.freed, Kmem.setMem_freed, inv.freed]⟩
  · -- new's page-table pages were page-table pages or free
    exact (hext.pop_tables hagree ht).elim (fun h => .inr (hrest h)) (inv.tables_sub t)
  · -- every page that was free is still free, a page-table page, or the page of a page
    rcases inv.used q hq with h | h | ⟨va, h₁, h₂⟩
    · rw [hcons] at h
      rcases List.mem_cons.1 h with rfl | h
      · exact .inr (.inr ⟨i, by simp only [PGSIZE]; omega, by
          rw [hnew i hiM le_rfl (by simp only [PGSIZE]; omega), PTE2PA_copy_leaf hda hd64]⟩)
      · exact (hext.pop_rest h).imp_right .inl
    · exact .inr (.inl (hext.pop_mem_tables hagree h))
    · exact .inr (.inr ⟨va, by omega, by rw [hold va (by omega) (.inl h₁)]; exact h₂⟩)
  · -- the pages below `i + PGSIZE` are mapped to pages holding old's pages
    by_cases hva' : i ≤ va
    · obtain ⟨hnt, hag⟩ := hext.pop_out hagree hda hdr (inv.fresh.fresh d hd)
      have hpa := inv.old_page hc hisz
      refine ⟨d, hnew va (by omega) hva' hva, hda, hd64, hd₀, fun h => hdr (hext.pop_freelist h), hnt,
        fun j hj => ?_⟩
      rw [hag j hj, memmove, if_pos ⟨by omega, by omega⟩, Nat.add_sub_cancel_left,
        hpa j hj, pte0_of_page (hpage va hva' hva)]
    · obtain ⟨d', h₁', hda', hd64', hd₀', hds', hdt', hz'⟩ := inv.copied va (by omega)
      have hd'r : d' ∉ rest := fun h => hds' (hcons ▸ List.mem_cons_of_mem _ h)
      obtain ⟨hnt, hag⟩ := hext.pop_out hagree hda' hd'r hdt'
      refine ⟨d', by rw [hold va (by omega) (.inl (by omega))]; exact h₁', hda', hd64', hd₀',
        fun h => hd'r (hext.pop_freelist h), hnt, fun j hj => ?_⟩
      have hdd : d' ≠ d := fun e => hds' (e ▸ hd)
      rw [hag j hj, memmove, if_neg (by simp only [PGSIZE] at hda hda' hj ⊢; omega)]
      exact hz' j hj
  · -- distinct pages
    have hpd : ∀ x < i + PGSIZE, i ≤ x → PTE2PA (pte0 s₂.mem new x) = d := fun x hx h₁ => by
      rw [hnew x (by omega) h₁ hx, PTE2PA_copy_leaf hda hd64]
    by_cases hv : i ≤ va <;> by_cases hv' : i ≤ va'
    · rw [hpage va hv hva, hpage va' hv' hva']
    · exact absurd (he ▸ hpd va hva hv ▸ hd) (hprev va' (by omega))
    · exact absurd (he.symm ▸ hpd va' hva' hv' ▸ hd) (hprev va (by omega))
    · rw [hold va (by omega) (.inl (by omega)), hold va' (by omega) (.inl (by omega))] at he
      exact inv.distinct va (by omega) va' (by omega) he
  · rw [hold va hva (.inr h)]
    exact inv.others va hva (by omega)
  · -- a page outside the free list and new's page-table pages keeps its bytes
    have hu₁ : u ∉ tables s.mem new := fun h => (inv.tables_sub u h).elim h₂ h₁
    have hmv : AgreeOn s.mem (memmove s.mem d (PTE2PA (pte0 s₀.mem old i)) PGSIZE) u :=
      agreeOn_memmove (o := 0) hda hu (fun e => h₁ (e ▸ hd₀)) (Nat.le_of_eq (Nat.zero_add _))
    exact (inv.frame u hu h₁ h₂).trans (hmv.trans
      (hext.pop_out hagree hu (fun h => h₁ (hrest h)) hu₁).2)

/-- The loop ends at `i ≥ sz`: `uvmcopy` returns 0. -/
theorem done (hc : CopyPre s₀ old new sz) (inv : CopyInv s₀ old new i s) (h : sz ≤ i)
    (hiN : i ≤ PGROUNDUP sz) : UvmcopyPost s₀ old new sz 0 s := by
  refine ⟨.inl rfl, inv.old_tables hc, fun va hva => inv.old_page hc hva, inv.wf,
    fun va hva h' => inv.others va hva (le_trans hiN h'),
    ⟨[], by rw [inv.freed, List.append_nil], fun _ h => absurd h (List.not_mem_nil _), fun _ => rfl⟩,
    fun _ va hva => ?_, fun _ va hva va' hva' => inv.distinct va (by omega) va' (by omega),
    fun h => absurd h (by decide), fun h => absurd h (by decide)⟩
  obtain ⟨d, h₁, -, -, hd, -, -, hz⟩ := inv.copied va (by omega)
  exact ⟨d, h₁, hd, hz⟩

end CopyInv

/-- What `err` needs at the page `i` of the loop, reached from `s₀` in `s`: `new` well formed,
its page-table pages page-table pages or free at the start, every page that was free still free,
a page-table page or the page of a page below `i`, those pages mapped with old's flags to pages
from the free list, no other level-0 PTE of `new` changed, no page outside the free list and
new's page-table pages changed, and only pages from the free list freed. -/
structure CopyUndo (s₀ : Kmem) (old new i : Nat) (s : Kmem) : Prop where
  wf : WellFormed s.mem new
  tables_sub : ∀ t ∈ tables s.mem new, t ∈ tables s₀.mem new ∨ t ∈ s₀.freelist
  used : ∀ q ∈ s₀.freelist, q ∈ s.freelist ∨ q ∈ tables s.mem new ∨
    ∃ va < i, PTE2PA (pte0 s.mem new va) = q
  copied : ∀ va < i, ∃ d,
    pte0 s.mem new va = PA2PTE d ||| PTE_FLAGS (pte0 s₀.mem old va) ||| PTE_V ∧
      d % PGSIZE = 0 ∧ d < 2 ^ 64 ∧ d ∈ s₀.freelist
  others : ∀ va < MAXVA, i ≤ va → pte0 s.mem new va = pte0 s₀.mem new va
  frame : ∀ u, u % PGSIZE = 0 → u ∉ s₀.freelist → u ∉ tables s₀.mem new → AgreeOn s₀.mem s.mem u
  freed : ∃ fr, s.freed = s₀.freed ++ fr ∧ ∀ q ∈ fr, q ∈ s₀.freelist

namespace CopyInv

variable {s₀ s s₂ : Kmem} {old new i d : Nat} {rest : List Nat}

/-- `kalloc` fails: the loop's state is ready for `err`. -/
theorem undo (inv : CopyInv s₀ old new i s) : CopyUndo s₀ old new i s :=
  ⟨inv.wf, inv.tables_sub, inv.used,
    fun va hva => (inv.copied va hva).imp fun _ hd => ⟨hd.1, hd.2.1, hd.2.2.1, hd.2.2.2.1⟩,
    inv.others, inv.frame, ⟨[], by rw [inv.freed, List.append_nil], fun _ h => absurd h (List.not_mem_nil _)⟩⟩

/-- `mappages` fails, and `d` goes back to `kfree`: the state is ready for `err`. -/
theorem undo_mapfail (inv : CopyInv s₀ old new i s) (hcons : s.freelist = d :: rest) {pa : Nat}
    (hg : Grows new ({ s with freelist := rest }.setMem (memmove s.mem d pa PGSIZE)) s₂) :
    CopyUndo s₀ old new i (s₂.kfree d) := by
  have hd : d ∈ s.freelist := hcons ▸ List.mem_cons_self _ _
  have hd₀ : d ∈ s₀.freelist := inv.sub d hd
  have hagree := inv.moved hd pa
  have hsame : ∀ va, pte0 s₂.mem new va = pte0 s.mem new va := fun va => by
    rw [hg.pte0, Kmem.setMem_mem, pte0_congr hagree]
  have hrest : ∀ {q}, q ∈ rest → q ∈ s₀.freelist := fun h =>
    inv.sub _ (hcons ▸ List.mem_cons_of_mem _ h)
  refine ⟨hg.wf, fun t ht => ?_, fun q hq => ?_, fun va hva => ?_, fun va hva h => ?_,
    fun u hu h₁ h₂ => ?_, ⟨[d], by rw [Kmem.kfree_freed, hg.freed, Kmem.setMem_freed, inv.freed],
      fun q hq => List.mem_singleton.1 hq ▸ hd₀⟩⟩
  · exact (hg.pop_tables hagree ht).elim (fun h => .inr (hrest h)) (inv.tables_sub t)
  · rw [Kmem.kfree_freelist, Kmem.kfree_mem]
    rcases inv.used q hq with h | h | ⟨va, h₁, h₂⟩
    · rw [hcons] at h
      rcases List.mem_cons.1 h with rfl | h
      · exact .inl (List.mem_cons_self _ _)
      · exact (hg.pop_rest h).imp (List.mem_cons_of_mem _) .inl
    · exact .inr (.inl (hg.pop_mem_tables hagree h))
    · exact .inr (.inr ⟨va, h₁, by rw [hsame]; exact h₂⟩)
  · rw [Kmem.kfree_mem, hsame]
    obtain ⟨d', h₁, h₂, h₃, h₄, -⟩ := inv.copied va hva
    exact ⟨d', h₁, h₂, h₃, h₄⟩
  · rw [Kmem.kfree_mem, hsame]
    exact inv.others va hva h
  · have hu₁ : u ∉ tables s.mem new := fun h => (inv.tables_sub u h).elim h₂ h₁
    have hmv : AgreeOn s.mem (memmove s.mem d pa PGSIZE) u :=
      agreeOn_memmove (o := 0) (inv.fresh.page d hd).1 hu (fun e => h₁ (e ▸ hd₀))
        (Nat.le_of_eq (Nat.zero_add _))
    exact (inv.frame u hu h₁ h₂).trans
      (hmv.trans (hg.pop_out hagree hu (fun h => h₁ (hrest h)) hu₁).2)

end CopyInv

/-- `err` at a page `i < sz` of the loop: `uvmunmap(new, 0, i / PGSIZE, 1)` unmaps and frees the
pages copied, and the -1 of `uvmcopy` satisfies `UvmcopyPost`. -/
theorem CopyUndo.err {s₀ s : Kmem} {old new sz i : Nat} (hc : CopyPre s₀ old new sz)
    (undo : CopyUndo s₀ old new i s) (hi : i % PGSIZE = 0) (hisz : i < sz) :
    ∃ s', uvmcopyErr s new i = .ok (-1, s') ∧ UvmcopyPost s₀ old new sz (-1) s' := by
  have hiM : i < MAXVA := lt_of_lt_of_le hisz hc.size
  have hup : PGROUNDUP sz = (sz + 4095) / 4096 * 4096 := PGROUNDUP_eq hc.size
  have hn : 0 + i / PGSIZE * PGSIZE = i := by simp only [PGSIZE] at hi ⊢; omega
  obtain ⟨s', hrun, hpost⟩ := @uvmunmap_spec s new 0 (i / PGSIZE) true undo.wf (Nat.zero_mod _)
    (by rw [hn]; exact hiM.le) fun k hk => by
      have hk' : 0 + k * PGSIZE < i := by simp only [PGSIZE] at hi hk ⊢; omega
      obtain ⟨d, h₁, -⟩ := undo.copied _ hk'
      rw [h₁]
      exact copy_leaf (hc.old_wf.pte0_leaf (hc.old_mapped _ (by omega)))
  have hcl := hpost.cleared
  simp only [hn] at hcl
  -- pages outside the free list and new's page-table pages keep their bytes
  have hkeep : ∀ u, u % PGSIZE = 0 → u ∉ s₀.freelist → u ∉ tables s₀.mem new →
      AgreeOn s₀.mem s'.mem u := fun u hu h₁ h₂ =>
    (undo.frame u hu h₁ h₂).trans (hpost.frame u hu fun h => (undo.tables_sub u h).elim h₂ h₁)
  -- the pages `uvmunmap` freed are those `kalloc` handed out
  have hleaf : ∀ q ∈ leafPages s.mem new 0 (i / PGSIZE), q ∈ s₀.freelist := fun q hq => by
    obtain ⟨k, hk, rfl⟩ := List.mem_map.1 hq
    have hk := List.mem_range.1 hk
    obtain ⟨d, h₁, hda, hd64, hd⟩ :=
      undo.copied (0 + k * PGSIZE) (by simp only [PGSIZE] at hi hk ⊢; omega)
    rwa [h₁, PTE2PA_copy_leaf hda hd64]
  obtain ⟨fr, hfr, hfr'⟩ := undo.freed
  refine ⟨s', by rw [uvmcopyErr, hrun], .inr rfl, fun t ht => hkeep t
      (hc.old_wf.aligned_of_mem ht) (fun h => (hc.free_apart t h).1 ht) fun h => hc.tables_apart t h ht,
    fun va hva => hkeep _ PTE2PA_aligned (fun h => (hc.free_apart _ h).2 va hva rfl)
      (hc.pages_apart va hva), hpost.wf, fun va hva h => ?_,
    ⟨fr ++ leafPages s.mem new 0 (i / PGSIZE), by rw [hpost.freed, hfr, if_pos rfl,
      List.append_assoc], fun q hq => (List.mem_append.1 hq).elim (hfr' q) (hleaf q),
      fun h => absurd h (by decide)⟩,
    fun h => absurd h (by decide), fun h => absurd h (by decide), fun _ va hva => ?_, fun _ q hq => ?_⟩
  · rw [hcl va hva, if_neg (by rw [hup] at h; omega)]
    exact undo.others va hva (by omega)
  · rw [hcl va hva]
    split_ifs with h
    · exact .inr rfl
    · exact .inl (undo.others va hva (by omega))
  · rw [hpost.freelist, if_pos rfl, hpost.tables_eq]
    rcases undo.used q hq with h | h | ⟨va, h₁, h₂⟩
    · exact .inl (List.mem_append_right _ h)
    · exact .inr h
    · refine .inl (List.mem_append_left _ (List.mem_reverse.2 (List.mem_map.2
        ⟨va / PGSIZE, List.mem_range.2 (by simp only [PGSIZE] at hi h₁ ⊢; omega), ?_⟩)))
      rw [pte0_of_page (show (0 + va / PGSIZE * PGSIZE) / PGSIZE = va / PGSIZE by
        simp only [PGSIZE]; omega)]
      exact h₂

/-- The loop of `uvmcopy` from the page `i`, in the state `s` it reached from `s₀`, returns, and
what it returns satisfies `UvmcopyPost`. -/
theorem uvmcopyLoop_spec {s₀ s : Kmem} {old new sz i : Nat} (hc : CopyPre s₀ old new sz)
    (inv : CopyInv s₀ old new i s) (hi : i % PGSIZE = 0) (hiN : i ≤ PGROUNDUP sz) :
    ∃ r s', uvmcopyLoop s old new sz i = .ok (r, s') ∧ UvmcopyPost s₀ old new sz r s' := by
  obtain ⟨n, hn⟩ : ∃ n, sz - i = n := ⟨_, rfl⟩
  induction n using Nat.strong_induction_on generalizing s i with
  | _ n ih =>
  by_cases hisz : i < sz
  swap
  · exact ⟨0, s, uvmcopyLoop_done hisz, inv.done hc (Nat.not_lt.1 hisz) hiN⟩
  have hup : PGROUNDUP sz = (sz + 4095) / 4096 * 4096 := PGROUNDUP_eq hc.size
  have hiM : i < MAXVA := lt_of_lt_of_le hisz hc.size
  obtain ⟨p, hp, hp0, hread⟩ := inv.old_pte hc hisz
  have hv : read64 s.mem p % 2 = 1 := hread ▸ hc.old_mapped i hisz
  rcases hcons : s.freelist with _ | ⟨d, rest⟩
  · -- `kalloc` fails: `err`
    obtain ⟨s', hrun, hpost⟩ := inv.undo.err hc hi hisz
    exact ⟨-1, s', by rw [uvmcopyLoop_oom hisz hiM hp hp0 hv hcons]; exact hrun, hpost⟩
  have hd : d ∈ s.freelist := hcons ▸ List.mem_cons_self _ _
  obtain ⟨-, hd0, hd64⟩ := inv.fresh.page d hd
  have hagree := inv.moved hd (PTE2PA (pte0 s₀.mem old i))
  have hpte₁ : pte0 (memmove s.mem d (PTE2PA (pte0 s₀.mem old i)) PGSIZE) new = pte0 s.mem new :=
    funext fun _ => pte0_congr hagree
  rcases mappages_one (s := { s with freelist := rest }.setMem
      (memmove s.mem d (PTE2PA (pte0 s₀.mem old i)) PGSIZE))
    (inv.wf.congr hagree) (inv.fresh.pop hcons hagree) hi hiM
    (show PTE_FLAGS (pte0 s₀.mem old i) < 1024 from Nat.mod_lt _ (by decide))
    (by rw [← and_flags (show PTE_RWX < 1024 by decide)]
        exact hc.old_wf.pte0_leaf (hc.old_mapped i hisz)) hd64
    (by rw [Kmem.setMem_mem, hpte₁, inv.others i hiM le_rfl]; exact hc.new_unmapped i hisz)
    with ⟨s₂, hm, hg, -⟩ | ⟨s₂, hm, hext, hpte⟩
  · -- `mappages` fails: `kfree(mem)`, then `err`
    obtain ⟨s', hrun, hpost⟩ := (inv.undo_mapfail hcons hg).err hc hi hisz
    refine ⟨-1, s', ?_, hpost⟩
    rw [uvmcopyLoop_mapfail hisz hiM hp hp0 hv hcons hd0 (by rw [hread]; exact hm)]
    exact hrun
  · -- the page `i` copied: the next turn
    obtain ⟨r, s', hrun, hpost⟩ := ih (sz - (i + 4096)) (by omega)
      (inv.next hc hcons hi hisz hext fun va hva => by rw [hpte va hva, Kmem.setMem_mem, hpte₁])
      (by simp only [PGSIZE] at hi ⊢; omega) (by simp only [PGSIZE] at hi ⊢; omega) rfl
    refine ⟨r, s', ?_, hpost⟩
    rw [uvmcopyLoop_next hisz hiM hp hp0 hv hcons hd0 (by rw [hread]; exact hm)]
    exact hrun

/-- `uvmcopy(old, new, sz)` from `CopyPre` returns as `UvmcopyPost` says, 0 with every page
below `sz` copied or -1 with the copies undone; old's tree and pages are untouched. -/
theorem uvmcopy_correct {s : Kmem} {old new sz : Nat} (hc : CopyPre s old new sz) :
    ∃ r s', uvmcopy s old new sz = .ok (r, s') ∧ UvmcopyPost s old new sz r s' :=
  uvmcopyLoop_spec hc (CopyInv.start hc) (Nat.zero_mod _) (Nat.zero_le _)

/-- Copying the one page of `twoPages (userLeaf 16384) 0` into an empty tree at 24576. -/
theorem uvmcopy_correct_fork :
    CopyPre ⟨twoPages (userLeaf 16384) 0, [28672, 32768, 36864], []⟩ 4096 24576 4096 ∧
    ∃ r s', uvmcopy ⟨twoPages (userLeaf 16384) 0, [28672, 32768, 36864], []⟩ 4096 24576 4096 =
      .ok (r, s') ∧
      UvmcopyPost ⟨twoPages (userLeaf 16384) 0, [28672, 32768, 36864], []⟩ 4096 24576 4096 r s' := by
  obtain ⟨hw, ht⟩ := twoPages_wf (userLeaf 16384) 0 (by decide) (by decide) (by decide) (by decide)
  have hz : ∀ j < PGSIZE, twoPages (userLeaf 16384) 0 (24576 + j) = 0 := fun _ _ =>
    twoPages_high (by omega)
  have hpage : ∀ va < 4096, pte0 (twoPages (userLeaf 16384) 0) 4096 va = userLeaf 16384 :=
    fun va hva => by
      rw [pte0_of_page (show va / PGSIZE = 0 / PGSIZE by simp only [PGSIZE]; omega)]
      decide
  have hfree : ∀ q ∈ [28672, 32768, 36864], q ∉ tables (twoPages (userLeaf 16384) 0) 4096 ∧
      q ≠ 16384 ∧ q ≠ 24576 := fun q hq => by
    rw [ht.mem_iff]
    simp only [List.mem_cons, List.mem_singleton, List.not_mem_nil, or_false] at hq ⊢
    omega
  have hc : CopyPre ⟨twoPages (userLeaf 16384) 0, [28672, 32768, 36864], []⟩ 4096 24576 4096 :=
    ⟨by decide, hw, fun va hva => by rw [hpage va hva]; decide,
      WellFormed.of_zero (by decide) (by decide) hz,
      ⟨by decide, by decide, fun q hq => by
        rw [tables_of_zero hz, List.mem_singleton]
        exact (hfree q hq).2.2⟩,
      fun va _ => by rw [pte0_of_zero hz],
      fun t h => by
        rw [tables_of_zero hz, List.mem_singleton] at h
        rw [h, ht.mem_iff]
        decide,
      fun va hva => by rw [hpage va hva, tables_of_zero hz]; decide,
      fun q hq => ⟨(hfree q hq).1, fun va hva => by
        rw [hpage va hva, show PTE2PA (userLeaf 16384) = 16384 by decide]
        exact (hfree q hq).2.1.symm⟩⟩
  exact ⟨hc, uvmcopy_correct hc⟩

/-- Two runs of `uvmcopy` that go wrong: where old's page 0 is new's root, the copy overwrites
it; where old's PTE for the page 0 has no permission bit, the undo panics in `uvmunmap`. -/
theorem uvmcopy_overwrites_old_or_panics :
    (WellFormed (twoPages (userLeaf 24576) 0) 4096 ∧ WellFormed (twoPages (userLeaf 24576) 0) 24576 ∧
    (∀ t ∈ tables (twoPages (userLeaf 24576) 0) 24576,
      t ∉ tables (twoPages (userLeaf 24576) 0) 4096) ∧
    (∀ va < 4096, pte0 (twoPages (userLeaf 24576) 0) 4096 va % 2 = 1) ∧
    (∀ va < 4096, pte0 (twoPages (userLeaf 24576) 0) 24576 va % 2 = 0) ∧
    Fresh 24576 ⟨twoPages (userLeaf 24576) 0, [28672, 32768, 36864], []⟩ ∧
    PTE2PA (pte0 (twoPages (userLeaf 24576) 0) 4096 0) = 24576 ∧
    ∃ r s', uvmcopy ⟨twoPages (userLeaf 24576) 0, [28672, 32768, 36864], []⟩ 4096 24576 4096 =
      .ok (r, s') ∧ ¬ AgreeOn (twoPages (userLeaf 24576) 0) s'.mem 24576) ∧
    (¬ WellFormed (twoPages (PA2PTE 16384 ||| PTE_V) (userLeaf 20480)) 4096 ∧
    (∀ va < 8192, pte0 (twoPages (PA2PTE 16384 ||| PTE_V) (userLeaf 20480)) 4096 va % 2 = 1) ∧
    WellFormed (twoPages (PA2PTE 16384 ||| PTE_V) (userLeaf 20480)) 24576 ∧
    (∀ va < 8192, pte0 (twoPages (PA2PTE 16384 ||| PTE_V) (userLeaf 20480)) 24576 va % 2 = 0) ∧
    (∀ t ∈ tables (twoPages (PA2PTE 16384 ||| PTE_V) (userLeaf 20480)) 24576,
      t ∉ tables (twoPages (PA2PTE 16384 ||| PTE_V) (userLeaf 20480)) 4096) ∧
    Fresh 24576 ⟨twoPages (PA2PTE 16384 ||| PTE_V) (userLeaf 20480), [28672, 32768, 36864], []⟩ ∧
    uvmcopy ⟨twoPages (PA2PTE 16384 ||| PTE_V) (userLeaf 20480), [28672, 32768, 36864], []⟩
      4096 24576 8192 = .error "uvmunmap: not a leaf") := by
  refine ⟨?_, ?_⟩
  · obtain ⟨hw, ht⟩ := twoPages_wf (userLeaf 24576) 0 (by decide) (by decide) (by decide) (by decide)
    have hz : ∀ j < PGSIZE, twoPages (userLeaf 24576) 0 (24576 + j) = 0 := fun _ _ =>
      twoPages_high (by omega)
    have hwn := WellFormed.of_zero (by decide) (by decide) hz
    have hf : Fresh 24576 ⟨twoPages (userLeaf 24576) 0, [28672, 32768, 36864], []⟩ :=
      ⟨by decide, by decide, fun q hq => by
        rw [tables_of_zero hz, List.mem_singleton]
        simp only [List.mem_cons, List.mem_singleton, List.not_mem_nil, or_false] at hq
        omega⟩
    -- a memory that holds the zeroed root 24576 holds the empty tree there
    have hroot : ∀ m : Mem, AgreeOn (twoPages (userLeaf 24576) 0) m 24576 →
        tables m 24576 = [24576] ∧ ∀ va, pte0 m 24576 va = 0 := fun m hag => by
      have hz' : ∀ j < PGSIZE, m (24576 + j) = 0 := fun j hj => (hag j hj).trans (hz j hj)
      exact ⟨tables_of_zero hz', fun _ => pte0_of_zero hz'⟩
    refine ⟨hw, hwn, fun t h => ?_, fun va hva => ?_, fun va _ => by rw [pte0_of_zero hz], hf,
      by decide, ?_⟩
    · rw [tables_of_zero hz, List.mem_singleton] at h
      rw [h, ht.mem_iff]
      decide
    · rw [pte0_of_page (show va / PGSIZE = 0 / PGSIZE by simp only [PGSIZE]; omega)]
      decide
    -- `walk(old, 0, 0)`, the page 28672 from `kalloc`, and the copy of old's page into it
    have hp : ptePtr (twoPages (userLeaf 24576) 0) 4096 0 = some 12288 := by decide
    have hagree : ∀ u ∈ tables (twoPages (userLeaf 24576) 0) 24576,
        AgreeOn (twoPages (userLeaf 24576) 0) (memmove (twoPages (userLeaf 24576) 0) 28672
          (PTE2PA (read64 (twoPages (userLeaf 24576) 0) 12288)) PGSIZE) u := fun u hu => by
      rw [tables_of_zero hz, List.mem_singleton] at hu
      rw [hu]
      exact agreeOn_memmove (o := 0) (by decide) (by decide) (by decide) (Nat.le_of_eq (Nat.zero_add _))
    rcases @mappages_one ({ (⟨twoPages (userLeaf 24576) 0, [28672, 32768, 36864], []⟩ : Kmem) with
        freelist := [32768, 36864] }.setMem (memmove (twoPages (userLeaf 24576) 0) 28672
          (PTE2PA (read64 (twoPages (userLeaf 24576) 0) 12288)) PGSIZE)) 24576 0 28672
        (PTE_FLAGS (read64 (twoPages (userLeaf 24576) 0) 12288))
        (hwn.congr hagree) (hf.pop rfl hagree) (by decide) (by decide) (by decide) (by decide)
        (by decide) (by rw [Kmem.setMem_mem, pte0_congr hagree, pte0_of_zero hz])
      with ⟨s₂, hm, hg, hnil⟩ | ⟨s₂, hm, hext, hpte⟩
    · -- `mappages` fails: `walk` has linked 32768 into the root, and `err` unmaps nothing
      obtain ⟨s', hrun, hpost⟩ := @uvmunmap_spec (s₂.kfree 28672) 24576 0 0 true hg.wf
        (by decide) (by decide) fun _ h => absurd h (Nat.not_lt_zero _)
      refine ⟨-1, s', ?_, fun hag => ?_⟩
      · rw [uvmcopy, uvmcopyLoop_mapfail (s := ⟨twoPages (userLeaf 24576) 0, [28672, 32768, 36864], []⟩)
          (show 0 < 4096 by decide) (by decide) hp (by decide) (by decide) rfl (by decide) hm,
          uvmcopyErr, show 0 / PGSIZE = 0 from rfl, hrun]
      · obtain ⟨l, hl, hperm⟩ := hg.taken
        simp only [Kmem.setMem_freelist, hnil, List.append_nil] at hl
        have h32 : 32768 ∈ tables s'.mem 24576 := by
          rw [hpost.tables_eq, Kmem.kfree_mem]
          exact hperm.mem_iff.2 (List.mem_append_left _ (hl ▸ List.mem_cons_self _ _))
        rw [(hroot _ hag).1] at h32
        exact absurd h32 (by decide)
    · -- `mappages` maps the page 0: the root 24576 now leads to its leaf
      refine ⟨0, s₂, ?_, fun hag => ?_⟩
      · rw [uvmcopy, uvmcopyLoop_next (s := ⟨twoPages (userLeaf 24576) 0, [28672, 32768, 36864], []⟩)
          (show 0 < 4096 by decide) (by decide) hp (by decide) (by decide) rfl (by decide) hm,
          uvmcopyLoop_done (by decide)]
      · have h0 := hpte 0 (by decide)
        rw [(hroot _ hag).2, remapped_one (by decide), if_pos rfl] at h0
        have hv := @leaf_valid 28672 _
          (show PTE_FLAGS (read64 (twoPages (userLeaf 24576) 0) 12288) < 1024 by decide)
        rw [← h0] at hv
        exact absurd hv (by decide)
  · have hz : ∀ j < PGSIZE, twoPages (PA2PTE 16384 ||| PTE_V) (userLeaf 20480) (24576 + j) = 0 :=
      fun _ _ => twoPages_high (by omega)
    have ht := twoPages_tables (PA2PTE 16384 ||| PTE_V) (userLeaf 20480)
    refine ⟨fun hw => absurd (hw.pte0_leaf
      (show pte0 (twoPages (PA2PTE 16384 ||| PTE_V) (userLeaf 20480)) 4096 0 % 2 = 1 by decide))
      (by decide), fun va hva => ?_,
      WellFormed.of_zero (by decide) (by decide) hz, fun va _ => by rw [pte0_of_zero hz],
      fun t h => ?_, ⟨by decide, by decide, fun q hq => ?_⟩, ?_⟩
    · -- the pages 0 and 4096 are both valid
      rcases Nat.lt_or_ge va 4096 with h | h
      · rw [pte0_of_page (show va / PGSIZE = 0 / PGSIZE by simp only [PGSIZE]; omega)]
        decide
      · rw [pte0_of_page (show va / PGSIZE = 4096 / PGSIZE by simp only [PGSIZE]; omega)]
        decide
    · rw [tables_of_zero hz, List.mem_singleton] at h
      rw [h, ht.mem_iff]
      decide
    · rw [tables_of_zero hz, List.mem_singleton]
      simp only [List.mem_cons, List.mem_singleton, List.not_mem_nil, or_false] at hq
      omega
    -- the page 0: `kalloc` hands out 28672, and `walk` links 32768 and 36864 below new's root
    have hwalk : walk ({ (⟨twoPages (PA2PTE 16384 ||| PTE_V) (userLeaf 20480), [28672, 32768, 36864],
        []⟩ : Kmem) with freelist := [32768, 36864] }.setMem
          (memmove (twoPages (PA2PTE 16384 ||| PTE_V) (userLeaf 20480)) 28672 16384 PGSIZE))
        24576 0 true = .ok (36864, ⟨link (link (memmove (twoPages (PA2PTE 16384 ||| PTE_V)
          (userLeaf 20480)) 28672 16384 PGSIZE) 24576 32768) 32768 36864, [], []⟩) := rfl
    obtain ⟨s₃, hs₃⟩ : ∃ s₃ : Kmem, s₃ = ⟨write64 (link (link (memmove (twoPages (PA2PTE 16384 ||| PTE_V)
        (userLeaf 20480)) 28672 16384 PGSIZE) 24576 32768) 32768 36864) 36864
        (PA2PTE 28672 ||| PTE_V ||| PTE_V), [], []⟩ := ⟨_, rfl⟩
    have hm : mappages ({ (⟨twoPages (PA2PTE 16384 ||| PTE_V) (userLeaf 20480),
        [28672, 32768, 36864], []⟩ : Kmem) with freelist := [32768, 36864] }.setMem
          (memmove (twoPages (PA2PTE 16384 ||| PTE_V) (userLeaf 20480)) 28672 16384 PGSIZE))
        24576 0 PGSIZE 28672 PTE_V = .ok (0, s₃) := by
      rw [mappages_page_eq (by decide) (by decide), mappagesLoop_step hwalk (by decide) (by decide),
        hs₃]
      rfl
    -- the page 4096: `kalloc` has nothing left, and `err` finds the PTE of the page 0 no leaf
    rw [uvmcopy, uvmcopyLoop_next (p := 12288) (show 0 < 8192 by decide) (by decide) (by decide)
        (by decide) (by decide) rfl (by decide) hm,
      uvmcopyLoop_oom (s := s₃) (show 0 + PGSIZE < 8192 by decide) (by decide)
        (show ptePtr s₃.mem 4096 (0 + PGSIZE) = some 12296 by rw [hs₃]; decide) (by decide)
        (by rw [hs₃]; decide) (by rw [hs₃]),
      uvmcopyErr, uvmunmap, if_neg (by decide), uvmunmapLoop_notLeaf (by decide)
        (walk_of_ptePtr (by decide) (show ptePtr s₃.mem 24576 0 = some 36864 by rw [hs₃]; decide) false)
        (by decide) (by rw [hs₃]; decide) (by rw [hs₃]; decide)]

end BufCache.Vm
