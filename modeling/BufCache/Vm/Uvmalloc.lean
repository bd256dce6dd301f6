import BufCache.Vm.Mappages
import BufCache.Vm.Unmap

/-!
# `uvmalloc`

`uvmalloc(pagetable, oldsz, newsz)` (lines 199-220) grows a process from `oldsz` to `newsz`: from
`PGROUNDUP(oldsz)` on, one page at a time below `newsz`, it takes a page from `kalloc`, zeroes it
and maps it with `PTE_W | PTE_X | PTE_R | PTE_U`. When `kalloc` or `mappages` fails it frees the
page it holds and undoes the pages mapped so far with `uvmdealloc(pagetable, a, oldsz)`, and
returns 0.

The loop keeps `AllocInv`: what it has mapped, with what, and where every page it took from the
free list went. `uvmalloc_correct` says what a call does on a well-formed tree with no page of the
range mapped and fresh pages for `kalloc`; with three free pages per page of the range, one for
the page and at most two for `walk`, it returns `newsz` (`uvmalloc_enough`). The undo clears the
PTEs it had written, so a PTE of the range that was invalid but not 0 comes back as 0:
`uvmalloc_clears_invalid_pte`. Shrinking back with `uvmdealloc` after a growth that succeeded
restores every level-0 PTE, those of the range as 0, and frees each page the growth took for the
range once (`uvmalloc_uvmdealloc`).
-/

namespace BufCache.Vm

/-- The loop of `uvmalloc` (lines 206-218) from the page `a`, with `oldsz` already rounded up. -/
def uvmallocLoop (s : Kmem) (pagetable oldsz newsz a : Nat) : Except String (Nat × Kmem) :=
  if _h : a < newsz then
    let (mem, s) := s.kalloc
    if mem = 0 then
      match uvmdealloc s pagetable a oldsz with
      | .error e => .error e
      | .ok (_, s) => .ok (0, s)
    else
      let s := s.setMem (memset s.mem mem 0 PGSIZE)
      match mappages s pagetable a PGSIZE mem (PTE_W ||| PTE_X ||| PTE_R ||| PTE_U) with
      | .error e => .error e
      | .ok (r, s) =>
        if r ≠ 0 then
          match uvmdealloc (s.kfree mem) pagetable a oldsz with
          | .error e => .error e
          | .ok (_, s) => .ok (0, s)
        else uvmallocLoop s pagetable oldsz newsz (a + PGSIZE)
  else .ok (newsz, s)
termination_by newsz - a
decreasing_by simp only [PGSIZE]; omega

/-- `uvmalloc(pagetable, oldsz, newsz)` (lines 199-220). -/
def uvmalloc (s : Kmem) (pagetable oldsz newsz : Nat) : Except String (Nat × Kmem) :=
  if newsz < oldsz then .ok (oldsz, s)
  else uvmallocLoop s pagetable (PGROUNDUP oldsz) newsz (PGROUNDUP oldsz)

section Turns

variable {s s₂ s' : Kmem} {pt o newsz a d x : Nat} {rest : List Nat}

theorem uvmallocLoop_done (h : ¬ a < newsz) : uvmallocLoop s pt o newsz a = .ok (newsz, s) := by
  rw [uvmallocLoop, dif_neg h]

/-- `kalloc` fails at the page `a`: `uvmdealloc` undoes the pages mapped so far. -/
theorem uvmallocLoop_oom (h : a < newsz) (hnil : s.freelist = [])
    (hd : uvmdealloc s pt a o = .ok (x, s')) : uvmallocLoop s pt o newsz a = .ok (0, s') := by
  rw [uvmallocLoop, dif_pos h]
  simp only [Kmem.kalloc_nil hnil, if_true, hd]

/-- `mappages` fails at the page `a`: the page `d` goes back to `kfree`, then `uvmdealloc`. -/
theorem uvmallocLoop_mapfail (h : a < newsz) (hcons : s.freelist = d :: rest) (hd0 : d ≠ 0)
    (hm : mappages ({ s with freelist := rest }.setMem (memset s.mem d 0 PGSIZE)) pt a PGSIZE d
      (PTE_W ||| PTE_X ||| PTE_R ||| PTE_U) = .ok (-1, s₂))
    (hd : uvmdealloc (s₂.kfree d) pt a o = .ok (x, s')) :
    uvmallocLoop s pt o newsz a = .ok (0, s') := by
  rw [uvmallocLoop, dif_pos h]
  simp only [Kmem.kalloc_cons hcons, hd0, if_false, hm, ne_eq, Int.reduceNeg, Int.reduceEq,
    not_false_eq_true, if_true, hd]

/-- The page `a` mapped to the page `d` from `kalloc`: the loop goes on at `a + PGSIZE`. -/
theorem uvmallocLoop_next (h : a < newsz) (hcons : s.freelist = d :: rest) (hd0 : d ≠ 0)
    (hm : mappages ({ s with freelist := rest }.setMem (memset s.mem d 0 PGSIZE)) pt a PGSIZE d
      (PTE_W ||| PTE_X ||| PTE_R ||| PTE_U) = .ok (0, s₂)) :
    uvmallocLoop s pt o newsz a = uvmallocLoop s₂ pt o newsz (a + PGSIZE) := by
  rw [uvmallocLoop, dif_pos h]
  simp only [Kmem.kalloc_cons hcons, hd0, if_false, hm, ne_eq, not_true_eq_false]

/-- `mappages` panics at the page `a`, and the loop with it. -/
theorem uvmallocLoop_panic {e : String} (h : a < newsz) (hcons : s.freelist = d :: rest)
    (hd0 : d ≠ 0)
    (hm : mappages ({ s with freelist := rest }.setMem (memset s.mem d 0 PGSIZE)) pt a PGSIZE d
      (PTE_W ||| PTE_X ||| PTE_R ||| PTE_U) = .error e) :
    uvmallocLoop s pt o newsz a = .error e := by
  rw [uvmallocLoop, dif_pos h]
  simp only [Kmem.kalloc_cons hcons, hd0, if_false, hm]

end Turns

/-- The leaf `uvmalloc` writes for a page mapped to `d`. -/
theorem uvm_leaf_flags (d : Nat) :
    PTE_FLAGS (PA2PTE d ||| (PTE_W ||| PTE_X ||| PTE_R ||| PTE_U) ||| PTE_V) ≠ PTE_V := by
  rw [PTE_FLAGS_leaf (by decide)]
  decide

/-- What the loop of `uvmalloc` has done from `s₀` when it reaches the page `a` in `s`, from the
page `o`: the tree is well formed, the free list is a part of the first one and fresh, every page
that was free is still free, a page-table page or the page of a page of `[o, a)`, and those
pages are mapped by leaves `PTE_W | PTE_X | PTE_R | PTE_U | PTE_V` to distinct zeroed pages
`kalloc` handed out, which are not page-table pages. No other level-0 PTE changed and nothing was
freed. -/
structure AllocInv (s₀ : Kmem) (pt o a : Nat) (s : Kmem) : Prop where
  wf : WellFormed s.mem pt
  fresh : Fresh pt s
  sub : ∀ q ∈ s.freelist, q ∈ s₀.freelist
  used : ∀ q ∈ s₀.freelist, q ∈ s.freelist ∨ q ∈ tables s.mem pt ∨
    ∃ va, o ≤ va ∧ va < a ∧ PTE2PA (pte0 s.mem pt va) = q
  mapped : ∀ va < MAXVA, o ≤ va → va < a →
    ∃ d, pte0 s.mem pt va = PA2PTE d ||| (PTE_W ||| PTE_X ||| PTE_R ||| PTE_U) ||| PTE_V ∧
      d % PGSIZE = 0 ∧ d < 2 ^ 64 ∧ d ∈ s₀.freelist ∧ d ∉ s.freelist ∧ d ∉ tables s.mem pt ∧
      ∀ j < PGSIZE, s.mem (d + j) = 0
  distinct : ∀ va < MAXVA, ∀ va' < MAXVA, o ≤ va → va < a → o ≤ va' → va' < a →
    PTE2PA (pte0 s.mem pt va) = PTE2PA (pte0 s.mem pt va') → va / PGSIZE = va' / PGSIZE
  others : ∀ va < MAXVA, (va < o ∨ a ≤ va) → pte0 s.mem pt va = pte0 s₀.mem pt va
  freed : s.freed = s₀.freed

/-- What `uvmalloc` started in `s` leaves when it returns `r` in `s'`, for the pages from `o`,
`PGROUNDUP(oldsz)`, below `newsz`: `newsz` or 0, the tree well formed, no level-0 PTE outside the
range changed, and only pages from `kalloc` freed. On `newsz`, every page of the range mapped by
a leaf `PTE_W | PTE_X | PTE_R | PTE_U | PTE_V` to its own zeroed page from the free list, and
nothing freed. On 0, every level-0 PTE as it was or 0, and every page that was free is free
again or a page-table page. -/
structure UvmallocPost (s : Kmem) (pt o newsz r : Nat) (s' : Kmem) : Prop where
  result : r = newsz ∨ r = 0
  wf : WellFormed s'.mem pt
  others : ∀ va < MAXVA, (va < o ∨ PGROUNDUP newsz ≤ va) → pte0 s'.mem pt va = pte0 s.mem pt va
  freed : ∃ fr, s'.freed = s.freed ++ fr ∧ (∀ q ∈ fr, q ∈ s.freelist) ∧ (r = newsz → fr = [])
  mapped : r = newsz → ∀ va < MAXVA, o ≤ va → va < newsz →
    ∃ d, pte0 s'.mem pt va = PA2PTE d ||| (PTE_W ||| PTE_X ||| PTE_R ||| PTE_U) ||| PTE_V ∧
      d ∈ s.freelist ∧ ∀ j < PGSIZE, s'.mem (d + j) = 0
  distinct : r = newsz → ∀ va < MAXVA, ∀ va' < MAXVA, o ≤ va → va < newsz → o ≤ va' →
    va' < newsz → PTE2PA (pte0 s'.mem pt va) = PTE2PA (pte0 s'.mem pt va') →
    va / PGSIZE = va' / PGSIZE
  restored : r = 0 → ∀ va < MAXVA, pte0 s'.mem pt va = pte0 s.mem pt va ∨ pte0 s'.mem pt va = 0
  reclaimed : r = 0 → ∀ q ∈ s.freelist, q ∈ s'.freelist ∨ q ∈ tables s'.mem pt

theorem PTE2PA_uvm_leaf {d : Nat} (hd : d % PGSIZE = 0) (hd' : d < 2 ^ 64) :
    PTE2PA (PA2PTE d ||| (PTE_W ||| PTE_X ||| PTE_R ||| PTE_U) ||| PTE_V) = d := by
  rw [PTE2PA_leaf (by decide) hd']
  simp only [PGROUNDDOWN, PGSIZE] at *
  omega

namespace AllocInv

variable {s₀ s s₂ : Kmem} {pt o a d : Nat} {rest : List Nat}

theorem start (hw : WellFormed s.mem pt) (hf : Fresh pt s) (o : Nat) : AllocInv s pt o o s :=
  ⟨hw, hf, fun _ h => h, fun _ h => .inl h, fun _ _ h₁ h₂ => absurd h₂ (by omega),
    fun _ _ _ _ h₁ h₂ => absurd h₂ (by omega), fun _ _ _ => rfl, rfl⟩

/-- The page `d` from `kalloc` zeroed: the tree is what it was, and what is left is fresh. -/
theorem zeroed (inv : AllocInv s₀ pt o a s) (hcons : s.freelist = d :: rest) :
    (∀ u ∈ tables s.mem pt, AgreeOn s.mem (memset s.mem d 0 PGSIZE) u) ∧
    Fresh pt ({ s with freelist := rest }.setMem (memset s.mem d 0 PGSIZE)) := by
  have hd : d ∈ s.freelist := hcons ▸ List.mem_cons_self _ _
  have hagree : ∀ u ∈ tables s.mem pt, AgreeOn s.mem (memset s.mem d 0 PGSIZE) u := fun u hu =>
    agreeOn_memset (inv.fresh.page d hd).1 (inv.wf.aligned_of_mem hu) fun e =>
      inv.fresh.fresh d hd (e ▸ hu)
  exact ⟨hagree, inv.fresh.pop hcons hagree⟩

/-- One turn of the loop: the page `a` mapped to the page `d` that `kalloc` handed out. -/
theorem next (inv : AllocInv s₀ pt o a s) (hcons : s.freelist = d :: rest) (hoa : o ≤ a)
    (ha : a % PGSIZE = 0) (haM : a < MAXVA)
    (hext : Extends pt ({ s with freelist := rest }.setMem (memset s.mem d 0 PGSIZE)) s₂)
    (hpte : ∀ va < MAXVA, pte0 s₂.mem pt va =
      remapped (pte0 s.mem pt) a (a + PGSIZE) d (PTE_W ||| PTE_X ||| PTE_R ||| PTE_U) va) :
    AllocInv s₀ pt o (a + PGSIZE) s₂ := by
  obtain ⟨hagree, hf₁⟩ := inv.zeroed hcons
  have hd : d ∈ s.freelist := hcons ▸ List.mem_cons_self _ _
  obtain ⟨hda, -, hd64⟩ := inv.fresh.page d hd
  have hdr : d ∉ rest := by
    have hn := inv.fresh.nodup
    rw [hcons, List.nodup_cons] at hn
    exact hn.1
  -- a page outside the page `a` keeps its PTE, the page `a` is mapped to `d`
  have hold : ∀ va < MAXVA, (va < a ∨ a + PGSIZE ≤ va) → pte0 s₂.mem pt va = pte0 s.mem pt va :=
    fun va hva h => by
      rw [hpte va hva, remapped_one ha, if_neg (by simp only [PGSIZE] at ha h ⊢; omega)]
  have hnew : ∀ va < MAXVA, a ≤ va → va < a + PGSIZE →
      pte0 s₂.mem pt va = PA2PTE d ||| (PTE_W ||| PTE_X ||| PTE_R ||| PTE_U) ||| PTE_V :=
    fun va hva h₁ h₂ => by
      rw [hpte va hva, remapped_one ha, if_pos (by simp only [PGSIZE] at ha h₁ h₂ ⊢; omega)]
  -- the pages of `[o, a)` are mapped to pages off the free list
  have hprev : ∀ va < MAXVA, o ≤ va → va < a → PTE2PA (pte0 s₂.mem pt va) ∉ s.freelist :=
    fun va hva h₁ h₂ => by
      obtain ⟨d', h₁', hda', hd64', -, hds', -⟩ := inv.mapped va hva h₁ h₂
      rw [hold va hva (.inl h₂), h₁', PTE2PA_uvm_leaf hda' hd64']
      exact hds'
  refine ⟨hext.wf, hext.fresh hf₁,
    fun q hq => inv.sub q (hcons ▸ List.mem_cons_of_mem _ (hext.pop_freelist hq)),
    fun q hq => ?_, fun va hva h₁ h₂ => ?_, fun va hva va' hva' h₁ h₂ h₁' h₂' he => ?_,
    fun va hva h => ?_, by rw [hext.freed, Kmem.setMem_freed, inv.freed]⟩
  · -- every page that was free is still free, a page-table page, or the page of a page
    rcases inv.used q hq with h | h | ⟨va, h₁, h₂, h₃⟩
    · rw [hcons] at h
      rcases List.mem_cons.1 h with rfl | h
      · exact .inr (.inr ⟨a, hoa, by simp only [PGSIZE]; omega, by
          rw [hnew a haM le_rfl (by simp only [PGSIZE]; omega), PTE2PA_uvm_leaf hda hd64]⟩)
      · exact (hext.pop_rest h).imp_right .inl
    · exact .inr (.inl (hext.pop_mem_tables hagree h))
    · exact .inr (.inr ⟨va, h₁, by omega, by rw [hold va (by omega) (.inl h₂)]; exact h₃⟩)
  · -- the pages of `[o, a + PGSIZE)` are mapped to zeroed pages off the free list
    by_cases hva' : a ≤ va
    · obtain ⟨hnt, hag⟩ := hext.pop_out hagree hda hdr (inv.fresh.fresh d hd)
      refine ⟨d, hnew va hva hva' h₂, hda, hd64, inv.sub d hd, fun h => hdr (hext.pop_freelist h), hnt,
        fun j hj => ?_⟩
      rw [hag j hj, memset, if_pos ⟨by omega, by omega⟩]
    · obtain ⟨d', h₁', hda', hd64', hd₀', hds', hdt', hz'⟩ := inv.mapped va hva h₁ (by omega)
      have hd'r : d' ∉ rest := fun h => hds' (hcons ▸ List.mem_cons_of_mem _ h)
      have hdd : d' ≠ d := fun e => hds' (e ▸ hd)
      obtain ⟨hnt, hag⟩ := hext.pop_out hagree hda' hd'r hdt'
      refine ⟨d', by rw [hold va hva (.inl (by omega))]; exact h₁', hda', hd64', hd₀',
        fun h => hd'r (hext.pop_freelist h), hnt, fun j hj => ?_⟩
      rw [hag j hj, memset, if_neg (by simp only [PGSIZE] at hda hda' hj ⊢; omega)]
      exact hz' j hj
  · -- distinct pages
    have hpd : ∀ x < MAXVA, a ≤ x → x < a + PGSIZE → PTE2PA (pte0 s₂.mem pt x) = d :=
      fun x hx h₁ h₂ => by rw [hnew x hx h₁ h₂, PTE2PA_uvm_leaf hda hd64]
    by_cases hv : a ≤ va <;> by_cases hv' : a ≤ va'
    · simp only [PGSIZE] at ha h₂ h₂' ⊢
      omega
    · exact absurd (he ▸ hpd va hva hv h₂ ▸ hd) (hprev va' hva' h₁' (by omega))
    · exact absurd (he.symm ▸ hpd va' hva' hv' h₂' ▸ hd) (hprev va hva h₁ (by omega))
    · rw [hold va hva (.inl (by omega)), hold va' hva' (.inl (by omega))] at he
      exact inv.distinct va hva va' hva' h₁ (by omega) h₁' (by omega) he
  · rw [hold va hva (by omega)]
    exact inv.others va hva (by omega)

/-- The loop ends at `a ≥ newsz`: `uvmalloc` returns `newsz`. -/
theorem done (inv : AllocInv s₀ pt o a s) {newsz : Nat} (h : newsz ≤ a) (haN : a ≤ PGROUNDUP newsz) :
    UvmallocPost s₀ pt o newsz newsz s := by
  refine ⟨.inl rfl, inv.wf, fun va hva h' => inv.others va hva (h'.imp_right (le_trans haN)),
    ⟨[], by rw [inv.freed, List.append_nil], fun _ h => absurd h (List.not_mem_nil _), fun _ => rfl⟩,
    fun _ va hva h₁ h₂ => ?_, fun _ va hva va' hva' h₁ h₂ h₁' h₂' =>
      inv.distinct va hva va' hva' h₁ (by omega) h₁' (by omega), fun h0 va hva => ?_,
    fun h0 q hq => ?_⟩
  · obtain ⟨d, h₁, -, -, hd, -, -, hz⟩ := inv.mapped va hva h₁ (by omega)
    exact ⟨d, h₁, hd, hz⟩
  -- `newsz = 0`: the loop did not start
  all_goals subst h0; have ha0 : a = 0 := Nat.le_zero.1 haN
  · exact .inl (inv.others va hva (.inr (by omega)))
  · rcases inv.used q hq with h | h | ⟨va, h₁, h₂, -⟩
    · exact .inl h
    · exact .inr h
    · omega

end AllocInv

section Loop

variable {s₀ s : Kmem} {pt o newsz a : Nat}

theorem PGROUNDUP_aligned {sz : Nat} : PGROUNDUP sz % PGSIZE = 0 := by
  simp [PGROUNDUP, PGSIZE]

/-- The undo at the page `a`: `uvmdealloc(pagetable, a, oldsz)` after the pages `[o, a)` were
mapped returns, and `uvmalloc`'s 0 satisfies `UvmallocPost`. -/
theorem rollback (hw : WellFormed s.mem pt) (ho : o % PGSIZE = 0) (ha : a % PGSIZE = 0)
    (hoa : o ≤ a) (haN : a ≤ PGROUNDUP newsz) (hN : newsz ≤ MAXVA) (hnz : newsz ≠ 0)
    (hmapped : ∀ va < MAXVA, o ≤ va → va < a →
      ∃ d, pte0 s.mem pt va = PA2PTE d ||| (PTE_W ||| PTE_X ||| PTE_R ||| PTE_U) ||| PTE_V ∧
        d % PGSIZE = 0 ∧ d < 2 ^ 64 ∧ d ∈ s₀.freelist)
    (hothers : ∀ va < MAXVA, (va < o ∨ a ≤ va) → pte0 s.mem pt va = pte0 s₀.mem pt va)
    (hused : ∀ q ∈ s₀.freelist, q ∈ s.freelist ∨ q ∈ tables s.mem pt ∨
      ∃ va, o ≤ va ∧ va < a ∧ PTE2PA (pte0 s.mem pt va) = q)
    (hfreed : ∃ fr, s.freed = s₀.freed ++ fr ∧ ∀ q ∈ fr, q ∈ s₀.freelist) :
    ∃ x s', uvmdealloc s pt a o = .ok (x, s') ∧ UvmallocPost s₀ pt o newsz 0 s' := by
  have hP : PGSIZE = 4096 := rfl
  have haM : a ≤ MAXVA := by
    rw [PGROUNDUP_eq hN] at haN
    simp only [PGSIZE, MAXVA] at haN hN ⊢
    omega
  obtain ⟨fr, hfr, hfr'⟩ := hfreed
  rcases Nat.lt_or_ge o a with hlt | hge
  swap
  · -- nothing was mapped
    have hoa' : o = a := le_antisymm hoa hge
    subst hoa'
    refine ⟨o, s, by rw [uvmdealloc, if_pos le_rfl], .inr rfl, hw, fun va hva h => hothers va hva
      (h.imp_right (le_trans haN)), ⟨fr, hfr, hfr', fun h => absurd h.symm hnz⟩,
      fun h => absurd h.symm hnz, fun h => absurd h.symm hnz,
      fun _ va hva => .inl (hothers va hva (by omega)), fun _ q hq => ?_⟩
    rcases hused q hq with h | h | ⟨va, h₁, h₂, -⟩
    · exact .inl h
    · exact .inr h
    · omega
  -- undo the pages `[o, a)`
  have hupo : PGROUNDUP o = o := by
    rw [PGROUNDUP_eq (by omega)]
    simp only [PGSIZE] at ho ⊢
    omega
  have hupa : PGROUNDUP a = a := by
    rw [PGROUNDUP_eq haM]
    simp only [PGSIZE] at ha ⊢
    omega
  have hn : o + (a - o) / PGSIZE * PGSIZE = a := by
    simp only [PGSIZE] at ho ha ⊢
    omega
  obtain ⟨s', hrun, hpost⟩ := uvmdealloc_spec hw hlt haM fun i hi => by
    rw [hupo, hupa] at hi
    rw [hupo]
    obtain ⟨d, h₁, -⟩ := hmapped (o + i * PGSIZE) (by simp only [PGSIZE, MAXVA] at hi haM ⊢; omega)
      (by omega) (by simp only [PGSIZE] at hi ⊢; omega)
    rw [h₁]
    exact ⟨leaf_valid (by decide), uvm_leaf_flags d⟩
  rw [hupo, hupa] at hpost
  have hcl := hpost.cleared
  simp only [hn] at hcl
  -- the pages `uvmunmap` freed are those `kalloc` handed out for `[o, a)`
  have hleaf : ∀ q ∈ leafPages s.mem pt o ((a - o) / PGSIZE), q ∈ s₀.freelist := fun q hq => by
    obtain ⟨i, hi, rfl⟩ := List.mem_map.1 hq
    have hi := List.mem_range.1 hi
    obtain ⟨d, h₁, hda, hd64, hd⟩ := hmapped (o + i * PGSIZE)
      (by simp only [PGSIZE, MAXVA] at hi haM ⊢; omega) (by omega) (by simp only [PGSIZE] at hi ⊢; omega)
    rwa [h₁, PTE2PA_uvm_leaf hda hd64]
  refine ⟨o, s', hrun, .inr rfl, hpost.wf, fun va hva h => ?_,
    ⟨fr ++ leafPages s.mem pt o ((a - o) / PGSIZE), by rw [hpost.freed, hfr, if_pos rfl,
      List.append_assoc], fun q hq => (List.mem_append.1 hq).elim (hfr' q) (hleaf q),
      fun h => absurd h.symm hnz⟩,
    fun h => absurd h.symm hnz, fun h => absurd h.symm hnz, fun _ va hva => ?_, fun _ q hq => ?_⟩
  · rw [hcl va hva, if_neg (by omega)]
    exact hothers va hva (by omega)
  · rw [hcl va hva]
    split_ifs with h
    · exact .inr rfl
    · exact .inl (hothers va hva (by omega))
  · rw [hpost.freelist, if_pos rfl, hpost.tables_eq]
    rcases hused q hq with h | h | ⟨va, h₁, h₂, h₃⟩
    · exact .inl (List.mem_append_right _ h)
    · exact .inr h
    · refine .inl (List.mem_append_left _ (List.mem_reverse.2 (List.mem_map.2
        ⟨(va - o) / PGSIZE, List.mem_range.2 (by simp only [PGSIZE] at ho ha ⊢; omega), ?_⟩)))
      rw [pte0_of_page (show (o + (va - o) / PGSIZE * PGSIZE) / PGSIZE = va / PGSIZE by
        simp only [PGSIZE] at ho ⊢; omega)]
      exact h₃

/-- The loop of `uvmalloc` from the page `a`, reached from `s₀` with no page of the range
valid: it returns, and what it returns satisfies `UvmallocPost`. -/
theorem uvmallocLoop_spec (ho : o % PGSIZE = 0) (hN : newsz ≤ MAXVA)
    (hinv : ∀ va < MAXVA, o ≤ va → va < PGROUNDUP newsz → pte0 s₀.mem pt va % 2 = 0)
    (inv : AllocInv s₀ pt o a s) (ha : a % PGSIZE = 0) (hoa : o ≤ a)
    (haN : a ≤ PGROUNDUP newsz) :
    ∃ r s', uvmallocLoop s pt o newsz a = .ok (r, s') ∧ UvmallocPost s₀ pt o newsz r s' := by
  obtain ⟨n, hn⟩ : ∃ n, newsz - a = n := ⟨_, rfl⟩
  induction n using Nat.strong_induction_on generalizing s a with
  | _ n ih =>
  by_cases hlt : a < newsz
  swap
  · exact ⟨newsz, s, uvmallocLoop_done hlt, inv.done (Nat.not_lt.1 hlt) haN⟩
  have hup : PGROUNDUP newsz = (newsz + 4095) / 4096 * 4096 := PGROUNDUP_eq hN
  have hP : PGSIZE = 4096 := rfl
  rw [hP] at ho ha
  have haM : a < MAXVA := by omega
  have hmapped : ∀ va < MAXVA, o ≤ va → va < a → ∃ d,
      pte0 s.mem pt va = PA2PTE d ||| (PTE_W ||| PTE_X ||| PTE_R ||| PTE_U) ||| PTE_V ∧
        d % PGSIZE = 0 ∧ d < 2 ^ 64 ∧ d ∈ s₀.freelist := fun va hva h₁ h₂ =>
    (inv.mapped va hva h₁ h₂).imp fun _ hd => ⟨hd.1, hd.2.1, hd.2.2.1, hd.2.2.2.1⟩
  rcases hcons : s.freelist with _ | ⟨d, rest⟩
  · -- `kalloc` fails: undo
    obtain ⟨x, s', hd, hpost⟩ := rollback inv.wf ho ha hoa haN hN (by omega) hmapped inv.others
      inv.used ⟨[], by rw [inv.freed, List.append_nil], fun _ h => absurd h (List.not_mem_nil _)⟩
    exact ⟨0, s', uvmallocLoop_oom hlt hcons hd, hpost⟩
  obtain ⟨hagree, hf₁⟩ := inv.zeroed hcons
  have hd : d ∈ s.freelist := hcons ▸ List.mem_cons_self _ _
  obtain ⟨-, hd0, hd64⟩ := inv.fresh.page d hd
  have hpte₁ : pte0 (memset s.mem d 0 PGSIZE) pt = pte0 s.mem pt := funext fun _ => pte0_congr hagree
  rcases mappages_one (s := { s with freelist := rest }.setMem (memset s.mem d 0 PGSIZE))
    (inv.wf.congr hagree) hf₁ ha haM (show PTE_W ||| PTE_X ||| PTE_R ||| PTE_U < 1024 by decide)
    (by decide) hd64
    (by rw [Kmem.setMem_mem, hpte₁, inv.others a haM (.inr le_rfl)]; exact hinv a haM hoa (by omega))
    with ⟨s₂, hm, hg, -⟩ | ⟨s₂, hm, hext, hpte⟩
  · -- `mappages` fails: `kfree(mem)`, then undo
    have hsame : ∀ va, pte0 s₂.mem pt va = pte0 s.mem pt va := fun va => by
      rw [hg.pte0, Kmem.setMem_mem, hpte₁]
    obtain ⟨x, s', hd', hpost⟩ := rollback (s := s₂.kfree d) hg.wf ho ha hoa haN hN (by omega)
      (fun va hva h₁ h₂ => by rw [Kmem.kfree_mem, hsame]; exact hmapped va hva h₁ h₂)
      (fun va hva h => by rw [Kmem.kfree_mem, hsame]; exact inv.others va hva h)
      (fun q hq => by
        rw [Kmem.kfree_freelist, Kmem.kfree_mem]
        rcases inv.used q hq with h | h | ⟨va, h₁, h₂, h₃⟩
        · rw [hcons] at h
          rcases List.mem_cons.1 h with rfl | h
          · exact .inl (List.mem_cons_self _ _)
          · exact (hg.pop_rest h).imp (List.mem_cons_of_mem _) .inl
        · exact .inr (.inl (hg.pop_mem_tables hagree h))
        · exact .inr (.inr ⟨va, h₁, h₂, by rw [hsame]; exact h₃⟩))
      ⟨[d], by rw [Kmem.kfree_freed, hg.freed, Kmem.setMem_freed, inv.freed],
        fun q hq => List.mem_singleton.1 hq ▸ inv.sub d hd⟩
    exact ⟨0, s', uvmallocLoop_mapfail hlt hcons hd0 hm hd', hpost⟩
  · -- the page `a` mapped: the next turn
    obtain ⟨r, s', hrun, hpost⟩ := ih (newsz - (a + 4096)) (by omega)
      (inv.next hcons hoa ha haM hext fun va hva => by rw [hpte va hva, Kmem.setMem_mem, hpte₁])
      (by simp only [PGSIZE]; omega) (by omega) (by simp only [PGSIZE]; omega) rfl
    exact ⟨r, s', by rw [uvmallocLoop_next hlt hcons hd0 hm]; exact hrun, hpost⟩

/-- With three free pages for each page left, one for the page and two for `walk`, the loop of
`uvmalloc` does not run out: it returns `newsz`. -/
theorem uvmallocLoop_enough (hN : newsz ≤ MAXVA)
    (hinv : ∀ va < MAXVA, o ≤ va → va < PGROUNDUP newsz → pte0 s₀.mem pt va % 2 = 0)
    (inv : AllocInv s₀ pt o a s) (ha : a % PGSIZE = 0) (hoa : o ≤ a)
    (hlen : 3 * ((newsz - a + PGSIZE - 1) / PGSIZE) ≤ s.freelist.length) :
    ∃ s', uvmallocLoop s pt o newsz a = .ok (newsz, s') := by
  obtain ⟨n, hn⟩ : ∃ n, newsz - a = n := ⟨_, rfl⟩
  induction n using Nat.strong_induction_on generalizing s a with
  | _ n ih =>
  by_cases hlt : a < newsz
  swap
  · exact ⟨s, uvmallocLoop_done hlt⟩
  have hup : PGROUNDUP newsz = (newsz + 4095) / 4096 * 4096 := PGROUNDUP_eq hN
  have hP : PGSIZE = 4096 := rfl
  rw [hP] at ha hlen
  have haM : a < MAXVA := by omega
  obtain ⟨d, rest, hcons⟩ : ∃ d rest, s.freelist = d :: rest := by
    cases h : s.freelist with
    | nil => rw [h, List.length_nil] at hlen; omega
    | cons d rest => exact ⟨d, rest, rfl⟩
  rw [hcons, List.length_cons] at hlen
  obtain ⟨hagree, hf₁⟩ := inv.zeroed hcons
  obtain ⟨-, hd0, hd64⟩ := inv.fresh.page d (hcons ▸ List.mem_cons_self _ _)
  have hpte₁ : pte0 (memset s.mem d 0 PGSIZE) pt = pte0 s.mem pt := funext fun _ => pte0_congr hagree
  -- two pages are left for `walk`, so the page `a` is mapped
  obtain ⟨s₂, hm, hext, hpte, hl₂⟩ := mappages_one_of_two
    (s := { s with freelist := rest }.setMem (memset s.mem d 0 PGSIZE)) (inv.wf.congr hagree) hf₁ ha
    haM (show PTE_W ||| PTE_X ||| PTE_R ||| PTE_U < 1024 by decide) (by decide) hd64
    (by rw [Kmem.setMem_mem, hpte₁, inv.others a haM (.inr le_rfl)]; exact hinv a haM hoa (by omega))
    (show 2 ≤ rest.length by omega)
  obtain ⟨s', hrun⟩ := ih (newsz - (a + 4096)) (by omega)
    (inv.next hcons hoa ha haM hext fun va hva => by rw [hpte va hva, Kmem.setMem_mem, hpte₁])
    (by simp only [PGSIZE]; omega) (by omega)
    (show 3 * ((newsz - (a + 4096) + 4096 - 1) / 4096) ≤ s₂.freelist.length by
      simp only [Kmem.setMem_freelist] at hl₂; omega) rfl
  exact ⟨s', by rw [uvmallocLoop_next hlt hcons hd0 hm]; exact hrun⟩

end Loop

/-- `uvmalloc(pagetable, oldsz, newsz)` with three free pages for each page it maps returns
`newsz`. -/
theorem uvmalloc_enough {s : Kmem} {pt oldsz newsz : Nat} (hw : WellFormed s.mem pt)
    (hf : Fresh pt s) (hlt : oldsz < newsz) (hN : newsz ≤ MAXVA)
    (hinv : ∀ va < MAXVA, PGROUNDUP oldsz ≤ va → va < PGROUNDUP newsz → pte0 s.mem pt va % 2 = 0)
    (hlen : 3 * ((PGROUNDUP newsz - PGROUNDUP oldsz) / PGSIZE) ≤ s.freelist.length) :
    ∃ s', uvmalloc s pt oldsz newsz = .ok (newsz, s') := by
  have hup := PGROUNDUP_eq hN
  have hup' := PGROUNDUP_eq (hlt.le.trans hN)
  rw [uvmalloc, if_neg (Nat.not_lt.2 hlt.le)]
  exact uvmallocLoop_enough hN hinv (AllocInv.start hw hf _) PGROUNDUP_aligned le_rfl
    (by rw [hup, hup'] at hlen; rw [hup']; simp only [PGSIZE] at hlen ⊢; omega)

/-- `uvmalloc(pagetable, oldsz, newsz)` on a range with no valid page: `newsz` with each page
mapped to its own zeroed page, or 0 with the range undone; no other level-0 PTE changes. -/
theorem uvmalloc_correct {s : Kmem} {pt oldsz newsz : Nat} (hw : WellFormed s.mem pt)
    (hf : Fresh pt s) (hlt : oldsz < newsz) (hN : newsz ≤ MAXVA)
    (hinv : ∀ va < MAXVA, PGROUNDUP oldsz ≤ va → va < PGROUNDUP newsz → pte0 s.mem pt va % 2 = 0) :
    ∃ r s', uvmalloc s pt oldsz newsz = .ok (r, s') ∧
      UvmallocPost s pt (PGROUNDUP oldsz) newsz r s' := by
  have hup := PGROUNDUP_eq hN
  have hup' := PGROUNDUP_eq (hlt.le.trans hN)
  rw [uvmalloc, if_neg (Nat.not_lt.2 hlt.le)]
  exact uvmallocLoop_spec PGROUNDUP_aligned hN hinv (AllocInv.start hw hf _) PGROUNDUP_aligned
    le_rfl (by rw [hup, hup']; simp only [PGSIZE]; omega)

/-- The root page at 4096 holding zeros, and three free pages: one for a user page, two for
`walk`. -/
def emptyRootThree : Kmem := ⟨fun _ => 0, [8192, 12288, 16384], []⟩

theorem emptyRootThree_wf : WellFormed emptyRootThree.mem 4096 := emptyRoot_wf

theorem emptyRootThree_fresh : Fresh 4096 emptyRootThree :=
  ⟨by decide, by decide, fun q hq => by
    rw [tables_of_zero fun _ _ => rfl]
    simp only [emptyRootThree, List.mem_cons, List.mem_singleton, List.not_mem_nil, or_false] at hq ⊢
    omega⟩

theorem emptyRootThree_unmapped :
    ∀ va < MAXVA, PGROUNDUP 0 ≤ va → va < PGROUNDUP 4096 → pte0 emptyRootThree.mem 4096 va % 2 = 0 :=
  fun _ _ _ _ => by rw [pte0_of_zero fun _ _ => rfl]

/-- Growing an empty tree from 0 to one page with three free pages: `uvmalloc` returns 4096. -/
theorem uvmalloc_correct_empty :
    WellFormed emptyRootThree.mem 4096 ∧ Fresh 4096 emptyRootThree ∧
    ∃ r s', uvmalloc emptyRootThree 4096 0 4096 = .ok (r, s') ∧ r = 4096 ∧
      UvmallocPost emptyRootThree 4096 (PGROUNDUP 0) 4096 r s' := by
  obtain ⟨r, s', h, hpost⟩ := uvmalloc_correct emptyRootThree_wf emptyRootThree_fresh (by decide)
    (by decide) emptyRootThree_unmapped
  obtain ⟨s₂, h₂⟩ := uvmalloc_enough emptyRootThree_wf emptyRootThree_fresh (by decide) (by decide)
    emptyRootThree_unmapped (by decide)
  rw [h₂] at h
  cases h
  exact ⟨emptyRootThree_wf, emptyRootThree_fresh, 4096, _, h₂, rfl, hpost⟩

/-- An invalid PTE 2 at the page 0: `uvmalloc` from 0 to 8192 with one free page returns 0
with it cleared to 0; and for `newsz = 2^64 - 1` the loop maps at `MAXVA`, where `walk` panics. -/
theorem uvmalloc_clears_invalid_pte :
    WellFormed (twoPages 2 0) 4096 ∧ Fresh 4096 ⟨twoPages 2 0, [16384], []⟩ ∧
    (∀ va < MAXVA, PGROUNDUP 0 ≤ va → va < PGROUNDUP 8192 → pte0 (twoPages 2 0) 4096 va % 2 = 0) ∧
    (∃ s', uvmalloc ⟨twoPages 2 0, [16384], []⟩ 4096 0 8192 = .ok (0, s') ∧
      pte0 s'.mem 4096 0 = 0 ∧ pte0 (twoPages 2 0) 4096 0 = 2) ∧
    PGROUNDUP (2 ^ 64 - 1) ≤ MAXVA ∧
    uvmalloc ⟨twoPages 2 0, [16384], []⟩ 4096 MAXVA (2 ^ 64 - 1) = .error "walk" := by
  obtain ⟨hw, ht⟩ := twoPages_wf 2 0 (by decide) (by decide) (by decide) (by decide)
  have hf : Fresh 4096 ⟨twoPages 2 0, [16384], []⟩ := ⟨by decide, by decide, fun q hq => by
    rw [List.mem_singleton.1 hq, ht.mem_iff]
    decide⟩
  -- the page 16384 from `kalloc`, zeroed: the tree is what it was
  obtain ⟨hagree, hf₁⟩ := (AllocInv.start hw hf 0).zeroed (show [16384] = [16384] from rfl)
  have hpte₁ : pte0 (memset (twoPages 2 0) 16384 0 PGSIZE) 4096 = pte0 (twoPages 2 0) 4096 :=
    funext fun _ => pte0_congr hagree
  refine ⟨hw, hf, fun va _ _ h => ?_, ?_, by decide, ?_⟩
  · -- the PTEs of the pages 0 and 4096 are 2 and 0
    rcases (show va / PGSIZE = 0 / PGSIZE ∨ va / PGSIZE = 4096 / PGSIZE by
      simp only [PGSIZE, show PGROUNDUP 8192 = 8192 from rfl] at h ⊢; omega) with h | h <;>
    rw [pte0_of_page h] <;> decide
  · -- the page 0 is mapped to 16384: its level-0 PTE is in the tree
    obtain ⟨s₂, hm, hext, hpte⟩ := @mappages_one_present
      ({ (⟨twoPages 2 0, [16384], []⟩ : Kmem) with freelist := [] }.setMem
        (memset (twoPages 2 0) 16384 0 PGSIZE)) 4096 0 16384 (PTE_W ||| PTE_X ||| PTE_R ||| PTE_U)
      12288 (hw.congr hagree) hf₁ (by decide) (by decide) (by decide) (by decide) (by decide)
      (by rw [Kmem.setMem_mem, hpte₁]; decide) (by decide)
    have hnil : s₂.freelist = [] := by
      obtain ⟨l, hl, -⟩ := hext.taken
      exact (List.append_eq_nil.1 (show [] = l ++ s₂.freelist from hl).symm).2
    -- out of memory at the page 4096: the undo unmaps the page 0
    obtain ⟨s', hd, hpost⟩ := uvmdealloc_spec hext.wf (show 0 < 4096 by decide)
      (show 4096 ≤ MAXVA by decide) fun i hi => by
        obtain rfl : i = 0 := by
          have : (PGROUNDUP 4096 - PGROUNDUP 0) / PGSIZE = 1 := rfl
          omega
        rw [hpte _ (by decide), remapped_one (by decide), if_pos (by decide)]
        exact ⟨leaf_valid (by decide), uvm_leaf_flags 16384⟩
    refine ⟨s', ?_, ?_, by decide⟩
    · rw [uvmalloc, if_neg (by decide), show PGROUNDUP 0 = 0 from rfl,
        uvmallocLoop_next (by decide) rfl (by decide) hm, show 0 + PGSIZE = 4096 from rfl,
        uvmallocLoop_oom (by decide) hnil hd]
    · rw [hpost.cleared 0 (by decide), if_pos (by decide)]
  · rw [uvmalloc, if_neg (by decide)]
    exact uvmallocLoop_panic (by decide) rfl (by decide) (mappagesLoop_panic (by decide))

/-- `uvmalloc` from `oldsz` to `newsz`, then `uvmdealloc` back: every level-0 PTE as before
but the range's, now 0, and `kfree` gets one distinct free-list page per page of the range. -/
theorem uvmalloc_uvmdealloc {s : Kmem} {pt oldsz newsz : Nat} (hw : WellFormed s.mem pt)
    (hf : Fresh pt s) (hlt : oldsz < newsz) (hN : newsz ≤ MAXVA)
    (hinv : ∀ va < MAXVA, PGROUNDUP oldsz ≤ va → va < PGROUNDUP newsz → pte0 s.mem pt va % 2 = 0) :
    ∃ r s₁, uvmalloc s pt oldsz newsz = .ok (r, s₁) ∧ (r = newsz ∨ r = 0) ∧
      (r = newsz → ∃ s₂ l, uvmdealloc s₁ pt newsz oldsz = .ok (oldsz, s₂) ∧
        (∀ va < MAXVA, pte0 s₂.mem pt va =
          if PGROUNDUP oldsz ≤ va ∧ va < PGROUNDUP newsz then 0 else pte0 s.mem pt va) ∧
        s₂.freed = s.freed ++ l ∧ s₂.freelist = l.reverse ++ s₁.freelist ∧
        tables s₂.mem pt = tables s₁.mem pt ∧ l.Nodup ∧
        l.length = (PGROUNDUP newsz - PGROUNDUP oldsz) / PGSIZE ∧ ∀ q ∈ l, q ∈ s.freelist) := by
  have hup := PGROUNDUP_eq hN
  have hup' := PGROUNDUP_eq (hlt.le.trans hN)
  obtain ⟨r, s₁, hrun, hpost⟩ : ∃ r s₁, uvmalloc s pt oldsz newsz = .ok (r, s₁) ∧
      UvmallocPost s pt (PGROUNDUP oldsz) newsz r s₁ := by
    rw [uvmalloc, if_neg (Nat.not_lt.2 hlt.le)]
    exact uvmallocLoop_spec PGROUNDUP_aligned hN hinv (AllocInv.start hw hf _) PGROUNDUP_aligned
      le_rfl (by rw [hup, hup']; simp only [PGSIZE]; omega)
  refine ⟨r, s₁, hrun, hpost.result, fun hr => ?_⟩
  obtain ⟨fr, hfr, -, hfr0⟩ := hpost.freed
  rw [hfr0 hr, List.append_nil] at hfr
  -- the `n` pages of the range, one after another from `PGROUNDUP(oldsz)`, all below `newsz`
  obtain ⟨n, hn⟩ : ∃ n, (PGROUNDUP newsz - PGROUNDUP oldsz) / PGSIZE = n := ⟨_, rfl⟩
  have hP : PGSIZE = 4096 := rfl
  have hend : PGROUNDUP oldsz + n * PGSIZE = PGROUNDUP newsz := by
    rw [← hn, hup, hup', hP]
    omega
  have hrange : ∀ i < n, PGROUNDUP oldsz + i * PGSIZE < newsz := fun i hi => by
    have h₁ : i * PGSIZE + PGSIZE ≤ n * PGSIZE := by rw [hP]; omega
    have h₂ : PGROUNDUP newsz < newsz + PGSIZE := by rw [hup, hP]; omega
    omega
  have hpage : ∀ i < n, ∃ d, pte0 s₁.mem pt (PGROUNDUP oldsz + i * PGSIZE) =
      PA2PTE d ||| (PTE_W ||| PTE_X ||| PTE_R ||| PTE_U) ||| PTE_V ∧ d ∈ s.freelist :=
    fun i hi => by
      obtain ⟨d, hd, hds, -⟩ := hpost.mapped hr _ (by have := hrange i hi; omega)
        (Nat.le_add_right _ _) (hrange i hi)
      exact ⟨d, hd, hds⟩
  obtain ⟨s₂, hd, hpost₂⟩ := uvmdealloc_spec hpost.wf hlt hN fun i hi => by
    obtain ⟨d, hd, -⟩ := hpage i (hn ▸ hi)
    rw [hd]
    exact ⟨leaf_valid (by decide), uvm_leaf_flags d⟩
  rw [hn] at hpost₂ ⊢
  refine ⟨s₂, leafPages s₁.mem pt (PGROUNDUP oldsz) n, hd, fun va hva => ?_,
    by rw [hpost₂.freed, hfr, if_pos rfl], by rw [hpost₂.freelist, if_pos rfl],
    hpost₂.tables_eq, ?_, by simp [leafPages], fun q hq => ?_⟩
  · rw [hpost₂.cleared va hva, hend]
    split_ifs with h
    · rfl
    · exact hpost.others va hva (by omega)
  · -- distinct pages of the range map distinct pages
    refine (List.nodup_range n).map_on fun i hi j hj hij => ?_
    replace hi := hrange i (List.mem_range.1 hi)
    replace hj := hrange j (List.mem_range.1 hj)
    have h := hpost.distinct hr _ (by omega) _ (by omega) (Nat.le_add_right _ _) hi
      (Nat.le_add_right _ _) hj hij
    rwa [Nat.add_mul_div_right _ _ (by decide), Nat.add_mul_div_right _ _ (by decide),
      Nat.add_left_cancel_iff] at h
  · obtain ⟨i, hi, rfl⟩ := List.mem_map.1 hq
    obtain ⟨d, hd', hds⟩ := hpage i (List.mem_range.1 hi)
    obtain ⟨hda, -, hd64⟩ := hf.page d hds
    rw [hd', PTE2PA_uvm_leaf hda hd64]
    exact hds

/-- Growing the empty tree from 0 to one page with three free pages, which returns 4096, and
shrinking it back. -/
theorem uvmalloc_uvmdealloc_empty :
    WellFormed emptyRootThree.mem 4096 ∧ Fresh 4096 emptyRootThree ∧ 0 < 4096 ∧ 4096 ≤ MAXVA ∧
    (∀ va < MAXVA, PGROUNDUP 0 ≤ va → va < PGROUNDUP 4096 →
      pte0 emptyRootThree.mem 4096 va % 2 = 0) ∧
    ∃ r s₁, uvmalloc emptyRootThree 4096 0 4096 = .ok (r, s₁) ∧ r = 4096 ∧ (r = 4096 ∨ r = 0) ∧
      (r = 4096 → ∃ s₂ l, uvmdealloc s₁ 4096 4096 0 = .ok (0, s₂) ∧
        (∀ va < MAXVA, pte0 s₂.mem 4096 va =
          if PGROUNDUP 0 ≤ va ∧ va < PGROUNDUP 4096 then 0 else pte0 emptyRootThree.mem 4096 va) ∧
        s₂.freed = emptyRootThree.freed ++ l ∧ s₂.freelist = l.reverse ++ s₁.freelist ∧
        tables s₂.mem 4096 = tables s₁.mem 4096 ∧ l.Nodup ∧
        l.length = (PGROUNDUP 4096 - PGROUNDUP 0) / PGSIZE ∧
        ∀ q ∈ l, q ∈ emptyRootThree.freelist) := by
  obtain ⟨r, s₁, h, hr, hback⟩ := uvmalloc_uvmdealloc emptyRootThree_wf emptyRootThree_fresh
    (by decide) (by decide) emptyRootThree_unmapped
  obtain ⟨s₂, h₂⟩ := uvmalloc_enough emptyRootThree_wf emptyRootThree_fresh (by decide) (by decide)
    emptyRootThree_unmapped (by decide)
  rw [h₂] at h
  cases h
  exact ⟨emptyRootThree_wf, emptyRootThree_fresh, by decide, by decide, emptyRootThree_unmapped, 4096,
    _, h₂, rfl, hr, hback⟩

end BufCache.Vm
