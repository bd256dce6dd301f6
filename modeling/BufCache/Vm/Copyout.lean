import BufCache.Vm.Walk

/-!
# `walkaddr` and `copyout`

`copyout(pagetable, dstva, src, len)` (lines 312-328) copies `len` bytes from the kernel address
`src`, which the kernel maps one to one and so is a physical address here, to the user address
`dstva`, a page at a time: `walkaddr` gives the physical page of each user page, or 0, and then
`copyout` returns -1.

`copyout` writes into the pages the tree maps, and it reads the tree again for every page. A
well-formed tree does not keep a leaf from mapping one of its own page-table pages, so a copy
into such a page rewrites the tree it is reading. `copyout_correct` therefore asks that the user
pages of the range are not page-table pages; then `copyout` returns 0 exactly when every byte
of the range is in a user page, copies every byte to where its address translates to, and
changes no byte outside those pages. `copyout_rewrites_tree` is a tree where the first page
maps the level-0 page: the copy into it unmaps the second page.
-/

namespace BufCache.Vm

/-- `walkaddr(pagetable, va)` (lines 89-101): the physical page of the user page of `va`, or 0. -/
def walkaddr (s : Kmem) (pagetable va : Nat) : Except String Nat :=
  if MAXVA ≤ va then .ok 0
  else
    match walk s pagetable va false with
    | .error e => .error e
    | .ok (pte, _) =>
      if pte = 0 then .ok 0
      else if read64 s.mem pte &&& PTE_V = 0 then .ok 0
      else if read64 s.mem pte &&& PTE_U = 0 then .ok 0
      else .ok (PTE2PA (read64 s.mem pte))

/-- The page `walkaddr` finds for `va`, read from the tree: the physical page of a valid leaf with
`PTE_U` below `MAXVA`, or 0. -/
def userPA (m : Mem) (pt va : Nat) : Nat :=
  if va < MAXVA ∧ pte0 m pt va % 2 = 1 ∧ pte0 m pt va &&& PTE_U ≠ 0 then PTE2PA (pte0 m pt va)
  else 0

/-- `copyout(pagetable, dstva, src, len)` (lines 312-328). -/
def copyout (s : Kmem) (pagetable dstva src len : Nat) : Except String (Int × Kmem) :=
  if _h : 0 < len then
    let va0 := PGROUNDDOWN dstva
    match walkaddr s pagetable va0 with
    | .error e => .error e
    | .ok pa0 =>
      if pa0 = 0 then .ok (-1, s)
      else
        let n := min (PGSIZE - (dstva - va0)) len
        copyout (s.setMem (memmove s.mem (pa0 + (dstva - va0)) src n)) pagetable (va0 + PGSIZE)
          (src + n) (len - n)
  else .ok (0, s)
termination_by len
decreasing_by simp only [PGROUNDDOWN, PGSIZE]; omega

section UserPA

variable {m m' : Mem} {pt va va' : Nat}

theorem userPA_of_page (h : va / PGSIZE = va' / PGSIZE) : userPA m pt va = userPA m pt va' := by
  have hM : va < MAXVA ↔ va' < MAXVA := by simp only [MAXVA, PGSIZE] at *; omega
  simp only [userPA, pte0_of_page h, hM]

theorem userPA_aligned : userPA m pt va % PGSIZE = 0 := by
  unfold userPA
  split_ifs
  · exact PTE2PA_aligned
  · rfl

theorem userPA_congr (h : ∀ u ∈ tables m pt, AgreeOn m m' u) : userPA m' pt va = userPA m pt va := by
  simp only [userPA, pte0_congr h]

/-- On a well-formed tree `walkaddr` never panics, and it finds `userPA`. -/
theorem walkaddr_eq {s : Kmem} (hw : WellFormed s.mem pt) :
    walkaddr s pt va = .ok (userPA s.mem pt va) := by
  unfold walkaddr userPA
  by_cases hva : MAXVA ≤ va
  · rw [if_pos hva, if_neg fun h => Nat.not_le.2 h.1 hva]
  rw [if_neg hva, walk_noalloc (Nat.not_le.1 hva)]
  cases hp : ptePtr s.mem pt va with
  | none => simp [pte0, hp]
  | some p =>
    simp only [Option.getD_some, hw.slot_ne_zero hp, if_false, and_PTE_V, pte0, hp,
      Option.map_some', Nat.not_le.1 hva, true_and]
    by_cases hv : read64 s.mem p % 2 = 0
    · simp [hv]
    · by_cases hu : read64 s.mem p &&& PTE_U = 0 <;> simp_all

end UserPA

section Copyout

variable {s : Kmem} {pt dstva src len pa0 : Nat}

theorem copyout_zero : copyout s pt dstva src 0 = .ok (0, s) := by
  rw [copyout, dif_neg (Nat.lt_irrefl 0)]

/-- One turn of the loop, once `walkaddr` has returned `pa0` for the page of `dstva`. -/
theorem copyout_of_walkaddr (hl : 0 < len) (hpa : walkaddr s pt (PGROUNDDOWN dstva) = .ok pa0) :
    copyout s pt dstva src len =
      if pa0 = 0 then .ok (-1, s)
      else
        let n := min (PGSIZE - (dstva - PGROUNDDOWN dstva)) len
        copyout (s.setMem (memmove s.mem (pa0 + (dstva - PGROUNDDOWN dstva)) src n)) pt
          (PGROUNDDOWN dstva + PGSIZE) (src + n) (len - n) := by
  rw [copyout, dif_pos hl]
  simp only [hpa]

/-- What `copyout` started in `s` leaves when it returns `r` in `s'`: 0 or -1, and 0 exactly
when every byte of the destination is in a user page; then, if those pages are distinct physical
pages apart from the source, every byte was copied to where its address translates to, and
no byte outside those pages changed. -/
structure CopyoutPost (s : Kmem) (pt dstva src len : Nat) (r : Int) (s' : Kmem) : Prop where
  result : r = 0 ∨ r = -1
  ok_iff : r = 0 ↔ ∀ k < len, userPA s.mem pt (dstva + k) ≠ 0
  copied : r = 0 →
    (∀ j < len, ∀ k < len, userPA s.mem pt (dstva + j) = userPA s.mem pt (dstva + k) →
      PGROUNDDOWN (dstva + j) = PGROUNDDOWN (dstva + k)) →
    (∀ j < len, ∀ k < len, PGROUNDDOWN (src + j) ≠ userPA s.mem pt (dstva + k)) →
    ∀ k < len, s'.mem (userPA s.mem pt (dstva + k) + (dstva + k) % PGSIZE) = s.mem (src + k)
  frame : r = 0 → ∀ x, (∀ k < len, PGROUNDDOWN x ≠ userPA s.mem pt (dstva + k)) →
    s'.mem x = s.mem x

section Chunk

variable {n k : Nat} (hn : n = min (PGSIZE - (dstva - PGROUNDDOWN dstva)) len)
include hn

/-- The bytes of the first chunk are in the page of `dstva`, at their offset from it. -/
theorem offset_of_chunk (hk : k < n) : (dstva + k) % PGSIZE = dstva - PGROUNDDOWN dstva + k := by
  simp only [PGROUNDDOWN, PGSIZE] at *
  omega

theorem page_of_chunk (hk : k < n) : (dstva + k) / PGSIZE = PGROUNDDOWN dstva / PGSIZE := by
  simp only [PGROUNDDOWN, PGSIZE] at *
  omega

/-- The bytes after the first chunk start at the next page. -/
theorem after_chunk (hk : k < len - n) : dstva + (n + k) = PGROUNDDOWN dstva + PGSIZE + k := by
  simp only [PGROUNDDOWN, PGSIZE] at *
  omega

end Chunk

/-- `copyout` on a well-formed tree whose user pages in the range are not page-table pages: it
returns, and `CopyoutPost` holds. -/
theorem copyout_correct (hw : WellFormed s.mem pt)
    (htab : ∀ k < len, userPA s.mem pt (dstva + k) ∉ tables s.mem pt) :
    ∃ r s', copyout s pt dstva src len = .ok (r, s') ∧ CopyoutPost s pt dstva src len r s' := by
  induction len using Nat.strong_induction_on generalizing s dstva src with
  | _ len ih =>
  rcases Nat.eq_zero_or_pos len with rfl | hl
  · exact ⟨0, s, copyout_zero, .inl rfl, by simp, fun _ _ _ k hk => absurd hk (Nat.not_lt_zero k),
      fun _ _ _ => rfl⟩
  have hP : PGSIZE = 4096 := rfl
  have h₀ : userPA s.mem pt (dstva + 0) = userPA s.mem pt (PGROUNDDOWN dstva) :=
    userPA_of_page (by simp only [PGROUNDDOWN, hP]; omega)
  rw [copyout_of_walkaddr hl (walkaddr_eq hw)]
  split_ifs with h0
  · -- `walkaddr` returned 0 for the first page
    refine ⟨-1, s, rfl, .inr rfl, ?_, nofun, nofun⟩
    simp only [Int.reduceNeg, Int.reduceEq, false_iff, not_forall, not_not]
    exact ⟨0, hl, h₀.trans h0⟩
  -- the first chunk goes to `pa0`, which is not a page-table page
  set pa0 := userPA s.mem pt (PGROUNDDOWN dstva) with hpa0
  set n := min (PGSIZE - (dstva - PGROUNDDOWN dstva)) len with hn
  set m₁ := memmove s.mem (pa0 + (dstva - PGROUNDDOWN dstva)) src n with hm₁
  have hpage : ∀ {k}, k < n → userPA s.mem pt (dstva + k) = pa0 := fun hk =>
    userPA_of_page (page_of_chunk hn hk)
  have hpa0a : pa0 % PGSIZE = 0 := userPA_aligned
  have hagree : ∀ u ∈ tables s.mem pt, AgreeOn s.mem m₁ u := fun u hu =>
    agreeOn_memmove hpa0a (hw.aligned_of_mem hu) (fun e => htab 0 hl (by rw [h₀, e]; exact hu))
      (by simp only [PGROUNDDOWN, hP] at *; omega)
  have hpa : ∀ va, userPA m₁ pt va = userPA s.mem pt va := fun _ => userPA_congr hagree
  -- bytes outside the page `pa0` are left alone
  have hout : ∀ x, PGROUNDDOWN x ≠ pa0 → m₁ x = s.mem x := fun x hx =>
    if_neg (by simp only [PGROUNDDOWN, hP] at *; omega)
  -- the rest of the range, from the next page
  have hrest : ∀ {k}, k < len - n → userPA (s.setMem m₁).mem pt (PGROUNDDOWN dstva + PGSIZE + k) =
      userPA s.mem pt (dstva + (n + k)) := fun hk => by
    rw [Kmem.setMem_mem, hpa, after_chunk hn hk]
  obtain ⟨r, s', hrun, hpost⟩ := @ih (len - n) (by simp only [PGROUNDDOWN, hP] at *; omega)
    (s.setMem m₁) (PGROUNDDOWN dstva + PGSIZE) (src + n) (hw.congr hagree) fun k hk => by
      rw [hrest hk, Kmem.setMem_mem, tables_congr_of_agree hagree]
      exact htab _ (by omega)
  refine ⟨r, s', hrun, hpost.result, ?_, fun hr hdist hsrc k hk => ?_, fun hr x hx => ?_⟩
  · -- `copyout` returns 0 exactly when every byte is in a user page
    rw [hpost.ok_iff]
    constructor
    · intro h k hk
      by_cases hkn : k < n
      · rw [hpage hkn]
        exact h0
      · have := h (k - n) (by omega)
        rwa [hrest (by omega), show n + (k - n) = k by omega] at this
    · intro h k hk
      rw [hrest hk]
      exact h _ (by omega)
  · by_cases hkn : k < n
    · -- a byte of the first chunk: copied now, and kept by the rest of the loop
      have hoff := offset_of_chunk hn hkn
      have hkeep : s'.mem (pa0 + (dstva + k) % PGSIZE) = m₁ (pa0 + (dstva + k) % PGSIZE) :=
        hpost.frame hr _ fun j hj e => by
          rw [hrest hj] at e
          have hx : PGROUNDDOWN (pa0 + (dstva + k) % PGSIZE) = pa0 := by
            simp only [PGROUNDDOWN, hP] at hpa0a ⊢
            omega
          have := hdist k hk (n + j) (by omega) (by rw [hpage hkn, ← hx, e])
          rw [after_chunk hn hj] at this
          simp only [PGROUNDDOWN, hP] at this hoff
          omega
      rw [hpage hkn, hkeep, hm₁, memmove, if_pos (by omega), hoff, show pa0 + (dstva -
        PGROUNDDOWN dstva + k) - (pa0 + (dstva - PGROUNDDOWN dstva)) = k by omega]
    · -- a byte of the rest, read from the source the first chunk did not touch
      have := hpost.copied hr (fun i hi j hj => by
          rw [hrest hi, hrest hj, ← after_chunk hn hi, ← after_chunk hn hj]
          exact hdist _ (by omega) _ (by omega))
        (fun i hi j hj => by
          rw [hrest hj, Nat.add_assoc]
          exact hsrc _ (by omega) _ (by omega)) (k - n) (by omega)
      rwa [Kmem.setMem_mem, hpa, ← after_chunk hn (show k - n < len - n by omega),
        show n + (k - n) = k by omega, show src + n + (k - n) = src + k by omega,
        hout _ (by rw [← h₀]; exact hsrc k hk 0 hl)] at this
  · rw [hpost.frame hr x fun k hk => by rw [hrest hk]; exact hx _ (by omega), Kmem.setMem_mem]
    exact hout x (by rw [← h₀]; exact hx 0 hl)

end Copyout

/-- Copying 100 bytes to the user address 8 of a tree mapping the page 0 to 16384. -/
theorem copyout_correct_page :
    WellFormed (twoPages (userLeaf 16384) 0) 4096 ∧
    (∀ k < 100, userPA (twoPages (userLeaf 16384) 0) 4096 (8 + k) ∉
      tables (twoPages (userLeaf 16384) 0) 4096) ∧
    ∃ r s', copyout ⟨twoPages (userLeaf 16384) 0, [], []⟩ 4096 8 20480 100 = .ok (r, s') ∧
      CopyoutPost ⟨twoPages (userLeaf 16384) 0, [], []⟩ 4096 8 20480 100 r s' := by
  obtain ⟨hw, ht⟩ := twoPages_wf (userLeaf 16384) 0 (by decide) (by decide) (by decide) (by decide)
  have htab : ∀ k < 100, userPA (twoPages (userLeaf 16384) 0) 4096 (8 + k) ∉
      tables (twoPages (userLeaf 16384) 0) 4096 := fun k hk => by
    rw [userPA_of_page (show (8 + k) / PGSIZE = 0 / PGSIZE by simp only [PGSIZE]; omega),
      ht.mem_iff]
    decide
  exact ⟨hw, htab, copyout_correct (s := ⟨twoPages (userLeaf 16384) 0, [], []⟩) hw htab⟩

/-- A tree whose user page 0 is its own level-0 page: `copyout` of 4097 zeros to address 0
zeroes that page and the PTE of the page 1, and returns -1 though both pages were mapped. -/
theorem copyout_rewrites_tree :
    WellFormed (twoPages (userLeaf 12288) (userLeaf 16384)) 4096 ∧
    (∀ k < 4097, userPA (twoPages (userLeaf 12288) (userLeaf 16384)) 4096 (0 + k) ≠ 0) ∧
    ∃ s', copyout ⟨twoPages (userLeaf 12288) (userLeaf 16384), [], []⟩ 4096 0 20480 4097 =
      .ok (-1, s') := by
  have hw := (twoPages_wf (userLeaf 12288) (userLeaf 16384) (by decide) (by decide) (by decide)
    (by decide)).1
  refine ⟨hw, fun k hk => ?_, ?_⟩
  · rcases Nat.lt_or_ge k 4096 with h | h
    · rw [userPA_of_page (show (0 + k) / PGSIZE = 0 / PGSIZE by simp only [PGSIZE]; omega)]
      decide
    · rw [show 0 + k = 4096 by omega]
      decide
  rw [copyout_of_walkaddr (by decide) (walkaddr_eq (s := ⟨twoPages (userLeaf 12288) (userLeaf 16384), [], []⟩) hw), if_neg (by decide)]
  dsimp only
  rw [copyout_of_walkaddr (by decide) (show walkaddr _ 4096 _ = .ok 0 by rfl), if_pos rfl]
  exact ⟨_, rfl⟩

end BufCache.Vm
