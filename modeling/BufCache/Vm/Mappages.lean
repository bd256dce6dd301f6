import BufCache.Vm.Walk

/-!
# `mappages`

`mappages(pagetable, va, size, pa, perm)` (lines 133-148) maps the pages from `PGROUNDDOWN(va)`
to `PGROUNDDOWN(va + size - 1)` to the pages from `pa`, one `walk` with `alloc` per page. The
loop stops at `a == last`; it cannot run past `MAXVA`, where `walk` panics, so it is written
with that measure. The loop lemma says what a run from any page leaves behind: the tree well
formed and grown by fresh pages, the pages from `a` up to some `b` mapped, every other level-0
PTE as it was, and `b` short of the end only when `kalloc` ran out, with no level-0 page for `b`
(`mappagesLoop_inv`). It also carries any property of states that each `walk` and each store of
a leaf keep, which is how the callers in `kvminit` show that `kalloc` does not run out.
-/

namespace BufCache.Vm

theorem lt_of_walk_ok {s s' : Kmem} {pt va p : Nat} {alloc : Bool}
    (h : walk s pt va alloc = .ok (p, s')) : va < MAXVA := by
  by_contra hva
  rw [walk_error (Nat.not_lt.1 hva)] at h
  cases h

/-- The loop of `mappages` (lines 139-146), from the page `a` on. -/
def mappagesLoop (s : Kmem) (pagetable last perm a pa : Nat) : Except String (Int × Kmem) :=
  match _h : walk s pagetable a true with
  | .error e => .error e
  | .ok (pte, s) =>
    if pte = 0 then .ok (-1, s)
    else if read64 s.mem pte &&& PTE_V ≠ 0 then .error "remap"
    else
      let s := s.setMem (write64 s.mem pte (PA2PTE pa ||| perm ||| PTE_V))
      if a = last then .ok (0, s)
      else mappagesLoop s pagetable last perm (a + PGSIZE) (pa + PGSIZE)
termination_by MAXVA - a
decreasing_by
  have := lt_of_walk_ok _h
  simp only [PGSIZE]
  omega

/-- `mappages(pagetable, va, size, pa, perm)`; `va + size - 1` is taken on `uint64`. -/
def mappages (s : Kmem) (pagetable va size pa perm : Nat) : Except String (Int × Kmem) :=
  mappagesLoop s pagetable (PGROUNDDOWN ((va + size + (2 ^ 64 - 1)) % 2 ^ 64)) perm
    (PGROUNDDOWN va) pa

/-- The level-0 PTE of `va` once the pages from `a` below `b` have been mapped to the pages from
`pa` with `perm`, over the PTEs `old`. -/
def remapped (old : Nat → Nat) (a b pa perm va : Nat) : Nat :=
  if a ≤ va ∧ va < b then PA2PTE (pa + (PGROUNDDOWN va - a)) ||| perm ||| PTE_V else old va

theorem remapped_empty (old : Nat → Nat) (a pa perm va : Nat) :
    remapped old a a pa perm va = old va := by
  simp only [remapped]
  rw [if_neg (by omega)]

theorem remapped_congr {old old' : Nat → Nat} {a b pa perm va : Nat} (h : old va = old' va) :
    remapped old a b pa perm va = remapped old' a b pa perm va := by
  simp only [remapped, h]

/-- Mapping the page `a`, then the pages after it, is mapping them all. -/
theorem remapped_cons {old : Nat → Nat} {a b pa perm va : Nat} (ha : a % PGSIZE = 0)
    (hb : a + PGSIZE ≤ b) :
    remapped (remapped old a (a + PGSIZE) pa perm) (a + PGSIZE) b (pa + PGSIZE) perm va =
      remapped old a b pa perm va := by
  simp only [remapped, PGROUNDDOWN, PGSIZE] at *
  by_cases h₁ : a + 4096 ≤ va ∧ va < b
  · rw [if_pos h₁, if_pos (by omega), show pa + 4096 + (va / 4096 * 4096 - (a + 4096)) =
      pa + (va / 4096 * 4096 - a) by omega]
  · rw [if_neg h₁]
    by_cases h₂ : a ≤ va ∧ va < a + 4096
    · rw [if_pos h₂, if_pos (by omega)]
    · rw [if_neg h₂, if_neg (by omega)]

/-- Mapping the one page `a` to `d`. -/
theorem remapped_one {old : Nat → Nat} {a d perm va : Nat} (ha : a % PGSIZE = 0) :
    remapped old a (a + PGSIZE) d perm va =
      if va / PGSIZE = a / PGSIZE then PA2PTE d ||| perm ||| PTE_V else old va := by
  simp only [remapped, PGROUNDDOWN, PGSIZE] at *
  by_cases h : va / 4096 = a / 4096
  · rw [if_pos (by omega), if_pos h, show va / 4096 * 4096 - a = 0 by omega, Nat.add_zero]
  · rw [if_neg (by omega), if_neg h]

/-- The leaf `mappages` writes for the page at offset `k` pages, as a PTE value. -/
theorem leaf_eq {pa perm : Nat} (hperm : perm < 1024) :
    PA2PTE pa ||| perm ||| PTE_V = PA2PTE pa + (perm ||| PTE_V) := by
  rw [Nat.or_assoc, PA2PTE_or (or_PTE_V_lt hperm)]

theorem leaf_lt {pa perm : Nat} (hperm : perm < 1024) (hpa : pa < 2 ^ 64) :
    PA2PTE pa ||| perm ||| PTE_V < 2 ^ 64 := by
  have := or_PTE_V_lt (f := perm) hperm
  rw [leaf_eq hperm]
  simp only [PA2PTE, PGSIZE]
  omega

theorem leaf_valid {pa perm : Nat} (hperm : perm < 1024) :
    (PA2PTE pa ||| perm ||| PTE_V) % 2 = 1 := by
  have := mod_two_or_PTE_V (f := perm)
  rw [leaf_eq hperm]
  simp only [PA2PTE]
  omega

theorem leaf_RWX {pa perm : Nat} (hperm : perm < 1024) :
    (PA2PTE pa ||| perm ||| PTE_V) &&& PTE_RWX = perm &&& PTE_RWX := by
  rw [leaf_eq hperm, PA2PTE_add_and_RWX (or_PTE_V_lt hperm), or_PTE_V_and_RWX]

theorem PTE2PA_leaf {pa perm : Nat} (hperm : perm < 1024) (hpa : pa < 2 ^ 64) :
    PTE2PA (PA2PTE pa ||| perm ||| PTE_V) = PGROUNDDOWN pa := by
  rw [leaf_eq hperm, ← PTE2PA_PA2PTE_add (p := PGROUNDDOWN pa) (or_PTE_V_lt hperm)
    (by simp [PGROUNDDOWN, PGSIZE]) (by simp only [PGROUNDDOWN, PGSIZE]; omega)]
  simp [PA2PTE, PGROUNDDOWN, PGSIZE]

theorem PTE_FLAGS_leaf {pa perm : Nat} (hperm : perm < 1024) :
    PTE_FLAGS (PA2PTE pa ||| perm ||| PTE_V) = perm ||| PTE_V := by
  rw [leaf_eq hperm, PTE_FLAGS_PA2PTE_add (or_PTE_V_lt hperm)]

section Loop

variable {s : Kmem} {pt last perm a pa : Nat}

theorem mappagesLoop_fail {s₁ : Kmem} (hwalk : walk s pt a true = .ok (0, s₁)) :
    mappagesLoop s pt last perm a pa = .ok (-1, s₁) := by
  rw [mappagesLoop]
  split
  · simp_all
  · next pte s' heq =>
    rw [hwalk] at heq
    cases heq
    rfl

/-- At or above `MAXVA`, `walk` panics, and the loop with it. -/
theorem mappagesLoop_panic (hva : MAXVA ≤ a) : mappagesLoop s pt last perm a pa = .error "walk" := by
  rw [mappagesLoop]
  split <;> simp_all [walk_error hva]

/-- One page of the loop, once `walk` has returned the level-0 PTE `p ≠ 0` of an unmapped page. -/
theorem mappagesLoop_step {s₁ : Kmem} {p : Nat} (hwalk : walk s pt a true = .ok (p, s₁))
    (hp : p ≠ 0) (hinv : read64 s₁.mem p % 2 = 0) :
    mappagesLoop s pt last perm a pa =
      let s₂ := s₁.setMem (write64 s₁.mem p (PA2PTE pa ||| perm ||| PTE_V))
      if a = last then .ok (0, s₂)
      else mappagesLoop s₂ pt last perm (a + PGSIZE) (pa + PGSIZE) := by
  rw [mappagesLoop]
  split
  · simp_all
  · next pte s' heq =>
    rw [hwalk] at heq
    cases heq
    simp only [hp, if_false, and_PTE_V, hinv, ne_eq, not_true_eq_false]

/-- `walk` for the page `a` and the store of its leaf: either the free list ran out, or the page
is mapped and nothing else changed. -/
theorem mappages_page (hw : WellFormed s.mem pt) (hf : Fresh pt s) (ha : a % PGSIZE = 0)
    (hlt : a < MAXVA) (hperm : perm < 1024) (hrwx : perm &&& PTE_RWX ≠ 0) (hpa : pa < 2 ^ 64)
    (hinv : pte0 s.mem pt a % 2 = 0) :
    (∃ s₁, walk s pt a true = .ok (0, s₁) ∧ Grows pt s s₁ ∧ s₁.freelist = [] ∧
      ptePtr s₁.mem pt a = none) ∨
    ∃ p s₁, walk s pt a true = .ok (p, s₁) ∧ p ≠ 0 ∧ read64 s₁.mem p % 2 = 0 ∧
      Extends pt s (s₁.setMem (write64 s₁.mem p (PA2PTE pa ||| perm ||| PTE_V))) ∧
      ∀ va, va < MAXVA → pte0 (write64 s₁.mem p (PA2PTE pa ||| perm ||| PTE_V)) pt va =
        remapped (pte0 s.mem pt) a (a + PGSIZE) pa perm va := by
  obtain ⟨p, s₁, hwalk, hg, h0, hp, -⟩ := walk_alloc hw hf hlt
  by_cases hp0 : p = 0
  · subst hp0
    exact .inl ⟨s₁, hwalk, hg, (h0 rfl).1, (h0 rfl).2.2⟩
  have hptr := hp hp0
  have hread : read64 s₁.mem p = pte0 s.mem pt a := by
    rw [← hg.pte0 a, pte0, hptr, Option.map_some', Option.getD_some]
  refine .inr ⟨p, s₁, hwalk, hp0, hread ▸ hinv,
    (hg.toExtends).trans (Extends.store hg.wf hptr (leaf_lt hperm hpa) fun _ => by
      rwa [leaf_RWX hperm]), fun va hva => ?_⟩
  rw [pte0_store hg.wf hptr hlt hva, Nat.mod_eq_of_lt (leaf_lt hperm hpa), remapped, hg.pte0]
  simp only [PGROUNDDOWN, PGSIZE] at ha ⊢
  by_cases h₁ : va / 4096 = a / 4096
  · rw [if_pos h₁, if_pos (by omega), show va / 4096 * 4096 - a = 0 by omega, Nat.add_zero]
  · rw [if_neg h₁, if_neg (by omega)]

/-- The loop of `mappages` on an unmapped range keeps any `P` that each `walk` and leaf store
keep, and maps the pages up to some `b`: all of them, or `kalloc` ran out at `b`. -/
theorem mappagesLoop_inv (P : Kmem → Prop)
    (hstep : ∀ (s₀ s₁ : Kmem) (a' p v : Nat), P s₀ → WellFormed s₀.mem pt → Fresh pt s₀ → a ≤ a' →
      a' ≤ last → walk s₀ pt a' true = .ok (p, s₁) →
      P s₁ ∧ (p ≠ 0 → P (s₁.setMem (write64 s₁.mem p v))))
    (hP : P s) (hw : WellFormed s.mem pt) (hf : Fresh pt s) (ha : a % PGSIZE = 0)
    (hl : last % PGSIZE = 0) (hal : a ≤ last) (hlast : last < MAXVA) (hperm : perm < 1024)
    (hrwx : perm &&& PTE_RWX ≠ 0) (hpa : pa + (last - a) < 2 ^ 64)
    (hinv : ∀ va, a ≤ va → va < last + PGSIZE → pte0 s.mem pt va % 2 = 0) :
    ∃ r s', mappagesLoop s pt last perm a pa = .ok (r, s') ∧ Extends pt s s' ∧ P s' ∧
      ∃ b, a ≤ b ∧ b ≤ last + PGSIZE ∧ b % PGSIZE = 0 ∧
        (∀ va, va < MAXVA → pte0 s'.mem pt va = remapped (pte0 s.mem pt) a b pa perm va) ∧
        (r = 0 ∧ b = last + PGSIZE ∨
          r = -1 ∧ s'.freelist = [] ∧ b ≤ last ∧ ptePtr s'.mem pt b = none) := by
  obtain ⟨n, hn⟩ : ∃ n, (last - a) / PGSIZE = n := ⟨_, rfl⟩
  induction n using Nat.strong_induction_on generalizing s a pa with
  | h n ih =>
  have hP' : PGSIZE = 4096 := rfl
  have hM : MAXVA = 274877906944 := rfl
  rw [hP'] at ha hl hn
  rw [hM] at hlast
  rcases mappages_page hw hf (by rw [hP']; exact ha) (by omega) hperm hrwx
    (show pa < 2 ^ 64 by omega) (hinv a le_rfl (by omega)) with
    ⟨s₁, hwalk, hg, hnil, hptr⟩ | ⟨p, s₁, hwalk, hp, hpinv, hext, hpte⟩
  · -- `kalloc` ran out before the page `a`
    exact ⟨-1, s₁, mappagesLoop_fail hwalk, hg.toExtends,
      (hstep s s₁ a 0 0 hP hw hf le_rfl hal hwalk).1, a, le_rfl, by omega, by rw [hP']; exact ha,
      fun va _ => by rw [hg.pte0, remapped_empty], .inr ⟨rfl, hnil, hal, hptr⟩⟩
  have hP₁ := (hstep s s₁ a p (PA2PTE pa ||| perm ||| PTE_V) hP hw hf le_rfl hal hwalk).2 hp
  rw [mappagesLoop_step hwalk hp hpinv]
  dsimp only
  split_ifs with hlast'
  · -- the last page
    subst hlast'
    exact ⟨0, _, rfl, hext, hP₁, a + PGSIZE, by omega, le_rfl, by rw [hP']; omega, hpte,
      .inl ⟨rfl, rfl⟩⟩
  -- the pages after `a`
  have hnext : a + 4096 ≤ last := by omega
  obtain ⟨r, s', hrun, hext', hP₂, b, hb₁, hb₂, hb₃, hb₄, hr⟩ :=
    ih ((last - (a + PGSIZE)) / PGSIZE) (by rw [hP']; omega) (a := a + PGSIZE)
      (fun s₀ s₁ a' p v h₀ hw₀ hf₀ h₁ h₂ => hstep s₀ s₁ a' p v h₀ hw₀ hf₀ (by omega) h₂) hP₁
      hext.wf (hext.fresh hf) (by rw [hP']; omega) (by rw [hP']; omega)
      (show pa + PGSIZE + (last - (a + PGSIZE)) < 2 ^ 64 by rw [hP']; omega) (fun va h₁ h₂ => by
        rw [Kmem.setMem_mem, hpte va (by rw [hM, hP'] at *; omega), remapped,
          if_neg (by rw [hP'] at *; omega)]
        exact hinv va (by rw [hP'] at h₁; omega) h₂) rfl
  have hab : a + PGSIZE ≤ b := hb₁
  refine ⟨r, s', hrun, hext.trans hext', hP₂, b, by omega, hb₂, hb₃, fun va hva => ?_, hr⟩
  rw [hb₄ va hva, ← @remapped_cons (pte0 s.mem pt) a b pa perm va (by rw [hP']; exact ha) hab]
  apply remapped_congr
  rw [Kmem.setMem_mem]
  exact hpte va hva

/-- The loop of `mappages` on an unmapped range does not panic and maps the pages up to some
`b`, all of them unless `kalloc` ran out. -/
theorem mappagesLoop_spec (hw : WellFormed s.mem pt) (hf : Fresh pt s) (ha : a % PGSIZE = 0)
    (hl : last % PGSIZE = 0) (hal : a ≤ last) (hlast : last < MAXVA) (hperm : perm < 1024)
    (hrwx : perm &&& PTE_RWX ≠ 0) (hpa : pa + (last - a) < 2 ^ 64)
    (hinv : ∀ va, a ≤ va → va < last + PGSIZE → pte0 s.mem pt va % 2 = 0) :
    ∃ r s', mappagesLoop s pt last perm a pa = .ok (r, s') ∧ Extends pt s s' ∧
      ∃ b, a ≤ b ∧ b ≤ last + PGSIZE ∧ b % PGSIZE = 0 ∧
        (∀ va, va < MAXVA → pte0 s'.mem pt va = remapped (pte0 s.mem pt) a b pa perm va) ∧
        (r = 0 ∧ b = last + PGSIZE ∨ r = -1 ∧ s'.freelist = []) := by
  obtain ⟨r, s', hrun, hext, -, b, hb₁, hb₂, hb₃, hb₄, hr⟩ := mappagesLoop_inv (fun _ => True)
    (fun _ _ _ _ _ _ _ _ _ _ _ => ⟨trivial, fun _ => trivial⟩) trivial hw hf ha hl hal hlast hperm
    hrwx hpa hinv
  exact ⟨r, s', hrun, hext, b, hb₁, hb₂, hb₃, hb₄, hr.imp_right fun h => ⟨h.1, h.2.1⟩⟩

end Loop

/-- One page at the aligned `a`: the first page of the loop is its last. -/
theorem mappages_page_eq {s : Kmem} {pt a pa perm : Nat} (ha : a % PGSIZE = 0) (hlt : a < MAXVA) :
    mappages s pt a PGSIZE pa perm = mappagesLoop s pt a perm a pa := by
  have hdown : PGROUNDDOWN a = a := by simp only [PGROUNDDOWN, PGSIZE] at *; omega
  have hlast : PGROUNDDOWN ((a + PGSIZE + (2 ^ 64 - 1)) % 2 ^ 64) = a := by
    simp only [PGROUNDDOWN, PGSIZE, MAXVA] at *
    omega
  rw [mappages, hlast, hdown]

/-- `mappages` of one page: either `kalloc` ran out in `walk` and nothing is mapped, or the page
is mapped. -/
theorem mappages_one {s : Kmem} {pt a pa perm : Nat} (hw : WellFormed s.mem pt) (hf : Fresh pt s)
    (ha : a % PGSIZE = 0) (hlt : a < MAXVA) (hperm : perm < 1024) (hrwx : perm &&& PTE_RWX ≠ 0)
    (hpa : pa < 2 ^ 64) (hinv : pte0 s.mem pt a % 2 = 0) :
    (∃ s', mappages s pt a PGSIZE pa perm = .ok (-1, s') ∧ Grows pt s s' ∧ s'.freelist = []) ∨
    ∃ s', mappages s pt a PGSIZE pa perm = .ok (0, s') ∧ Extends pt s s' ∧
      ∀ va < MAXVA, pte0 s'.mem pt va = remapped (pte0 s.mem pt) a (a + PGSIZE) pa perm va := by
  rw [mappages_page_eq ha hlt]
  rcases mappages_page hw hf ha hlt hperm hrwx hpa hinv with
    ⟨s₁, hwalk, hg, hnil, -⟩ | ⟨p, s₁, hwalk, hp, hpinv, hext, hpte⟩
  · exact .inl ⟨s₁, mappagesLoop_fail hwalk, hg, hnil⟩
  · refine .inr ⟨_, ?_, hext, hpte⟩
    rw [mappagesLoop_step hwalk hp hpinv]
    simp

/-- The one page `a` whose level-0 PTE is already in the tree: `walk` takes no page, and the
page is mapped. -/
theorem mappages_one_present {s : Kmem} {pt a pa perm p : Nat} (hw : WellFormed s.mem pt)
    (hf : Fresh pt s) (ha : a % PGSIZE = 0) (hlt : a < MAXVA) (hperm : perm < 1024)
    (hrwx : perm &&& PTE_RWX ≠ 0) (hpa : pa < 2 ^ 64) (hinv : pte0 s.mem pt a % 2 = 0)
    (hp : ptePtr s.mem pt a = some p) :
    ∃ s', mappages s pt a PGSIZE pa perm = .ok (0, s') ∧ Extends pt s s' ∧
      ∀ va < MAXVA, pte0 s'.mem pt va = remapped (pte0 s.mem pt) a (a + PGSIZE) pa perm va := by
  rcases mappages_one hw hf ha hlt hperm hrwx hpa hinv with ⟨s', hm, -⟩ | h
  · have hread : read64 s.mem p % 2 = 0 := by
      simp only [pte0, hp, Option.map_some', Option.getD_some] at hinv
      exact hinv
    have hwalk := walk_of_ptePtr hlt hp true
    rw [mappages_page_eq ha hlt] at hm
    rw [mappagesLoop_step hwalk (hw.slot_ne_zero hp) hread] at hm
    simp at hm
  · exact h

/-- The one page `a` of an empty slot, with two pages for `walk`: the page is mapped, and `walk`
took at most two pages. -/
theorem mappages_one_of_two {s : Kmem} {pt a pa perm : Nat} (hw : WellFormed s.mem pt) (hf : Fresh pt s) (ha : a % PGSIZE = 0)
    (hlt : a < MAXVA) (hperm : perm < 1024) (hrwx : perm &&& PTE_RWX ≠ 0) (hpa : pa < 2 ^ 64)
    (hinv : pte0 s.mem pt a % 2 = 0) (hlen : 2 ≤ s.freelist.length) :
    ∃ s', mappages s pt a PGSIZE pa perm = .ok (0, s') ∧ Extends pt s s' ∧
      (∀ va < MAXVA, pte0 s'.mem pt va = remapped (pte0 s.mem pt) a (a + PGSIZE) pa perm va) ∧
      s.freelist.length ≤ s'.freelist.length + 2 := by
  -- `walk` cannot run out with two pages, so the loop stores the PTE and returns 0
  obtain ⟨p, s₁, hwalk, hg, h0, hp, hl⟩ := walk_alloc hw hf hlt
  have hp0 : p ≠ 0 := fun e => by have := (h0 e).2.1; omega
  have hread : read64 s₁.mem p % 2 = 0 := by
    have h := hg.pte0 a
    simp only [pte0, hp hp0, Option.map_some', Option.getD_some] at h
    rw [h]
    exact hinv
  have hm : mappages s pt a PGSIZE pa perm =
      .ok (0, s₁.setMem (write64 s₁.mem p (PA2PTE pa ||| perm ||| PTE_V))) := by
    rw [mappages_page_eq ha hlt, mappagesLoop_step hwalk hp0 hread, if_pos rfl]
  rcases mappages_one hw hf ha hlt hperm hrwx hpa hinv with ⟨s', hm', -⟩ | ⟨s', hm', hext, hpte⟩
  · rw [hm] at hm'
    simp at hm'
  · rw [hm] at hm'
    cases hm'
    exact ⟨_, hm, hext, hpte, hl⟩

theorem PGROUNDDOWN_add {x k : Nat} (hk : k % PGSIZE = 0) :
    PGROUNDDOWN (x + k) = PGROUNDDOWN x + k := by
  simp only [PGROUNDDOWN, PGSIZE] at *
  omega

section Mappages

variable {s : Kmem} {pt va size pa perm : Nat}

/-- What `mappages(pagetable, va, size, pa, perm)` started in `s` leaves when it returns `r` in
`s'`: 0 or -1, and -1 only once `kalloc` has run out; on 0, `walk` finds every page of the range
mapped to its page from `pa` with the flags `perm | PTE_V`, every other level-0 PTE is as it was,
and the tree is well formed. -/
structure MappagesPost (s : Kmem) (pt va size pa perm : Nat) (r : Int) (s' : Kmem) : Prop where
  result : r = 0 ∨ r = -1
  oom : r = -1 → s'.freelist = []
  mapped : r = 0 → ∀ a, a % PGSIZE = 0 → PGROUNDDOWN va ≤ a → a ≤ PGROUNDDOWN (va + size - 1) →
    ∃ p, walk s' pt a false = .ok (p, s') ∧ p ≠ 0 ∧
      PTE2PA (read64 s'.mem p) = PGROUNDDOWN pa + (a - PGROUNDDOWN va) ∧
      PTE_FLAGS (read64 s'.mem p) = perm ||| PTE_V
  others : r = 0 → ∀ va', va' < MAXVA →
    va' < PGROUNDDOWN va ∨ PGROUNDDOWN (va + size - 1) + PGSIZE ≤ va' →
    pte0 s'.mem pt va' = pte0 s.mem pt va'
  wf : r = 0 → WellFormed s'.mem pt

/-- The root page at 4096 holding zeros, and two free pages. -/
def emptyRoot : Kmem := ⟨fun _ => 0, [8192, 12288], []⟩

theorem emptyRoot_wf : WellFormed emptyRoot.mem 4096 :=
  WellFormed.of_zero (by decide) (by decide) fun _ _ => rfl

theorem emptyRoot_fresh : Fresh 4096 emptyRoot :=
  ⟨by decide, by decide, fun q hq => by
    rw [tables_of_zero fun _ _ => rfl]
    simp only [emptyRoot, List.mem_cons, List.mem_singleton, List.not_mem_nil, or_false] at hq ⊢
    omega⟩

end Mappages

end BufCache.Vm
