import BufCache.Vm.ProcFree
import BufCache.Vm.Unmap

/-!
# `freewalk` and `uvmfree`

`freewalk(pagetable)` (lines 241-256) is `proc_free_k_pagetable` with one more branch: an entry
that is valid and has one of `PTE_R`, `PTE_W`, `PTE_X` set, a leaf, makes it panic with
`"freewalk: leaf"`. Its callers must have removed every leaf first. `uvmfree(pagetable, sz)`
(lines 260-263) does so for the pages below `sz`, with `uvmunmap`, and then calls `freewalk`.

On a subtree read in `m`, `freewalk` frees exactly what `proc_free_k_pagetable` frees when no
level-0 page of the subtree has a valid entry (`Bare`), and panics otherwise: `freewalk_spec`.
So `uvmfree` on a well-formed tree that maps the pages below `sz` and nothing else frees the
pages those leaves map and then every page-table page (`uvmfree_correct`), and a page still
mapped at or above `sz` makes it panic (`uvmfree_panics`). On any memory, well formed or not,
`freewalk` does what `proc_free_k_pagetable` does or panics; where the latter returns, `freewalk`
panics exactly when a page it passes to `kfree` holds a valid leaf entry, since clearing entries
that point down never changes a leaf (`freewalk_agrees_procFree`).
-/

namespace BufCache.Vm

/-- One turn of the loop of `freewalk(pagetable)` (lines 243-254) at the entry `i`, with `free`
for the recursive call. -/
def freewalkEntry (free : Kmem → Nat → Option (Except String Kmem)) (s : Kmem)
    (pagetable i : Nat) : Option (Except String Kmem) :=
  let pte := pteAt s.mem pagetable i
  if pte &&& PTE_V ≠ 0 ∧ pte &&& (PTE_R ||| PTE_W ||| PTE_X) = 0 then
    (free s (PTE2PA pte)).map fun r => r.map fun s => s.setMem (write64 s.mem (pagetable + 8 * i) 0)
  else if pte &&& PTE_V ≠ 0 then some (.error "freewalk: leaf")
  else some (.ok s)

/-- The loop of `freewalk(pagetable)` over the entries `is`; a panic ends it. -/
def freewalkLoop (free : Kmem → Nat → Option (Except String Kmem)) (pagetable : Nat) :
    List Nat → Kmem → Option (Except String Kmem)
  | [], s => some (.ok s)
  | i :: is, s =>
    match freewalkEntry free s pagetable i with
    | some (.ok s) => freewalkLoop free pagetable is s
    | r => r

/-- `freewalk(pagetable)` (lines 241-256) with `fuel` nested calls left, `none` when they run
out. -/
def freewalk : Nat → Kmem → Nat → Option (Except String Kmem)
  | 0, _, _ => none
  | fuel + 1, s, pagetable =>
    (freewalkLoop (freewalk fuel) pagetable (List.range 512) s).map
      fun r => r.map fun s => s.kfree pagetable

/-- `uvmfree(pagetable, sz)` (lines 260-263), with `fuel` nested calls of `freewalk`. -/
def uvmfree (fuel : Nat) (s : Kmem) (pagetable sz : Nat) : Option (Except String Kmem) :=
  match if sz > 0 then uvmunmap s pagetable 0 (PGROUNDUP sz / PGSIZE) true else .ok s with
  | .error e => some (.error e)
  | .ok s => freewalk fuel s pagetable

/-- No level-0 page of the subtree of `t` at `level` has a valid entry. -/
def Bare (m : Mem) (t : Nat) : Nat → Prop
  | 0 => ∀ i < 512, pteAt m t i % 2 = 0
  | level + 1 => ∀ c ∈ children m t, Bare m c level

/-- What `freewalk` of the subtree of `t` at `level`, read in `m`, returns from `s`: what
`proc_free_k_pagetable` does to it when it is bare, the panic otherwise. -/
def FreewalkPost (m : Mem) (t level : Nat) (s : Kmem) (r : Option (Except String Kmem)) : Prop :=
  (Bare m t level ∧ ∃ s', r = some (.ok s') ∧ Freed (subtree m t level) t s s') ∨
    (¬Bare m t level ∧ r = some (.error "freewalk: leaf"))

section Entry

variable {g : Kmem → Nat → Option (Except String Kmem)} {s : Kmem} {t i : Nat}
  {is : List Nat}

theorem freewalkEntry_invalid (h : pteAt s.mem t i % 2 = 0) :
    freewalkEntry g s t i = some (.ok s) := by
  rw [freewalkEntry, if_neg (fun h' => h'.1 (by rw [and_PTE_V, h])),
    if_neg (by rw [and_PTE_V, h]; exact not_not.2 rfl)]

theorem freewalkEntry_leaf (hv : pteAt s.mem t i % 2 = 1) (hl : pteAt s.mem t i &&& PTE_RWX ≠ 0) :
    freewalkEntry g s t i = some (.error "freewalk: leaf") := by
  rw [freewalkEntry, if_neg (fun h' => hl h'.2), if_pos (by rw [and_PTE_V, hv]; decide)]

theorem freewalkEntry_inner (hv : pteAt s.mem t i % 2 = 1) (hr : pteAt s.mem t i &&& PTE_RWX = 0) :
    freewalkEntry g s t i = (g s (PTE2PA (pteAt s.mem t i))).map
      fun r => r.map fun s => s.setMem (write64 s.mem (t + 8 * i) 0) := by
  rw [freewalkEntry, if_pos ⟨by rw [and_PTE_V, hv]; decide, hr⟩]

theorem freewalkLoop_cons_ok {s' : Kmem} (h : freewalkEntry g s t i = some (.ok s')) :
    freewalkLoop g t (i :: is) s = freewalkLoop g t is s' := by
  rw [freewalkLoop, h]

theorem freewalkLoop_cons_leaf (h : freewalkEntry g s t i = some (.error "freewalk: leaf")) :
    freewalkLoop g t (i :: is) s = some (.error "freewalk: leaf") := by
  rw [freewalkLoop, h]

/-- The loop over the entries of a level-0 page, whose valid entries are leaves: it returns when
none is valid, and panics at the first valid one otherwise. -/
theorem freewalkLoop_level0 (hleaf : ∀ i ∈ is, pteAt s.mem t i % 2 = 1 →
      pteAt s.mem t i &&& PTE_RWX ≠ 0) :
    ((∀ i ∈ is, pteAt s.mem t i % 2 = 0) ∧ freewalkLoop g t is s = some (.ok s)) ∨
      ((∃ i ∈ is, pteAt s.mem t i % 2 = 1) ∧
        freewalkLoop g t is s = some (.error "freewalk: leaf")) := by
  induction is with
  | nil => exact .inl ⟨fun _ h => absurd h (List.not_mem_nil _), rfl⟩
  | cons i is ih =>
    have ih := ih fun j hj => hleaf j (List.mem_cons_of_mem _ hj)
    rcases Nat.mod_two_eq_zero_or_one (pteAt s.mem t i) with h | h
    · rw [freewalkLoop_cons_ok (freewalkEntry_invalid h)]
      refine ih.imp (fun ⟨hall, hrun⟩ => ⟨?_, hrun⟩) fun ⟨⟨j, hj, hv⟩, hrun⟩ => ⟨?_, hrun⟩
      · exact List.forall_mem_cons.2 ⟨h, hall⟩
      · exact ⟨j, List.mem_cons_of_mem _ hj, hv⟩
    · rw [freewalkLoop_cons_leaf (freewalkEntry_leaf h (hleaf i (List.mem_cons_self _ _) h))]
      exact .inr ⟨⟨i, List.mem_cons_self _ _, h⟩, rfl⟩

end Entry

section Loop

variable {m : Mem} {t k f : Nat}

/-- The loop of `freewalk(t)`, when each call below does what `FreewalkPost` says: it frees as
`proc_free_k_pagetable` does while the pages are bare, and panics at the first that is not. -/
theorem freewalkLoop_spec (ht : t % PGSIZE = 0)
    (hinner : ∀ i < 512, pteAt m t i % 2 = 1 → pteAt m t i &&& PTE_RWX = 0)
    (hchild : ∀ c ∈ children m t, (subtree m c k).Nodup → ∀ s : Kmem,
      (∀ u ∈ subtree m c k, AgreeOn m s.mem u) → FreewalkPost m c k s (freewalk f s c))
    (is : List Nat) : ∀ (s : Kmem), (∀ i ∈ is, i < 512) → is.Nodup →
      (t :: (is.filterMap (child m t)).flatMap fun c => subtree m c k).Nodup →
      (∀ i ∈ is, pteAt s.mem t i = pteAt m t i) →
      (∀ u ∈ (is.filterMap (child m t)).flatMap (fun c => subtree m c k), AgreeOn m s.mem u) →
      ((∀ c ∈ is.filterMap (child m t), Bare m c k) ∧
        ∃ s', freewalkLoop (freewalk f) t is s = some (.ok s') ∧
          Freed ((is.filterMap (child m t)).flatMap fun c => subtree m c k) t s s') ∨
      ((∃ c ∈ is.filterMap (child m t), ¬Bare m c k) ∧
        freewalkLoop (freewalk f) t is s = some (.error "freewalk: leaf")) := by
  induction is with
  | nil => exact fun s _ _ _ _ _ => .inl ⟨by simp, s, rfl, Freed.refl⟩
  | cons i is ih =>
  intro s hlt hnd hnodup hpte hag
  have hi := hlt i (List.mem_cons_self _ _)
  have hlt' : ∀ j ∈ is, j < 512 := fun j hj => hlt j (List.mem_cons_of_mem _ hj)
  have hpte' : ∀ j ∈ is, pteAt s.mem t j = pteAt m t j := fun j hj =>
    hpte j (List.mem_cons_of_mem _ hj)
  have hpi := hpte i (List.mem_cons_self _ _)
  rw [List.nodup_cons] at hnd
  cases hc : child m t i with
  | none =>
    -- an invalid entry is left alone
    simp only [List.filterMap_cons, hc] at hnodup hag ⊢
    rw [freewalkLoop_cons_ok (freewalkEntry_invalid (by rw [hpi]; exact child_eq_none.1 hc))]
    exact ih s hlt' hnd.2 hnodup hpte' hag
  | some c =>
    obtain ⟨hv, hcv⟩ := child_eq_some.1 hc
    simp only [List.filterMap_cons, hc, List.flatMap_cons, List.forall_mem_cons] at hnodup hag ⊢
    rw [List.nodup_cons, List.nodup_append] at hnodup
    obtain ⟨htn, hndc, hndl, hdis⟩ := hnodup
    have hentry := freewalkEntry_inner (g := freewalk f) (s := s) (t := t) (i := i)
      (by rw [hpi]; exact hv) (by rw [hpi]; exact hinner i hi hv)
    rw [hpi, hcv] at hentry
    rcases hchild c (mem_children.2 ⟨i, hi, hc⟩) hndc s
      (fun u hu => hag u (List.mem_append_left _ hu)) with ⟨hbare, s₁, hrun₁, hpost₁⟩ | ⟨hnb, hrun₁⟩
    · -- the subtree of `c` is freed, the entry cleared, and the loop goes on
      rw [hrun₁] at hentry
      have hcc : c ∈ subtree m c k := mem_subtree_self k
      have hout : ∀ u, u ∉ subtree m c k → u ∉ c :: subtree m c k := fun u hu h => by
        rcases List.mem_cons.1 h with rfl | h
        · exact hu hcc
        · exact hu h
      have htc : AgreeOn s.mem s₁.mem t :=
        hpost₁.frame t ht (hout t fun h => htn (List.mem_append_left _ h))
      have hrest : ∀ u ∈ (is.filterMap (child m t)).flatMap (fun c => subtree m c k),
          u % PGSIZE = 0 ∧ AgreeOn s.mem s₁.mem u ∧ u ≠ t := fun u hu => by
        obtain ⟨c', hc', hu'⟩ := List.mem_flatMap.1 hu
        obtain ⟨j, -, hj⟩ := List.mem_filterMap.1 hc'
        have hua := aligned_of_mem_subtree k (aligned_of_child hj).1 hu'
        refine ⟨hua, hpost₁.frame u hua (hout u fun h => hdis h hu), fun e => ?_⟩
        subst e
        exact htn (List.mem_append_right _ hu)
      rw [freewalkLoop_cons_ok hentry]
      rcases ih (s₁.setMem (write64 s₁.mem (t + 8 * i) 0)) hlt' hnd.2
        (List.nodup_cons.2 ⟨fun h => htn (List.mem_append_right _ h), hndl⟩)
        (fun j hj => by
          have hji : j ≠ i := fun e => hnd.1 (e ▸ hj)
          rw [Kmem.setMem_mem, pteAt_write64 (by simp only [PGSIZE] at ht; omega)
            (by simp only [PGSIZE] at ht; omega), if_neg (by omega), htc.pteAt (hlt' j hj)]
          exact hpte' j hj)
        (fun u hu => by
          obtain ⟨hua, hag₁, hut⟩ := hrest u hu
          exact ((hag u (List.mem_append_right _ hu)).trans hag₁).trans
            (agreeOn_write64 ht hua hi (Ne.symm hut))) with
        ⟨hall, s', hrun, hpost⟩ | ⟨hsome, hrun⟩
      · exact .inl ⟨⟨hbare, hall⟩, s', hrun,
          by simpa using (hpost₁.widen hcc t).trans ((Freed.clear ht hi).trans hpost)⟩
      · obtain ⟨c', hc', hnb'⟩ := hsome
        exact .inr ⟨⟨c', List.mem_cons_of_mem _ hc', hnb'⟩, hrun⟩
    · -- the subtree of `c` has a valid level-0 entry: the call on `c` panics, and the loop with it
      rw [hrun₁] at hentry
      exact .inr ⟨⟨c, List.mem_cons_self _ _, hnb⟩, freewalkLoop_cons_leaf hentry⟩

end Loop

/-- `freewalk(t)` on a subtree of the shape of a tree: with enough nested calls it frees it as
`proc_free_k_pagetable` does if no level-0 page has a valid entry, and panics otherwise. -/
theorem freewalk_spec {m : Mem} (level : Nat) :
    ∀ {t fuel : Nat} {s : Kmem}, Shaped m t level → (subtree m t level).Nodup → t % PGSIZE = 0 →
      level < fuel → (∀ u ∈ subtree m t level, AgreeOn m s.mem u) →
      FreewalkPost m t level s (freewalk fuel s t) := by
  induction level with
  | zero =>
    -- a level-0 page: every valid entry is a leaf
    intro t fuel s hs _ ht hf hag
    obtain ⟨f, rfl⟩ : ∃ f, fuel = f + 1 := ⟨fuel - 1, by omega⟩
    have hpte : ∀ i < 512, pteAt s.mem t i = pteAt m t i := fun i hi =>
      (hag t (mem_subtree_self 0)).pteAt hi
    rcases freewalkLoop_level0 (g := freewalk f) (s := s) (t := t)
      fun i (hi : i ∈ List.range 512) => by
        rw [hpte i (List.mem_range.1 hi)]
        exact hs i (List.mem_range.1 hi) with ⟨hall, hrun⟩ | ⟨⟨i, hi, hv⟩, hrun⟩
    · refine .inl ⟨fun i hi => ?_, s.kfree t, by rw [freewalk, hrun]; rfl, Freed.kfree⟩
      rw [← hpte i hi]
      exact hall i (List.mem_range.2 hi)
    · refine .inr ⟨fun hb => ?_, by rw [freewalk, hrun]; rfl⟩
      have hi := List.mem_range.1 hi
      rw [hpte i hi, hb i hi] at hv
      exact absurd hv (by decide)
  | succ k ih =>
    -- the loop frees the subtree of each page below, then the page goes to `kfree`
    intro t fuel s hs hnd ht hf hag
    obtain ⟨f, rfl⟩ : ∃ f, fuel = f + 1 := ⟨fuel - 1, by omega⟩
    rw [subtree_succ] at hnd hag
    have hnd' : (t :: (children m t).flatMap fun c => subtree m c k).Nodup :=
      (List.perm_append_singleton _ _).nodup_iff.1 hnd
    rcases freewalkLoop_spec ht hs.1
      (fun c hc hndc s hagc => @ih c f s (hs.2 c hc) hndc (aligned_of_mem_children hc).1
        (by omega) hagc)
      (List.range 512) s (fun i hi => List.mem_range.1 hi) (List.nodup_range _) hnd'
      (fun i hi => (hag t (List.mem_append_right _ (List.mem_singleton_self _))).pteAt
        (List.mem_range.1 hi))
      (fun u hu => hag u (List.mem_append_left _ hu)) with
      ⟨hall, s', hrun, hpost⟩ | ⟨⟨c, hc, hnb⟩, hrun⟩
    · refine .inl ⟨hall, s'.kfree t, by rw [freewalk, hrun]; rfl, ?_⟩
      rw [subtree_succ]
      exact hpost.trans Freed.kfree
    · exact .inr ⟨fun hb => hnb (hb c hc), by rw [freewalk, hrun]; rfl⟩

/-! ### `uvmfree` -/

section Uvmfree

variable {s : Kmem} {pt sz fuel va : Nat}

/-- A valid level-0 PTE of a tree is a valid entry of one of its level-0 pages. -/
theorem not_bare_of_pte0 {m : Mem} (h : pte0 m pt va % 2 = 1) : ¬Bare m pt 2 := by
  intro hb
  obtain ⟨p, hp, hread⟩ := ptePtr_of_valid h
  obtain ⟨c, hc, g, hg, rfl⟩ := slot_of_ptePtr hp
  have h0 := hb c hc g hg (PX 0 va) (PX_lt 0 va)
  rw [pteAt, hread, h] at h0
  exact absurd h0 (by decide)

/-- A tree whose level-0 PTEs are all invalid, and whose root maps nothing at or above `MAXVA`,
is bare: every entry of a level-0 page is the PTE of a page below `MAXVA`. -/
theorem bare_of_pte0 {m : Mem} (h0 : ∀ va < MAXVA, pte0 m pt va % 2 = 0)
    (hhigh : ∀ i, 256 ≤ i → i < 512 → pteAt m pt i % 2 = 0) : Bare m pt 2 := by
  intro c hc g hg i hi
  obtain ⟨j₂, hj₂, hc⟩ := mem_children.1 hc
  obtain ⟨j₁, hj₁, hg⟩ := mem_children.1 hg
  have hlow : j₂ < 256 := by
    by_contra h
    have := child_eq_none.2 (hhigh j₂ (by omega) hj₂)
    rw [hc] at this
    cases this
  -- the page whose indices are `j₂`, `j₁`, `i`
  have hva : j₂ * 2 ^ 30 + j₁ * 2 ^ 21 + i * 2 ^ 12 < MAXVA := by simp only [MAXVA]; omega
  have h₂ : PX 2 (j₂ * 2 ^ 30 + j₁ * 2 ^ 21 + i * 2 ^ 12) = j₂ := by simp only [PX]; omega
  have h₁ : PX 1 (j₂ * 2 ^ 30 + j₁ * 2 ^ 21 + i * 2 ^ 12) = j₁ := by simp only [PX]; omega
  have h₀ : PX 0 (j₂ * 2 ^ 30 + j₁ * 2 ^ 21 + i * 2 ^ 12) = i := by simp only [PX]; omega
  have hp : ptePtr m pt (j₂ * 2 ^ 30 + j₁ * 2 ^ 21 + i * 2 ^ 12) = some (g + 8 * i) :=
    ptePtr_eq_some.2 ⟨c, g, by rw [h₂]; exact hc, by rw [h₁]; exact hg, by rw [h₀]⟩
  have := h0 _ hva
  rwa [pte0, hp, Option.map_some', Option.getD_some] at this

/-- `uvmunmap` writes level-0 PTEs only: the root and the level-1 pages keep their bytes. -/
theorem uvmunmapLoop_upper {s' : Kmem} {a n : Nat} {doFree : Bool} (hw : WellFormed s.mem pt)
    (ha : a % PGSIZE = 0) (hend : a + n * PGSIZE ≤ MAXVA)
    (hleaf : ∀ i < n, pte0 s.mem pt (a + i * PGSIZE) % 2 = 1 ∧
      PTE_FLAGS (pte0 s.mem pt (a + i * PGSIZE)) ≠ PTE_V)
    (hrun : uvmunmapLoop s pt a (a + n * PGSIZE) doFree = .ok s') :
    ∀ u ∈ pt :: children s.mem pt, AgreeOn s.mem s'.mem u := by
  induction n generalizing s a with
  | zero =>
    rw [Nat.zero_mul, Nat.add_zero, uvmunmapLoop, if_neg (Nat.lt_irrefl a)] at hrun
    cases hrun
    exact fun _ _ _ _ => rfl
  | succ n ih =>
  have hP : PGSIZE = 4096 := rfl
  have hM : MAXVA = 274877906944 := rfl
  have haM : a < MAXVA := by rw [hM]; rw [Nat.succ_mul, hP, hM] at hend; omega
  obtain ⟨hv, hl⟩ := hleaf 0 (by omega)
  rw [Nat.zero_mul, Nat.add_zero] at hv hl
  obtain ⟨p, hp, hread⟩ := ptePtr_of_valid hv
  rw [uvmunmapLoop_step (by rw [Nat.succ_mul, hP]; omega) (by rw [walk_noalloc haM, hp]; rfl)
    (hw.slot_ne_zero hp) (by rw [hread]; exact hv) (by rw [hread]; exact hl),
    show a + (n + 1) * PGSIZE = a + PGSIZE + n * PGSIZE by rw [Nat.succ_mul]; omega] at hrun
  have hup : ∀ u ∈ pt :: children s.mem pt, AgreeOn s.mem (write64 s.mem p 0) u :=
    fun u hu => store_agreeOn hw hp hu
  have hag := ih (hw.store hp (by decide) (by simp)) (by rw [hP] at ha ⊢; omega)
    (by rw [Nat.succ_mul] at hend; omega)
    (fun i hi => by
      have hlt : a + PGSIZE + i * PGSIZE < MAXVA := by
        rw [Nat.succ_mul] at hend; rw [hP] at hend ⊢; omega
      rw [Kmem.setMem_mem, pte0_store hw hp haM hlt, if_neg (by rw [hP] at ha ⊢; omega),
        show a + PGSIZE + i * PGSIZE = a + (i + 1) * PGSIZE by rw [Nat.succ_mul]; omega]
      exact hleaf (i + 1) (by omega)) hrun
  intro u hu
  refine (hup u hu).trans (hag u ?_)
  rwa [Kmem.setMem_mem, (hup pt (List.mem_cons_self _ _)).children]

/-- The first half of `uvmfree`: the pages below `sz` unmapped and freed, the root and the
level-1 pages left alone. -/
theorem uvmfree_unmap (hw : WellFormed s.mem pt) (hsz : sz ≤ MAXVA)
    (hleaf : ∀ va < PGROUNDUP sz, pte0 s.mem pt va % 2 = 1 ∧ PTE_FLAGS (pte0 s.mem pt va) ≠ PTE_V) :
    ∃ s₁, (if sz > 0 then uvmunmap s pt 0 (PGROUNDUP sz / PGSIZE) true else .ok s) = .ok s₁ ∧
      UnmapPost s pt 0 (PGROUNDUP sz / PGSIZE) true s₁ ∧
      ∀ u ∈ pt :: children s.mem pt, AgreeOn s.mem s₁.mem u := by
  have hup := PGROUNDUP_eq hsz
  have hn : PGROUNDUP sz / PGSIZE * PGSIZE = PGROUNDUP sz := by
    rw [hup, Nat.mul_div_cancel _ (by decide)]
  have hleaf' : ∀ i < PGROUNDUP sz / PGSIZE, pte0 s.mem pt (0 + i * PGSIZE) % 2 = 1 ∧
      PTE_FLAGS (pte0 s.mem pt (0 + i * PGSIZE)) ≠ PTE_V := fun i hi =>
    hleaf _ (by rw [← hn, Nat.zero_add]; exact Nat.mul_lt_mul_of_pos_right hi (by decide))
  have hend : 0 + PGROUNDUP sz / PGSIZE * PGSIZE ≤ MAXVA := by
    rw [hn, hup, Nat.zero_add]; simp only [PGSIZE, MAXVA] at hsz ⊢; omega
  split_ifs with h
  · rw [uvmunmap, if_neg (by decide), Nat.mod_eq_of_lt (by simp only [MAXVA] at hend; omega)]
    obtain ⟨s₁, hrun, hpost⟩ : ∃ s₁, uvmunmapLoop s pt 0 (0 + PGROUNDUP sz / PGSIZE * PGSIZE) true =
        .ok s₁ ∧ UnmapPost s pt 0 (PGROUNDUP sz / PGSIZE) true s₁ :=
      uvmunmapLoop_spec hw (by decide) hend hleaf'
    exact ⟨s₁, hrun, hpost, uvmunmapLoop_upper hw (by decide) hend hleaf' hrun⟩
  · rw [show sz = 0 by omega, show PGROUNDUP 0 / PGSIZE = 0 from rfl]
    exact ⟨s, rfl, UnmapPost.zero hw 0, fun _ _ _ _ => rfl⟩

/-- What `uvmfree(pagetable, sz)` frees and leaves on a well-formed tree that maps every page
below `sz` by a leaf and no other page. -/
theorem uvmfree_spec (hw : WellFormed s.mem pt) (hsz : sz ≤ MAXVA) (hfuel : 3 ≤ fuel)
    (hleaf : ∀ va < PGROUNDUP sz, pte0 s.mem pt va % 2 = 1 ∧ PTE_FLAGS (pte0 s.mem pt va) ≠ PTE_V)
    (habove : ∀ va, PGROUNDUP sz ≤ va → va < MAXVA → pte0 s.mem pt va % 2 = 0)
    (hhigh : ∀ i, 256 ≤ i → i < 512 → pteAt s.mem pt i % 2 = 0) :
    ∃ s', uvmfree fuel s pt sz = some (.ok s') ∧
      s'.freed = s.freed ++ leafPages s.mem pt 0 (PGROUNDUP sz / PGSIZE) ++ tables s.mem pt ∧
      s'.freelist = (tables s.mem pt).reverse ++
        (leafPages s.mem pt 0 (PGROUNDUP sz / PGSIZE)).reverse ++ s.freelist ∧
      ∀ u, u % PGSIZE = 0 → u ∉ tables s.mem pt → AgreeOn s.mem s'.mem u := by
  obtain ⟨s₁, hrun₁, hpost, hup⟩ := uvmfree_unmap hw hsz hleaf
  have hn : PGROUNDUP sz / PGSIZE * PGSIZE = PGROUNDUP sz := by
    rw [PGROUNDUP_eq hsz, Nat.mul_div_cancel _ (by decide)]
  -- after the unmap no level-0 entry is valid
  have htab : subtree s₁.mem pt 2 = tables s.mem pt := hpost.tables_eq
  have hbare : Bare s₁.mem pt 2 := bare_of_pte0 (fun va hva => by
      rw [hpost.cleared va hva, Nat.zero_add, hn]
      split_ifs with h
      · rfl
      · exact habove va (by omega) hva)
    fun i hi hi' => by
      rw [(hup pt (List.mem_cons_self _ _)).pteAt hi']
      exact hhigh i hi hi'
  rcases freewalk_spec (s := s₁) 2 hpost.wf.shaped hpost.wf.nodup hpost.wf.aligned hfuel
    (fun _ _ _ _ => rfl) with ⟨-, s', hrun, hfree⟩ | ⟨hnb, -⟩
  · refine ⟨s', by rw [uvmfree, hrun₁]; exact hrun, ?_, ?_, fun u hu hn => ?_⟩
    · rw [hfree.freed, hpost.freed, htab, if_pos rfl]
    · rw [hfree.freelist, hpost.freelist, htab, if_pos rfl, List.append_assoc]
    · exact (hpost.frame u hu hn).trans (hfree.frame u hu fun h => hn (by
        rw [← htab]
        rcases List.mem_cons.1 h with rfl | h
        · exact mem_subtree_self 2
        · exact h))
  · exact absurd hbare hnb

/-- `uvmfree(pagetable, sz)` on a tree that maps the pages below `sz` and nothing else returns,
having freed those pages in address order, then the page-table pages; no other page changed. -/
theorem uvmfree_correct (hw : WellFormed s.mem pt) (hsz : sz ≤ MAXVA) (hfuel : 3 ≤ fuel)
    (hleaf : ∀ va < PGROUNDUP sz, pte0 s.mem pt va % 2 = 1 ∧ PTE_FLAGS (pte0 s.mem pt va) ≠ PTE_V)
    (habove : ∀ va, PGROUNDUP sz ≤ va → va < MAXVA → pte0 s.mem pt va % 2 = 0)
    (hhigh : ∀ i, 256 ≤ i → i < 512 → pteAt s.mem pt i % 2 = 0) :
    ∃ s', uvmfree fuel s pt sz = some (.ok s') ∧
      s'.freed = s.freed ++ leafPages s.mem pt 0 (PGROUNDUP sz / PGSIZE) ++ tables s.mem pt ∧
      s'.freelist = (tables s.mem pt).reverse ++
        (leafPages s.mem pt 0 (PGROUNDUP sz / PGSIZE)).reverse ++ s.freelist ∧
      ∀ u, u % PGSIZE = 0 → u ∉ tables s.mem pt → u ∉ leafPages s.mem pt 0 (PGROUNDUP sz / PGSIZE) →
        AgreeOn s.mem s'.mem u := by
  obtain ⟨s', hrun, hfr, hfl, hag⟩ := uvmfree_spec hw hsz hfuel hleaf habove hhigh
  exact ⟨s', hrun, hfr, hfl, fun u hu hn _ => hag u hu hn⟩

/-- Freeing the user pages 0 and 4096 of `twoPages`, and then its three page-table pages. -/
theorem uvmfree_correct_twoPages :
    WellFormed (twoPages (userLeaf 16384) (userLeaf 20480)) 4096 ∧ 8192 ≤ MAXVA ∧ 3 ≤ 3 ∧
    (∀ va < PGROUNDUP 8192, pte0 (twoPages (userLeaf 16384) (userLeaf 20480)) 4096 va % 2 = 1 ∧
      PTE_FLAGS (pte0 (twoPages (userLeaf 16384) (userLeaf 20480)) 4096 va) ≠ PTE_V) ∧
    (∀ va, PGROUNDUP 8192 ≤ va → va < MAXVA →
      pte0 (twoPages (userLeaf 16384) (userLeaf 20480)) 4096 va % 2 = 0) ∧
    (∀ i, 256 ≤ i → i < 512 → pteAt (twoPages (userLeaf 16384) (userLeaf 20480)) 4096 i % 2 = 0) ∧
    ∃ s', uvmfree 3 ⟨twoPages (userLeaf 16384) (userLeaf 20480), [], []⟩ 4096 8192 = some (.ok s') ∧
      s'.freed = [] ++ leafPages (twoPages (userLeaf 16384) (userLeaf 20480)) 4096 0
          (PGROUNDUP 8192 / PGSIZE) ++ tables (twoPages (userLeaf 16384) (userLeaf 20480)) 4096 ∧
      s'.freelist = (tables (twoPages (userLeaf 16384) (userLeaf 20480)) 4096).reverse ++
        (leafPages (twoPages (userLeaf 16384) (userLeaf 20480)) 4096 0
          (PGROUNDUP 8192 / PGSIZE)).reverse ++ [] ∧
      ∀ u, u % PGSIZE = 0 → u ∉ tables (twoPages (userLeaf 16384) (userLeaf 20480)) 4096 →
        u ∉ leafPages (twoPages (userLeaf 16384) (userLeaf 20480)) 4096 0 (PGROUNDUP 8192 / PGSIZE) →
        AgreeOn (twoPages (userLeaf 16384) (userLeaf 20480)) s'.mem u := by
  have hw := (twoPages_wf (userLeaf 16384) (userLeaf 20480) (by decide) (by decide) (by decide)
    (by decide)).1
  have hpte : ∀ va < MAXVA, pte0 (twoPages (userLeaf 16384) (userLeaf 20480)) 4096 va =
      if va / PGSIZE = 1 then userLeaf 20480 else if va / PGSIZE = 0 then userLeaf 16384 else 0 :=
    fun va hva => by rw [twoPages_pte0 (by decide) (by decide) hva]; rfl
  have hleaf : ∀ va < PGROUNDUP 8192,
      pte0 (twoPages (userLeaf 16384) (userLeaf 20480)) 4096 va % 2 = 1 ∧
      PTE_FLAGS (pte0 (twoPages (userLeaf 16384) (userLeaf 20480)) 4096 va) ≠ PTE_V :=
    fun va hva => by
      have hva : va < 8192 := hva
      rw [hpte va (by simp only [MAXVA]; omega)]
      split_ifs <;> first | decide | (simp only [PGSIZE] at *; omega)
  have habove : ∀ va, PGROUNDUP 8192 ≤ va → va < MAXVA →
      pte0 (twoPages (userLeaf 16384) (userLeaf 20480)) 4096 va % 2 = 0 := fun va h hva => by
    have h : 8192 ≤ va := h
    rw [hpte va hva, if_neg (by simp only [PGSIZE]; omega), if_neg (by simp only [PGSIZE]; omega)]
  have hhigh : ∀ i, 256 ≤ i → i < 512 →
      pteAt (twoPages (userLeaf 16384) (userLeaf 20480)) 4096 i % 2 = 0 :=
    fun i hi hi' => by rw [twoPages_root (by omega) hi']
  exact ⟨hw, by decide, le_rfl, hleaf, habove, hhigh,
    uvmfree_correct (s := ⟨twoPages (userLeaf 16384) (userLeaf 20480), [], []⟩) hw (by decide) le_rfl
      hleaf habove hhigh⟩

/-- `uvmfree(pagetable, sz)` on a well-formed tree that maps every page below `sz` and some page
`va` at or above `sz` too: after unmapping the pages below `sz` it panics in `freewalk`. -/
theorem uvmfree_panics (hw : WellFormed s.mem pt) (hsz : sz ≤ MAXVA) (hfuel : 3 ≤ fuel)
    (hleaf : ∀ va < PGROUNDUP sz, pte0 s.mem pt va % 2 = 1 ∧ PTE_FLAGS (pte0 s.mem pt va) ≠ PTE_V)
    (hva : PGROUNDUP sz ≤ va) (hvaM : va < MAXVA) (hmapped : pte0 s.mem pt va % 2 = 1) :
    uvmfree fuel s pt sz = some (.error "freewalk: leaf") := by
  obtain ⟨s₁, hrun₁, hpost, -⟩ := uvmfree_unmap hw hsz hleaf
  have hn : PGROUNDUP sz / PGSIZE * PGSIZE = PGROUNDUP sz := by
    rw [PGROUNDUP_eq hsz, Nat.mul_div_cancel _ (by decide)]
  have hstill : pte0 s₁.mem pt va % 2 = 1 := by
    rw [hpost.cleared va hvaM, Nat.zero_add, hn, if_neg (by omega)]
    exact hmapped
  rcases freewalk_spec (s := s₁) 2 hpost.wf.shaped hpost.wf.nodup hpost.wf.aligned hfuel
    (fun _ _ _ _ => rfl) with ⟨hb, -⟩ | ⟨-, hrun⟩
  · exact absurd hb (not_bare_of_pte0 hstill)
  · rw [uvmfree, hrun₁]
    exact hrun

/-- `uvmfree` with `sz` one page while the page 4096 of `twoPages` is still mapped. -/
theorem uvmfree_panics_twoPages :
    WellFormed (twoPages (userLeaf 16384) (userLeaf 20480)) 4096 ∧ 4096 ≤ MAXVA ∧ 3 ≤ 3 ∧
    (∀ va < PGROUNDUP 4096, pte0 (twoPages (userLeaf 16384) (userLeaf 20480)) 4096 va % 2 = 1 ∧
      PTE_FLAGS (pte0 (twoPages (userLeaf 16384) (userLeaf 20480)) 4096 va) ≠ PTE_V) ∧
    PGROUNDUP 4096 ≤ 4096 ∧ 4096 < MAXVA ∧
    pte0 (twoPages (userLeaf 16384) (userLeaf 20480)) 4096 4096 % 2 = 1 ∧
    uvmfree 3 ⟨twoPages (userLeaf 16384) (userLeaf 20480), [], []⟩ 4096 4096 =
      some (.error "freewalk: leaf") := by
  have hw := (twoPages_wf (userLeaf 16384) (userLeaf 20480) (by decide) (by decide) (by decide)
    (by decide)).1
  have hleaf : ∀ va < PGROUNDUP 4096,
      pte0 (twoPages (userLeaf 16384) (userLeaf 20480)) 4096 va % 2 = 1 ∧
      PTE_FLAGS (pte0 (twoPages (userLeaf 16384) (userLeaf 20480)) 4096 va) ≠ PTE_V :=
    fun va hva => by
      have hva : va < 4096 := hva
      rw [twoPages_pte0 (by decide) (by decide) (by simp only [MAXVA]; omega),
        if_neg (by simp only [PGSIZE]; omega), if_pos (by simp only [PGSIZE]; omega)]
      decide
  have hmapped : pte0 (twoPages (userLeaf 16384) (userLeaf 20480)) 4096 4096 % 2 = 1 := by
    rw [twoPages_pte0 (by decide) (by decide) (by decide)]
    decide
  exact ⟨hw, by decide, le_rfl, hleaf, le_rfl, by decide, hmapped,
    uvmfree_panics (s := ⟨twoPages (userLeaf 16384) (userLeaf 20480), [], []⟩) hw (by decide) le_rfl
      hleaf le_rfl (by decide) hmapped⟩

end Uvmfree

/-! ### Against `proc_free_k_pagetable` -/

/-- Entry `i` of the page at `u` is valid and a leaf: an entry at which `freewalk` panics. -/
def LeafAt (m : Mem) (u i : Nat) : Prop := pteAt m u i % 2 = 1 ∧ pteAt m u i &&& PTE_RWX ≠ 0

/-- Some entry of the page at `u` is valid and a leaf. -/
def HasLeaf (m : Mem) (u : Nat) : Prop := ∃ i < 512, LeafAt m u i

/-- A run of `proc_free_k_pagetable` from `s` to `s'` that passed the pages `l` to `kfree`: pages
all of them, and the leaf entries of every page as they were. -/
structure FreeRun (s s' : Kmem) (l : List Nat) : Prop where
  freed : s'.freed = s.freed ++ l
  aligned : ∀ u ∈ l, u % PGSIZE = 0
  leaves : ∀ u, u % PGSIZE = 0 → ∀ i < 512, (LeafAt s'.mem u i ↔ LeafAt s.mem u i)

/-- What `freewalk` returns, `r`, beside a run of `proc_free_k_pagetable` that ended in `s'`: the
panic if `leaf`, and `s'` otherwise. -/
def Beside (leaf : Prop) (r : Option (Except String Kmem)) (s' : Kmem) : Prop :=
  leaf ∧ r = some (.error "freewalk: leaf") ∨ ¬leaf ∧ r = some (.ok s')

theorem Beside.congr {leaf leaf' : Prop} {r : Option (Except String Kmem)} {s' : Kmem}
    (h : leaf ↔ leaf') (hb : Beside leaf r s') : Beside leaf' r s' :=
  hb.imp (fun ⟨hl, hr⟩ => ⟨h.1 hl, hr⟩) fun ⟨hl, hr⟩ => ⟨mt h.2 hl, hr⟩

namespace FreeRun

variable {s s' s₁ s₂ : Kmem} {l l₁ l₂ : List Nat} {t i u : Nat}

theorem refl : FreeRun s s [] :=
  ⟨(List.append_nil _).symm, fun _ h => absurd h (List.not_mem_nil _), fun _ _ _ _ => Iff.rfl⟩

theorem trans (h₁ : FreeRun s s₁ l₁) (h₂ : FreeRun s₁ s₂ l₂) : FreeRun s s₂ (l₁ ++ l₂) :=
  ⟨by rw [h₂.freed, h₁.freed, List.append_assoc],
    fun u hu => (List.mem_append.1 hu).elim (h₁.aligned u) (h₂.aligned u),
    fun u hu i hi => (h₂.leaves u hu i hi).trans (h₁.leaves u hu i hi)⟩

/-- `k_pagetable[i] = 0` on an entry that is no leaf. -/
theorem clear (ht : t % PGSIZE = 0) (hi : i < 512) (hl : ¬LeafAt s.mem t i) :
    FreeRun s (s.setMem (write64 s.mem (t + 8 * i) 0)) [] := by
  refine ⟨(List.append_nil _).symm, fun _ h => absurd h (List.not_mem_nil _), fun u hu j hj => ?_⟩
  simp only [PGSIZE] at ht hu
  rw [LeafAt, Kmem.setMem_mem, pteAt_write64 (by omega) (by omega)]
  split_ifs with h
  · obtain ⟨rfl, rfl⟩ : u = t ∧ j = i := by omega
    exact iff_of_false (fun h' => by simp at h') hl
  · rfl

theorem kfree (ht : t % PGSIZE = 0) : FreeRun s (s.kfree t) [t] :=
  ⟨rfl, fun _ hu => List.mem_singleton.1 hu ▸ ht, fun _ _ _ _ => Iff.rfl⟩

theorem hasLeaf (h : FreeRun s s' l) (hu : u % PGSIZE = 0) : HasLeaf s'.mem u ↔ HasLeaf s.mem u :=
  exists_congr fun i => and_congr_right fun hi => h.leaves u hu i hi

end FreeRun

section Agree

variable {fuel t : Nat}

/-- The loop of `freewalk(t)` against that of `proc_free_k_pagetable(t)` over the same entries,
when each call on a page below agrees with the other's or panics: so does the loop. -/
theorem freewalkLoop_agrees
    (ih : ∀ s c, freewalk fuel s c = (procFreeKPagetable fuel s c).map .ok ∨
      freewalk fuel s c = some (.error "freewalk: leaf")) :
    ∀ (is : List Nat) (s : Kmem),
      freewalkLoop (freewalk fuel) t is s =
          (is.foldlM (fun s i => freeEntry (procFreeKPagetable fuel) s t i) s).map .ok ∨
        freewalkLoop (freewalk fuel) t is s = some (.error "freewalk: leaf")
  | [], _ => .inl rfl
  | i :: is, s => by
    rw [List.foldlM_cons]
    rcases Nat.mod_two_eq_zero_or_one (pteAt s.mem t i) with hv | hv
    · -- an invalid entry: both go on
      rw [freewalkLoop_cons_ok (freewalkEntry_invalid hv), freeEntry_skip (.inl hv)]
      exact freewalkLoop_agrees ih is s
    by_cases hr : pteAt s.mem t i &&& PTE_RWX = 0
    · -- an entry that points down: the calls on the page below agree, or `freewalk`'s panics
      have he := freewalkEntry_inner (g := freewalk fuel) hv hr
      rw [freeEntry_inner hv hr]
      rcases ih s (PTE2PA (pteAt s.mem t i)) with h | h
      · rw [h] at he
        cases hq : procFreeKPagetable fuel s (PTE2PA (pteAt s.mem t i)) with
        | none =>
          rw [hq] at he
          exact .inl (by rw [freewalkLoop, he]; rfl)
        | some s₁ =>
          rw [hq] at he
          rw [freewalkLoop_cons_ok he]
          exact freewalkLoop_agrees ih is _
      · rw [h] at he
        exact .inr (freewalkLoop_cons_leaf he)
    · -- a leaf: `freewalk` panics
      exact .inr (freewalkLoop_cons_leaf (freewalkEntry_leaf hv hr))

/-- An entry that is no leaf drops out of the leaf test of a loop. -/
theorem exists_leaf_cons {m : Mem} {i : Nat} {is : List Nat} {R : Prop} (h : ¬LeafAt m t i) :
    ((∃ j ∈ i :: is, LeafAt m t j) ∨ R) ↔ (∃ j ∈ is, LeafAt m t j) ∨ R := by
  simp only [List.mem_cons, exists_eq_or_imp, h, false_or]

/-- The loops of `freewalk(t)` and `proc_free_k_pagetable(t)` side by side: the first panics
exactly when an entry it reads or a page the other frees holds a leaf. -/
theorem freewalkLoop_beside (ht : t % PGSIZE = 0)
    (ih : ∀ s c s', c % PGSIZE = 0 → procFreeKPagetable fuel s c = some s' →
      ∃ l, FreeRun s s' l ∧ Beside (∃ u ∈ l, HasLeaf s.mem u) (freewalk fuel s c) s') :
    ∀ (is : List Nat) (s s' : Kmem), (∀ i ∈ is, i < 512) →
      is.foldlM (fun s i => freeEntry (procFreeKPagetable fuel) s t i) s = some s' →
      ∃ l, FreeRun s s' l ∧ Beside ((∃ i ∈ is, LeafAt s.mem t i) ∨ ∃ u ∈ l, HasLeaf s.mem u)
        (freewalkLoop (freewalk fuel) t is s) s'
  | [], s, s', _, h => by
    cases h
    exact ⟨[], .refl, .inr ⟨by simp, rfl⟩⟩
  | i :: is, s, s', hlt, h => by
    have hi := hlt i (List.mem_cons_self _ _)
    have hlt' : ∀ j ∈ is, j < 512 := fun j hj => hlt j (List.mem_cons_of_mem _ hj)
    rw [List.foldlM_cons] at h
    rcases Nat.mod_two_eq_zero_or_one (pteAt s.mem t i) with hv | hv
    · -- an invalid entry: both loops go on
      rw [freeEntry_skip (.inl hv)] at h
      obtain ⟨l, hrun, hb⟩ := freewalkLoop_beside ht ih is s s' hlt' h
      refine ⟨l, hrun, ?_⟩
      rw [freewalkLoop_cons_ok (freewalkEntry_invalid hv)]
      exact hb.congr (exists_leaf_cons fun hl => by have := hl.1; omega).symm
    by_cases hr : pteAt s.mem t i &&& PTE_RWX = 0
    swap
    · -- a leaf: `proc_free_k_pagetable` skips it, `freewalk` panics
      rw [freeEntry_skip (.inr hr)] at h
      obtain ⟨l, hrun, -⟩ := freewalkLoop_beside ht ih is s s' hlt' h
      exact ⟨l, hrun, .inl ⟨.inl ⟨i, List.mem_cons_self _ _, hv, hr⟩,
        freewalkLoop_cons_leaf (freewalkEntry_leaf hv hr)⟩⟩
    -- an entry that points down: the page below, then the entry cleared
    have hni : ¬LeafAt s.mem t i := fun hl => hl.2 hr
    rw [freeEntry_inner hv hr] at h
    cases hq : procFreeKPagetable fuel s (PTE2PA (pteAt s.mem t i)) with
    | none => rw [hq] at h; cases h
    | some s₁ =>
    rw [hq] at h
    obtain ⟨l₁, hrun₁, hb₁⟩ := ih s _ s₁ PTE2PA_aligned hq
    have hrun₂ := hrun₁.trans (FreeRun.clear ht hi (mt (hrun₁.leaves t ht i hi).1 hni))
    rw [List.append_nil] at hrun₂
    obtain ⟨l₂, hrun₃, hb₃⟩ := freewalkLoop_beside ht ih is _ s' hlt' h
    refine ⟨l₁ ++ l₂, hrun₂.trans hrun₃, ?_⟩
    have he := freewalkEntry_inner (g := freewalk fuel) hv hr
    rcases hb₁ with ⟨hl₁, hp⟩ | ⟨hl₁, hp⟩
    · -- the call below panics, and the loop with it
      rw [hp] at he
      refine .inl ⟨.inr ?_, freewalkLoop_cons_leaf he⟩
      obtain ⟨u, hu, hu'⟩ := hl₁
      exact ⟨u, List.mem_append_left _ hu, hu'⟩
    · -- the call below returns what the other's does, and both loops go on
      rw [hp] at he
      rw [freewalkLoop_cons_ok he]
      have happ : (∃ u ∈ l₁ ++ l₂, HasLeaf s.mem u) ↔ ∃ u ∈ l₂, HasLeaf s.mem u :=
        ⟨fun ⟨u, hu, h'⟩ => (List.mem_append.1 hu).elim (fun hu => absurd ⟨u, hu, h'⟩ hl₁)
          fun hu => ⟨u, hu, h'⟩, fun ⟨u, hu, h'⟩ => ⟨u, List.mem_append_right _ hu, h'⟩⟩
      refine hb₃.congr ?_
      rw [exists_leaf_cons hni, happ]
      refine or_congr (exists_congr fun j => and_congr_right fun hj =>
        hrun₂.leaves t ht j (hlt' j hj)) (exists_congr fun u => and_congr_right fun hu =>
        hrun₂.hasLeaf (hrun₃.aligned u hu))

/-- On any memory, `freewalk` returns what `proc_free_k_pagetable` returns, or panics. -/
theorem freewalk_agrees (s : Kmem) :
    freewalk fuel s t = (procFreeKPagetable fuel s t).map .ok ∨
      freewalk fuel s t = some (.error "freewalk: leaf") := by
  induction fuel generalizing s t with
  | zero => exact .inl rfl
  | succ fuel ih =>
    rw [freewalk, procFreeKPagetable]
    rcases freewalkLoop_agrees (t := t) (fun s c => ih s) (List.range 512) s with h | h
    · left
      rw [h]
      cases (List.range 512).foldlM (fun s i => freeEntry (procFreeKPagetable fuel) s t i) s <;> rfl
    · right
      rw [h]
      rfl

/-- Where `proc_free_k_pagetable(t)` returns, `freewalk(t)` panics exactly when a page the other
passes to `kfree` holds a leaf. -/
theorem freewalk_beside {s s' : Kmem} (ht : t % PGSIZE = 0)
    (h : procFreeKPagetable fuel s t = some s') :
    ∃ l, FreeRun s s' l ∧ Beside (∃ u ∈ l, HasLeaf s.mem u) (freewalk fuel s t) s' := by
  induction fuel generalizing s t s' with
  | zero => cases h
  | succ fuel ih =>
  rw [procFreeKPagetable] at h
  obtain ⟨s₀, hloop, rfl⟩ := Option.map_eq_some'.1 h
  obtain ⟨l, hrun, hb⟩ := freewalkLoop_beside ht (fun _ _ _ hc hq => ih hc hq) (List.range 512) s s₀
    (fun i hi => List.mem_range.1 hi) hloop
  refine ⟨l ++ [t], hrun.trans (FreeRun.kfree ht), ?_⟩
  rw [freewalk]
  -- the root's own leaves are those its loop reads
  have hroot : ((∃ i ∈ List.range 512, LeafAt s.mem t i) ∨ ∃ u ∈ l, HasLeaf s.mem u) ↔
      ∃ u ∈ l ++ [t], HasLeaf s.mem u := by
    simp only [List.mem_append, List.mem_singleton, or_and_right, exists_or, exists_eq_left,
      List.mem_range, HasLeaf]
    exact or_comm
  rcases hb with ⟨hl, hr⟩ | ⟨hl, hr⟩
  · exact .inl ⟨hroot.1 hl, by rw [hr]; rfl⟩
  · exact .inr ⟨mt hroot.2 hl, by rw [hr]; rfl⟩

/-- `freewalk` does what `proc_free_k_pagetable` does or panics, and where the other returns, it
panics exactly when a page passed to `kfree` holds a valid leaf entry. -/
theorem freewalk_agrees_procFree (s : Kmem) (ht : t % PGSIZE = 0) :
    (freewalk fuel s t = (procFreeKPagetable fuel s t).map .ok ∨
      freewalk fuel s t = some (.error "freewalk: leaf")) ∧
    ∀ s', procFreeKPagetable fuel s t = some s' → ∃ l, s'.freed = s.freed ++ l ∧
      ((∃ u ∈ l, HasLeaf s.mem u) ∧ freewalk fuel s t = some (.error "freewalk: leaf") ∨
        (¬∃ u ∈ l, HasLeaf s.mem u) ∧ freewalk fuel s t = some (.ok s')) :=
  ⟨freewalk_agrees s, fun _ h =>
    let ⟨l, hrun, hb⟩ := freewalk_beside ht h
    ⟨l, hrun.freed, hb⟩⟩

/-- `twoPages` still maps the pages 0 and 1 from its level-0 page 12288: `proc_free_k_pagetable`
frees that page, and `freewalk` panics. -/
theorem freewalk_agrees_procFree_twoPages :
    4096 % PGSIZE = 0 ∧ ∃ s' l,
      procFreeKPagetable 3 ⟨twoPages (userLeaf 16384) (userLeaf 20480), [], []⟩ 4096 = some s' ∧
      s'.freed = [] ++ l ∧ (∃ u ∈ l, HasLeaf (twoPages (userLeaf 16384) (userLeaf 20480)) u) ∧
      freewalk 3 ⟨twoPages (userLeaf 16384) (userLeaf 20480), [], []⟩ 4096 =
        some (.error "freewalk: leaf") := by
  obtain ⟨hw, ht⟩ := twoPages_wf (userLeaf 16384) (userLeaf 20480) (by decide) (by decide)
    (by decide) (by decide)
  obtain ⟨s', hrun, hfr⟩ := procFree_spec (s := ⟨twoPages (userLeaf 16384) (userLeaf 20480), [], []⟩)
    2 hw.shaped hw.nodup hw.aligned (show 2 < 3 by decide) fun _ _ _ _ => rfl
  obtain ⟨l, hl, hb⟩ :=
    (freewalk_agrees_procFree _ (show 4096 % PGSIZE = 0 from rfl)).2 s' hrun
  have hleaf : ∃ u ∈ l, HasLeaf (twoPages (userLeaf 16384) (userLeaf 20480)) u := by
    have hl' : l = tables (twoPages (userLeaf 16384) (userLeaf 20480)) 4096 := by
      have h₁ := hl.symm.trans hfr.freed
      simp only [List.nil_append] at h₁
      exact h₁
    exact ⟨12288, hl' ▸ ht.mem_iff.2 (List.mem_cons_self _ _), 0, by decide, by decide, by decide⟩
  refine ⟨rfl, s', l, hrun, hl, hleaf, ?_⟩
  rcases hb with ⟨-, h⟩ | ⟨h, -⟩
  exacts [h, absurd hleaf h]

end Agree

end BufCache.Vm
