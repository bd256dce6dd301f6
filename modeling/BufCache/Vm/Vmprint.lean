import BufCache.Vm.Tree
import Mathlib.Data.List.Range

/-!
# `vmprint`

`vmprint(pagetable)` (lines 357-360) prints a header, then `vpprint(pagetable, 2, 0, 0)` (lines
363-394) prints one line per valid entry of the page at each level, in the order of the
entries, and goes down into the page a valid entry without `R`, `W`, `X` points to, passing the
indices taken so far. A line of level 0 prints the address `(L2 << 30) + (L1 << 21) + (i << 12)`
its entry maps. Each `printf` is modelled by its arguments (`Line`): `printf` itself is not in
the sources.

On a well-formed tree the level-0 lines list every mapped page once, in increasing order of
address, each with the address, physical page and flags its level-0 PTE gives
(`vmprint_leaves`): the shifts are on `uint64`, so the printed address is the page's own.
-/

namespace BufCache.Vm

/-- One line `vmprint` prints: the arguments of its `printf`. -/
inductive Line where
  /-- `"page table %p\n"` -/
  | header (pagetable : Nat)
  /-- `"||idx: %d: pa: %p, flags: %s\n"`, for an entry of the root -/
  | top (i pa : Nat) (flags : List Char)
  /-- `"||   ||idx: %d: pa: %p, flags: %s\n"`, for an entry of a level-1 page -/
  | mid (i pa : Nat) (flags : List Char)
  /-- `"||   ||   ||idx: %d: va: %p -> pa: %p, flags: %s\n"`, for an entry of a level-0 page -/
  | leaf (i va pa : Nat) (flags : List Char)
  deriving DecidableEq, Repr

/-- The `flags` of `vpprint`: `"----"` with `r`, `w`, `x`, `u` where the PTE has the bit. -/
def flagsOf (pte : Nat) : List Char :=
  [if pte &&& PTE_R ≠ 0 then 'r' else '-', if pte &&& PTE_W ≠ 0 then 'w' else '-',
    if pte &&& PTE_X ≠ 0 then 'x' else '-', if pte &&& PTE_U ≠ 0 then 'u' else '-']

/-- The line `vpprint` prints for the valid entry `i`, holding `pte`, of a page at `rank`. -/
def vpLine (rank L2 L1 i pte : Nat) : Line :=
  if rank = 2 then .top i (PTE2PA pte) (flagsOf pte)
  else if rank = 1 then .mid i (PTE2PA pte) (flagsOf pte)
  else .leaf i ((L2 <<< 30) + (L1 <<< 21) + (i <<< 12)) (PTE2PA pte) (flagsOf pte)

/-- `vpprint(pagetable, rank, L2, L1)` (lines 363-394). -/
def vpprint (m : Mem) (pagetable rank L2 L1 : Nat) : List Line :=
  (List.range 512).flatMap fun i =>
    let pte := pteAt m pagetable i
    if pte &&& PTE_V = 0 then []
    else vpLine rank L2 L1 i pte ::
      if pte &&& (PTE_R ||| PTE_W ||| PTE_X) = 0 then
        if h : rank = 2 then vpprint m (PTE2PA pte) (rank - 1) i 0
        else if h' : rank = 1 then vpprint m (PTE2PA pte) (rank - 1) L2 i
        else []
      else []
termination_by rank
decreasing_by all_goals omega

/-- `vmprint(pagetable)` (lines 357-360). -/
def vmprint (m : Mem) (pagetable : Nat) : List Line :=
  .header pagetable :: vpprint m pagetable 2 0 0

/-- The address, page and flags a level-0 line prints. -/
def Line.leafEntry : Line → List (Nat × Nat × List Char)
  | .leaf _ va pa flags => [(va, pa, flags)]
  | _ => []

/-- The page `n` of the address space, with the page and flags of its level-0 PTE, where the
tree maps it. -/
def mappedAt (m : Mem) (pt n : Nat) : List (Nat × Nat × List Char) :=
  if pte0 m pt (n * PGSIZE) % 2 = 1 then
    [(n * PGSIZE, PTE2PA (pte0 m pt (n * PGSIZE)), flagsOf (pte0 m pt (n * PGSIZE)))]
  else []

/-- The pages a tree maps, among the `2^27` pages its three levels index, in increasing order of
address. -/
def mappedPages (m : Mem) (pt : Nat) : List (Nat × Nat × List Char) :=
  (List.range (512 * 512 * 512)).flatMap (mappedAt m pt)

/-! ### The lines, level by level -/

section Levels

variable {m : Mem} {t L2 L1 : Nat}

@[simp] theorem leafEntry_vpLine_of_ne {rank i pte : Nat} (h : rank = 2 ∨ rank = 1) :
    (vpLine rank L2 L1 i pte).leafEntry = [] := by
  rcases h with rfl | rfl <;> rfl

theorem and_PTE_V_eq_zero {e : Nat} : e &&& PTE_V = 0 ↔ ¬e % 2 = 1 := by
  rw [and_PTE_V]
  omega

/-- A level-0 page prints a line for each valid entry, with the address of its page. -/
theorem leaves_rank0 :
    (vpprint m t 0 L2 L1).flatMap Line.leafEntry = (List.range 512).flatMap fun i =>
      if pteAt m t i % 2 = 1 then
        [((L2 <<< 30) + (L1 <<< 21) + (i <<< 12), PTE2PA (pteAt m t i), flagsOf (pteAt m t i))]
      else [] := by
  rw [vpprint, List.flatMap_assoc]
  refine List.flatMap_congr fun i _ => ?_
  by_cases hv : pteAt m t i % 2 = 1
  · simp [and_PTE_V_eq_zero, hv, vpLine, Line.leafEntry]
  · simp [and_PTE_V_eq_zero, hv]

/-- A page at rank 1 or 2 whose valid entries point down prints, below each of them, the lines
of the page it points to. -/
theorem leaves_upper {rank : Nat} (hr : rank = 2 ∨ rank = 1)
    (hinner : ∀ i < 512, pteAt m t i % 2 = 1 → pteAt m t i &&& PTE_RWX = 0) :
    (vpprint m t rank L2 L1).flatMap Line.leafEntry = (List.range 512).flatMap fun i =>
      match child m t i with
      | some c => (vpprint m c (rank - 1) (if rank = 2 then i else L2)
          (if rank = 2 then 0 else i)).flatMap Line.leafEntry
      | none => [] := by
  rw [vpprint, List.flatMap_assoc]
  refine List.flatMap_congr fun i hi => ?_
  by_cases hv : pteAt m t i % 2 = 1
  · have hc : child m t i = some (PTE2PA (pteAt m t i)) := child_eq_some.2 ⟨hv, rfl⟩
    have hrwx := hinner i (List.mem_range.1 hi) hv
    simp only [PTE_RWX] at hrwx
    rcases hr with rfl | rfl <;> simp [and_PTE_V_eq_zero, hv, hc, hrwx, leafEntry_vpLine_of_ne]
  · have hc : child m t i = none := child_eq_none.2 (by omega)
    simp [and_PTE_V_eq_zero, hv, hc]

end Levels

/-! ### The address space, page by page -/

/-- The numbers below `a * b`, as `b` numbers after each `i * b`. -/
theorem range_mul (a b : Nat) :
    List.range (a * b) = (List.range a).flatMap fun i => (List.range b).map (i * b + ·) := by
  induction a with
  | zero => simp
  | succ a ih =>
    rw [Nat.succ_mul, List.range_add, ih, List.range_succ, List.flatMap_append,
      List.flatMap_singleton]

section Index

variable {m : Mem} {pt i₂ i₁ i₀ : Nat}

/-- The level-0 PTE of the page with indices `i₂`, `i₁`, `i₀`, read down the tree. -/
theorem pte0_index (h₂ : i₂ < 512) (h₁ : i₁ < 512) (h₀ : i₀ < 512) :
    pte0 m pt (((i₂ * 512 + i₁) * 512 + i₀) * PGSIZE) =
      ((child m pt i₂).bind fun t => (child m t i₁).map fun t => pteAt m t i₀).getD 0 := by
  have hP2 : PX 2 (((i₂ * 512 + i₁) * 512 + i₀) * PGSIZE) = i₂ := by simp only [PX, PGSIZE]; omega
  have hP1 : PX 1 (((i₂ * 512 + i₁) * 512 + i₀) * PGSIZE) = i₁ := by simp only [PX, PGSIZE]; omega
  have hP0 : PX 0 (((i₂ * 512 + i₁) * 512 + i₀) * PGSIZE) = i₀ := by simp only [PX, PGSIZE]; omega
  simp only [pte0, ptePtr, hP2, hP1, hP0]
  cases child m pt i₂ with
  | none => rfl
  | some t =>
    simp only [Option.some_bind]
    cases child m t i₁ <;> simp [pteAt]

/-- The pages a tree maps, root entry by root entry, then level-1 entry by level-1 entry. -/
theorem mappedPages_eq : mappedPages m pt = (List.range 512).flatMap fun i₂ =>
    (List.range 512).flatMap fun i₁ => (List.range 512).flatMap fun i₀ =>
      mappedAt m pt ((i₂ * 512 + i₁) * 512 + i₀) := by
  rw [mappedPages, range_mul, range_mul]
  simp only [List.flatMap_assoc, List.flatMap_map]

end Index

/-- The level-0 lines `vmprint` prints for a well-formed tree are its mapped pages in increasing
order, each with its address, physical page and flags. -/
theorem vmprint_leaves {m : Mem} {pt : Nat} (hw : WellFormed m pt) :
    (vmprint m pt).flatMap Line.leafEntry = mappedPages m pt := by
  rw [vmprint, List.flatMap_cons, show (Line.header pt).leafEntry = [] from rfl, List.nil_append,
    leaves_upper (.inl rfl) (hw.inner pt (List.mem_cons_self _ _)), mappedPages_eq]
  refine List.flatMap_congr fun i₂ h₂ => ?_
  replace h₂ := List.mem_range.1 h₂
  cases hc : child m pt i₂ with
  | none =>
    -- an invalid root entry: no page below it is mapped
    refine (List.flatMap_eq_nil_iff.2 fun i₁ h₁ => List.flatMap_eq_nil_iff.2 fun i₀ h₀ => ?_).symm
    simp [mappedAt, pte0_index h₂ (List.mem_range.1 h₁) (List.mem_range.1 h₀), hc]
  | some t₁ =>
    have ht₁ : t₁ ∈ children m pt := mem_children.2 ⟨i₂, h₂, hc⟩
    dsimp only
    rw [leaves_upper (.inr rfl) (hw.inner t₁ (List.mem_cons_of_mem _ ht₁))]
    refine List.flatMap_congr fun i₁ h₁ => ?_
    replace h₁ := List.mem_range.1 h₁
    cases hc' : child m t₁ i₁ with
    | none =>
      refine (List.flatMap_eq_nil_iff.2 fun i₀ h₀ => ?_).symm
      simp [mappedAt, pte0_index h₂ h₁ (List.mem_range.1 h₀), hc, hc']
    | some t₀ =>
      dsimp only
      rw [leaves_rank0]
      refine List.flatMap_congr fun i₀ h₀ => ?_
      rw [mappedAt, pte0_index h₂ h₁ (List.mem_range.1 h₀), hc]
      have hva : i₂ <<< 30 + i₁ <<< 21 + i₀ <<< 12 = ((i₂ * 512 + i₁) * 512 + i₀) * PGSIZE := by
        simp only [Nat.shiftLeft_eq, PGSIZE]
        omega
      simp only [Option.some_bind, hc', Option.map_some', Option.getD_some, ite_true, ite_false,
        Nat.reduceEqDiff, hva]

/-- `vmprint` of the tree `twoPages`, which maps the pages 0 and 1. -/
theorem vmprint_leaves_twoPages :
    WellFormed (twoPages (userLeaf 16384) (userLeaf 20480)) 4096 ∧
    (vmprint (twoPages (userLeaf 16384) (userLeaf 20480)) 4096).flatMap Line.leafEntry =
      mappedPages (twoPages (userLeaf 16384) (userLeaf 20480)) 4096 := by
  have hw := (twoPages_wf (userLeaf 16384) (userLeaf 20480) (by decide) (by decide) (by decide)
    (by decide)).1
  exact ⟨hw, vmprint_leaves hw⟩

end BufCache.Vm
