import Mathlib.Data.Nat.Bitwise
import Mathlib.Data.List.Nodup

/-!
# Physical memory, the Sv39 macros, and the page allocator

`kernel/vm.c` reaches page-table pages and user pages through their physical addresses: the
kernel maps RAM one to one. Memory is one byte per address, and a page-table entry (PTE) is the
64-bit little-endian word at its address, so a write to a user page and a write to a PTE act on
the same bytes.

The macros of `riscv.h` and `memlayout.h` that `vm.c` uses are not part of the sources. They are
written here as xv6 defines them, on `Nat`, with the `uint64` wrap-around written out where a
value can pass `2^64`. The bit tests of `vm.c` itself (`*pte & PTE_V`, `PA2PTE(pa) | perm`) stay
bitwise in the model; the lemmas at the end of this file turn them into arithmetic.

`kalloc.c` is not part of the sources either. `kalloc` hands out the head of the free list, or 0
when the list is empty; `kfree` puts a page back on it and is recorded in `freed`, so that what a
function passes to `kfree` can be stated. The junk `kalloc.c` writes into the pages it hands out
and takes back is left out: no function of `vm.c` reads a page after freeing it or before
writing it.
-/

namespace BufCache.Vm

/-- Physical memory, one byte per address. -/
abbrev Mem := Nat → UInt8

/-- The `n` bytes from `a`, read as a little-endian number. -/
def readLE (m : Mem) (a : Nat) : Nat → Nat
  | 0 => 0
  | n + 1 => (m a).toNat + 256 * readLE m (a + 1) n

/-- `n` bytes from `a` set to the low `n` bytes of `v`, little-endian. -/
def writeLE (m : Mem) (a v n : Nat) : Mem :=
  fun x => if a ≤ x ∧ x < a + n then UInt8.ofNat (v / 256 ^ (x - a) % 256) else m x

/-- `*(uint64 *)a`. -/
def read64 (m : Mem) (a : Nat) : Nat := readLE m a 8

/-- `*(uint64 *)a = v`. -/
def write64 (m : Mem) (a v : Nat) : Mem := writeLE m a v 8

/-- `memset(dst, c, n)`. -/
def memset (m : Mem) (dst : Nat) (c : UInt8) (n : Nat) : Mem :=
  fun x => if dst ≤ x ∧ x < dst + n then c else m x

/-- `memmove(dst, src, n)`: every byte of the destination gets the byte the source held
before the call, overlapping or not. -/
def memmove (m : Mem) (dst src n : Nat) : Mem :=
  fun x => if dst ≤ x ∧ x < dst + n then m (src + (x - dst)) else m x

section Bytes

variable {m m' : Mem} {a b v n : Nat}

theorem readLE_congr (h : ∀ j < n, m' (a + j) = m (a + j)) : readLE m' a n = readLE m a n := by
  induction n generalizing a with
  | zero => rfl
  | succ n ih =>
    simp only [readLE]
    rw [ih fun j hj => by simpa only [Nat.add_assoc, Nat.add_comm 1] using h (j + 1) (by omega),
      show a = a + 0 from rfl, h 0 (by omega)]

theorem readLE_lt : readLE m a n < 256 ^ n := by
  induction n generalizing a with
  | zero => simp [readLE]
  | succ n ih =>
    have : (m a).toNat < 256 := UInt8.toNat_lt_size (m a)
    have := @ih (a + 1)
    simp only [readLE, Nat.pow_succ]
    omega

theorem readLE_writeLE : readLE (writeLE m a v n) a n = v % 256 ^ n := by
  induction n generalizing a v with
  | zero => simp [readLE, Nat.mod_one]
  | succ n ih =>
    have byte : (writeLE m a v (n + 1) a).toNat = v % 256 := by
      simp only [writeLE, if_pos (show a ≤ a ∧ a < a + (n + 1) by omega), Nat.sub_self,
        Nat.pow_zero, Nat.div_one]
      exact UInt8.toNat_ofNat_of_lt (Nat.mod_lt _ (by decide))
    have shift : readLE (writeLE m a v (n + 1)) (a + 1) n =
        readLE (writeLE m (a + 1) (v / 256) n) (a + 1) n :=
      readLE_congr fun j hj => by
        simp only [writeLE, Nat.div_div_eq_div_mul]
        rw [if_pos (by omega), if_pos (by omega), show a + 1 + j - a = j + 1 by omega,
          show a + 1 + j - (a + 1) = j by omega, Nat.pow_succ', Nat.mul_comm]
    rw [readLE, byte, shift, ih, Nat.pow_succ', Nat.mod_mul]

theorem read64_write64_self : read64 (write64 m a v) a = v % 2 ^ 64 := readLE_writeLE

theorem read64_lt : read64 m a < 2 ^ 64 := readLE_lt

/-- A store to the 8 bytes at `a` leaves the 8 bytes at `b` alone when the two do not overlap. -/
theorem read64_write64_of_disjoint (h : a + 8 ≤ b ∨ b + 8 ≤ a) :
    read64 (write64 m a v) b = read64 m b :=
  readLE_congr fun j hj => if_neg (by omega)

theorem read64_memset_of_disjoint {c : UInt8} {dst : Nat} (h : b + 8 ≤ dst ∨ dst + n ≤ b) :
    read64 (memset m dst c n) b = read64 m b :=
  readLE_congr fun j hj => if_neg (by omega)

theorem readLE_zero : readLE (fun _ => 0) a n = 0 := by
  induction n generalizing a <;> simp_all [readLE]

/-- Eight zero bytes read as 0. -/
theorem read64_of_zero (h : ∀ j < 8, m (a + j) = 0) : read64 m a = 0 := by
  rw [read64, readLE_congr (m := fun _ => 0) h, readLE_zero]

theorem read64_memset_zero {dst : Nat} (h : dst ≤ b) (h' : b + 8 ≤ dst + n) :
    read64 (memset m dst 0 n) b = 0 :=
  read64_of_zero fun j hj => if_pos (by omega)

end Bytes

/-! ## The macros of `riscv.h` and `memlayout.h` -/

/-- `#define PGSIZE 4096`, bytes per page. -/
def PGSIZE : Nat := 4096

/-- `PGROUNDUP(sz)`: `((sz) + PGSIZE - 1) & ~(PGSIZE - 1)` on `uint64`. -/
def PGROUNDUP (sz : Nat) : Nat := (sz + PGSIZE - 1) % 2 ^ 64 / PGSIZE * PGSIZE

/-- `PGROUNDDOWN(a)`: `(a) & ~(PGSIZE - 1)`. -/
def PGROUNDDOWN (a : Nat) : Nat := a / PGSIZE * PGSIZE

/-- `#define PTE_V (1L << 0)`, valid. -/
def PTE_V : Nat := 1
/-- `#define PTE_R (1L << 1)`. -/
def PTE_R : Nat := 2
/-- `#define PTE_W (1L << 2)`. -/
def PTE_W : Nat := 4
/-- `#define PTE_X (1L << 3)`. -/
def PTE_X : Nat := 8
/-- `#define PTE_U (1L << 4)`, user can access. -/
def PTE_U : Nat := 16

/-- `PA2PTE(pa)`: `((((uint64)pa) >> 12) << 10)`. -/
def PA2PTE (pa : Nat) : Nat := pa / PGSIZE * 1024

/-- `PTE2PA(pte)`: `(((pte) >> 10) << 12)` on `uint64`. -/
def PTE2PA (pte : Nat) : Nat := pte / 1024 * PGSIZE % 2 ^ 64

/-- `PTE_FLAGS(pte)`: `((pte) & 0x3FF)`. -/
def PTE_FLAGS (pte : Nat) : Nat := pte % 1024

/-- `PX(level, va)`: `((((uint64) (va)) >> PXSHIFT(level)) & PXMASK)`, the 9-bit index of `va`
in a page-table page at `level`. -/
def PX (level va : Nat) : Nat := va / 2 ^ (12 + 9 * level) % 512

/-- `MAXVA`: `(1L << (9 + 9 + 9 + 12 - 1))`, one bit less than Sv39 allows. -/
def MAXVA : Nat := 2 ^ 38

/-- `#define PLIC 0x0c000000L`. -/
def PLIC : Nat := 0x0c000000

/-- The PTE bits `R`, `W` and `X`; a valid PTE with none of them points to a page-table page. -/
def PTE_RWX : Nat := PTE_R ||| PTE_W ||| PTE_X

/-! ## The page allocator -/

/-- Modelled from the spec: `kernel/kalloc.c` is not in the sources, and the spec says nothing of
it. Physical memory, `kmem.freelist` as the list of its pages from the head, and the pages passed
to `kfree` so far. -/
structure Kmem where
  mem : Mem
  freelist : List Nat
  freed : List Nat

namespace Kmem

/-- Modelled from the spec: `kalloc()` of `kalloc.c`, the head of the free list, or 0 when
memory is exhausted. Left out: the junk fill `memset(r, 5, PGSIZE)`, which every caller in
`vm.c` overwrites, and reading the link `r->next` from the page. -/
def kalloc (s : Kmem) : Nat × Kmem :=
  match s.freelist with
  | [] => (0, s)
  | p :: l => (p, { s with freelist := l })

/-- Modelled from the spec: `kfree(pa)` of `kalloc.c`, `pa` pushed on the free list. Left out: the
panic on a `pa` not page-aligned or outside `[end, PHYSTOP)`, the junk fill `memset(pa, 1, PGSIZE)`
and the link `r->next` written into the page, so a freed page keeps its bytes here. -/
def kfree (s : Kmem) (pa : Nat) : Kmem :=
  { s with freelist := pa :: s.freelist, freed := s.freed ++ [pa] }

/-- A store to memory. -/
def setMem (s : Kmem) (m : Mem) : Kmem := { s with mem := m }

@[simp] theorem setMem_mem (s : Kmem) (m : Mem) : (s.setMem m).mem = m := rfl
@[simp] theorem setMem_freelist (s : Kmem) (m : Mem) : (s.setMem m).freelist = s.freelist := rfl
@[simp] theorem setMem_freed (s : Kmem) (m : Mem) : (s.setMem m).freed = s.freed := rfl
@[simp] theorem kfree_mem (s : Kmem) (pa : Nat) : (s.kfree pa).mem = s.mem := rfl
@[simp] theorem kfree_freed (s : Kmem) (pa : Nat) : (s.kfree pa).freed = s.freed ++ [pa] := rfl
@[simp] theorem kfree_freelist (s : Kmem) (pa : Nat) : (s.kfree pa).freelist = pa :: s.freelist :=
  rfl

theorem kalloc_nil {s : Kmem} (h : s.freelist = []) : s.kalloc = (0, s) := by
  simp [kalloc, h]

theorem kalloc_cons {s : Kmem} {p : Nat} {l : List Nat} (h : s.freelist = p :: l) :
    s.kalloc = (p, { s with freelist := l }) := by
  simp [kalloc, h]

end Kmem

/-! ## Bit tests as arithmetic -/

section Bits

variable {e p f : Nat}

@[simp] theorem and_PTE_V : e &&& PTE_V = e % 2 := Nat.and_one_is_mod e

/-- A test against flag bits only looks at the low ten bits of a PTE. -/
theorem and_flags (hf : f < 1024) : e &&& f = PTE_FLAGS e &&& f := by
  rw [PTE_FLAGS, ← Nat.and_pow_two_sub_one_eq_mod e 10, Nat.and_assoc,
    Nat.and_comm (2 ^ 10 - 1), Nat.and_pow_two_sub_one_of_lt_two_pow hf]

theorem PA2PTE_or (hf : f < 1024) : PA2PTE p ||| f = PA2PTE p + f := by
  rw [PA2PTE, Nat.mul_comm, ← Nat.mul_add_lt_is_or (i := 10) hf]

theorem PTE_FLAGS_PA2PTE_add (hf : f < 1024) : PTE_FLAGS (PA2PTE p + f) = f := by
  simp only [PTE_FLAGS, PA2PTE]
  omega

theorem PTE2PA_PA2PTE_add (hf : f < 1024) (hp : p % PGSIZE = 0) (hp' : p < 2 ^ 64) :
    PTE2PA (PA2PTE p + f) = p := by
  simp only [PTE2PA, PA2PTE, PGSIZE] at *
  rw [show (p / 4096 * 1024 + f) / 1024 = p / 4096 by omega, Nat.mod_eq_of_lt (by omega)]
  omega

theorem PTE2PA_aligned : PTE2PA e % PGSIZE = 0 := by
  simp only [PTE2PA, PGSIZE]
  omega

theorem PTE2PA_lt : PTE2PA e < 2 ^ 64 := Nat.mod_lt _ (by decide)

/-- The leaf test of `walk`'s callers, `pte & (PTE_R|PTE_W|PTE_X)`, on a PTE built from flags. -/
theorem PA2PTE_add_and_RWX (hf : f < 1024) : (PA2PTE p + f) &&& PTE_RWX = f &&& PTE_RWX := by
  rw [and_flags (by decide), PTE_FLAGS_PA2PTE_add hf]

theorem or_PTE_V_and_RWX : (f ||| PTE_V) &&& PTE_RWX = f &&& PTE_RWX := by
  rw [Nat.and_distrib_right]
  simp [PTE_V, PTE_RWX, PTE_R, PTE_W, PTE_X]

theorem or_PTE_V_lt (hf : f < 1024) : f ||| PTE_V < 1024 :=
  Nat.or_lt_two_pow (n := 10) hf (by decide)

theorem mod_two_or_PTE_V : (f ||| PTE_V) % 2 = 1 := by
  simp [PTE_V]

end Bits

end BufCache.Vm
