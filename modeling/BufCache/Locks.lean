import BufCache.Bio

/-!
# Threads at the granularity of lock operations

The finest model of `kernel/bio.c`. Every `acquire`, `release` and `acquiresleep` that `bget`,
`brelse`, `bpin` and `bunpin` call is a step of its own, and the step that ends a stretch of code
also does the work of that stretch on `bcache`. A thread's place is a `Pc`, one constructor per
place between two lock operations, with the locals the code has computed there; `Pc.next` is the
code from one place to the next.

A spinlock word holds the thread that took it, which is what `holding` compares: a thread that
holds a spinlock runs with interrupts off and stays on its CPU. As in `spinlock.c`, `acquire` of
a lock the thread holds and `release` of one it does not hold panic. Beside the lock words the
state keeps, as a ghost, the list of spinlocks each thread holds in the order it took them.

A thread run alone goes through these places exactly as `Bcache.bget` computes, so the split
changes nothing of the function. The locks are taken in one order: a thread holds nothing, or
`global_lock` and then bucket locks, so no thread re-acquires a lock, no set of threads waits in
a cycle, and no sleeplock is awaited under a spinlock. What the steal loop protects is another
matter: it locks the bucket that a buffer's `blockno` hashes to, and a buffer that `binit` left
with `blockno` 0 sits in another bucket.
-/

namespace BufCache

namespace Locks

open Function

/-- A spinlock of `bcache`: `global_lock` or `lock[k]`. -/
inductive Lock where
  | global
  | bucket (k : Nat)
  deriving DecidableEq, Repr

/-- The lock operation that ends a step. -/
inductive Op where
  | acquire (l : Lock)
  | release (l : Lock)
  /-- `acquiresleep(&bcache.buf[i].lock)` -/
  | acquiresleep (i : Nat)
  /-- no lock operation: the test of `new_id` in the steal loop, or the panic after the loop -/
  | nop
  deriving DecidableEq, Repr

/-- Where a thread is, with the locals the code has computed. -/
inductive Pc where
  /-- outside the buffer cache -/
  | idle
  /-- `bget`, at `acquire(&bcache.lock[id])` (line 80) -/
  | bget (dev blockno : Nat)
  /-- `bget` under `bcache.lock[id]`: the two scans of the bucket (lines 83-106) -/
  | scan (dev blockno : Nat)
  /-- `bget`, at `acquire(&bcache.global_lock)` (line 109) -/
  | missed (dev blockno : Nat)
  /-- `bget`, at `acquire(&bcache.lock[id])` (line 110) -/
  | relock (dev blockno : Nat)
  /-- the steal loop at `bcache.buf[b]`, before `new_id` (lines 111-117) -/
  | loop (dev blockno b : Nat)
  /-- the steal loop, at `acquire(&bcache.lock[new_id])` (line 119) -/
  | probe (dev blockno b newId : Nat)
  /-- the steal loop under `bcache.lock[new_id]` (lines 121-143) -/
  | test (dev blockno b newId : Nat)
  /-- `bcache.buf[b]` taken, at `release(&bcache.lock[id])` (line 136) -/
  | claimed (id b : Nat)
  /-- at `release(&bcache.global_lock)` (line 137) -/
  | unlocked (b : Nat)
  /-- `bget`, at `acquiresleep(&b->lock)` (lines 87, 100, 138) -/
  | sleeping (b : Nat)
  /-- stopped in `panic("bget: no buffers")` (line 147) -/
  | noBuffers (dev blockno : Nat)
  /-- `brelse`, at `acquire(&bcache.lock[id])` (line 183) -/
  | brelse (i id : Nat)
  /-- `brelse` under `bcache.lock[id]` (lines 184-195) -/
  | brelseLocked (i id : Nat)
  /-- `bpin`, at `acquire(&bcache.lock[id])` (line 201) -/
  | bpin (i id : Nat)
  /-- `bpin` under `bcache.lock[id]` (lines 202-203) -/
  | bpinLocked (i id : Nat)
  /-- `bunpin`, at `acquire(&bcache.lock[id])` (line 209) -/
  | bunpin (i id : Nat)
  /-- `bunpin` under `bcache.lock[id]` (lines 210-211) -/
  | bunpinLocked (i id : Nat)
  /-- stopped in another panic -/
  | panicked
  deriving DecidableEq, Repr

/-- The next step of a thread at `p` on the cache `c`: the lock operation it ends with, the cache
it leaves, and where the thread goes. `none` where the thread has stopped. -/
def Pc.next (c : Bcache) : Pc → Option (Op × Bcache × Pc)
  | .idle | .noBuffers .. | .panicked => none
  | .bget dev blockno => some (.acquire (.bucket (blockno % NBUCKETS)), c, .scan dev blockno)
  | .scan dev blockno =>
    match c.bgetBucket dev blockno with
    | (some i, c') => some (.release (.bucket (blockno % NBUCKETS)), c', .sleeping i)
    | (none, c') => some (.release (.bucket (blockno % NBUCKETS)), c', .missed dev blockno)
  | .missed dev blockno => some (.acquire .global, c, .relock dev blockno)
  | .relock dev blockno => some (.acquire (.bucket (blockno % NBUCKETS)), c, .loop dev blockno 0)
  | .loop dev blockno b =>
    if b < c.nbuf then
      if c.skips (blockno % NBUCKETS) b then some (.nop, c, .loop dev blockno (b + 1))
      else some (.nop, c, .probe dev blockno b ((c.buf b).blockno % NBUCKETS))
    else some (.nop, c, .noBuffers dev blockno)
  | .probe dev blockno b newId => some (.acquire (.bucket newId), c, .test dev blockno b newId)
  | .test dev blockno b newId =>
    match c.claim (blockno % NBUCKETS) dev blockno b with
    | some c' => some (.release (.bucket newId), c', .claimed (blockno % NBUCKETS) b)
    | none => some (.release (.bucket newId), c, .loop dev blockno (b + 1))
  | .claimed id b => some (.release (.bucket id), c, .unlocked b)
  | .unlocked b => some (.release .global, c, .sleeping b)
  | .sleeping b => some (.acquiresleep b, c, .idle)
  | .brelse i id => some (.acquire (.bucket id), c, .brelseLocked i id)
  | .brelseLocked i id => some (.release (.bucket id), c.brelseAt i id, .idle)
  | .bpin i id => some (.acquire (.bucket id), c, .bpinLocked i id)
  | .bpinLocked i id => some (.release (.bucket id), c.bpin i, .idle)
  | .bunpin i id => some (.acquire (.bucket id), c, .bunpinLocked i id)
  | .bunpinLocked i id => some (.release (.bucket id), c.bunpin i, .idle)

/-- A call into the buffer cache. -/
inductive Call where
  | bget (dev blockno : Nat)
  | brelse (i : Nat)
  | bpin (i : Nat)
  | bunpin (i : Nat)
  deriving DecidableEq, Repr

/-- What a call by thread `t` does before its first lock operation: `brelse` checks and releases
the sleeplock (lines 178-181); `brelse`, `bpin` and `bunpin` read the bucket of the buffer. -/
def Call.start (c : Bcache) (t : Nat) : Call → Bcache × Pc
  | .bget dev blockno => (c, .bget dev blockno)
  | .brelse i =>
    if c.holdingSleep t i then (c.releaseSleep i, .brelse i ((c.buf i).blockno % NBUCKETS))
    else (c, .panicked)
  | .bpin i => (c, .bpin i ((c.buf i).blockno % NBUCKETS))
  | .bunpin i => (c, .bunpin i ((c.buf i).blockno % NBUCKETS))

/-! ### The locks held at each place -/

/-- The spinlocks a thread at `p` holds, in the order the code took them. -/
def Pc.held : Pc → List Lock
  | .scan _ blockno => [.bucket (blockno % NBUCKETS)]
  | .relock .. | .unlocked _ => [.global]
  | .loop _ blockno _ | .probe _ blockno .. | .noBuffers _ blockno =>
    [.global, .bucket (blockno % NBUCKETS)]
  | .test _ blockno _ newId => [.global, .bucket (blockno % NBUCKETS), .bucket newId]
  | .claimed id _ => [.global, .bucket id]
  | .brelseLocked _ id | .bpinLocked _ id | .bunpinLocked _ id => [.bucket id]
  | _ => []

/-- The test `new_id == id` of line 117 has failed at the places that use `new_id`. -/
def Pc.Wf : Pc → Prop
  | .probe _ blockno _ newId | .test _ blockno _ newId => newId ≠ blockno % NBUCKETS
  | _ => True

/-- What a lock operation does to the list `h` of spinlocks held, giving `h'`: `acquire` takes a
lock not held, by a thread holding nothing or `global_lock`; `release` gives up the lock taken
last; `acquiresleep` runs with none. -/
def Op.Moves : Op → List Lock → List Lock → Prop
  | .acquire l, h, h' => l ∉ h ∧ (h = [] ∨ .global ∈ h) ∧ h' = h ++ [l]
  | .release l, h, h' => l ∉ h' ∧ h = h' ++ [l]
  | .acquiresleep _, h, h' => h = [] ∧ h' = []
  | .nop, h, h' => h' = h

variable {c c' : Bcache} {p p' : Pc} {o : Op}

/-- Every step of the code does to the locks what its operation says. -/
theorem Pc.next_moves (hw : p.Wf) (h : p.next c = some (o, c', p')) :
    p'.Wf ∧ o.Moves p.held p'.held := by
  cases p <;> simp only [Pc.next, Option.some.injEq, reduceCtorEq] at h <;>
    (repeat' split at h) <;> simp only [Option.some.injEq, Prod.mk.injEq] at h <;>
    obtain ⟨rfl, rfl, rfl⟩ := h <;> simp_all [Pc.held, Pc.Wf, Op.Moves, Bcache.skips]

/-- Two different spinlocks are held only under `global_lock`, taken first. -/
theorem Pc.held_head {l₁ l₂ : Lock} (h₁ : l₁ ∈ p.held) (h₂ : l₂ ∈ p.held) (hne : l₁ ≠ l₂) :
    p.held.head? = some .global := by
  cases p <;> simp_all [Pc.held]

/-- A call reaches its first lock operation holding nothing. -/
theorem Call.start_held (k : Call) (t : Nat) : (k.start c t).2.held = [] ∧ (k.start c t).2.Wf := by
  cases k <;> simp only [Call.start] <;> (try split) <;> simp [Pc.held, Pc.Wf]

/-- The cache, the spinlock words, the ghost lists of spinlocks held, and the threads. -/
structure State where
  cache : Bcache
  /-- the thread holding each spinlock -/
  spin : Lock → Option Nat
  /-- ghost: the spinlocks each thread holds, oldest first -/
  taken : Nat → List Lock
  threads : List Pc

/-- A step of thread `t`. -/
inductive Act where
  /-- `t`, idle, calls `k` and runs up to its first lock operation -/
  | call (t : Nat) (k : Call)
  /-- `t` runs to its next place -/
  | next (t : Nat)
  deriving DecidableEq, Repr

namespace State

/-- `n` idle threads, the cache `binit` leaves, and every spinlock free. -/
def init (n nbuf : Nat) : State :=
  ⟨Bcache.binit nbuf, fun _ => none, fun _ => [], List.replicate n .idle⟩

/-- Thread `t` ends its step with `o`, leaving the cache `c` and going to `p`. `acquire` waits
(`none`) while another thread holds the lock; `acquire` of a lock the thread holds and `release`
of one it does not hold panic; `acquiresleep` waits while the sleeplock is taken. -/
def perform (s : State) (t : Nat) : Op → Bcache → Pc → Option State
  | .acquire l, c, p =>
    match s.spin l with
    | none =>
      some ⟨c, update s.spin l (some t), update s.taken t (s.taken t ++ [l]), s.threads.set t p⟩
    | some u => if u = t then some ⟨c, s.spin, s.taken, s.threads.set t .panicked⟩ else none
  | .release l, c, p =>
    if s.spin l = some t then
      some ⟨c, update s.spin l none, update s.taken t ((s.taken t).erase l), s.threads.set t p⟩
    else some ⟨c, s.spin, s.taken, s.threads.set t .panicked⟩
  | .acquiresleep i, c, p =>
    (c.acquireSleep t i).map fun c => ⟨c, s.spin, s.taken, s.threads.set t p⟩
  | .nop, c, p => some ⟨c, s.spin, s.taken, s.threads.set t p⟩

/-- One step. `none` when the thread is not where the step starts, or waits. -/
def step (s : State) : Act → Option State
  | .call t k =>
    if s.threads[t]? = some .idle then
      some ⟨(k.start s.cache t).1, s.spin, s.taken, s.threads.set t (k.start s.cache t).2⟩
    else none
  | .next t =>
    match s.threads[t]? with
    | some p => (p.next s.cache).bind fun (o, c, p') => s.perform t o c p'
    | none => none

/-- The states reached from `init` by any interleaving of steps. -/
inductive Reachable : State → Prop where
  | init (n nbuf : Nat) : Reachable (init n nbuf)
  | step {s s' : State} {a : Act} : Reachable s → s.step a = some s' → Reachable s'

/-- Run the steps `as` from `s`. -/
def run (s : State) : List Act → Option State
  | [] => some s
  | a :: as => (s.step a).bind (run · as)

theorem Reachable.run {s s' : State} (h : Reachable s) :
    ∀ {as : List Act}, State.run s as = some s' → Reachable s'
  | [], hr => by cases hr; exact h
  | a :: as, hr => by
    simp only [State.run] at hr
    cases hs : s.step a with
    | none => simp [hs] at hr
    | some s₁ => exact (h.step hs).run (by simpa [hs] using hr)

/-! ### The steal loop tests buffers of unlocked buckets -/

/-- From `binit` with 30 buffers, thread 0 takes blocks 0, 4 and 17 of device 1 (buffers 0, 4 and
17, the last two all of bucket 4); thread 1 calls `bget(1, 1)` and takes `bcache.lock[1]`;
thread 0 calls `bget(1, 30)`, misses in bucket 4 and enters the steal loop. Buffer 0 is held, so
the loop moves on to buffer 1, whose `blockno` is still the 0 of `binit`, and takes
`bcache.lock[0]` to test it. -/
def stealTrace : List Act :=
  [.call 0 (.bget 1 0), .next 0, .next 0, .next 0,
   .call 0 (.bget 1 4), .next 0, .next 0, .next 0,
   .call 0 (.bget 1 17), .next 0, .next 0, .next 0,
   .call 1 (.bget 1 1), .next 1,
   .call 0 (.bget 1 30)] ++ List.replicate 9 (.next 0)

theorem stealTrace_runs : ((init 2 30).run stealTrace).isSome := by
  set_option maxRecDepth 20000 in decide

/-- The state `stealTrace` reaches. -/
def stealState : State := ((init 2 30).run stealTrace).get stealTrace_runs

theorem stealState_reachable : stealState.Reachable :=
  (Reachable.init 2 30).run (Option.some_get stealTrace_runs).symm

set_option maxRecDepth 20000 in
/-- After `stealTrace`, thread 0 is about to test the reference count of buffer 1, free and in
bucket 1, while thread 1 holds `bcache.lock[1]` and is about to scan bucket 1, whose reuse scan
tests the same count first. -/
theorem steal_tests_unlocked : ∃ s, Reachable s ∧ ∃ t u dev blockno b newId k,
    s.threads[t]? = some (.test dev blockno b newId) ∧ b ∈ s.cache.bucket k ∧
    (s.cache.buf b).refcnt = 0 ∧ s.spin (.bucket k) = some u ∧ u ≠ t :=
  ⟨stealState, stealState_reachable, 0, 1, 1, 30, 1, 0, 1, by decide, by decide, by decide,
    by decide, by decide⟩

end State

/-! ### The lock words follow the places -/

/-- The spinlocks held at each thread's place; `[]` past the last thread. -/
def heldOf (ps : List Pc) (t : Nat) : List Lock := (ps[t]?.map Pc.held).getD []

section Places

variable {ps : List Pc} {t : Nat} {p p' : Pc} {l : Lock}

theorem heldOf_of_getElem? (h : ps[t]? = some p) : heldOf ps t = p.held := by simp [heldOf, h]

theorem mem_heldOf : l ∈ heldOf ps t ↔ ∃ p, ps[t]? = some p ∧ l ∈ p.held := by
  cases h : ps[t]? <;> simp [heldOf, h]

theorem heldOf_set (h : ps[t]? = some p) (p' : Pc) :
    heldOf (ps.set t p') = update (heldOf ps) t p'.held := by
  funext u
  rcases eq_or_ne t u with rfl | hu
  · simp [heldOf, (List.getElem?_eq_some_iff.1 h).1]
  · simp [heldOf, List.getElem?_set_ne hu, update_noteq hu.symm]

theorem wf_set (hw : ∀ (u : Nat) (q : Pc), ps[u]? = some q → q.Wf) (hp : p'.Wf) :
    ∀ (u : Nat) (q : Pc), (ps.set t p')[u]? = some q → q.Wf := by
  intro u q h
  rw [List.getElem?_set] at h
  split_ifs at h
  · cases h; exact hp
  · exact hw u q h

end Places

namespace State

/-- The lock words, the ghost lists and the places agree: a spinlock is held by the thread whose
list has it, and that list is what the code holds at the thread's place. -/
structure Inv (s : State) : Prop where
  spin_iff : ∀ (l : Lock) (t : Nat), s.spin l = some t ↔ l ∈ s.taken t
  taken_eq : s.taken = heldOf s.threads
  wf : ∀ (t : Nat) (p : Pc), s.threads[t]? = some p → p.Wf

variable {s s' : State} {a : Act} {t : Nat} {p p' : Pc} {l : Lock}

theorem inv_init (n nbuf : Nat) : (init n nbuf).Inv where
  spin_iff l t := by simp [init]
  taken_eq := by
    funext t
    simp only [init, heldOf, List.getElem?_replicate]
    split <;> rfl
  wf t p h := by
    simp only [init, List.getElem?_replicate] at h
    split at h <;> cases h
    trivial

/-- Thread `t` moves to a place with the same locks. -/
theorem Inv.move (hi : s.Inv) (ht : s.threads[t]? = some p) (hh : p'.held = p.held)
    (hw : p'.Wf) (c : Bcache) : Inv ⟨c, s.spin, s.taken, s.threads.set t p'⟩ where
  spin_iff := hi.spin_iff
  taken_eq := by rw [heldOf_set ht, hh, ← heldOf_of_getElem? ht, update_eq_self, hi.taken_eq]
  wf := wf_set hi.wf hw

/-- Thread `t` takes the free lock `l`. -/
theorem Inv.acquire (hi : s.Inv) (ht : s.threads[t]? = some p) (hl : s.spin l = none)
    (hh : p'.held = p.held ++ [l]) (hw : p'.Wf) (c : Bcache) :
    Inv ⟨c, update s.spin l (some t), update s.taken t (s.taken t ++ [l]), s.threads.set t p'⟩ where
  spin_iff l' u := by
    rcases eq_or_ne l' l with rfl | hl'
    · have hu : l' ∉ s.taken u := fun h => by simp [(hi.spin_iff l' u).2 h] at hl
      rcases eq_or_ne u t with rfl | hut
      · simp
      · simp [update_noteq hut, Ne.symm hut, hu]
    · rcases eq_or_ne u t with rfl | hut <;> simp [update_noteq, hi.spin_iff, *]
  taken_eq := by rw [heldOf_set ht, hh, ← heldOf_of_getElem? ht, ← hi.taken_eq]
  wf := wf_set hi.wf hw

/-- Thread `t` gives up `l`, the lock it took last. -/
theorem Inv.release (hi : s.Inv) (ht : s.threads[t]? = some p) (hh : p.held = p'.held ++ [l])
    (hl : l ∉ p'.held) (hw : p'.Wf) (c : Bcache) :
    Inv ⟨c, update s.spin l none, update s.taken t ((s.taken t).erase l), s.threads.set t p'⟩ := by
  have htk : s.taken t = p'.held ++ [l] := by rw [hi.taken_eq, heldOf_of_getElem? ht, hh]
  have herase : (s.taken t).erase l = p'.held := by simp [htk, List.erase_append_right _ hl]
  have hspin : s.spin l = some t := (hi.spin_iff l t).2 (by simp [htk])
  refine ⟨fun l' u => ?_, by rw [herase, heldOf_set ht, hi.taken_eq], wf_set hi.wf hw⟩
  rcases eq_or_ne l' l with rfl | hl'
  · rcases eq_or_ne u t with rfl | hut
    · simp [herase, hl]
    · simp only [update_same, update_noteq hut, reduceCtorEq, false_iff]
      rw [← hi.spin_iff, hspin]
      simpa using hut.symm
  · rcases eq_or_ne u t with rfl | hut
    · simp [update_noteq hl', hi.spin_iff, List.mem_erase_of_ne hl']
    · simp [update_noteq hl', update_noteq hut, hi.spin_iff]

/-- Every step keeps the lock words, the ghost lists and the places in agreement. -/
theorem Inv.step (hi : s.Inv) (h : s.step a = some s') : s'.Inv := by
  cases a with
  | call t k =>
    simp only [step] at h
    split_ifs at h with ht
    cases h
    exact hi.move ht (by rw [(k.start_held t).1]; rfl) (k.start_held t).2 _
  | next t =>
    simp only [step] at h
    split at h
    · rename_i p ht
      obtain ⟨⟨o, c, p'⟩, hn, hp⟩ := Option.bind_eq_some.1 h
      obtain ⟨hw, hm⟩ := Pc.next_moves (hi.wf t p ht) hn
      have htk : s.taken t = p.held := by rw [hi.taken_eq, heldOf_of_getElem? ht]
      cases o with
      | acquire l =>
        obtain ⟨hl, -, hh⟩ := hm
        simp only [perform] at hp
        split at hp
        · cases hp; exact hi.acquire ht ‹_› hh hw c
        · split_ifs at hp with hu
          · subst hu
            exact absurd (htk ▸ (hi.spin_iff l _).1 ‹_›) hl
      | release l =>
        obtain ⟨hl, hh⟩ := hm
        simp only [perform] at hp
        split_ifs at hp with hs
        · cases hp; exact hi.release ht hh hl hw c
        · exact absurd ((hi.spin_iff l t).2 (by simp [htk, hh])) hs
      | acquiresleep i =>
        obtain ⟨hp₀, hp₀'⟩ := hm
        obtain ⟨c', -, rfl⟩ := Option.map_eq_some'.1 hp
        exact hi.move ht (by rw [hp₀, hp₀']) hw c'
      | nop => cases hp; exact hi.move ht hm hw c
    · cases h

theorem Reachable.inv (h : s.Reachable) : s.Inv := by
  induction h with
  | init n nbuf => exact inv_init n nbuf
  | step _ hs ih => exact ih.step hs

/-! ### The lock order -/

/-- A thread holding a spinlock holds it at its place. -/
theorem Inv.mem_held (hi : s.Inv) (h : s.spin l = some t) :
    ∃ p, s.threads[t]? = some p ∧ l ∈ p.held :=
  mem_heldOf.1 (hi.taken_eq ▸ (hi.spin_iff l t).1 h)

/-- Thread `t` is at a place whose step ends with `o`. -/
def Pending (s : State) (t : Nat) (o : Op) : Prop :=
  ∃ p c p', s.threads[t]? = some p ∧ p.next s.cache = some (o, c, p')

/-- The lock discipline of the buffer cache: no thread calls `acquire` on a spinlock it holds; no
set of threads each waits in `acquire` for a spinlock another of them holds; a thread holding two
spinlocks holds `global_lock` and took it first; no thread waits for a sleeplock holding a
spinlock. -/
structure LockOrder (s : State) : Prop where
  no_reacquire : ∀ t l, s.Pending t (.acquire l) → s.spin l ≠ some t
  no_deadlock : ∀ S : List Nat,
    (∀ t ∈ S, ∃ l u, s.Pending t (.acquire l) ∧ s.spin l = some u ∧ u ∈ S ∧ u ≠ t) → S = []
  global_first : ∀ t l₁ l₂, s.spin l₁ = some t → s.spin l₂ = some t → l₁ ≠ l₂ →
    s.spin .global = some t ∧ (s.taken t).head? = some .global
  no_sleep_locked : ∀ t i l, s.Pending t (.acquiresleep i) → s.spin l ≠ some t

/-- What a thread about to end its step with `o` holds. -/
theorem Inv.pending (hi : s.Inv) {o : Op} (h : s.Pending t o) :
    ∃ p p' : Pc, s.taken t = p.held ∧ o.Moves p.held p'.held := by
  obtain ⟨p, c, p', ht, hn⟩ := h
  exact ⟨p, p', by rw [hi.taken_eq, heldOf_of_getElem? ht], (Pc.next_moves (hi.wf t p ht) hn).2⟩

/-- A thread waiting in `acquire` and holding a spinlock holds `global_lock`. -/
theorem Inv.global_of_waiting (hi : s.Inv) (h : s.Pending t (.acquire l)) {l' : Lock}
    (hl' : s.spin l' = some t) : s.spin .global = some t := by
  obtain ⟨p, p', htk, -, hg, -⟩ := hi.pending h
  have hm : l' ∈ p.held := htk ▸ (hi.spin_iff l' t).1 hl'
  rcases hg with hg | hg
  · simp [hg] at hm
  · exact (hi.spin_iff _ t).2 (htk ▸ hg)

theorem Inv.lockOrder (hi : s.Inv) : s.LockOrder where
  no_reacquire t l h hl := by
    obtain ⟨p, p', htk, hnot, -⟩ := hi.pending h
    exact hnot (htk ▸ (hi.spin_iff l t).1 hl)
  no_deadlock S hS := by
    cases S with
    | nil => rfl
    | cons t S' =>
      obtain ⟨l, u, -, hu, huS, -⟩ := hS t (List.mem_cons_self t S')
      obtain ⟨l', w, hwait, hw, hwS, hwu⟩ := hS u huS
      obtain ⟨l'', x, hwait', -, -, -⟩ := hS w hwS
      have h₁ := hi.global_of_waiting hwait hu
      have h₂ := hi.global_of_waiting hwait' hw
      exact absurd (Option.some_injective _ (h₂.symm.trans h₁)) hwu
  global_first t l₁ l₂ h₁ h₂ hne := by
    obtain ⟨p, ht, hm₁⟩ := hi.mem_held h₁
    have htk : s.taken t = p.held := by rw [hi.taken_eq, heldOf_of_getElem? ht]
    have hm₂ : l₂ ∈ p.held := htk ▸ (hi.spin_iff l₂ t).1 h₂
    have hhead := Pc.held_head hm₁ hm₂ hne
    exact ⟨(hi.spin_iff _ t).2 (htk ▸ List.mem_of_mem_head? hhead), htk ▸ hhead⟩
  no_sleep_locked t i l h hl := by
    obtain ⟨p, p', htk, hp, -⟩ := hi.pending h
    simpa [htk, hp] using (hi.spin_iff l t).1 hl

/-- Under any interleaving of the lock operations of `bget`, `brelse`, `bpin` and `bunpin`, the
lock discipline holds. -/
theorem locks_ordered (h : s.Reachable) : s.LockOrder := h.inv.lockOrder

/-- In `stealState` thread 0 holds three spinlocks. -/
theorem locks_ordered_steal : stealState.Reachable ∧ stealState.LockOrder :=
  ⟨stealState_reachable, locks_ordered stealState_reachable⟩

/-! ### A thread alone computes `bget`

Run with no other thread between its steps and no spinlock held by another, the lock-level
`bget` does what `Bcache.bget` computes, so the places of `Pc.next` split the function of
`BufCache.Bio` without changing it. -/

variable {dev blockno : Nat}

/-- `s'` is reached from `s` by steps of thread `t` alone. -/
inductive Alone (t : Nat) : State → State → Prop where
  | refl (s : State) : Alone t s s
  | head {s s₁ s' : State} : s.step (.next t) = some s₁ → Alone t s₁ s' → Alone t s s'

theorem Alone.trans {s₁ s₂ : State} (h₁ : Alone t s s₁) (h₂ : Alone t s₁ s₂) : Alone t s s₂ := by
  induction h₁ with
  | refl => exact h₂
  | head hs _ ih => exact .head hs (ih h₂)

/-- The step of a thread whose place ends in no lock operation. -/
theorem step_nop {p q : Pc} {c : Bcache} (ht : s.threads[t]? = some p)
    (hn : p.next s.cache = some (.nop, c, q)) :
    s.step (.next t) = some ⟨c, s.spin, s.taken, s.threads.set t q⟩ := by
  simp [step, ht, hn, perform]

/-- The step of a thread that takes a free spinlock. -/
theorem step_acquire {p q : Pc} {c : Bcache} {l : Lock} (ht : s.threads[t]? = some p)
    (hn : p.next s.cache = some (.acquire l, c, q)) (hl : s.spin l = none) :
    s.step (.next t) = some
      ⟨c, update s.spin l (some t), update s.taken t (s.taken t ++ [l]), s.threads.set t q⟩ := by
  simp [step, ht, hn, perform, hl]

/-- The step of a thread that gives up a spinlock it holds. -/
theorem step_release {p q : Pc} {c : Bcache} {l : Lock} (ht : s.threads[t]? = some p)
    (hn : p.next s.cache = some (.release l, c, q)) (hl : s.spin l = some t) :
    s.step (.next t) = some
      ⟨c, update s.spin l none, update s.taken t ((s.taken t).erase l), s.threads.set t q⟩ := by
  simp [step, ht, hn, perform, hl]

/-- A turn of the steal loop at a buffer outside the caller's bucket: `new_id` read, its lock
taken, the buffer tested and claimed or passed, the lock given back (lines 115-143). -/
theorem Alone.probe {b : Nat} (ht : s.threads[t]? = some (.loop dev blockno b))
    (hb : b < s.cache.nbuf) (hsk : ¬s.cache.skips (blockno % NBUCKETS) b)
    (hnf : s.spin (.bucket ((s.cache.buf b).blockno % NBUCKETS)) = none) :
    ∃ s', Alone t s s' ∧ s'.spin = s.spin ∧
      match s.cache.claim (blockno % NBUCKETS) dev blockno b with
      | some c => s'.threads[t]? = some (.claimed (blockno % NBUCKETS) b) ∧ s'.cache = c
      | none => s'.threads[t]? = some (.loop dev blockno (b + 1)) ∧ s'.cache = s.cache := by
  have htl : t < s.threads.length := (List.getElem?_eq_some_iff.1 ht).1
  generalize hk : (s.cache.buf b).blockno % NBUCKETS = k at hnf
  obtain ⟨s₁, h₁, ht₁, hc₁, hp₁⟩ : ∃ s₁, s.step (.next t) = some s₁ ∧
      s₁.threads[t]? = some (.probe dev blockno b k) ∧ s₁.cache = s.cache ∧ s₁.spin = s.spin :=
    ⟨_, step_nop ht (c := s.cache) (q := .probe dev blockno b k) (by simp [Pc.next, hb, hsk, hk]),
      by simp [htl], rfl, rfl⟩
  obtain ⟨s₂, h₂, ht₂, hc₂, hp₂⟩ : ∃ s₂, s₁.step (.next t) = some s₂ ∧
      s₂.threads[t]? = some (.test dev blockno b k) ∧ s₂.cache = s.cache ∧
      s₂.spin = update s.spin (.bucket k) (some t) :=
    ⟨_, step_acquire ht₁ (c := s₁.cache) (q := .test dev blockno b k) rfl (hp₁ ▸ hnf),
      by simp [(List.getElem?_eq_some_iff.1 ht₁).1], hc₁, by simp [hp₁]⟩
  have hrel : s₂.spin (.bucket k) = some t := by simp [hp₂]
  have hspin : update s₂.spin (.bucket k) none = s.spin := by simp [hp₂, update_idem, hnf]
  have htl₂ := (List.getElem?_eq_some_iff.1 ht₂).1
  cases hcl : s.cache.claim (blockno % NBUCKETS) dev blockno b with
  | none =>
    exact ⟨_, .head h₁ (.head h₂ (.head (step_release ht₂ (c := s₂.cache)
      (q := .loop dev blockno (b + 1)) (by simp [Pc.next, hc₂, hcl]) hrel) (.refl _))),
      hspin, by simp [htl₂], hc₂⟩
  | some c =>
    exact ⟨_, .head h₁ (.head h₂ (.head (step_release ht₂ (c := c)
      (q := .claimed (blockno % NBUCKETS) b) (by simp [Pc.next, hc₂, hcl]) hrel) (.refl _))),
      hspin, by simp [htl₂], rfl⟩

/-- The steal loop from `bcache.buf[b]` on, run alone while the caller holds `global_lock` and
`bcache.lock[id]` and no other bucket lock is taken: it claims the buffer that the search of
`Bcache.bgetSteal` finds from `b` on, or ends in the panic. -/
theorem Alone.loop {b : Nat} (ht : s.threads[t]? = some (.loop dev blockno b))
    (hfree : ∀ k, k ≠ blockno % NBUCKETS → s.spin (.bucket k) = none) :
    ∃ s', Alone t s s' ∧ s'.spin = s.spin ∧
      match (List.range' b (s.cache.nbuf - b)).findSome? fun i =>
          if s.cache.skips (blockno % NBUCKETS) i then none
          else (s.cache.claim (blockno % NBUCKETS) dev blockno i).map (i, ·) with
      | some (e, c) => s'.threads[t]? = some (.claimed (blockno % NBUCKETS) e) ∧ s'.cache = c
      | none => s'.threads[t]? = some (.noBuffers dev blockno) := by
  obtain ⟨n, hn⟩ : ∃ n, s.cache.nbuf - b = n := ⟨_, rfl⟩
  induction n generalizing s b with
  | zero =>
    have hb : ¬b < s.cache.nbuf := by omega
    have htl : t < s.threads.length := (List.getElem?_eq_some_iff.1 ht).1
    exact ⟨_, .head (step_nop ht (c := s.cache) (q := .noBuffers dev blockno)
      (by simp [Pc.next, hb])) (.refl _), rfl, by simp [hn, htl]⟩
  | succ n ih =>
    have hb : b < s.cache.nbuf := by omega
    have htl : t < s.threads.length := (List.getElem?_eq_some_iff.1 ht).1
    have hn' : s.cache.nbuf - (b + 1) = n := by omega
    rw [hn, List.range'_succ, List.findSome?_cons]
    by_cases hsk : s.cache.skips (blockno % NBUCKETS) b
    · obtain ⟨s', ha, hs', hm⟩ := ih (s := ⟨s.cache, s.spin, s.taken,
        s.threads.set t (.loop dev blockno (b + 1))⟩) (by simp [htl]) hfree hn'
      exact ⟨s', .head (step_nop ht (c := s.cache) (q := .loop dev blockno (b + 1))
        (by simp [Pc.next, hb, hsk])) ha, hs', by simpa [hsk, hn'] using hm⟩
    · have hne : (s.cache.buf b).blockno % NBUCKETS ≠ blockno % NBUCKETS := by
        simpa [Bcache.skips] using hsk
      obtain ⟨s₁, h₁, hp₁, hm₁⟩ := Alone.probe ht hb hsk (hfree _ hne)
      simp only [hsk]
      cases hcl : s.cache.claim (blockno % NBUCKETS) dev blockno b with
      | some c =>
        rw [hcl] at hm₁
        exact ⟨s₁, h₁, hp₁, by simpa using hm₁⟩
      | none =>
        rw [hcl] at hm₁
        obtain ⟨ht₁, hc₁⟩ := hm₁
        obtain ⟨s', ha, hs', hm⟩ := ih ht₁ (hp₁ ▸ hfree) (by rw [hc₁, hn'])
        rw [hc₁] at hm
        exact ⟨s', h₁.trans ha, hs'.trans hp₁, by simpa [hn'] using hm⟩

/-- Run alone from a state where no spinlock is held, the lock-level `bget` computes
`Bcache.bget`: it reaches `acquiresleep` on the buffer `Bcache.bget` returns, with the cache it
leaves and every spinlock free again, or it stops in the panic where `Bcache.bget` panics. -/
theorem bget_alone (ht : s.threads[t]? = some (.bget dev blockno)) (hfree : ∀ l, s.spin l = none) :
    ∃ s', Alone t s s' ∧
      match s.cache.bget dev blockno with
      | some (e, c) => s'.threads[t]? = some (.sleeping e) ∧ s'.cache = c ∧ s'.spin = s.spin
      | none => s'.threads[t]? = some (.noBuffers dev blockno) := by
  have hlen : ∀ {s : State} {p : Pc}, s.threads[t]? = some p → t < s.threads.length :=
    fun h => (List.getElem?_eq_some_iff.1 h).1
  -- `acquire(&bcache.lock[id])`
  obtain ⟨s₁, h₁, ht₁, hc₁, hp₁⟩ : ∃ s₁, s.step (.next t) = some s₁ ∧
      s₁.threads[t]? = some (.scan dev blockno) ∧ s₁.cache = s.cache ∧
      s₁.spin = update s.spin (.bucket (blockno % NBUCKETS)) (some t) :=
    ⟨_, step_acquire ht (c := s.cache) (q := .scan dev blockno) rfl (hfree _),
      by simp [hlen ht], rfl, rfl⟩
  have hrel₁ : s₁.spin (.bucket (blockno % NBUCKETS)) = some t := by simp [hp₁]
  have hspin₁ : update s₁.spin (.bucket (blockno % NBUCKETS)) none = s.spin := by
    simp [hp₁, update_idem, hfree]
  simp only [Bcache.bget]
  rcases hbb : s.cache.bgetBucket dev blockno with ⟨_ | e, c⟩
  · -- a miss: `release(&bcache.lock[id])`, then the steal loop under both locks
    have hc : c = s.cache := by
      rcases Bcache.bgetBucket_cases s.cache dev blockno with
        ⟨_, -, h⟩ | ⟨_, -, -, h⟩ | ⟨-, -, h⟩ <;> rw [h] at hbb <;> cases hbb
      rfl
    subst hc
    obtain ⟨s₂, h₂, ht₂, hc₂, hp₂⟩ : ∃ s₂, s₁.step (.next t) = some s₂ ∧
        s₂.threads[t]? = some (.missed dev blockno) ∧ s₂.cache = s.cache ∧ s₂.spin = s.spin :=
      ⟨_, step_release ht₁ (c := s.cache) (q := .missed dev blockno) (by simp [Pc.next, hc₁, hbb])
        hrel₁, by simp [hlen ht₁], rfl, hspin₁⟩
    obtain ⟨s₃, h₃, ht₃, hc₃, hp₃⟩ : ∃ s₃, s₂.step (.next t) = some s₃ ∧
        s₃.threads[t]? = some (.relock dev blockno) ∧ s₃.cache = s.cache ∧
        s₃.spin = update s.spin .global (some t) :=
      ⟨_, step_acquire ht₂ (c := s₂.cache) (q := .relock dev blockno) rfl
        (by rw [hp₂]; exact hfree _), by simp [hlen ht₂], hc₂, by rw [hp₂]⟩
    obtain ⟨s₄, h₄, ht₄, hc₄, hp₄⟩ : ∃ s₄, s₃.step (.next t) = some s₄ ∧
        s₄.threads[t]? = some (.loop dev blockno 0) ∧ s₄.cache = s.cache ∧
        s₄.spin = update (update s.spin .global (some t)) (.bucket (blockno % NBUCKETS)) (some t) :=
      ⟨_, step_acquire ht₃ (c := s₃.cache) (q := .loop dev blockno 0) rfl (by simp [hp₃, hfree]),
        by simp [hlen ht₃], hc₃, by rw [hp₃]⟩
    obtain ⟨s₅, h₅, hp₅, hm⟩ := Alone.loop ht₄ fun k hk => by simp [hp₄, hk, hfree]
    have hsteal := Alone.head h₁ (.head h₂ (.head h₃ (.head h₄ h₅)))
    rw [hc₄, Nat.sub_zero, ← List.range_eq_range'] at hm
    simp only [Bcache.bgetSteal]
    revert hm
    rcases (List.range s.cache.nbuf).findSome? _ with _ | ⟨e, c⟩ <;> intro hm
    · exact ⟨s₅, hsteal, hm⟩
    · obtain ⟨ht₅, hc₅⟩ := hm
      have hrel₅ : s₅.spin (.bucket (blockno % NBUCKETS)) = some t := by simp [hp₅, hp₄]
      obtain ⟨s₆, h₆, ht₆, hc₆, hp₆⟩ : ∃ s₆, s₅.step (.next t) = some s₆ ∧
          s₆.threads[t]? = some (.unlocked e) ∧ s₆.cache = c ∧
          s₆.spin = update s₅.spin (.bucket (blockno % NBUCKETS)) none :=
        ⟨_, step_release ht₅ (c := s₅.cache) (q := .unlocked e) rfl hrel₅, by simp [hlen ht₅], hc₅,
          rfl⟩
      have hrel₆ : s₆.spin .global = some t := by simp [hp₆, hp₅, hp₄]
      refine ⟨_, hsteal.trans (.head h₆ (.head (step_release ht₆ (c := s₆.cache) (q := .sleeping e)
        rfl hrel₆) (.refl _))), by simp [hlen ht₆], hc₆, ?_⟩
      funext l
      rcases l with _ | k <;> simp [hp₆, hp₅, hp₄, update_apply, hfree]
  · -- a hit or a reuse: `release(&bcache.lock[id])`
    exact ⟨_, .head h₁ (.head (step_release ht₁ (c := c) (q := .sleeping e)
      (by simp [Pc.next, hc₁, hbb]) hrel₁) (.refl _)), by simp [hlen ht₁], rfl, hspin₁⟩

/-- One thread about to run `bget(1, 3)` on the cache `binit` leaves, no spinlock held; kept
irreducible so that statements about it are not evaluated. -/
@[irreducible] def oneBget : State := ⟨Bcache.binit 30, fun _ => none, fun _ => [], [.bget 1 3]⟩

theorem bget_alone_oneBget :
    oneBget.threads[0]? = some (.bget 1 3) ∧ (∀ l, oneBget.spin l = none) ∧
    ∃ s', Alone 0 oneBget s' ∧
      match oneBget.cache.bget 1 3 with
      | some (e, c) => s'.threads[0]? = some (.sleeping e) ∧ s'.cache = c ∧ s'.spin = oneBget.spin
      | none => s'.threads[0]? = some (.noBuffers 1 3) := by
  have ht : oneBget.threads[0]? = some (.bget 1 3) := by unfold oneBget; rfl
  have hs : ∀ l, oneBget.spin l = none := by unfold oneBget; exact fun _ => rfl
  exact ⟨ht, hs, bget_alone ht hs⟩

end State

end Locks

end BufCache
