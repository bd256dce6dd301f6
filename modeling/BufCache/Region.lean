import BufCache.Bio

/-!
# Threads at the granularity of locked regions

Any number of threads call `bget`, `brelse`, `bpin` and `bunpin` of `kernel/bio.c`. Each region
the code runs under a spinlock is one atomic step: the first region of `bget` under
`bcache.lock[id]`, its steal region under `global_lock`, the locked regions of `brelse`, `bpin`
and `bunpin`; `acquiresleep` and the release of the sleeplock at the start of `brelse` are steps
of their own. A thread's place between steps is a `Pc`.

The number of `bpin` calls not yet undone by `bunpin` is kept as a ghost count per buffer, so
that the reference count can be compared with what the threads hold.
-/

namespace BufCache

open Function

/-- Where a thread is between atomic steps. -/
inductive Pc where
  /-- outside the buffer cache -/
  | idle
  /-- in `bget`, after its first region missed (between lines 106 and 109) -/
  | missed (dev blockno : Nat)
  /-- in `bget`, buffer `i` reserved, waiting in `acquiresleep` -/
  | sleeping (i : Nat)
  /-- in `brelse` of buffer `i`, its sleeplock released, before its locked region -/
  | releasing (i : Nat)
  /-- stopped in `panic` -/
  | panicked
  deriving DecidableEq, Repr

/-- The reference to buffer `i` a thread has from inside `bget` or `brelse`. -/
def Pc.reserves (i : Nat) : Pc → Bool
  | .sleeping j => i == j
  | .releasing j => i == j
  | _ => false

/-- The cache, the threads, and the ghost count of `bpin` calls not yet undone per buffer. -/
structure Sys where
  cache : Bcache
  threads : List Pc
  pins : Nat → Nat

/-- An atomic step of thread `t`. -/
inductive Act where
  /-- call `bget(dev, blockno)` and run its region under `bcache.lock[id]` -/
  | bget (t dev blockno : Nat)
  /-- the region of `bget` under `global_lock` -/
  | steal (t : Nat)
  /-- the `acquiresleep` that ends `bget` -/
  | acquiresleep (t : Nat)
  /-- call `brelse(&bcache.buf[i])`: `holdingsleep` and `releasesleep` -/
  | brelse (t i : Nat)
  /-- the region of `brelse` under `bcache.lock[id]` -/
  | brelseLocked (t : Nat)
  /-- `bpin(&bcache.buf[i])` -/
  | bpin (t i : Nat)
  /-- `bunpin(&bcache.buf[i])` -/
  | bunpin (t i : Nat)
  deriving DecidableEq, Repr

namespace Sys

/-- `n` idle threads and the cache `binit` leaves. -/
def init (n nbuf : Nat) : Sys := ⟨Bcache.binit nbuf, List.replicate n .idle, fun _ => 0⟩

/-- Thread `t` moves to `p`. -/
def setPc (s : Sys) (t : Nat) (p : Pc) : Sys := { s with threads := s.threads.set t p }

/-- One atomic step. `none` when thread `t` is not where the step starts or, in `acquiresleep`,
is blocked. -/
def step (s : Sys) : Act → Option Sys
  | .bget t dev blockno =>
    if s.threads[t]? = some .idle then
      match s.cache.bgetBucket dev blockno with
      | (some i, c) => some { s with cache := c, threads := s.threads.set t (.sleeping i) }
      | (none, c) => some { s with cache := c, threads := s.threads.set t (.missed dev blockno) }
    else none
  | .steal t =>
    match s.threads[t]? with
    | some (.missed dev blockno) =>
      match s.cache.bgetSteal dev blockno with
      | some (i, c) => some { s with cache := c, threads := s.threads.set t (.sleeping i) }
      | none => some (s.setPc t .panicked)
    | _ => none
  | .acquiresleep t =>
    match s.threads[t]? with
    | some (.sleeping i) =>
      (s.cache.acquireSleep t i).map fun c =>
        { s with cache := c, threads := s.threads.set t .idle }
    | _ => none
  | .brelse t i =>
    if s.threads[t]? = some .idle ∧ i < s.cache.nbuf then
      if s.cache.holdingSleep t i then
        some { s with cache := s.cache.releaseSleep i, threads := s.threads.set t (.releasing i) }
      else some (s.setPc t .panicked)
    else none
  | .brelseLocked t =>
    match s.threads[t]? with
    | some (.releasing i) =>
      some { s with cache := s.cache.brelseLocked i, threads := s.threads.set t .idle }
    | _ => none
  | .bpin t i =>
    if s.threads[t]? = some .idle ∧ i < s.cache.nbuf then
      some { s with cache := s.cache.bpin i, pins := update s.pins i (s.pins i + 1) }
    else none
  | .bunpin t i =>
    if s.threads[t]? = some .idle ∧ i < s.cache.nbuf then
      some { s with cache := s.cache.bunpin i, pins := update s.pins i (s.pins i - 1) }
    else none

/-- The discipline of `bio.c`'s callers: a thread calls `brelse` only on a buffer it holds, and
`bunpin` only on a buffer with a `bpin` not yet undone. -/
def Callers (s : Sys) : Act → Prop
  | .brelse t i => (s.cache.buf i).lock = some t
  | .bunpin _ i => 0 < s.pins i
  | _ => True

/-- `Callers`, and `bpin` only of a buffer the caller holds. -/
def PinCallers (s : Sys) : Act → Prop
  | .bpin t i => (s.cache.buf i).lock = some t
  | a => s.Callers a

instance (s : Sys) : (a : Act) → Decidable (s.Callers a)
  | .brelse t i => inferInstanceAs (Decidable ((s.cache.buf i).lock = some t))
  | .bunpin _ i => inferInstanceAs (Decidable (0 < s.pins i))
  | .bget .. | .steal _ | .acquiresleep _ | .brelseLocked _ | .bpin .. =>
    inferInstanceAs (Decidable True)

instance (s : Sys) : (a : Act) → Decidable (s.PinCallers a)
  | .bpin t i => inferInstanceAs (Decidable ((s.cache.buf i).lock = some t))
  | .bget t dev blockno => inferInstanceAs (Decidable (s.Callers (.bget t dev blockno)))
  | .steal t => inferInstanceAs (Decidable (s.Callers (.steal t)))
  | .acquiresleep t => inferInstanceAs (Decidable (s.Callers (.acquiresleep t)))
  | .brelse t i => inferInstanceAs (Decidable (s.Callers (.brelse t i)))
  | .brelseLocked t => inferInstanceAs (Decidable (s.Callers (.brelseLocked t)))
  | .bunpin t i => inferInstanceAs (Decidable (s.Callers (.bunpin t i)))

/-- The states reached from `init` by steps that `ok` allows. -/
inductive Reachable (ok : Sys → Act → Prop) : Sys → Prop where
  | init (n nbuf : Nat) : Reachable ok (init n nbuf)
  | step {s s' : Sys} {a : Act} : Reachable ok s → ok s a → s.step a = some s' → Reachable ok s'

/-- Run the steps `as` from `s`, each one allowed by `ok`. -/
def run (ok : Sys → Act → Prop) [∀ s a, Decidable (ok s a)] (s : Sys) : List Act → Option Sys
  | [] => some s
  | a :: as => if ok s a then (s.step a).bind (run ok · as) else none

theorem Reachable.run {ok : Sys → Act → Prop} [∀ s a, Decidable (ok s a)] {s s' : Sys}
    (h : Reachable ok s) : ∀ {as : List Act}, Sys.run ok s as = some s' → Reachable ok s'
  | [], hr => by cases hr; exact h
  | a :: as, hr => by
    simp only [Sys.run] at hr
    split_ifs at hr with hok
    cases hs : s.step a with
    | none => simp [hs] at hr
    | some s₁ => exact (h.step hok hs).run (by simpa [hs] using hr)

/-- `s'` is reached from `s` by steps that `ok` allows. -/
inductive Steps (ok : Sys → Act → Prop) : Sys → Sys → Prop where
  | refl (s : Sys) : Steps ok s s
  | tail {s s₁ s₂ : Sys} {a : Act} : Steps ok s s₁ → ok s₁ a → s₁.step a = some s₂ →
      Steps ok s s₂

theorem Reachable.steps {ok : Sys → Act → Prop} {s s' : Sys} (h : Reachable ok s)
    (hs : Steps ok s s') : Reachable ok s' := by
  induction hs with
  | refl => exact h
  | tail _ ha hs ih => exact ih.step ha hs

theorem Reachable.mono {ok ok' : Sys → Act → Prop} (hok : ∀ s a, ok s a → ok' s a) {s : Sys}
    (h : Reachable ok s) : Reachable ok' s := by
  induction h with
  | init n nbuf => exact .init n nbuf
  | step _ ha hs ih => exact ih.step (hok _ _ ha) hs

theorem pinCallers_callers {s : Sys} {a : Act} (h : s.PinCallers a) : s.Callers a := by
  cases a <;> first | exact h | trivial

/-! ### What one step can do -/

variable {s s' : Sys} {a : Act}

/-- Every step, with the guard it passed and the state it leaves: a hit, a reuse or a miss of the
first region of `bget`, a steal or its panic, the `acquiresleep` of `bget`, the release of the
sleeplock in `brelse` or its panic, the locked region of `brelse`, `bpin` and `bunpin`. -/
theorem step_cases (h : s.step a = some s') :
    (∃ t dev blockno i, a = .bget t dev blockno ∧ s.threads[t]? = some .idle ∧
      (s.cache.bucket (blockno % NBUCKETS)).find? (fun i => (s.cache.buf i).caches dev blockno) =
        some i ∧
      s' = ⟨s.cache.setRefcnt i ((s.cache.buf i).refcnt + 1), s.threads.set t (.sleeping i),
        s.pins⟩) ∨
    (∃ t dev blockno i, a = .bget t dev blockno ∧ s.threads[t]? = some .idle ∧
      (s.cache.bucket (blockno % NBUCKETS)).find? (fun i => (s.cache.buf i).caches dev blockno) =
        none ∧
      (s.cache.bucketRev (blockno % NBUCKETS)).find? (fun i => (s.cache.buf i).refcnt == 0) =
        some i ∧
      s' = ⟨s.cache.setBuf i ((s.cache.buf i).relabel dev blockno), s.threads.set t (.sleeping i),
        s.pins⟩) ∨
    (∃ t dev blockno, a = .bget t dev blockno ∧ s.threads[t]? = some .idle ∧
      (s.cache.bucket (blockno % NBUCKETS)).find? (fun i => (s.cache.buf i).caches dev blockno) =
        none ∧
      (s.cache.bucketRev (blockno % NBUCKETS)).find? (fun i => (s.cache.buf i).refcnt == 0) =
        none ∧
      s' = ⟨s.cache, s.threads.set t (.missed dev blockno), s.pins⟩) ∨
    (∃ t dev blockno i c, a = .steal t ∧ s.threads[t]? = some (.missed dev blockno) ∧
      s.cache.bgetSteal dev blockno = some (i, c) ∧
      s' = ⟨c, s.threads.set t (.sleeping i), s.pins⟩) ∨
    (∃ t dev blockno, a = .steal t ∧ s.threads[t]? = some (.missed dev blockno) ∧
      s.cache.bgetSteal dev blockno = none ∧ s' = ⟨s.cache, s.threads.set t .panicked, s.pins⟩) ∨
    (∃ t i, a = .acquiresleep t ∧ s.threads[t]? = some (.sleeping i) ∧
      (s.cache.buf i).lock = none ∧
      s' = ⟨s.cache.setBuf i { s.cache.buf i with lock := some t }, s.threads.set t .idle,
        s.pins⟩) ∨
    (∃ t i, a = .brelse t i ∧ s.threads[t]? = some .idle ∧ i < s.cache.nbuf ∧
      s.cache.holdingSleep t i = true ∧
      s' = ⟨s.cache.releaseSleep i, s.threads.set t (.releasing i), s.pins⟩) ∨
    (∃ t i, a = .brelse t i ∧ s.threads[t]? = some .idle ∧ i < s.cache.nbuf ∧
      s.cache.holdingSleep t i = false ∧ s' = ⟨s.cache, s.threads.set t .panicked, s.pins⟩) ∨
    (∃ t i, a = .brelseLocked t ∧ s.threads[t]? = some (.releasing i) ∧
      s' = ⟨s.cache.brelseLocked i, s.threads.set t .idle, s.pins⟩) ∨
    (∃ t i, a = .bpin t i ∧ s.threads[t]? = some .idle ∧ i < s.cache.nbuf ∧
      s' = ⟨s.cache.bpin i, s.threads, update s.pins i (s.pins i + 1)⟩) ∨
    (∃ t i, a = .bunpin t i ∧ s.threads[t]? = some .idle ∧ i < s.cache.nbuf ∧
      s' = ⟨s.cache.bunpin i, s.threads, update s.pins i (s.pins i - 1)⟩) := by
  cases a with
  | bget t dev blockno =>
    simp only [step] at h
    split_ifs at h with ht
    rcases Bcache.bgetBucket_cases s.cache dev blockno with
      ⟨i, hf, he⟩ | ⟨i, hf, hr, he⟩ | ⟨hf, hr, he⟩ <;> simp only [he, Option.some.injEq] at h <;>
      subst h
    · exact .inl ⟨t, dev, blockno, i, rfl, ht, hf, rfl⟩
    · exact .inr <| .inl ⟨t, dev, blockno, i, rfl, ht, hf, hr, rfl⟩
    · exact .inr <| .inr <| .inl ⟨t, dev, blockno, rfl, ht, hf, hr, rfl⟩
  | steal t =>
    simp only [step] at h
    split at h
    · rename_i dev blockno ht
      cases he : s.cache.bgetSteal dev blockno with
      | none =>
        simp only [he, Option.some.injEq] at h
        exact .inr <| .inr <| .inr <| .inr <| .inl ⟨t, dev, blockno, rfl, ht, he, h.symm⟩
      | some r =>
        simp only [he, Option.some.injEq] at h
        exact .inr <| .inr <| .inr <| .inl ⟨t, dev, blockno, r.1, r.2, rfl, ht, he, h.symm⟩
    · cases h
  | acquiresleep t =>
    simp only [step] at h
    split at h
    · rename_i i ht
      unfold Bcache.acquireSleep at h
      split at h
      · rename_i hl
        simp only [Option.map_some', Option.some.injEq] at h
        exact .inr <| .inr <| .inr <| .inr <| .inr <| .inl ⟨t, i, rfl, ht, hl, h.symm⟩
      · cases h
    · cases h
  | brelse t i =>
    simp only [step] at h
    split_ifs at h with ht hh <;> simp only [Option.some.injEq] at h
    · exact .inr <| .inr <| .inr <| .inr <| .inr <| .inr <| .inl ⟨t, i, rfl, ht.1, ht.2, hh, h.symm⟩
    · exact .inr <| .inr <| .inr <| .inr <| .inr <| .inr <| .inr <| .inl
        ⟨t, i, rfl, ht.1, ht.2, by simpa using hh, h.symm⟩
  | brelseLocked t =>
    simp only [step] at h
    split at h
    · rename_i i ht
      simp only [Option.some.injEq] at h
      exact .inr <| .inr <| .inr <| .inr <| .inr <| .inr <| .inr <| .inr <| .inl
        ⟨t, i, rfl, ht, h.symm⟩
    · cases h
  | bpin t i =>
    simp only [step] at h
    split_ifs at h with ht
    simp only [Option.some.injEq] at h
    exact .inr <| .inr <| .inr <| .inr <| .inr <| .inr <| .inr <| .inr <| .inr <| .inl
      ⟨t, i, rfl, ht.1, ht.2, h.symm⟩
  | bunpin t i =>
    simp only [step] at h
    split_ifs at h with ht
    simp only [Option.some.injEq] at h
    exact .inr <| .inr <| .inr <| .inr <| .inr <| .inr <| .inr <| .inr <| .inr <| .inr
      ⟨t, i, rfl, ht.1, ht.2, h.symm⟩

end Sys

/-- No two buffers that have references are labelled with the same block. -/
def UniqueLive (c : Bcache) : Prop :=
  ∀ i < c.nbuf, ∀ j < c.nbuf, i ≠ j → 0 < (c.buf i).refcnt → 0 < (c.buf j).refcnt →
    ¬((c.buf i).dev = (c.buf j).dev ∧ (c.buf i).blockno = (c.buf j).blockno)

/-- No two threads hold the sleeplocks of buffers labelled with the same block. -/
def HeldOnce (c : Bcache) : Prop :=
  ∀ i < c.nbuf, ∀ j < c.nbuf, ∀ t t', t ≠ t' → (c.buf i).lock = some t →
    (c.buf j).lock = some t' →
    ¬((c.buf i).dev = (c.buf j).dev ∧ (c.buf i).blockno = (c.buf j).blockno)

/-- Thread 0 holds the three buffers of bucket 1; threads 1 and 2 then both miss on block 40
(bucket 1 again) before either runs the steal region, which does not look for a hit. -/
def raceTrace : List Act :=
  [.bget 0 1 1, .acquiresleep 0, .bget 0 1 14, .acquiresleep 0, .bget 0 1 27, .acquiresleep 0,
    .bget 1 1 40, .bget 2 1 40, .steal 1, .steal 2, .acquiresleep 1, .acquiresleep 2]

theorem raceTrace_runs : (Sys.run Sys.PinCallers (Sys.init 3 30) raceTrace).isSome := by
  set_option maxRecDepth 20000 in decide

/-- The state `raceTrace` reaches. -/
def raceState : Sys := (Sys.run Sys.PinCallers (Sys.init 3 30) raceTrace).get raceTrace_runs

theorem raceState_reachable : Sys.Reachable Sys.PinCallers raceState :=
  (Sys.Reachable.init 3 30).run (Option.some_get raceTrace_runs).symm

set_option maxRecDepth 20000 in
/-- With 30 buffers and three threads, the interleaving `raceTrace` reaches a state where buffers
0 and 2 are both labelled with block `(1, 40)`, both with a reference, their sleeplocks held by
threads 1 and 2. -/
theorem bget_race_duplicates :
    ∃ s, Sys.Reachable Sys.PinCallers s ∧ ¬UniqueLive s.cache ∧ ¬HeldOnce s.cache :=
  ⟨raceState, raceState_reachable,
    fun h => h 0 (by decide) 2 (by decide) (by decide) (by decide) (by decide) (by decide),
    fun h => h 0 (by decide) 2 (by decide) 1 2 (by decide) (by decide) (by decide) (by decide)⟩

end BufCache
