import BufCache.Region

/-!
# The earlier cache of `bio_after.c`

`bio_after.c` keeps an earlier `bget`: after the hit scan of the bucket (lines 79-91) it has no
reuse scan, and its steal loop (lines 96-124) takes the first free buffer of the pool, relabels
it, and leaves it in the list it was on. The loop does not skip the buffers of the caller's own
bucket either, so on meeting one it acquires `bcache.lock[id]` a second time, which panics.
`binit`, `brelse`, `bpin` and `bunpin` are those of `kernel/bio.c`.

Calls run one at a time, each to its end. A stolen buffer stays where the hit scan of a later
`bget` of its block does not look, so that `bget` steals a second buffer for the same block.
-/

namespace BufCache

namespace After

/-- The steal loop from the buffers `bs` on: `none` is a panic, on `acquire` of the lock of the
caller's own bucket or at the end of the pool. -/
def steal (c : Bcache) (id dev blockno : Nat) : List Nat → Option (Nat × Bcache)
  | [] => none
  | b :: bs =>
    if (c.buf b).blockno % NBUCKETS = id then none
    else if (c.buf b).refcnt = 0 then some (b, c.setBuf b ((c.buf b).relabel dev blockno))
    else steal c id dev blockno bs

/-- `bget(dev, blockno)` of `bio_after.c` up to its `acquiresleep`; `none` is a panic. -/
def bget (c : Bcache) (dev blockno : Nat) : Option (Nat × Bcache) :=
  let id := blockno % NBUCKETS
  match (c.bucket id).find? (fun i => (c.buf i).caches dev blockno) with
  | some i => some (i, c.setRefcnt i ((c.buf i).refcnt + 1))
  | none => steal c id dev blockno (List.range c.nbuf)

/-- A complete call by thread `t`. -/
inductive Call where
  | bget (t dev blockno : Nat)
  | brelse (t i : Nat)
  | bpin (i : Nat)
  | bunpin (i : Nat)
  deriving DecidableEq, Repr

/-- One complete call: `none` when it panics or its `acquiresleep` cannot end. -/
def step (c : Bcache) : Call → Option Bcache
  | .bget t dev blockno => (bget c dev blockno).bind fun (e, c) => c.acquireSleep t e
  | .brelse t i => if c.holdingSleep t i then some ((c.releaseSleep i).brelseLocked i) else none
  | .bpin i => some (c.bpin i)
  | .bunpin i => some (c.bunpin i)

/-- The caches reached from `binit` by calls that end. -/
inductive Reachable : Bcache → Prop where
  | init (nbuf : Nat) : Reachable (Bcache.binit nbuf)
  | step {c c' : Bcache} {a : Call} : Reachable c → step c a = some c' → Reachable c'

/-- Run the calls `as` from `c`. -/
def run (c : Bcache) : List Call → Option Bcache
  | [] => some c
  | a :: as => (step c a).bind (run · as)

theorem Reachable.run {c c' : Bcache} (h : Reachable c) :
    ∀ {as : List Call}, After.run c as = some c' → Reachable c'
  | [], hr => by cases hr; exact h
  | a :: as, hr => by
    simp only [After.run] at hr
    cases hs : After.step c a with
    | none => simp [hs] at hr
    | some c₁ => exact (h.step hs).run (by simpa [hs] using hr)

/-- Thread 0 takes block 3 of device 1 (buffer 0 stolen, left in bucket 0); thread 1 takes block 2
(buffer 1 stolen, left in bucket 1); thread 0 releases buffer 0; thread 2 asks for block 2, misses
in bucket 2 and steals buffer 0. -/
def dupTrace : List Call := [.bget 0 1 3, .bget 1 1 2, .brelse 0 0, .bget 2 1 2]

theorem dupTrace_runs : (After.run (Bcache.binit 30) dupTrace).isSome := by
  set_option maxRecDepth 20000 in decide

/-- The cache `dupTrace` reaches. -/
def dupState : Bcache := (After.run (Bcache.binit 30) dupTrace).get dupTrace_runs

set_option maxRecDepth 20000 in
/-- After `dupTrace`, buffers 0 and 1 are both labelled with block 2 of device 1 and both have a
reference, held by threads 2 and 1. -/
theorem after_duplicates : ∃ c, Reachable c ∧ ¬UniqueLive c :=
  ⟨dupState, (Reachable.init 30).run (Option.some_get dupTrace_runs).symm,
    fun h => h 0 (by decide) 1 (by decide) (by decide) (by decide) (by decide) (by decide)⟩

end After

end BufCache
