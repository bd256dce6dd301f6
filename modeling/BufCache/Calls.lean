import BufCache.Buckets

/-!
# Complete calls, one at a time

`bget`, `bread`, `bwrite`, `brelse`, `bpin` and `bunpin` called one after another, each to its
end. The disk is a map from `(dev, blockno)` to block contents that only `bwrite` changes. Between
calls a caller may change the data of a buffer it holds (`modify`).

Ghost state records what the properties of the cache talk about: the `bpin` calls not yet undone,
the buffers changed since their last `bwrite`, the number of disk reads, a clock counting the
calls, and the time at which each buffer last lost its last reference.

Each complete call is a run of the regions of `Region` by its thread, followed for `bread` by the
disk read it makes under the buffer's sleeplock only; so the reference-count law and the bucket
lists of the region model hold between calls.
-/

namespace BufCache

open Function

/-- The cache between calls, the disk, and the ghost state. -/
structure Machine where
  cache : Bcache
  nthreads : Nat
  pins : Nat → Nat
  disk : Nat × Nat → Nat → UInt8
  dirty : Nat → Bool
  reads : Nat
  clock : Nat
  lastFree : Nat → Nat

/-- A complete call by thread `t`; `modify` is the caller writing the data of a buffer it holds. -/
inductive Call where
  | bget (t dev blockno : Nat)
  | bread (t dev blockno : Nat)
  | modify (t i : Nat) (d : Nat → UInt8)
  | bwrite (t i : Nat)
  | brelse (t i : Nat)
  | bpin (t i : Nat)
  | bunpin (t i : Nat)

namespace Machine

/-- The cache `binit` leaves, `n` threads, and the disk `disk`. -/
def init (n nbuf : Nat) (disk : Nat × Nat → Nat → UInt8) : Machine :=
  ⟨Bcache.binit nbuf, n, fun _ => 0, disk, fun _ => false, 0, 0, fun _ => 0⟩

/-- The machine at the granularity of regions, with every thread outside the cache. -/
def sys (m : Machine) : Sys := ⟨m.cache, List.replicate m.nthreads .idle, m.pins⟩

/-- `bget(dev, blockno)` by thread `t`: its locked regions, then `acquiresleep`. `none` when it
panics, or when the buffer's sleeplock is held and the call cannot end. -/
def bget (m : Machine) (t dev blockno : Nat) : Option (Nat × Machine) :=
  match m.cache.bget dev blockno with
  | some (e, c) => (c.acquireSleep t e).map fun c => (e, { m with cache := c })
  | none => none

/-- `virtio_disk_rw(b, 0)`: buffer `e` gets the disk's contents of its block. -/
def diskRead (m : Machine) (e : Nat) : Machine :=
  let b := m.cache.buf e
  { m with cache := m.cache.setBuf e { b with data := m.disk (b.dev, b.blockno) },
           reads := m.reads + 1 }

/-- `virtio_disk_rw(b, 1)`: the disk gets buffer `e`'s contents for its block. -/
def diskWrite (m : Machine) (e : Nat) : Machine :=
  let b := m.cache.buf e
  { m with disk := update m.disk (b.dev, b.blockno) b.data }

/-- `bread(dev, blockno)`: `bget`, then a disk read if the buffer is not valid. -/
def bread (m : Machine) (t dev blockno : Nat) : Option (Nat × Machine) :=
  match m.bget t dev blockno with
  | some (e, m) =>
    if (m.cache.buf e).valid then some (e, m)
    else
      let m := m.diskRead e
      some (e, { m with cache := m.cache.setBuf e { m.cache.buf e with valid := true } })
  | none => none

/-- `bwrite(b)`: panics unless the caller holds the buffer; the buffer is then clean. -/
def bwrite (m : Machine) (t e : Nat) : Option Machine :=
  if m.cache.holdingSleep t e then some { m.diskWrite e with dirty := update m.dirty e false }
  else none

/-- The time of the call that dropped buffer `e`'s last reference, if the call did. -/
def noteFree (m : Machine) (e : Nat) : Nat → Nat :=
  if (m.cache.buf e).refcnt = 0 then update m.lastFree e m.clock else m.lastFree

/-- `brelse(b)`: the check and release of the sleeplock, then the locked region. -/
def brelse (m : Machine) (t e : Nat) : Option Machine :=
  if m.cache.holdingSleep t e then
    let m := { m with cache := (m.cache.releaseSleep e).brelseLocked e }
    some { m with lastFree := m.noteFree e }
  else none

/-- `bpin(b)`. -/
def bpin (m : Machine) (e : Nat) : Machine :=
  { m with cache := m.cache.bpin e, pins := update m.pins e (m.pins e + 1) }

/-- `bunpin(b)`. -/
def bunpin (m : Machine) (e : Nat) : Machine :=
  let m := { m with cache := m.cache.bunpin e, pins := update m.pins e (m.pins e - 1) }
  { m with lastFree := m.noteFree e }

/-- The caller writes `d` into buffer `e`, which is dirty until its next `bwrite`. -/
def modify (m : Machine) (e : Nat) (d : Nat → UInt8) : Machine :=
  { m with cache := m.cache.setBuf e { m.cache.buf e with data := d },
           dirty := update m.dirty e true }

/-- One complete call; the clock counts it. `none` when it panics or cannot end. -/
def step (m : Machine) (a : Call) : Option Machine :=
  let m := { m with clock := m.clock + 1 }
  match a with
  | .bget t dev blockno => (m.bget t dev blockno).map Prod.snd
  | .bread t dev blockno => (m.bread t dev blockno).map Prod.snd
  | .modify _ e d => some (m.modify e d)
  | .bwrite t e => m.bwrite t e
  | .brelse t e => m.brelse t e
  | .bpin _ e => some (m.bpin e)
  | .bunpin _ e => some (m.bunpin e)

/-- The callers the properties assume: a thread asks for no block whose buffer is held, it
writes, writes back, releases and pins only buffers it holds, releases a buffer only after
writing back its changes, and unpins only buffers with a `bpin` not yet undone. -/
def Callers (m : Machine) : Call → Prop
  | .bget t dev blockno | .bread t dev blockno => t < m.nthreads ∧
    ∀ i < m.cache.nbuf, (m.cache.buf i).caches dev blockno = true → (m.cache.buf i).lock = none
  | .modify t e _ | .bwrite t e | .bpin t e =>
    t < m.nthreads ∧ e < m.cache.nbuf ∧ (m.cache.buf e).lock = some t
  | .brelse t e => t < m.nthreads ∧ e < m.cache.nbuf ∧ (m.cache.buf e).lock = some t ∧
    m.dirty e = false
  | .bunpin t e => t < m.nthreads ∧ e < m.cache.nbuf ∧ 0 < m.pins e

instance (m : Machine) : (a : Call) → Decidable (m.Callers a)
  | .bget t dev blockno | .bread t dev blockno => inferInstanceAs (Decidable (t < m.nthreads ∧
    ∀ i < m.cache.nbuf, (m.cache.buf i).caches dev blockno = true → (m.cache.buf i).lock = none))
  | .modify t e _ | .bwrite t e | .bpin t e =>
    inferInstanceAs (Decidable (t < m.nthreads ∧ e < m.cache.nbuf ∧ (m.cache.buf e).lock = some t))
  | .brelse t e => inferInstanceAs (Decidable (t < m.nthreads ∧ e < m.cache.nbuf ∧
    (m.cache.buf e).lock = some t ∧ m.dirty e = false))
  | .bunpin t e => inferInstanceAs (Decidable (t < m.nthreads ∧ e < m.cache.nbuf ∧ 0 < m.pins e))

/-- The machines reached from `init` by calls that `ok` allows. -/
inductive Reachable (ok : Machine → Call → Prop) : Machine → Prop where
  | init (n nbuf : Nat) (disk : Nat × Nat → Nat → UInt8) : Reachable ok (init n nbuf disk)
  | step {m m' : Machine} {a : Call} : Reachable ok m → ok m a → m.step a = some m' →
      Reachable ok m'

/-- Run the calls `as` from `m`, each one allowed by `ok`. -/
def run (ok : Machine → Call → Prop) [∀ m a, Decidable (ok m a)] (m : Machine) :
    List Call → Option Machine
  | [] => some m
  | a :: as => if ok m a then (m.step a).bind (run ok · as) else none

theorem Reachable.run {ok : Machine → Call → Prop} [∀ m a, Decidable (ok m a)] {m m' : Machine}
    (h : Reachable ok m) : ∀ {as : List Call}, Machine.run ok m as = some m' → Reachable ok m'
  | [], hr => by cases hr; exact h
  | a :: as, hr => by
    simp only [Machine.run] at hr
    split_ifs at hr with hok
    cases hs : m.step a with
    | none => simp [hs] at hr
    | some m₁ => exact (h.step hok hs).run (by simpa [hs] using hr)

end Machine

/-! ### What a call does -/

namespace Machine

variable {m m' : Machine} {t dev blockno e : Nat}

@[simp] theorem sys_cache : m.sys.cache = m.cache := rfl
@[simp] theorem sys_threads : m.sys.threads = List.replicate m.nthreads .idle := rfl
@[simp] theorem sys_pins : m.sys.pins = m.pins := rfl

theorem bget_eq_some : m.bget t dev blockno = some (e, m') ↔
    ∃ c c', m.cache.bget dev blockno = some (e, c) ∧ c.acquireSleep t e = some c' ∧
      m' = { m with cache := c' } := by
  unfold bget
  cases m.cache.bget dev blockno with
  | none => simp
  | some r =>
    obtain ⟨e₀, c⟩ := r
    simp only [Option.map_eq_some', Prod.mk.injEq, Option.some.injEq]
    constructor
    · rintro ⟨c', hc', rfl, rfl⟩
      exact ⟨c, c', ⟨rfl, rfl⟩, hc', rfl⟩
    · rintro ⟨_, c', ⟨rfl, rfl⟩, hc', rfl⟩
      exact ⟨c', hc', rfl, rfl⟩

theorem bread_eq_some : m.bread t dev blockno = some (e, m') ↔
    ∃ m₁, m.bget t dev blockno = some (e, m₁) ∧
      m' = if (m₁.cache.buf e).valid then m₁ else
        { m₁.diskRead e with
          cache := (m₁.diskRead e).cache.setBuf e
            { (m₁.diskRead e).cache.buf e with valid := true } } := by
  unfold bread
  split
  · rename_i e₀ m₁ h
    rw [h]
    constructor
    · intro h'
      split_ifs at h' with hv <;> simp only [Option.some.injEq, Prod.mk.injEq] at h' <;>
        obtain ⟨rfl, rfl⟩ := h' <;> simp [hv]
    · rintro ⟨_, ⟨⟩, rfl⟩
      split_ifs <;> rfl
  · rename_i h
    simp [h]

end Machine

/-! ### Calls as runs of regions -/

namespace Sys

variable {s s' : Sys} {t dev blockno e : Nat} {c c' : Bcache}

/-- The regions of `bget` up to its `acquiresleep`: the first region, and the steal region after
a miss. -/
theorem steps_bget (ht : s.threads[t]? = some .idle) (hb : s.cache.bget dev blockno = some (e, c)) :
    Steps PinCallers s ⟨c, s.threads.set t (.sleeping e), s.pins⟩ := by
  have htl : t < s.threads.length := (List.getElem?_eq_some_iff.1 ht).1
  unfold Bcache.bget at hb
  rcases Bcache.bgetBucket_cases s.cache dev blockno with
    ⟨i, -, he⟩ | ⟨i, -, -, he⟩ | ⟨-, -, he⟩ <;> rw [he] at hb
  · obtain ⟨rfl, rfl⟩ := Prod.mk.inj (Option.some.inj hb)
    exact (Steps.refl s).tail (a := .bget t dev blockno) trivial (by simp [step, ht, he])
  · obtain ⟨rfl, rfl⟩ := Prod.mk.inj (Option.some.inj hb)
    exact (Steps.refl s).tail (a := .bget t dev blockno) trivial (by simp [step, ht, he])
  · have h₁ : s.step (.bget t dev blockno) =
        some ⟨s.cache, s.threads.set t (.missed dev blockno), s.pins⟩ := by
      simp [step, ht, he]
    have hs : s.cache.bgetSteal dev blockno = some (e, c) := hb
    refine ((Steps.refl s).tail trivial h₁).tail (a := .steal t) trivial ?_
    simp [step, htl, hs, List.set_set]

theorem step_acquiresleep (ht : s.threads[t]? = some (.sleeping e))
    (hc : s.cache.acquireSleep t e = some c) :
    s.step (.acquiresleep t) = some ⟨c, s.threads.set t .idle, s.pins⟩ := by
  simp [step, ht, hc]

/-- Same references, locks, blocks and links: what the regions read of a buffer, as against its
data and `valid`, which `bread` and its caller change under the sleeplock alone. -/
structure SameRefs (s s' : Sys) : Prop where
  nbuf : s'.cache.nbuf = s.cache.nbuf
  next : s'.cache.next = s.cache.next
  prev : s'.cache.prev = s.cache.prev
  threads : s'.threads = s.threads
  pins : s'.pins = s.pins
  refcnt : ∀ i, (s'.cache.buf i).refcnt = (s.cache.buf i).refcnt
  lock : ∀ i, (s'.cache.buf i).lock = (s.cache.buf i).lock
  blockno : ∀ i, (s'.cache.buf i).blockno = (s.cache.buf i).blockno

theorem SameRefs.refl : s.SameRefs s :=
  ⟨rfl, rfl, rfl, rfl, rfl, fun _ => rfl, fun _ => rfl, fun _ => rfl⟩

theorem Counted.sameRefs (hc : s.Counted) (h : s.SameRefs s') :
    s'.Counted := by
  intro i
  simp only [reserved, h.refcnt, h.lock, h.threads, h.pins]
  exact hc i

theorem Placed.sameRefs {lists : Nat → List Nat} (hp : s.Placed lists) (h : s.SameRefs s') :
    s'.Placed lists := by
  refine ⟨hp.layout.congr h.nbuf h.next h.prev, fun i hi hr => ?_, fun t p i ht hi => ?_⟩
  · rw [h.nbuf] at hi
    rw [h.refcnt] at hr
    rw [h.blockno]
    exact hp.live i hi hr
  · rw [h.threads] at ht
    rw [h.nbuf]
    exact hp.bounded t p i ht hi

/-- The reference-count law and the bucket lists, which every region keeps. -/
def Good (s : Sys) : Prop := s.Counted ∧ ∃ lists, s.Placed lists

theorem Good.steps (h : s.Good) (hs : Steps PinCallers s s') : s'.Good := by
  induction hs with
  | refl => exact h
  | tail _ ha hs ih =>
    obtain ⟨hc, lists, hp⟩ := ih
    exact ⟨hc.step (pinCallers_callers ha) hs, hp.step hc ha hs⟩

theorem Good.sameRefs (h : s.Good) (hs : s.SameRefs s') : s'.Good :=
  ⟨h.1.sameRefs hs, h.2.imp fun _ hp => hp.sameRefs hs⟩

end Sys

namespace Sys

variable {s : Sys} {i : Nat} {b : Buf}

theorem SameRefs.trans {s₁ s₂ s₃ : Sys} (h₁ : s₁.SameRefs s₂) (h₂ : s₂.SameRefs s₃) :
    s₁.SameRefs s₃ :=
  ⟨h₂.nbuf.trans h₁.nbuf, h₂.next.trans h₁.next, h₂.prev.trans h₁.prev,
    h₂.threads.trans h₁.threads, h₂.pins.trans h₁.pins, fun i => (h₂.refcnt i).trans (h₁.refcnt i),
    fun i => (h₂.lock i).trans (h₁.lock i), fun i => (h₂.blockno i).trans (h₁.blockno i)⟩

theorem SameRefs.setBuf (hr : b.refcnt = (s.cache.buf i).refcnt)
    (hl : b.lock = (s.cache.buf i).lock) (hb : b.blockno = (s.cache.buf i).blockno) :
    s.SameRefs ⟨s.cache.setBuf i b, s.threads, s.pins⟩ := by
  refine ⟨rfl, rfl, rfl, rfl, rfl, fun j => ?_, fun j => ?_, fun j => ?_⟩ <;>
    by_cases hji : j = i <;> simp [hji, hr, hl, hb]

end Sys

namespace Machine

variable {m m' : Machine} {a : Call}

/-- A complete `bget` is a run of the regions of its thread, its `acquiresleep` included. -/
theorem bget_steps {t dev blockno e : Nat} {m₁ : Machine} (ht : t < m.nthreads)
    (hb : m.bget t dev blockno = some (e, m₁)) : Sys.Steps Sys.PinCallers m.sys m₁.sys := by
  obtain ⟨c, c', hbc, hc, rfl⟩ := bget_eq_some.1 hb
  have h₂ := Sys.step_acquiresleep (s := ⟨c, m.sys.threads.set t (.sleeping e), m.sys.pins⟩)
    (by simp [ht]) hc
  rw [show (m.sys.threads.set t (.sleeping e)).set t .idle = m.sys.threads by
    simp [List.set_set]] at h₂
  exact (Sys.steps_bget (by simp [ht]) hbc).tail (a := .acquiresleep t) trivial h₂

/-- Every complete call the callers make is a run of regions of its thread, up to the data and
`valid` of the buffer that `bread` fills and the caller writes. -/
theorem call_steps (hok : m.Callers a) (hs : m.step a = some m') :
    ∃ s, Sys.Steps Sys.PinCallers m.sys s ∧ s.SameRefs m'.sys := by
  cases a with
  | bget t dev blockno =>
    obtain ⟨⟨e, m₁⟩, hb, rfl⟩ := Option.map_eq_some'.1 hs
    exact ⟨_, bget_steps (m := { m with clock := m.clock + 1 }) hok.1 hb, .refl⟩
  | bread t dev blockno =>
    obtain ⟨⟨e, m₁⟩, hb, rfl⟩ := Option.map_eq_some'.1 hs
    obtain ⟨m₂, hbg, rfl⟩ := bread_eq_some.1 hb
    refine ⟨_, bget_steps (m := { m with clock := m.clock + 1 }) hok.1 hbg, ?_⟩
    split_ifs
    · exact .refl
    · refine ⟨rfl, rfl, rfl, rfl, rfl, fun j => ?_, fun j => ?_, fun j => ?_⟩ <;>
        by_cases hj : j = e <;> simp [diskRead, hj]
  | modify t e d =>
    cases hs
    refine ⟨_, .refl _, rfl, rfl, rfl, rfl, rfl, fun j => ?_, fun j => ?_, fun j => ?_⟩ <;>
      by_cases hj : j = e <;> simp [modify, hj]
  | bwrite t e =>
    simp only [step, bwrite] at hs
    split_ifs at hs
    cases hs
    exact ⟨_, .refl _, .refl⟩
  | brelse t e =>
    obtain ⟨ht, he, hl, -⟩ := hok
    have hh : m.cache.holdingSleep t e = true := by simp [Bcache.holdingSleep, hl]
    simp only [step, brelse, hh, if_true, Option.some.injEq] at hs
    subst hs
    have h₁ : m.sys.step (.brelse t e) =
        some ⟨m.cache.releaseSleep e, m.sys.threads.set t (.releasing e), m.pins⟩ := by
      simp [Sys.step, ht, he, hh]
    have h₂ : (⟨m.cache.releaseSleep e, m.sys.threads.set t (.releasing e), m.pins⟩ : Sys).step
        (.brelseLocked t) =
          some ⟨(m.cache.releaseSleep e).brelseLocked e, m.sys.threads, m.pins⟩ := by
      simp [Sys.step, ht, List.set_set]
    exact ⟨_, ((Sys.Steps.refl _).tail (show m.sys.PinCallers (.brelse t e) from hl) h₁).tail
      (a := .brelseLocked t) trivial h₂, .refl⟩
  | bpin t e =>
    cases hs
    exact ⟨_, (Sys.Steps.refl _).tail (show m.sys.PinCallers (.bpin t e) from hok.2.2)
      (by simp [Sys.step, hok.1, hok.2.1, bpin, sys]), .refl⟩
  | bunpin t e =>
    cases hs
    exact ⟨_, (Sys.Steps.refl _).tail (show m.sys.PinCallers (.bunpin t e) from hok.2.2)
      (by simp [Sys.step, hok.1, hok.2.1, bunpin, sys]), .refl⟩

/-- Between calls, the reference-count law and the bucket lists of the region model hold. -/
theorem Reachable.good {ok : Machine → Call → Prop} (hok : ∀ m a, ok m a → m.Callers a)
    (h : Reachable ok m) : m.sys.Good := by
  induction h with
  | init n nbuf disk => exact ⟨Sys.counted_init n nbuf, _, Sys.placed_init n nbuf⟩
  | step _ ha hs ih =>
    obtain ⟨s, hst, hsr⟩ := call_steps (hok _ _ ha) hs
    exact (ih.steps hst).sameRefs hsr

end Machine

/-! ### Panics with free buffers -/

/-- From `binit` with 30 buffers, one thread takes blocks 0, 13 and 26 of device 1: the three
buffers of bucket 0. Every other buffer still has the `blockno` 0 that `binit` left. -/
def exhaustTrace : List Call := [.bget 0 1 0, .bget 0 1 13, .bget 0 1 26]

theorem exhaustTrace_runs :
    (Machine.run Machine.Callers (Machine.init 1 30 fun _ _ => 0) exhaustTrace).isSome := by
  set_option maxRecDepth 20000 in decide

/-- The machine `exhaustTrace` reaches. -/
def exhaustState : Machine :=
  (Machine.run Machine.Callers (Machine.init 1 30 fun _ _ => 0) exhaustTrace).get exhaustTrace_runs

set_option maxRecDepth 20000 in
/-- After `exhaustTrace`, a `bget` of block 39 of device 1 (bucket 0 again) panics, while 27
buffers are free: the steal loop skips every buffer whose `blockno` hashes to bucket 0, which
includes all those `binit` left in the other buckets. -/
theorem bget_panics_with_free :
    ∃ m, Machine.Reachable Machine.Callers m ∧ m.Callers (.bget 0 1 39) ∧
      m.cache.bget 1 39 = none ∧ ∃ i < m.cache.nbuf, (m.cache.buf i).refcnt = 0 :=
  ⟨exhaustState, (Machine.Reachable.init 1 30 _).run (Option.some_get exhaustTrace_runs).symm,
    by decide, Option.isNone_iff_eq_none.1 (by decide), 5, by decide, by decide⟩

/-! ### Which free buffer is reused -/

/-- One thread takes block 1 of device 1 (buffer 1 of bucket 1), pins it, releases it and unpins
it: `bunpin` drops its last reference and leaves it at the tail of the bucket. -/
def unpinTrace : List Call := [.bget 0 1 1, .bpin 0 1, .brelse 0 1, .bunpin 0 1]

theorem unpinTrace_runs :
    (Machine.run Machine.Callers (Machine.init 1 30 fun _ _ => 0) unpinTrace).isSome := by
  set_option maxRecDepth 20000 in decide

/-- The machine `unpinTrace` reaches. -/
def unpinState : Machine :=
  (Machine.run Machine.Callers (Machine.init 1 30 fun _ _ => 0) unpinTrace).get unpinTrace_runs

set_option maxRecDepth 20000 in
/-- After `unpinTrace`, a `bget` of block 40 of device 1 misses in bucket 1 and reuses buffer 1,
freed at the fourth call, although buffer 27 of the same bucket has been free since `binit`. -/
theorem reuse_not_least_recent :
    ∃ m, Machine.Reachable Machine.Callers m ∧ m.Callers (.bget 0 1 40) ∧
      (m.cache.bucket 1).find? (fun i => (m.cache.buf i).caches 1 40) = none ∧
      (m.cache.bucketRev 1).find? (fun i => (m.cache.buf i).refcnt == 0) = some 1 ∧
      27 ∈ m.cache.bucket 1 ∧ (m.cache.buf 27).refcnt = 0 ∧ m.lastFree 27 < m.lastFree 1 :=
  ⟨unpinState, (Machine.Reachable.init 1 30 _).run (Option.some_get unpinTrace_runs).symm,
    by decide, by decide, by decide, by decide, by decide, by decide⟩

end BufCache
