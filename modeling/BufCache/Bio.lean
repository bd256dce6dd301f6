import BufCache.Links

/-!
# The functions of `kernel/bio.c`

Each function of the buffer cache as the code computes it on `bcache`. `bget` is split where it
changes locks: `bgetBucket` is what it does under `bcache.lock[id]` (the hit scan and the reuse
of a free buffer of the bucket, lines 79-106), `bgetSteal` what it does under `global_lock` and
`bcache.lock[id]` (the steal loop, lines 109-147). The wait for the buffer's sleeplock that ends
`bget` is `acquireSleep`, a step of its own in the thread models.

`brelse` is split the same way: the check of the sleeplock and its release come first, then
`brelseLocked` runs under `bcache.lock[id]`.
-/

namespace BufCache

open Function

/-- `b->dev == dev && b->blockno == blockno`: the buffer is labelled with the block. -/
def Buf.caches (b : Buf) (dev blockno : Nat) : Bool := b.dev == dev && b.blockno == blockno

/-- `b->dev = dev; b->blockno = blockno; b->valid = 0; b->refcnt = 1;` -/
def Buf.relabel (b : Buf) (dev blockno : Nat) : Buf :=
  { b with dev, blockno, valid := false, refcnt := 1 }

namespace Bcache

variable {c c' : Bcache} {lists : Nat → List Nat} {dev blockno e i k : Nat}

/-- Set the reference count of `bcache.buf[i]`. -/
def setRefcnt (c : Bcache) (i n : Nat) : Bcache := c.setBuf i { c.buf i with refcnt := n }

/-- The first loop of `binit`: `head[i].prev = head[i].next = &head[i]` for every bucket. -/
def initHeads (c : Bcache) : Bcache :=
  (List.range NBUCKETS).foldl
    (fun c i => (c.setPrev (.head i) (.head i)).setNext (.head i) (.head i)) c

/-- The inner loop of `binit` for bucket `i`: `bcache.buf[i]`, `bcache.buf[i + NBUCKETS]`, … are
linked first into the bucket in turn. -/
def fillBucket (nbuf : Nat) (c : Bcache) (i : Nat) : Bcache :=
  ((List.range nbuf).filter (· % NBUCKETS == i)).foldl (fun c b => c.linkHead i (.buf b)) c

/-- `binit`, from the all-zero static `bcache` with null pointers. -/
def binit (nbuf : Nat) : Bcache :=
  (List.range NBUCKETS).foldl (fillBucket nbuf)
    (initHeads ⟨nbuf, fun _ => Buf.zero, fun _ => .null, fun _ => .null⟩)

/-- `bget` under `bcache.lock[id]` (lines 79-106). The first buffer of bucket `id` labelled with
the block gains a reference; failing that, the free buffer nearest the tail of the bucket is
relabelled for the block. `none` is a miss. -/
def bgetBucket (c : Bcache) (dev blockno : Nat) : Option Nat × Bcache :=
  let id := blockno % NBUCKETS
  match (c.bucket id).find? (fun i => (c.buf i).caches dev blockno) with
  | some i => (some i, c.setRefcnt i ((c.buf i).refcnt + 1))
  | none =>
    match (c.bucketRev id).find? (fun i => (c.buf i).refcnt == 0) with
    | some i => (some i, c.setBuf i ((c.buf i).relabel dev blockno))
    | none => (none, c)

/-- One turn of the steal loop (lines 120-145) for `bcache.buf[i]`, with `lock[new_id]` held: a
free buffer is relabelled for the block and moved first into bucket `id`. -/
def claim (c : Bcache) (id dev blockno i : Nat) : Option Bcache :=
  if (c.buf i).refcnt = 0 then
    some (((c.setBuf i ((c.buf i).relabel dev blockno)).unlink (.buf i)).linkHead id (.buf i))
  else none

/-- The test `new_id == id` (line 117) that makes the steal loop skip `bcache.buf[i]`. -/
def skips (c : Bcache) (id i : Nat) : Bool := (c.buf i).blockno % NBUCKETS == id

/-- `bget` under `global_lock` and `bcache.lock[id]` (lines 109-147): the steal loop over the
pool in index order. `none` is `panic("bget: no buffers")`. -/
def bgetSteal (c : Bcache) (dev blockno : Nat) : Option (Nat × Bcache) :=
  let id := blockno % NBUCKETS
  (List.range c.nbuf).findSome? fun i =>
    if c.skips id i then none else (c.claim id dev blockno i).map (i, ·)

/-- `bget` with its two regions run back to back, up to the wait for the sleeplock. `none` is
the panic. -/
def bget (c : Bcache) (dev blockno : Nat) : Option (Nat × Bcache) :=
  match c.bgetBucket dev blockno with
  | (some i, c') => some (i, c')
  | (none, c') => c'.bgetSteal dev blockno

/-- `brelse` under `bcache.lock[id]` (lines 184-194), for the bucket `id` read at line 182: drop
a reference; a buffer that becomes free moves first into bucket `id`. -/
def brelseAt (c : Bcache) (i id : Nat) : Bcache :=
  let c := c.setRefcnt i ((c.buf i).refcnt - 1)
  if (c.buf i).refcnt = 0 then (c.unlink (.buf i)).linkHead id (.buf i) else c

/-- `brelse` from line 182 to its `release` (line 195), as one region: `id` is the bucket of the
buffer's block. -/
def brelseLocked (c : Bcache) (i : Nat) : Bcache := c.brelseAt i ((c.buf i).blockno % NBUCKETS)

/-- `bpin` under `bcache.lock[id]`. -/
def bpin (c : Bcache) (i : Nat) : Bcache := c.setRefcnt i ((c.buf i).refcnt + 1)

/-- `bunpin` under `bcache.lock[id]`. -/
def bunpin (c : Bcache) (i : Nat) : Bcache := c.setRefcnt i ((c.buf i).refcnt - 1)

/-- `acquiresleep(&b->lock)` by thread `t`: `none` while another holder keeps it. -/
def acquireSleep (c : Bcache) (t i : Nat) : Option Bcache :=
  match (c.buf i).lock with
  | none => some (c.setBuf i { c.buf i with lock := some t })
  | some _ => none

/-- `releasesleep(&b->lock)`. -/
def releaseSleep (c : Bcache) (i : Nat) : Bcache := c.setBuf i { c.buf i with lock := none }

/-- `holdingsleep(&b->lock)` for thread `t`. -/
def holdingSleep (c : Bcache) (t i : Nat) : Bool := (c.buf i).lock == some t

@[simp] lemma setRefcnt_nbuf : (c.setRefcnt i n).nbuf = c.nbuf := rfl
@[simp] lemma setRefcnt_next : (c.setRefcnt i n).next = c.next := rfl
@[simp] lemma setRefcnt_prev : (c.setRefcnt i n).prev = c.prev := rfl
@[simp] lemma setRefcnt_buf :
    (c.setRefcnt i n).buf = update c.buf i { c.buf i with refcnt := n } := rfl

/-- `brelse` changes no buffer but the reference count of its own; the rest is relinking. -/
@[simp] theorem brelseLocked_buf :
    (c.brelseLocked i).buf = update c.buf i { c.buf i with refcnt := (c.buf i).refcnt - 1 } := by
  dsimp only [brelseLocked, brelseAt]
  split_ifs <;> simp

/-- `brelse` relinks its buffer exactly when it drops the last reference. -/
theorem brelseLocked_eq : c.brelseLocked i =
    if (c.buf i).refcnt - 1 = 0 then
      ((c.setRefcnt i ((c.buf i).refcnt - 1)).unlink (.buf i)).linkHead
        ((c.buf i).blockno % NBUCKETS) (.buf i)
    else c.setRefcnt i ((c.buf i).refcnt - 1) := by
  simp [brelseLocked, brelseAt]

@[simp] theorem brelseLocked_nbuf : (c.brelseLocked i).nbuf = c.nbuf := by
  dsimp only [brelseLocked, brelseAt]
  split_ifs <;> simp

/-! ### `binit` -/

/-- The list of bucket `k` after `binit`: the buffers `b ≡ k (mod NBUCKETS)`, last linked
first. -/
def initLists (nbuf k : Nat) : List Nat := ((List.range nbuf).filter (· % NBUCKETS == k)).reverse

theorem foldl_nbuf {α : Type} (f : Bcache → α → Bcache) (hf : ∀ c a, (f c a).nbuf = c.nbuf) :
    ∀ (l : List α) (c : Bcache), (l.foldl f c).nbuf = c.nbuf
  | [], _ => rfl
  | a :: l, c => (foldl_nbuf f hf l (f c a)).trans (hf c a)

theorem foldl_buf {α : Type} (f : Bcache → α → Bcache) (hf : ∀ c a, (f c a).buf = c.buf) :
    ∀ (l : List α) (c : Bcache), (l.foldl f c).buf = c.buf
  | [], _ => rfl
  | a :: l, c => (foldl_buf f hf l (f c a)).trans (hf c a)

@[simp] theorem fillBucket_nbuf (nbuf : Nat) (c : Bcache) (i : Nat) :
    (fillBucket nbuf c i).nbuf = c.nbuf :=
  foldl_nbuf (fun c b => c.linkHead i (.buf b)) (fun _ _ => rfl) _ _

@[simp] theorem fillBucket_buf (nbuf : Nat) (c : Bcache) (i : Nat) :
    (fillBucket nbuf c i).buf = c.buf :=
  foldl_buf (fun c b => c.linkHead i (.buf b)) (fun _ _ => rfl) _ _

@[simp] theorem initHeads_nbuf (c : Bcache) : c.initHeads.nbuf = c.nbuf :=
  foldl_nbuf (fun c i => (c.setPrev (.head i) (.head i)).setNext (.head i) (.head i))
    (fun _ _ => rfl) _ _

@[simp] theorem initHeads_buf (c : Bcache) : c.initHeads.buf = c.buf :=
  foldl_buf (fun c i => (c.setPrev (.head i) (.head i)).setNext (.head i) (.head i))
    (fun _ _ => rfl) _ _

@[simp] theorem binit_nbuf (nbuf : Nat) : (binit nbuf).nbuf = nbuf := by
  rw [binit, foldl_nbuf _ (fillBucket_nbuf nbuf), initHeads_nbuf]

@[simp] theorem binit_buf (nbuf : Nat) : (binit nbuf).buf = fun _ => Buf.zero := by
  rw [binit, foldl_buf _ (fillBucket_buf nbuf), initHeads_buf]

/-- The first loop of `binit` makes every bucket an empty circular list. -/
theorem initHeads_lists (c : Bcache) : c.initHeads.Lists fun _ => [] := by
  have key : ∀ (ks : List Nat) (c : Bcache) (k : Nat), k ∈ ks →
      let c' := ks.foldl (fun c i => (c.setPrev (.head i) (.head i)).setNext (.head i) (.head i)) c
      c'.next (.head k) = .head k ∧ c'.prev (.head k) = .head k := by
    intro ks
    induction ks using List.reverseRecOn with
    | nil => intro _ _ h; exact absurd h (List.not_mem_nil _)
    | append_singleton ks i ih =>
      intro c k hk
      simp only [List.foldl_append, List.foldl_cons, List.foldl_nil, setNext_next, setNext_prev,
        setPrev_prev, update_apply, Node.head.injEq]
      by_cases hki : k = i
      · simp [hki]
      · simp only [hki, if_false]
        exact ih c k (by simpa [hki] using hk)
  refine ⟨fun k hk => ?_, fun _ _ => List.nodup_nil,
    fun _ _ _ _ _ hi => absurd hi (List.not_mem_nil _)⟩
  obtain ⟨hn, hp⟩ := key (List.range NBUCKETS) c k (List.mem_range.2 hk)
  simp [Linked, Adj, initHeads, hn, hp]

/-- `binit` leaves bucket `k` holding `initLists nbuf k`, and every buffer on one bucket. -/
theorem binit_layout (nbuf : Nat) : (binit nbuf).Layout (initLists nbuf) := by
  -- after the buckets `i < n` are filled
  have hfill : ∀ n ≤ NBUCKETS, ((List.range n).foldl (fillBucket nbuf)
      (initHeads ⟨nbuf, fun _ => Buf.zero, fun _ => .null, fun _ => .null⟩)).Lists
        fun k => if k < n then initLists nbuf k else [] := by
    intro n hn
    induction n with
    | zero => simpa using initHeads_lists _
    | succ n ih =>
      rw [List.range_succ, List.foldl_append, List.foldl_cons, List.foldl_nil]
      have := (ih (by omega)).foldl_linkHead (k := n) (by omega)
        ((List.nodup_range nbuf).filter (· % NBUCKETS == n)) fun b hb m hm hbm => by
          simp only [List.mem_filter, List.mem_range, beq_iff_eq] at hb
          split_ifs at hbm with hmn
          · simp only [initLists, List.mem_reverse, List.mem_filter, List.mem_range,
              beq_iff_eq] at hbm
            omega
          · exact List.not_mem_nil _ hbm
      convert this using 1
      funext k
      by_cases hkn : k = n
      · subst hkn; simp [initLists]
      · simp only [update_noteq hkn]
        split_ifs <;> first | rfl | omega
  have hL := hfill NBUCKETS le_rfl
  refine ⟨⟨fun k hk => ?_, fun k hk => ?_, fun k hk k' hk' i hi hi' => ?_⟩,
    fun k _ i hi => ?_, fun i hi => ⟨i % NBUCKETS, Nat.mod_lt _ (by decide), ?_⟩⟩
  · simpa [hk] using hL.linked k hk
  · simpa [hk] using hL.nodup k hk
  · simp [initLists] at hi hi'; omega
  · simp only [initLists, List.mem_reverse, List.mem_filter, List.mem_range] at hi
    simpa using hi.1
  · simpa [initLists] using hi

/-! ### `bget` -/

/-- A loop `for (i = 0; i < n; i++)` that stops at the first `i` with a result. -/
theorem findSome?_range_eq_some {β : Type} {f : Nat → Option β} {n : Nat} {b : β}
    (h : (List.range n).findSome? f = some b) :
    ∃ i < n, f i = some b ∧ ∀ x < i, f x = none := by
  obtain ⟨l₁, a, l₂, hl, ha, hpre⟩ := List.findSome?_eq_some_iff.1 h
  have hs := List.pairwise_lt_range n
  rw [hl, List.pairwise_append, List.pairwise_cons] at hs
  refine ⟨a, List.mem_range.1 (hl ▸ List.mem_append_right _ (List.mem_cons_self _ _)), ha,
    fun x hx => hpre x ?_⟩
  have hxn : x ∈ l₁ ++ a :: l₂ := hl ▸ List.mem_range.2 (by
    have := List.mem_range.1 (hl ▸ List.mem_append_right l₁ (List.mem_cons_self a l₂)); omega)
  rcases List.mem_append.1 hxn with hx₁ | hx₂
  · exact hx₁
  · rcases List.mem_cons.1 hx₂ with rfl | hx₂
    · omega
    · exact absurd (hs.2.1.1 x hx₂) (by omega)

@[simp] lemma bucket_setBuf (b : Buf) : (c.setBuf i b).bucket k = c.bucket k := rfl
@[simp] lemma bucketRev_setBuf (b : Buf) : (c.setBuf i b).bucketRev k = c.bucketRev k := rfl
@[simp] lemma bucket_setRefcnt : (c.setRefcnt i n).bucket k = c.bucket k := rfl
@[simp] lemma bucketRev_setRefcnt : (c.setRefcnt i n).bucketRev k = c.bucketRev k := rfl

/-- The three ways out of the region of `bget` under `bcache.lock[id]`. -/
theorem bgetBucket_cases (c : Bcache) (dev blockno : Nat) :
    (∃ i, (c.bucket (blockno % NBUCKETS)).find? (fun i => (c.buf i).caches dev blockno) = some i ∧
      c.bgetBucket dev blockno = (some i, c.setRefcnt i ((c.buf i).refcnt + 1))) ∨
    (∃ i, (c.bucket (blockno % NBUCKETS)).find? (fun i => (c.buf i).caches dev blockno) = none ∧
      (c.bucketRev (blockno % NBUCKETS)).find? (fun i => (c.buf i).refcnt == 0) = some i ∧
      c.bgetBucket dev blockno = (some i, c.setBuf i ((c.buf i).relabel dev blockno))) ∨
    ((c.bucket (blockno % NBUCKETS)).find? (fun i => (c.buf i).caches dev blockno) = none ∧
      (c.bucketRev (blockno % NBUCKETS)).find? (fun i => (c.buf i).refcnt == 0) = none ∧
      c.bgetBucket dev blockno = (none, c)) := by
  cases hf : (c.bucket (blockno % NBUCKETS)).find? (fun i => (c.buf i).caches dev blockno) with
  | some i => exact .inl ⟨i, rfl, by simp only [bgetBucket, hf]⟩
  | none =>
    cases hr : (c.bucketRev (blockno % NBUCKETS)).find? (fun i => (c.buf i).refcnt == 0) with
    | some i => exact .inr (.inl ⟨i, rfl, rfl, by simp only [bgetBucket, hf, hr]⟩)
    | none => exact .inr (.inr ⟨rfl, rfl, by simp only [bgetBucket, hf, hr]⟩)

/-- The three ways `bget` can return buffer `e`: a hit, a reuse in the bucket, or a steal. -/
theorem bget_cases {c' : Bcache} (h : c.bget dev blockno = some (e, c')) :
    ((c.bucket (blockno % NBUCKETS)).find? (fun i => (c.buf i).caches dev blockno) = some e ∧
      c' = c.setRefcnt e ((c.buf e).refcnt + 1)) ∨
    ((c.bucket (blockno % NBUCKETS)).find? (fun i => (c.buf i).caches dev blockno) = none ∧
      (c.bucketRev (blockno % NBUCKETS)).find? (fun i => (c.buf i).refcnt == 0) = some e ∧
      c' = c.setBuf e ((c.buf e).relabel dev blockno)) ∨
    ((c.bucket (blockno % NBUCKETS)).find? (fun i => (c.buf i).caches dev blockno) = none ∧
      c.bgetSteal dev blockno = some (e, c')) := by
  unfold bget at h
  rcases bgetBucket_cases c dev blockno with ⟨i, hf, he⟩ | ⟨i, hf, hr, he⟩ | ⟨hf, -, he⟩ <;>
    rw [he] at h
  · obtain ⟨rfl, rfl⟩ := Prod.mk.inj (Option.some.inj h)
    exact .inl ⟨hf, rfl⟩
  · obtain ⟨rfl, rfl⟩ := Prod.mk.inj (Option.some.inj h)
    exact .inr (.inl ⟨hf, hr, rfl⟩)
  · exact .inr (.inr ⟨hf, h⟩)

/-- What a successful steal loop did: it passed over every earlier buffer, and claimed a free
buffer that it did not skip. -/
theorem bgetSteal_eq_some {c' : Bcache} (h : c.bgetSteal dev blockno = some (e, c')) :
    e < c.nbuf ∧ c.skips (blockno % NBUCKETS) e = false ∧ (c.buf e).refcnt = 0 ∧
      c' = ((c.setBuf e ((c.buf e).relabel dev blockno)).unlink (.buf e)).linkHead
        (blockno % NBUCKETS) (.buf e) ∧
      ∀ x < e, c.skips (blockno % NBUCKETS) x = true ∨ (c.buf x).refcnt ≠ 0 := by
  obtain ⟨a, ha, hfa, hpre⟩ := findSome?_range_eq_some h
  have hskip : c.skips (blockno % NBUCKETS) a = false := by
    by_contra hs; simp [hs] at hfa
  simp only [hskip, claim, Bool.false_eq_true, if_false] at hfa
  split_ifs at hfa with hfree
  swap
  · simp at hfa
  obtain ⟨rfl, rfl⟩ : a = e ∧ _ = c' := by simpa using hfa
  refine ⟨ha, hskip, hfree, rfl, fun x hx => ?_⟩
  have := hpre x hx
  by_cases hs : c.skips (blockno % NBUCKETS) x
  · exact .inl hs
  · simp only [hs, claim, Bool.false_eq_true, if_false] at this
    split_ifs at this with hx0
    · simp at this
    · exact .inr hx0

/-- Claiming a buffer moves it first into bucket `k` on the lists. -/
theorem Layout.claim (h : c.Layout lists) (he : e < c.nbuf) (hk : k < NBUCKETS) (b : Buf) :
    ∃ j < NBUCKETS, e ∈ lists j ∧
      (((c.setBuf e b).unlink (.buf e)).linkHead k (.buf e)).Layout (move lists e k) := by
  obtain ⟨j, hj, hej⟩ := h.cover e he
  exact ⟨j, hj, hej, (h.setBuf e b).relink hj hej hk⟩

/-- What a `bget` of block `(dev, blockno)` that returns buffer `e` and leaves `c'` has done: the
buffer is labelled with the block and sits in the block's bucket; it is the first buffer of that
bucket labelled with the block if there was one, and otherwise a free buffer taken over for the
block; no other buffer changed. -/
structure BgetPost (c : Bcache) (dev blockno e : Nat) (c' : Bcache) : Prop where
  dev_eq : (c'.buf e).dev = dev
  blockno_eq : (c'.buf e).blockno = blockno
  mem_bucket : e ∈ c'.bucket (blockno % NBUCKETS)
  hit : (∃ x ∈ c.bucket (blockno % NBUCKETS), (c.buf x).caches dev blockno) →
    (c.bucket (blockno % NBUCKETS)).find? (fun x => (c.buf x).caches dev blockno) = some e ∧
    (c'.buf e).valid = (c.buf e).valid ∧ (c'.buf e).data = (c.buf e).data ∧
    (c'.buf e).refcnt = (c.buf e).refcnt + 1
  miss : (¬∃ x ∈ c.bucket (blockno % NBUCKETS), (c.buf x).caches dev blockno) →
    (c.buf e).refcnt = 0 ∧ (c'.buf e).refcnt = 1 ∧ (c'.buf e).valid = false
  others : ∀ x, x ≠ e → c'.buf x = c.buf x

/-- Run alone on a cache whose buckets are well formed, `bget` either panics or meets
`BgetPost`: a hit takes the first buffer of the bucket labelled with the block, a miss takes a
free buffer, from the bucket or stolen from another, and relinks it into the block's bucket. -/
theorem bget_spec {c' : Bcache} (h : c.Layout lists) (hb : c.bget dev blockno = some (e, c')) :
    c.BgetPost dev blockno e c' := by
  have hid : blockno % NBUCKETS < NBUCKETS := Nat.mod_lt _ (by decide)
  rcases bgetBucket_cases c dev blockno with ⟨i, hf, he⟩ | ⟨i, hf, hr, he⟩ | ⟨hf, hr, he⟩
  · have hc := List.find?_some hf
    have hm := List.mem_of_find?_eq_some hf
    simp only [Buf.caches, Bool.and_eq_true, beq_iff_eq] at hc
    simp only [bget, he, Option.some.injEq, Prod.mk.injEq] at hb
    obtain ⟨rfl, rfl⟩ := hb
    exact ⟨by simp [hc.1], by simp [hc.2], by simpa using hm,
      fun _ => ⟨hf, by simp, by simp, by simp⟩,
      fun hn => absurd ⟨i, hm, by simp [Buf.caches, hc.1, hc.2]⟩ hn,
      fun x hx => by simp [update_noteq hx]⟩
  · have hfree := List.find?_some hr
    have hm : i ∈ c.bucket (blockno % NBUCKETS) := by
      rw [h.bucket_eq hid]
      simpa [h.bucketRev_eq hid] using List.mem_of_find?_eq_some hr
    have hnone := List.find?_eq_none.1 hf
    simp only [bget, he, Option.some.injEq, Prod.mk.injEq] at hb
    obtain ⟨rfl, rfl⟩ := hb
    exact ⟨by simp [Buf.relabel], by simp [Buf.relabel], by simpa using hm,
      fun ⟨x, hx, hxc⟩ => absurd hxc (hnone x hx),
      fun _ => ⟨by simpa using hfree, by simp [Buf.relabel], by simp [Buf.relabel]⟩,
      fun x hx => by simp [update_noteq hx]⟩
  · have hnone := List.find?_eq_none.1 hf
    simp only [bget, he] at hb
    obtain ⟨hen, -, hfree, rfl, -⟩ := bgetSteal_eq_some hb
    obtain ⟨j, hj, hej, hL⟩ := h.claim hen hid ((c.buf e).relabel dev blockno)
    refine ⟨by simp [Buf.relabel], by simp [Buf.relabel], ?_,
      fun ⟨x, hx, hxc⟩ => absurd hxc (hnone x hx),
      fun _ => ⟨hfree, by simp [Buf.relabel], by simp [Buf.relabel]⟩,
      fun x hx => by simp [update_noteq hx]⟩
    rw [hL.bucket_eq hid]
    simp [move]

/-- `bget_spec` on the cache `binit` leaves, for block `(1, 1)`. -/
theorem bget_spec_binit :
    ∃ e c', (binit 30).bget 1 1 = some (e, c') ∧ (binit 30).BgetPost 1 1 e c' :=
  have hb : (binit 30).bget 1 1 = some (1, ((binit 30).bgetBucket 1 1).2) := by
    set_option maxRecDepth 10000 in rfl
  ⟨_, _, hb, bget_spec (binit_layout 30) hb⟩

end Bcache

end BufCache
