import BufCache.Refcount

/-!
# The bucket lists in every reachable state

Whatever the regions of `bget`, `brelse`, `bpin` and `bunpin` interleave, the heads and the
buffers form `NBUCKETS` circular doubly-linked lists, every buffer is on exactly one of them, and
a buffer with references is on the list of its block's bucket, where the hit scan of `bget`
looks for it. The last fact needs the callers to pin only buffers they hold: a `bpin` of a free
buffer that `binit` left in another bucket would give it a reference where no scan finds it.
-/

namespace BufCache

open Function

namespace Bcache

variable {c c' : Bcache} {lists lists' : Nat → List Nat} {j : Nat} {b : Buf}

/-- Every buffer with references sits in the bucket of its block. -/
def Live (c : Bcache) (lists : Nat → List Nat) : Prop :=
  ∀ i < c.nbuf, 0 < (c.buf i).refcnt → i ∈ lists ((c.buf i).blockno % NBUCKETS)

/-- `Live` survives a change of buffer `j` to `b`, when the lists keep every other buffer where
it was and `b` is where its references need it. -/
theorem Live.of_update (h : c.Live lists) (hn : c'.nbuf = c.nbuf) (hb : c'.buf = update c.buf j b)
    (hkeep : ∀ m i, i ≠ j → i ∈ lists m → i ∈ lists' m)
    (hj : j < c.nbuf → 0 < b.refcnt → j ∈ lists' (b.blockno % NBUCKETS)) : c'.Live lists' := by
  intro i hi hr
  rw [hn] at hi
  by_cases hij : i = j
  · subst hij
    simp only [hb, update_same] at hr ⊢
    exact hj hi hr
  · simp only [hb, update_noteq hij] at hr ⊢
    exact hkeep _ i hij (h i hi hr)

/-- A change of buffer `j` that keeps its block and does not add its first reference keeps
`Live` on the same lists. -/
theorem Live.of_update_same (h : c.Live lists) (hn : c'.nbuf = c.nbuf)
    (hb : c'.buf = update c.buf j b) (hblk : b.blockno = (c.buf j).blockno)
    (hr : 0 < b.refcnt → 0 < (c.buf j).refcnt) : c'.Live lists :=
  h.of_update hn hb (fun _ _ _ hi => hi) fun hj hb => hblk ▸ h j hj (hr hb)

theorem mem_move_of_ne {m i : Nat} (hij : i ≠ j) (hi : i ∈ lists m) (k : Nat) :
    i ∈ move lists j k m := by
  unfold move
  by_cases hmk : m = k
  · subst hmk; simp [List.mem_erase_of_ne hij, hi]
  · simp [update_noteq hmk, List.mem_erase_of_ne hij, hi]

theorem mem_move_self (k : Nat) : j ∈ move lists j k k := by simp [move]

/-- The lists of the buckets, both directions of every link, and where a referenced buffer is:
what the code relies on when it walks a bucket. -/
structure Buckets (c : Bcache) (lists : Nat → List Nat) : Prop where
  layout : c.Layout lists
  prev_next : ∀ k < NBUCKETS, ∀ x ∈ nodes k (lists k), c.prev (c.next x) = x
  next_prev : ∀ k < NBUCKETS, ∀ x ∈ nodes k (lists k), c.next (c.prev x) = x
  live : ∀ i < c.nbuf, 0 < (c.buf i).refcnt → i ∈ lists ((c.buf i).blockno % NBUCKETS)

theorem Layout.buckets (h : c.Layout lists) (hl : c.Live lists) : c.Buckets lists :=
  ⟨h, fun k hk _ hx => (h.linked k hk).prev_next hx,
    fun k hk _ hx => (h.linked k hk).next_prev hx, hl⟩

end Bcache

namespace Sys

variable {s s' : Sys} {a : Act} {lists : Nat → List Nat}

/-- The bucket lists of a state are `lists`, every referenced buffer is on its block's list, and
the buffer a thread has reserved is one of the pool. -/
structure Placed (s : Sys) (lists : Nat → List Nat) : Prop where
  layout : s.cache.Layout lists
  live : s.cache.Live lists
  bounded : ∀ (t : Nat) (p : Pc) (i : Nat), s.threads[t]? = some p → p.reserves i →
    i < s.cache.nbuf

theorem placed_init (n nbuf : Nat) : (init n nbuf).Placed (Bcache.initLists nbuf) := by
  refine ⟨Bcache.binit_layout nbuf, fun i _ hr => ?_, fun t p i ht hp => ?_⟩
  · simp [init, Buf.zero] at hr
  · have hp' : p = .idle := List.eq_of_mem_replicate (List.mem_iff_getElem?.2 ⟨t, ht⟩)
    simp [hp', Pc.reserves] at hp

/-- Moving thread `t` to `q` keeps the reserved buffers in the pool when `q`'s are. -/
theorem bounded_set {l : List Pc} {n t : Nat} {q : Pc}
    (h : ∀ (t : Nat) (p : Pc) (i : Nat), l[t]? = some p → p.reserves i → i < n)
    (hq : ∀ i, q.reserves i → i < n) :
    ∀ (t' : Nat) (p : Pc) (i : Nat), (l.set t q)[t']? = some p → p.reserves i → i < n := by
  intro t' p i ht hp
  by_cases htt : t = t'
  · subst htt
    simp only [List.getElem?_set, if_true] at ht
    split_ifs at ht
    obtain rfl := Option.some_inj.1 ht
    exact hq i hp
  · exact h t' p i (by rwa [List.getElem?_set_ne htt] at ht) hp

/-- Every step the callers allow keeps the bucket lists, on lists where at most the buffer the
step relinks has moved. -/
theorem Placed.step (hp : s.Placed lists) (hc : s.Counted) (hok : s.PinCallers a)
    (hs : s.step a = some s') : ∃ lists', s'.Placed lists' := by
  have hid : ∀ blockno, blockno % NBUCKETS < NBUCKETS := fun _ => Nat.mod_lt _ (by decide)
  have hnone : ∀ i, Pc.idle.reserves i → i < s.cache.nbuf := by simp [Pc.reserves]
  rcases step_cases hs with
    ⟨t, dev, blockno, j, rfl, ht, hf, rfl⟩ | ⟨t, dev, blockno, j, rfl, ht, -, hr, rfl⟩ |
    ⟨t, dev, blockno, rfl, ht, -, -, rfl⟩ | ⟨t, dev, blockno, j, c, rfl, ht, he, rfl⟩ |
    ⟨t, dev, blockno, rfl, ht, -, rfl⟩ | ⟨t, j, rfl, ht, -, rfl⟩ | ⟨t, j, rfl, ht, hj, -, rfl⟩ |
    ⟨t, j, rfl, ht, -, -, rfl⟩ | ⟨t, j, rfl, ht, rfl⟩ | ⟨t, j, rfl, ht, -, rfl⟩ |
    ⟨t, j, rfl, ht, -, rfl⟩
  · -- hit: the buffer is labelled with the block and on the block's list
    have hm : j ∈ lists (blockno % NBUCKETS) := by
      rw [← hp.layout.bucket_eq (hid blockno)]
      exact List.mem_of_find?_eq_some hf
    have hb := List.find?_some hf
    simp only [Buf.caches, Bool.and_eq_true, beq_iff_eq] at hb
    refine ⟨lists, hp.layout.setBuf _ _,
      hp.live.of_update rfl rfl (fun _ _ _ hi => hi) fun _ _ => by simpa [hb.2] using hm,
      bounded_set hp.bounded fun i hi => ?_⟩
    simp only [Pc.reserves, beq_iff_eq] at hi
    rw [hi]
    exact hp.layout.lt_nbuf _ (hid blockno) _ hm
  · -- reuse: a free buffer of the block's list is relabelled
    have hm : j ∈ lists (blockno % NBUCKETS) := by
      rw [← List.mem_reverse, ← hp.layout.bucketRev_eq (hid blockno)]
      exact List.mem_of_find?_eq_some hr
    refine ⟨lists, hp.layout.setBuf _ _,
      hp.live.of_update rfl rfl (fun _ _ _ hi => hi) fun _ _ => by simpa [Buf.relabel] using hm,
      bounded_set hp.bounded fun i hi => ?_⟩
    simp only [Pc.reserves, beq_iff_eq] at hi
    rw [hi]
    exact hp.layout.lt_nbuf _ (hid blockno) _ hm
  · -- miss
    exact ⟨lists, hp.layout, hp.live, bounded_set hp.bounded (by simp [Pc.reserves])⟩
  · -- steal: the buffer moves to the front of the block's list
    obtain ⟨hjn, -, -, rfl, -⟩ := Bcache.bgetSteal_eq_some he
    obtain ⟨m, -, -, hL⟩ :=
      hp.layout.claim hjn (hid blockno) ((s.cache.buf j).relabel dev blockno)
    refine ⟨_, hL, hp.live.of_update (b := (s.cache.buf j).relabel dev blockno) rfl (by simp)
      (fun _ _ hij hi => Bcache.mem_move_of_ne hij hi _)
      fun _ _ => by simpa [Buf.relabel] using Bcache.mem_move_self _,
      bounded_set hp.bounded fun i hi => ?_⟩
    simp only [Pc.reserves, beq_iff_eq] at hi
    exact hi ▸ hjn
  · -- steal panics
    exact ⟨lists, hp.layout, hp.live, bounded_set hp.bounded (by simp [Pc.reserves])⟩
  · -- acquiresleep
    exact ⟨lists, hp.layout.setBuf _ _, hp.live.of_update_same rfl rfl rfl id,
      bounded_set hp.bounded hnone⟩
  · -- brelse releases the sleeplock
    refine ⟨lists, hp.layout.setBuf _ _, hp.live.of_update_same rfl rfl rfl id,
      bounded_set hp.bounded fun i hi => ?_⟩
    simp only [Pc.reserves, beq_iff_eq] at hi
    exact hi ▸ hj
  · -- brelse panics
    exact ⟨lists, hp.layout, hp.live, bounded_set hp.bounded (by simp [Pc.reserves])⟩
  · -- the locked region of brelse
    have hjn := hp.bounded t _ j ht (by simp [Pc.reserves])
    simp only [Bcache.brelseLocked_eq]
    split_ifs with h0
    · obtain ⟨m, hm, hjm⟩ := hp.layout.cover j hjn
      refine ⟨_, (hp.layout.setBuf j _).relink hm hjm (hid _),
        hp.live.of_update (b := { s.cache.buf j with refcnt := (s.cache.buf j).refcnt - 1 })
          (by simp) (by simp) (fun _ _ hij hi => Bcache.mem_move_of_ne hij hi _)
          fun _ h => absurd h (by simp [h0]),
        bounded_set hp.bounded hnone⟩
    · exact ⟨lists, hp.layout.setBuf _ _,
        hp.live.of_update_same rfl rfl rfl fun h => by simp at h; omega,
        bounded_set hp.bounded hnone⟩
  · -- bpin of a buffer the caller holds, which has a reference already
    have hpos := hc.locked_pos (show (s.cache.buf j).lock = some t from hok)
    exact ⟨lists, hp.layout.setBuf _ _, hp.live.of_update_same rfl rfl rfl fun _ => hpos,
      hp.bounded⟩
  · -- bunpin
    exact ⟨lists, hp.layout.setBuf _ _,
      hp.live.of_update_same rfl rfl rfl fun h => by simp at h; omega, hp.bounded⟩

theorem Reachable.placed (h : Reachable PinCallers s) : ∃ lists, s.Placed lists := by
  induction h with
  | init n nbuf => exact ⟨_, placed_init n nbuf⟩
  | step hr ha hs ih =>
    obtain ⟨lists, hp⟩ := ih
    exact hp.step (hr.counted fun _ _ => pinCallers_callers) ha hs

/-- In every state reachable under callers that release and pin only buffers they hold, the
heads and the buffers form the bucket lists, linked both ways, and every buffer with references
is on the list of its block's bucket. -/
theorem buckets_linked (h : Reachable PinCallers s) : ∃ lists, s.cache.Buckets lists := by
  obtain ⟨lists, hp⟩ := h.placed
  exact ⟨lists, hp.layout.buckets hp.live⟩

/-- The bucket lists in the state the interleaving `raceTrace` reaches. -/
theorem buckets_linked_race :
    Reachable PinCallers raceState ∧ ∃ lists, raceState.cache.Buckets lists :=
  ⟨raceState_reachable, buckets_linked raceState_reachable⟩

end Sys

end BufCache
