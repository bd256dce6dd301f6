import BufCache.Region

/-!
# The reference-count law

`refcnt` counts references: one for every thread inside `bget` or `brelse` with the buffer
reserved, one for the holder of its sleeplock, and one for every `bpin` not yet undone by
`bunpin`. The law holds in every state the regions reach when callers release only buffers they
hold and unpin only buffers they pinned. The two regions that decrement `refcnt` then find it
positive, and the regions that take a buffer over for another block find it unreferenced.
-/

namespace BufCache

open Function

theorem countP_set_of_getElem? {l : List Pc} {t : Nat} {p : Pc} (h : l[t]? = some p)
    (f : Pc → Bool) (q : Pc) :
    (l.set t q).countP f + (if f p then 1 else 0) = l.countP f + (if f q then 1 else 0) := by
  obtain ⟨ht, rfl⟩ := List.getElem?_eq_some_iff.1 h
  rw [List.countP_set _ _ _ _ ht]
  have : (if f l[t] then 1 else 0) ≤ l.countP f := by
    split_ifs with hf
    · exact List.countP_pos_iff.2 ⟨_, List.getElem_mem ht, hf⟩
    · exact Nat.zero_le _
  omega

/-- What `bget` overwrites when it takes a buffer over for another block. -/
def Buf.label (b : Buf) : Nat × Nat × Bool := (b.dev, b.blockno, b.valid)

namespace Sys

variable {s s' : Sys} {a : Act}

/-- The references threads have on buffer `i`: one for each thread inside a `bget` that
reserved it or inside a `brelse` of it, and one for the holder of its sleeplock. -/
def reserved (s : Sys) (i : Nat) : Nat :=
  s.threads.countP (Pc.reserves i) + if (s.cache.buf i).lock.isSome then 1 else 0

/-- Every buffer's `refcnt` is the number of references threads have on it plus its pins. -/
def Counted (s : Sys) : Prop := ∀ i, (s.cache.buf i).refcnt = s.reserved i + s.pins i

theorem counted_init (n nbuf : Nat) : (init n nbuf).Counted := by
  intro i
  simp [init, reserved, Pc.reserves, Buf.zero, List.countP_replicate]

/-- A thread inside `bget` or `brelse` of buffer `i` holds a reference to it. -/
theorem Counted.reserves_pos (hc : s.Counted) {t i : Nat} {p : Pc}
    (ht : s.threads[t]? = some p) (hp : p.reserves i) : 1 ≤ (s.cache.buf i).refcnt := by
  have h₁ := hc i
  have h₂ := List.countP_pos_iff.2 ⟨p, List.mem_iff_getElem?.2 ⟨t, ht⟩, hp⟩
  simp only [reserved] at h₁
  omega

/-- The holder of a sleeplock holds a reference to its buffer. -/
theorem Counted.locked_pos (hc : s.Counted) {t i : Nat} (hl : (s.cache.buf i).lock = some t) :
    1 ≤ (s.cache.buf i).refcnt := by
  have h₁ := hc i
  simp only [reserved, hl, Option.isSome_some, if_true] at h₁
  omega

/-- A step of thread `t`, from `p` to `q`, keeps the count when every buffer's `refcnt` changes
as its references and pins do. -/
theorem Counted.of_step {t : Nat} {p q : Pc} {c : Bcache} {π : Nat → Nat} (hc : s.Counted)
    (ht : s.threads[t]? = some p)
    (hi : ∀ i, (c.buf i).refcnt + (if p.reserves i then 1 else 0) +
        (if (s.cache.buf i).lock.isSome then 1 else 0) + s.pins i =
      (s.cache.buf i).refcnt + (if q.reserves i then 1 else 0) +
        (if (c.buf i).lock.isSome then 1 else 0) + π i) :
    (⟨c, s.threads.set t q, π⟩ : Sys).Counted := by
  intro i
  have h₁ := hc i
  have h₂ := countP_set_of_getElem? ht (Pc.reserves i) q
  have h₃ := hi i
  simp only [reserved] at h₁ ⊢
  omega

/-- The same for a step that changes only buffer `j`, to `b`, and reserves no other buffer. -/
theorem Counted.of_update {t j : Nat} {p q : Pc} {c : Bcache} {b : Buf} (hc : s.Counted)
    (ht : s.threads[t]? = some p) (hb : c.buf = update s.cache.buf j b)
    (hpq : ∀ i, i ≠ j → p.reserves i = q.reserves i)
    (hj : b.refcnt + (if p.reserves j then 1 else 0) +
        (if (s.cache.buf j).lock.isSome then 1 else 0) =
      (s.cache.buf j).refcnt + (if q.reserves j then 1 else 0) +
        (if b.lock.isSome then 1 else 0)) :
    (⟨c, s.threads.set t q, s.pins⟩ : Sys).Counted := by
  refine hc.of_step ht fun i => ?_
  by_cases hij : i = j
  · subst hij
    simp only [hb, update_same]
    omega
  · simp only [hb, update_noteq hij, hpq i hij]

/-- A step that changes only the cache and the pins keeps the count when every buffer's
`refcnt` changes as its pins do. -/
theorem Counted.of_pins {c : Bcache} {π : Nat → Nat} (hc : s.Counted)
    (hi : ∀ i, (c.buf i).refcnt + s.pins i = (s.cache.buf i).refcnt + π i)
    (hl : ∀ i, (c.buf i).lock = (s.cache.buf i).lock) : (⟨c, s.threads, π⟩ : Sys).Counted := by
  intro i
  have h₁ := hc i
  have h₂ := hi i
  simp only [reserved, hl] at h₁ ⊢
  omega

/-- A free buffer has no references and no pins. -/
theorem Counted.free (hc : s.Counted) {i : Nat} (h0 : (s.cache.buf i).refcnt = 0) :
    (s.cache.buf i).lock = none ∧ (∀ p ∈ s.threads, p.reserves i = false) ∧ s.pins i = 0 := by
  have h₁ := hc i
  simp only [reserved, h0] at h₁
  refine ⟨?_, fun p hp => ?_, by omega⟩
  · cases hl : (s.cache.buf i).lock with
    | none => rfl
    | some _ => simp only [hl, Option.isSome_some, if_true] at h₁; omega
  · have : s.threads.countP (Pc.reserves i) = 0 := by omega
    exact Bool.eq_false_iff.2 fun h => (List.countP_eq_zero.1 this p hp) h

/-- Every step the callers allow keeps `refcnt` equal to the references and pins. -/
theorem Counted.step (hc : s.Counted) (hok : s.Callers a) (hs : s.step a = some s') :
    s'.Counted := by
  rcases step_cases hs with
    ⟨t, dev, blockno, j, rfl, ht, -, rfl⟩ | ⟨t, dev, blockno, j, rfl, ht, -, hr, rfl⟩ |
    ⟨t, dev, blockno, rfl, ht, -, -, rfl⟩ | ⟨t, dev, blockno, j, c, rfl, ht, he, rfl⟩ |
    ⟨t, dev, blockno, rfl, ht, -, rfl⟩ | ⟨t, j, rfl, ht, hl, rfl⟩ | ⟨t, j, rfl, ht, -, hh, rfl⟩ |
    ⟨t, j, rfl, ht, -, -, rfl⟩ | ⟨t, j, rfl, ht, rfl⟩ | ⟨t, j, rfl, ht, -, rfl⟩ |
    ⟨t, j, rfl, ht, -, rfl⟩
  · -- hit
    exact hc.of_update ht rfl (fun i hi => by simp [Pc.reserves, hi]) (by simp [Pc.reserves])
  · -- reuse
    have hfree : (s.cache.buf j).refcnt = 0 := by simpa using List.find?_some hr
    exact hc.of_update ht rfl (fun i hi => by simp [Pc.reserves, hi])
      (by simp [Pc.reserves, Buf.relabel, hfree, (hc.free hfree).1])
  · -- miss
    exact hc.of_step ht fun i => by simp [Pc.reserves]
  · -- steal
    obtain ⟨-, -, hfree, rfl, -⟩ := Bcache.bgetSteal_eq_some he
    exact hc.of_update (j := j) (b := (s.cache.buf j).relabel dev blockno) ht (by simp)
      (fun i hi => by simp [Pc.reserves, hi])
      (by simp [Pc.reserves, Buf.relabel, hfree, (hc.free hfree).1])
  · -- steal panics
    exact hc.of_step ht fun i => by simp [Pc.reserves]
  · -- acquiresleep
    exact hc.of_update ht rfl (fun i hi => by simp [Pc.reserves, hi]) (by simp [Pc.reserves, hl])
  · -- brelse releases the sleeplock
    have hl : (s.cache.buf j).lock = some t := by simpa [Bcache.holdingSleep] using hh
    exact hc.of_update ht rfl (fun i hi => by simp [Pc.reserves, hi])
      (by simp [Bcache.releaseSleep, Pc.reserves, hl])
  · -- brelse panics
    exact hc.of_step ht fun i => by simp [Pc.reserves]
  · -- the locked region of brelse
    have hpos := hc.reserves_pos ht (i := j) (by simp [Pc.reserves])
    exact hc.of_update ht Bcache.brelseLocked_buf (fun i hi => by simp [Pc.reserves, hi])
      (by simp [Pc.reserves]; omega)
  · -- bpin
    refine hc.of_pins (fun i => ?_) fun i => ?_ <;> by_cases hij : i = j
    · subst hij; simp [Bcache.bpin]; omega
    · simp [hij, Bcache.bpin]
    · subst hij; simp [Bcache.bpin]
    · simp [hij, Bcache.bpin]
  · -- bunpin
    have hpin : 0 < s.pins j := hok
    have h₁ := hc j
    refine hc.of_pins (fun i => ?_) fun i => ?_ <;> by_cases hij : i = j
    · subst hij; simp [Bcache.bunpin]; omega
    · simp [hij, Bcache.bunpin]
    · subst hij; simp [Bcache.bunpin]
    · simp [hij, Bcache.bunpin]

theorem Reachable.counted {ok : Sys → Act → Prop} (hok : ∀ s a, ok s a → s.Callers a)
    (h : Reachable ok s) : s.Counted := by
  induction h with
  | init n nbuf => exact counted_init n nbuf
  | step _ ha hs ih => exact ih.step (hok _ _ ha) hs

/-- A changed label means buffer `j` was set to a record with another label. -/
theorem label_update {c c' : Bcache} {i j : Nat} {b : Buf} (hb : c'.buf = update c.buf j b)
    (hl : (c'.buf i).label ≠ (c.buf i).label) : i = j ∧ b.label ≠ (c.buf j).label := by
  by_cases hij : i = j
  · subst hij
    simpa [hb] using hl
  · simp [hb, update_noteq hij] at hl

/-- Only the reuse and the steal of `bget` change a buffer's label, and they take a free
buffer. -/
theorem step_label {i : Nat} (hs : s.step a = some s')
    (hl : (s'.cache.buf i).label ≠ (s.cache.buf i).label) : (s.cache.buf i).refcnt = 0 := by
  rcases step_cases hs with
    ⟨t, dev, blockno, j, rfl, -, -, rfl⟩ | ⟨t, dev, blockno, j, rfl, -, -, hr, rfl⟩ |
    ⟨t, dev, blockno, rfl, -, -, -, rfl⟩ | ⟨t, dev, blockno, j, c, rfl, -, he, rfl⟩ |
    ⟨t, dev, blockno, rfl, -, -, rfl⟩ | ⟨t, j, rfl, -, -, rfl⟩ | ⟨t, j, rfl, -, -, -, rfl⟩ |
    ⟨t, j, rfl, -, -, -, rfl⟩ | ⟨t, j, rfl, -, rfl⟩ | ⟨t, j, rfl, -, -, rfl⟩ |
    ⟨t, j, rfl, -, -, rfl⟩
  · -- hit
    obtain ⟨rfl, h⟩ := label_update rfl hl; simp [Buf.label] at h
  · -- reuse
    obtain ⟨rfl, -⟩ := label_update rfl hl; simpa using List.find?_some hr
  · exact absurd rfl hl
  · -- steal
    obtain ⟨-, -, hfree, rfl, -⟩ := Bcache.bgetSteal_eq_some he
    obtain ⟨rfl, -⟩ := label_update (j := j) (b := (s.cache.buf j).relabel dev blockno) (by simp) hl
    exact hfree
  · exact absurd rfl hl
  · -- acquiresleep
    obtain ⟨rfl, h⟩ := label_update rfl hl; simp [Buf.label] at h
  · -- brelse
    obtain ⟨rfl, h⟩ := label_update rfl hl; simp [Buf.label, Bcache.releaseSleep] at h
  · exact absurd rfl hl
  · -- the locked region of brelse
    obtain ⟨rfl, h⟩ := label_update Bcache.brelseLocked_buf hl; simp [Buf.label] at h
  · -- bpin
    obtain ⟨rfl, h⟩ := label_update rfl hl; simp [Buf.label] at h
  · -- bunpin
    obtain ⟨rfl, h⟩ := label_update rfl hl; simp [Buf.label] at h

/-- The reference-count law, and what it gives the regions that change `refcnt` or take a buffer
over: `brelse` and `bunpin` decrement a positive `refcnt`, and a step relabels a buffer only when
no thread holds it, waits for it, is releasing it or has pinned it. -/
structure RefcntLaw (s : Sys) : Prop where
  counted : s.Counted
  releasing_pos : ∀ t i : Nat, s.threads[t]? = some (.releasing i) → 1 ≤ (s.cache.buf i).refcnt
  pinned_pos : ∀ i, 0 < s.pins i → 1 ≤ (s.cache.buf i).refcnt
  relabel_free : ∀ (a : Act) (s' : Sys) (i : Nat), s.step a = some s' →
    (s'.cache.buf i).label ≠ (s.cache.buf i).label →
    (s.cache.buf i).lock = none ∧ (∀ p ∈ s.threads, p.reserves i = false) ∧ s.pins i = 0

/-- Under callers that release only what they hold and unpin only what they pinned, every
reachable state keeps the reference-count law. -/
theorem refcnt_law (h : Reachable Callers s) : s.RefcntLaw := by
  have hc := h.counted fun _ _ => id
  refine ⟨hc, fun t i ht => hc.reserves_pos ht (by simp [Pc.reserves]), fun i hi => ?_,
    fun a s' i hs hl => hc.free (step_label hs hl)⟩
  have := hc i
  omega

/-- The law in the state the interleaving `raceTrace` reaches. -/
theorem refcnt_law_race : Reachable Callers raceState ∧ raceState.RefcntLaw :=
  have hr := raceState_reachable.mono fun _ _ => pinCallers_callers
  ⟨hr, refcnt_law hr⟩

end Sys

end BufCache
