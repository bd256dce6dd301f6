import BufCache.Calls

/-!
# `bread` returns the disk's contents

Called one at a time, by callers that ask for no block whose buffer is held, write back what they
change before they release it, and release and pin only buffers they hold, `bread` returns a
buffer labelled with the block, valid, holding the disk's contents of the block, and it reads the
disk exactly when no buffer held a valid copy of the block.

What keeps it so: a valid buffer is the first buffer of its block's bucket labelled with its
block, so the hit scan finds it and no second valid copy exists; a valid buffer that nobody has
changed since its last `bwrite` holds the disk's contents; only a held buffer is changed; and a
held buffer is valid.
-/

namespace BufCache

open Function

/-! ### The first match in a list -/

/-- The first match `j` stays the first match when the test changes only at another element `e`,
which it rejects, and when `e` is taken out. -/
theorem find?_of_change {p p' : Nat → Bool} {l : List Nat} {j e : Nat} (h : l.find? p = some j)
    (hje : j ≠ e) (hp : ∀ x, x ≠ e → p' x = p x) (he : p' e = false) :
    l.find? p' = some j ∧ (l.erase e).find? p' = some j := by
  induction l with
  | nil => simp at h
  | cons x l ih =>
    rw [List.find?_cons_eq_some] at h
    rcases h with ⟨hx, rfl⟩ | ⟨hx, h⟩
    · have hx' : p' x = true := (hp x hje).trans hx
      rw [List.erase_cons_tail (by simpa using hje)]
      exact ⟨List.find?_cons_of_pos _ hx', List.find?_cons_of_pos _ hx'⟩
    · have hx' : ¬p' x = true := by
        by_cases hxe : x = e
        · simp [hxe, he]
        · simpa [hp x hxe] using hx
      obtain ⟨h₁, h₂⟩ := ih h
      refine ⟨by rw [List.find?_cons_of_neg _ hx']; exact h₁, ?_⟩
      by_cases hxe : x = e
      · subst hxe
        rwa [List.erase_cons_head]
      · rwa [List.erase_cons_tail (by simpa using hxe), List.find?_cons_of_neg _ hx']

/-- When nothing matched, an element that comes to match is the first match. -/
theorem find?_of_none {p p' : Nat → Bool} {l : List Nat} {e : Nat} (h : l.find? p = none)
    (he : e ∈ l) (hp : ∀ x, x ≠ e → p' x = p x) (hpe : p' e = true) : l.find? p' = some e := by
  induction l with
  | nil => simp at he
  | cons x l ih =>
    rw [List.find?_eq_none] at h
    by_cases hxe : x = e
    · subst hxe
      exact List.find?_cons_of_pos _ hpe
    · rw [List.find?_cons_of_neg _ (by simpa [hp x hxe] using h x (List.mem_cons_self _ _))]
      exact ih (List.find?_eq_none.2 fun y hy => h y (List.mem_cons_of_mem _ hy))
        ((List.mem_cons.1 he).resolve_left (Ne.symm hxe))

namespace Bcache

variable {c c' : Bcache} {lists : Nat → List Nat} {e : Nat} {b : Buf}

/-- A valid buffer is the first buffer of its block's bucket labelled with its block: the one the
hit scan of `bget` returns. -/
def ValidFirst (c : Bcache) : Prop :=
  ∀ i < c.nbuf, (c.buf i).valid → (c.bucket ((c.buf i).blockno % NBUCKETS)).find?
    (fun x => (c.buf x).caches (c.buf i).dev (c.buf i).blockno) = some i

/-- `ValidFirst` on the bucket lists `lists`. -/
def FirstOn (c : Bcache) (lists : Nat → List Nat) : Prop :=
  ∀ i < c.nbuf, (c.buf i).valid → (lists ((c.buf i).blockno % NBUCKETS)).find?
    (fun x => (c.buf x).caches (c.buf i).dev (c.buf i).blockno) = some i

theorem Layout.validFirst_iff (h : c.Layout lists) : c.ValidFirst ↔ c.FirstOn lists :=
  forall_congr' fun _ => imp_congr_right fun _ => imp_congr_right fun _ => by
    rw [h.bucket_eq (Nat.mod_lt _ (by decide))]

/-- Two valid buffers labelled with the same block are one buffer. -/
theorem FirstOn.unique (h : c.FirstOn lists) {i j : Nat} (hi : i < c.nbuf) (hj : j < c.nbuf)
    (hvi : (c.buf i).valid) (hvj : (c.buf j).valid) (hd : (c.buf i).dev = (c.buf j).dev)
    (hb : (c.buf i).blockno = (c.buf j).blockno) : i = j := by
  have h₁ := h i hi hvi
  rw [hd, hb] at h₁
  exact Option.some.inj (h₁.symm.trans (h j hj hvj))

theorem caches_update_ne {x : Nat} (hx : x ≠ e) (dev blockno : Nat) :
    (update c.buf e b x).caches dev blockno = (c.buf x).caches dev blockno := by
  rw [update_noteq hx]

theorem caches_eq_false {b' : Buf} (h : ¬(b'.dev = b.dev ∧ b'.blockno = b.blockno)) :
    b.caches b'.dev b'.blockno = false := by
  simp only [Buf.caches, Bool.and_eq_false_iff, beq_eq_false_iff_ne, ne_eq]
  tauto

/-- Changes that keep every buffer's block and `valid` keep `FirstOn` on the same lists. -/
theorem FirstOn.of_labels (h : c.FirstOn lists) (hn : c'.nbuf = c.nbuf)
    (hd : ∀ x, (c'.buf x).dev = (c.buf x).dev) (hb : ∀ x, (c'.buf x).blockno = (c.buf x).blockno)
    (hv : ∀ x, (c'.buf x).valid = (c.buf x).valid) : c'.FirstOn lists := by
  intro i hi hvi
  have hp : (fun x => (c'.buf x).caches (c'.buf i).dev (c'.buf i).blockno) =
      fun x => (c.buf x).caches (c.buf i).dev (c.buf i).blockno := by
    funext x
    simp [Buf.caches, hd, hb]
  rw [hp, hb]
  exact h i (hn ▸ hi) (hv i ▸ hvi)

/-- Changing one buffer without changing its block or `valid` keeps `ValidFirst`. -/
theorem Layout.validFirst_update (hL : c.Layout lists) (hF : c.ValidFirst)
    (hc : c' = c.setBuf e b) (hd : b.dev = (c.buf e).dev) (hbl : b.blockno = (c.buf e).blockno)
    (hv : b.valid = (c.buf e).valid) : c'.ValidFirst := by
  subst hc
  refine (hL.setBuf e b).validFirst_iff.2 ((hL.validFirst_iff.1 hF).of_labels rfl
    (fun x => ?_) (fun x => ?_) fun x => ?_) <;> by_cases hxe : x = e <;> simp [hxe, hd, hbl, hv]

/-- Making valid the first buffer of its bucket labelled with its block, without changing its
block. -/
theorem FirstOn.validate (h : c.FirstOn lists) (hn : c'.nbuf = c.nbuf)
    (hc : c'.buf = update c.buf e b) (hd : b.dev = (c.buf e).dev)
    (hbl : b.blockno = (c.buf e).blockno) (he : (lists ((c.buf e).blockno % NBUCKETS)).find?
      (fun x => (c.buf x).caches (c.buf e).dev (c.buf e).blockno) = some e) :
    c'.FirstOn lists := by
  intro i hi hvi
  have hp : ∀ d k, (fun x => (c'.buf x).caches d k) = fun x => (c.buf x).caches d k := by
    intro d k
    funext x
    by_cases hxe : x = e
    · subst hxe; simp [hc, Buf.caches, hd, hbl]
    · simp [hc, update_noteq hxe]
  rw [hp]
  by_cases hie : i = e
  · subst hie
    simpa [hc, hd, hbl] using he
  · simp only [hc, update_noteq hie] at hvi ⊢
    exact h i (hn ▸ hi) hvi

/-- Relabelling, in place, a buffer of the bucket of its new block, which had no buffer labelled
with that block. -/
theorem FirstOn.relabel (h : c.FirstOn lists) (hn : c'.nbuf = c.nbuf)
    (hc : c'.buf = update c.buf e b) (hnone : (lists (b.blockno % NBUCKETS)).find?
      (fun x => (c.buf x).caches b.dev b.blockno) = none) (he : e ∈ lists (b.blockno % NBUCKETS)) :
    c'.FirstOn lists := by
  intro i hi hvi
  by_cases hie : i = e
  · subst hie
    simp only [hc, update_same]
    exact find?_of_none hnone he (fun x hx => caches_update_ne hx _ _) (by simp [Buf.caches])
  · simp only [hc, update_noteq hie] at hvi ⊢
    have hfi := h i (hn ▸ hi) hvi
    have hY : ¬((c.buf i).dev = b.dev ∧ (c.buf i).blockno = b.blockno) := by
      rintro ⟨hd, hbl⟩
      rw [hd, hbl, hnone] at hfi
      cases hfi
    exact (find?_of_change hfi hie (fun x hx => caches_update_ne hx _ _)
      (by simpa using caches_eq_false hY)).1

/-- Relabelling a buffer and moving it to the front of the bucket of its new block, which had no
buffer labelled with that block. -/
theorem FirstOn.relabel_move (h : c.FirstOn lists) (hn : c'.nbuf = c.nbuf)
    (hc : c'.buf = update c.buf e b) (hnone : (lists (b.blockno % NBUCKETS)).find?
      (fun x => (c.buf x).caches b.dev b.blockno) = none) :
    c'.FirstOn (move lists e (b.blockno % NBUCKETS)) := by
  intro i hi hvi
  by_cases hie : i = e
  · subst hie
    simp only [hc, update_same]
    simp [move, Buf.caches]
  · simp only [hc, update_noteq hie] at hvi ⊢
    have hfi := h i (hn ▸ hi) hvi
    have hY : ¬((c.buf i).dev = b.dev ∧ (c.buf i).blockno = b.blockno) := by
      rintro ⟨hd, hbl⟩
      rw [hd, hbl, hnone] at hfi
      cases hfi
    have hpe := caches_eq_false hY
    have hch := (find?_of_change hfi hie (fun x hx => caches_update_ne hx _ _)
      (by simpa using hpe)).2
    unfold move
    by_cases hk : (c.buf i).blockno % NBUCKETS = b.blockno % NBUCKETS
    · rw [hk, update_same, List.find?_cons_of_neg _ (by simp [hpe])]
      rwa [← hk]
    · rwa [update_noteq hk]

/-- Moving a valid buffer to the front of its own bucket, with every block and `valid` kept. -/
theorem FirstOn.move_self (h : c.FirstOn lists) (hn : c'.nbuf = c.nbuf)
    (hd : ∀ x, (c'.buf x).dev = (c.buf x).dev) (hb : ∀ x, (c'.buf x).blockno = (c.buf x).blockno)
    (hv : ∀ x, (c'.buf x).valid = (c.buf x).valid) (he : e < c.nbuf) (hve : (c.buf e).valid) :
    c'.FirstOn (move lists e ((c.buf e).blockno % NBUCKETS)) := by
  intro i hi hvi
  have hp : ∀ dv k, (fun x => (c'.buf x).caches dv k) = fun x => (c.buf x).caches dv k := by
    intro dv k
    funext x
    simp [Buf.caches, hd, hb]
  rw [hp, hb, hd]
  by_cases hie : i = e
  · subst hie
    simp [move, Buf.caches]
  · rw [hv] at hvi
    have hfi := h i (hn ▸ hi) hvi
    have hY : ¬((c.buf i).dev = (c.buf e).dev ∧ (c.buf i).blockno = (c.buf e).blockno) :=
      fun ⟨hdv, hbl⟩ => hie (h.unique (hn ▸ hi) he hvi hve hdv hbl)
    have hpe := caches_eq_false hY
    have hch := (find?_of_change hfi hie (fun _ _ => rfl) hpe).2
    unfold move
    by_cases hk : (c.buf i).blockno % NBUCKETS = (c.buf e).blockno % NBUCKETS
    · rw [hk, update_same, List.find?_cons_of_neg _ (by simp [hpe])]
      rwa [← hk]
    · rwa [update_noteq hk]

/-- What `bget` leaves in the buffers: it changes only the buffer it returns, labels it with the
block and keeps its sleeplock; the buffer is valid only after a hit. -/
theorem bget_buf {dev blockno : Nat} (h : c.bget dev blockno = some (e, c')) :
    c'.nbuf = c.nbuf ∧ (∀ x, x ≠ e → c'.buf x = c.buf x) ∧ (c'.buf e).lock = (c.buf e).lock ∧
      (c'.buf e).dev = dev ∧ (c'.buf e).blockno = blockno ∧
      ((c'.buf e).valid = true → c'.buf e = { c.buf e with refcnt := (c.buf e).refcnt + 1 }) := by
  rcases bget_cases h with ⟨hf, rfl⟩ | ⟨-, -, rfl⟩ | ⟨-, hs⟩
  · have hc := List.find?_some hf
    simp only [Buf.caches, Bool.and_eq_true, beq_iff_eq] at hc
    exact ⟨rfl, fun x hx => by simp [update_noteq hx], by simp, by simp [hc.1], by simp [hc.2],
      fun _ => by simp⟩
  · exact ⟨rfl, fun x hx => by simp [update_noteq hx], by simp [Buf.relabel], by simp [Buf.relabel],
      by simp [Buf.relabel], by simp [Buf.relabel]⟩
  · obtain ⟨-, -, -, rfl, -⟩ := bgetSteal_eq_some hs
    exact ⟨by simp, fun x hx => by simp [update_noteq hx], by simp [Buf.relabel],
      by simp [Buf.relabel], by simp [Buf.relabel], by simp [Buf.relabel]⟩

/-- Whatever `bread` then writes into the buffer `bget` returned, buffers stay first of their
block in their bucket, provided the buffer keeps its block. -/
theorem bget_validFirst {dev blockno : Nat} (hL : c.Layout lists) (hf : c.FirstOn lists)
    (h : c.bget dev blockno = some (e, c')) {b : Buf} (hd : b.dev = dev)
    (hb : b.blockno = blockno) : (c'.setBuf e b).ValidFirst := by
  have hid : blockno % NBUCKETS < NBUCKETS := Nat.mod_lt _ (by decide)
  rcases bget_cases h with ⟨hh, rfl⟩ | ⟨hn, hr, rfl⟩ | ⟨hn, hs⟩
  · have hc := List.find?_some hh
    simp only [Buf.caches, Bool.and_eq_true, beq_iff_eq] at hc
    simp only [setRefcnt, setBuf_setBuf]
    refine ((hL.setBuf e b).validFirst_iff).2 (hf.validate rfl rfl (hd.trans hc.1.symm)
      (hb.trans hc.2.symm) ?_)
    rw [hc.1, hc.2, ← hL.bucket_eq hid]
    exact hh
  · rw [setBuf_setBuf]
    refine ((hL.setBuf e b).validFirst_iff).2 (hf.relabel rfl rfl ?_ ?_)
    · rw [hb, hd, ← hL.bucket_eq hid]
      exact hn
    · rw [hb, ← List.mem_reverse, ← hL.bucketRev_eq hid]
      exact List.mem_of_find?_eq_some hr
  · obtain ⟨he, -, -, rfl, -⟩ := bgetSteal_eq_some hs
    obtain ⟨-, -, -, hL'⟩ := hL.claim he hid ((c.buf e).relabel dev blockno)
    refine ((hL'.setBuf e b).validFirst_iff).2 ?_
    rw [← hb]
    refine hf.relabel_move (by simp) (by simp) ?_
    rw [hb, hd, ← hL.bucket_eq hid]
    exact hn

/-- The buffer `bget` returns is one of the pool. -/
theorem bget_lt {dev blockno : Nat} (hL : c.Layout lists) (h : c.bget dev blockno = some (e, c')) :
    e < c.nbuf := by
  have hid : blockno % NBUCKETS < NBUCKETS := Nat.mod_lt _ (by decide)
  rcases bget_cases h with ⟨hh, -⟩ | ⟨-, hr, -⟩ | ⟨-, hs⟩
  · refine hL.lt_nbuf _ hid _ ?_
    rw [← hL.bucket_eq hid]
    exact List.mem_of_find?_eq_some hh
  · refine hL.lt_nbuf _ hid _ ?_
    rw [← List.mem_reverse, ← hL.bucketRev_eq hid]
    exact List.mem_of_find?_eq_some hr
  · exact (bgetSteal_eq_some hs).1

end Bcache

namespace Machine

variable {m m' : Machine} {a : Call} {t dev blockno e : Nat} {lists : Nat → List Nat}

/-- The callers of `Callers` that read blocks with `bread` and never call `bget` themselves. -/
def ReadCallers (m : Machine) : Call → Prop
  | .bget .. => False
  | a => m.Callers a

instance (m : Machine) : (a : Call) → Decidable (m.ReadCallers a)
  | .bget .. => inferInstanceAs (Decidable False)
  | .bread t dev blockno => inferInstanceAs (Decidable (m.Callers (.bread t dev blockno)))
  | .modify t e d => inferInstanceAs (Decidable (m.Callers (.modify t e d)))
  | .bwrite t e => inferInstanceAs (Decidable (m.Callers (.bwrite t e)))
  | .brelse t e => inferInstanceAs (Decidable (m.Callers (.brelse t e)))
  | .bpin t e => inferInstanceAs (Decidable (m.Callers (.bpin t e)))
  | .bunpin t e => inferInstanceAs (Decidable (m.Callers (.bunpin t e)))

/-- What keeps `bread` right between calls. -/
structure Coherent (m : Machine) : Prop where
  first : m.cache.ValidFirst
  data : ∀ i < m.cache.nbuf, (m.cache.buf i).valid → m.dirty i = false →
    (m.cache.buf i).data = m.disk ((m.cache.buf i).dev, (m.cache.buf i).blockno)
  dirty_locked : ∀ i, m.dirty i = true → (m.cache.buf i).lock.isSome
  locked_valid : ∀ i, (m.cache.buf i).lock.isSome → (m.cache.buf i).valid

theorem coherent_init (n nbuf : Nat) (disk : Nat × Nat → Nat → UInt8) :
    (init n nbuf disk).Coherent := by
  refine ⟨fun i _ hv => ?_, fun i _ hv => ?_, fun i hd => ?_, fun i hl => ?_⟩ <;>
    simp [init, Buf.zero] at *

/-- The buffer `bread` leaves: held by the caller, valid, and holding the disk's contents unless
it was valid already. -/
def fill (m : Machine) (t : Nat) (b : Buf) : Buf :=
  { b with lock := some t, valid := true,
           data := if b.valid then b.data else m.disk (b.dev, b.blockno) }

/-- `bread` is `bget`, whose buffer must be free to lock, then `fill`. -/
theorem bread_eq_fill : m.bread t dev blockno = some (e, m') ↔
    ∃ c, m.cache.bget dev blockno = some (e, c) ∧ (c.buf e).lock = none ∧
      m' = { m with cache := c.setBuf e (m.fill t (c.buf e)),
                    reads := if (c.buf e).valid then m.reads else m.reads + 1 } := by
  rw [bread_eq_some]
  constructor
  · rintro ⟨m₁, hb, rfl⟩
    obtain ⟨c, c', hbc, hac, rfl⟩ := bget_eq_some.1 hb
    unfold Bcache.acquireSleep at hac
    split at hac
    · rename_i hl
      cases hac
      refine ⟨c, hbc, hl, ?_⟩
      by_cases hv : (c.buf e).valid <;> simp [hv, fill, diskRead]
    · cases hac
  · rintro ⟨c, hbc, hl, rfl⟩
    refine ⟨_, bget_eq_some.2 ⟨c, c.setBuf e { c.buf e with lock := some t }, hbc,
      by simp [Bcache.acquireSleep, hl], rfl⟩, ?_⟩
    by_cases hv : (c.buf e).valid <;> simp [hv, fill, diskRead]

/-- A call that changes no buffer's block, `valid` or data, nor the disk or which buffers are
dirty, keeps the machine coherent if the buffers stay first of their block and a dirty buffer
stays held. -/
theorem Coherent.keep (hc : m.Coherent) (hn : m'.cache.nbuf = m.cache.nbuf)
    (hlabel : ∀ x, (m'.cache.buf x).dev = (m.cache.buf x).dev ∧
      (m'.cache.buf x).blockno = (m.cache.buf x).blockno ∧
      (m'.cache.buf x).valid = (m.cache.buf x).valid ∧ (m'.cache.buf x).data = (m.cache.buf x).data)
    (hfirst : m'.cache.ValidFirst) (hdirty : m'.dirty = m.dirty) (hdisk : m'.disk = m.disk)
    (hdl : ∀ x, m.dirty x = true → (m'.cache.buf x).lock.isSome)
    (hlv : ∀ x, (m'.cache.buf x).lock.isSome → (m.cache.buf x).lock.isSome) : m'.Coherent := by
  refine ⟨hfirst, fun i hi hv hd => ?_, fun i hd => hdl i (hdirty ▸ hd), fun i hl => ?_⟩
  · obtain ⟨h₁, h₂, h₃, h₄⟩ := hlabel i
    rw [h₁, h₂, h₄, hdisk]
    exact hc.data i (hn ▸ hi) (h₃ ▸ hv) (hdirty ▸ hd)
  · rw [(hlabel i).2.2.1]
    exact hc.locked_valid i (hlv i hl)

/-- The buffer `bread` fills holds the disk's contents of its block: it was read from the disk,
or it was a valid buffer that nobody held, hence clean. -/
theorem Coherent.fill_data (hc : m.Coherent) {c : Bcache}
    (hbc : m.cache.bget dev blockno = some (e, c)) (he : e < m.cache.nbuf)
    (hl : (c.buf e).lock = none) :
    (m.fill t (c.buf e)).data = m.disk ((c.buf e).dev, (c.buf e).blockno) := by
  obtain ⟨-, -, hlock, -, -, hval⟩ := Bcache.bget_buf hbc
  simp only [fill]
  split_ifs with hv
  · have hme := hval hv
    have hnl : (m.cache.buf e).lock = none := hlock ▸ hl
    rw [hme]
    exact hc.data e he (by simpa [hme] using hv) (by
      cases hde : m.dirty e
      · rfl
      · simpa [hnl] using hc.dirty_locked e hde)
  · rfl

theorem Coherent.bread (hc : m.Coherent) (hL : m.cache.Layout lists)
    (hb : m.bread t dev blockno = some (e, m')) : m'.Coherent := by
  obtain ⟨c, hbc, hl, rfl⟩ := bread_eq_fill.1 hb
  obtain ⟨hn, hother, -, hd, hbl, -⟩ := Bcache.bget_buf hbc
  refine ⟨Bcache.bget_validFirst hL (hL.validFirst_iff.1 hc.first) hbc (by simp [fill, hd])
    (by simp [fill, hbl]), fun i hi hv hdirty => ?_, fun i hdirty => ?_, fun i hli => ?_⟩ <;>
    by_cases hie : i = e
  · subst hie
    simpa [fill] using hc.fill_data (t := t) hbc (hn ▸ hi) hl
  · simp only [Bcache.setBuf_buf, update_noteq hie, hother i hie] at hv ⊢
    exact hc.data i (hn ▸ hi) hv hdirty
  · subst hie; simp [fill]
  · simp only [Bcache.setBuf_buf, update_noteq hie, hother i hie]
    exact hc.dirty_locked i hdirty
  · subst hie; simp [fill]
  · simp only [Bcache.setBuf_buf, update_noteq hie, hother i hie] at hli ⊢
    exact hc.locked_valid i hli

/-- Writing into a held buffer keeps the machine coherent: the buffer is dirty until its
`bwrite`. -/
theorem Coherent.modify (hc : m.Coherent) (hL : m.cache.Layout lists)
    (hl : (m.cache.buf e).lock = some t) (d : Nat → UInt8) : (m.modify e d).Coherent := by
  refine ⟨hL.validFirst_update hc.first rfl rfl rfl rfl, fun i hi hv hdirty => ?_,
    fun i hdirty => ?_, fun i hli => ?_⟩ <;> by_cases hie : i = e
  · subst hie; simp [Machine.modify] at hdirty
  · simp only [Machine.modify, Bcache.setBuf_buf, update_noteq hie] at hv hdirty ⊢
    exact hc.data i hi hv hdirty
  · subst hie; simp [Machine.modify, hl]
  · simp only [Machine.modify, update_noteq hie, Bcache.setBuf_buf] at hdirty ⊢
    exact hc.dirty_locked i hdirty
  · subst hie
    simpa [Machine.modify] using hc.locked_valid i (by simp [hl])
  · simp only [Machine.modify, Bcache.setBuf_buf, update_noteq hie] at hli ⊢
    exact hc.locked_valid i hli

/-- Writing a held buffer back keeps the machine coherent: the disk changes only at its block,
and no other valid buffer is labelled with that block. -/
theorem Coherent.bwrite (hc : m.Coherent) (hL : m.cache.Layout lists) (he : e < m.cache.nbuf)
    (hl : (m.cache.buf e).lock = some t) (hs : m.bwrite t e = some m') : m'.Coherent := by
  have hF := hL.validFirst_iff.1 hc.first
  simp only [Machine.bwrite] at hs
  split_ifs at hs
  cases hs
  have hve : (m.cache.buf e).valid := hc.locked_valid e (by simp [hl])
  refine ⟨hc.first, fun i hi hv hdirty => ?_, fun i hdirty => ?_, hc.locked_valid⟩ <;>
    by_cases hie : i = e
  · subst hie; simp [diskWrite]
  · have hne : ((m.cache.buf i).dev, (m.cache.buf i).blockno) ≠
        ((m.cache.buf e).dev, (m.cache.buf e).blockno) := fun h =>
      hie (hF.unique hi he hv hve (Prod.mk.inj h).1 (Prod.mk.inj h).2)
    simp only [diskWrite, update_noteq hne, update_noteq hie] at hdirty ⊢
    exact hc.data i hi hv hdirty
  · subst hie; simp at hdirty
  · simp only [update_noteq hie] at hdirty
    exact hc.dirty_locked i hdirty

/-- Releasing a held, clean buffer keeps the machine coherent. -/
theorem Coherent.brelse (hc : m.Coherent) (hL : m.cache.Layout lists) (he : e < m.cache.nbuf)
    (hl : (m.cache.buf e).lock = some t) (hde : m.dirty e = false)
    (hs : m.brelse t e = some m') : m'.Coherent := by
  have hh : m.cache.holdingSleep t e = true := by simp [Bcache.holdingSleep, hl]
  simp only [Machine.brelse, hh, if_true, Option.some.injEq] at hs
  subst hs
  have hve : (m.cache.buf e).valid := hc.locked_valid e (by simp [hl])
  refine hc.keep (by simp [Bcache.releaseSleep]) (fun x => ?_) ?_ rfl rfl (fun x hx => ?_)
    (fun x hx => ?_)
  · by_cases hxe : x = e <;> simp [hxe, Bcache.releaseSleep]
  · simp only [Bcache.brelseLocked_eq]
    split_ifs
    · obtain ⟨j, hj, hej⟩ := hL.cover e he
      have hL₁ : ((m.cache.releaseSleep e).setRefcnt e
          (((m.cache.releaseSleep e).buf e).refcnt - 1)).Layout lists := hL.congr rfl rfl rfl
      refine (hL₁.relink hj hej (Nat.mod_lt _ (by decide))).validFirst_iff.2 ?_
      simp only [Bcache.releaseSleep, Bcache.setRefcnt, Bcache.setBuf_buf, update_same]
      refine (hL.validFirst_iff.1 hc.first).move_self (by simp) (fun x => ?_) (fun x => ?_)
        (fun x => ?_) he hve <;> by_cases hxe : x = e <;> simp [hxe]
    · exact hL.validFirst_update (e := e)
        (b := { m.cache.buf e with lock := none, refcnt := (m.cache.buf e).refcnt - 1 })
        hc.first (by simp [Bcache.releaseSleep, Bcache.setRefcnt]) rfl rfl rfl
  · by_cases hxe : x = e
    · subst hxe; simp [hde] at hx
    · simpa [Bcache.releaseSleep, update_noteq hxe] using hc.dirty_locked x hx
  · by_cases hxe : x = e
    · subst hxe; simp [Bcache.releaseSleep] at hx
    · simpa [Bcache.releaseSleep, update_noteq hxe] using hx

/-- A change of one reference count, as `bpin` and `bunpin` make, keeps the machine coherent. -/
theorem Coherent.setRefcnt (hc : m.Coherent) (hL : m.cache.Layout lists) {n : Nat}
    (hm : m'.cache = m.cache.setRefcnt e n) (hdirty : m'.dirty = m.dirty)
    (hdisk : m'.disk = m.disk) : m'.Coherent := by
  refine hc.keep (by simp [hm]) (fun x => ?_) (hL.validFirst_update hc.first hm rfl rfl rfl)
    hdirty hdisk (fun x hx => ?_) (fun x hx => ?_) <;> by_cases hxe : x = e
  · simp [hm, hxe]
  · simp [hm, update_noteq hxe]
  · simpa [hm, hxe] using hc.dirty_locked x hx
  · simpa [hm, update_noteq hxe] using hc.dirty_locked x hx
  · simpa [hm, hxe] using hx
  · simpa [hm, update_noteq hxe] using hx

/-- Every call the read callers make keeps the machine coherent. -/
theorem Coherent.step (hc : m.Coherent) (hg : m.sys.Good) (hok : m.ReadCallers a)
    (hs : m.step a = some m') : m'.Coherent := by
  obtain ⟨-, lists, hp⟩ := hg
  have hL : m.cache.Layout lists := hp.layout
  -- the call runs on `m` with its clock advanced, which coherence does not read
  have hc₁ : Coherent { m with clock := m.clock + 1 } := ⟨hc.1, hc.2, hc.3, hc.4⟩
  cases a with
  | bget => exact hok.elim
  | bread t dev blockno =>
    obtain ⟨⟨e, m₁⟩, hb, rfl⟩ := Option.map_eq_some'.1 hs
    exact hc₁.bread hL hb
  | modify t e d => cases hs; exact hc₁.modify hL hok.2.2 d
  | bwrite t e => exact hc₁.bwrite hL hok.2.1 hok.2.2 hs
  | brelse t e => exact hc₁.brelse hL hok.2.1 hok.2.2.1 hok.2.2.2 hs
  | bpin t e => cases hs; exact hc₁.setRefcnt hL rfl rfl rfl
  | bunpin t e => cases hs; exact hc₁.setRefcnt hL rfl rfl rfl

theorem readCallers_callers (h : m.ReadCallers a) : m.Callers a := by
  cases a
  · exact h.elim
  all_goals exact h

theorem Reachable.coherent (h : Reachable ReadCallers m) : m.Coherent := by
  induction h with
  | init n nbuf disk => exact coherent_init n nbuf disk
  | step hr ha hs ih => exact ih.step (hr.good fun _ _ => readCallers_callers) ha hs

/-- What `bread(dev, blockno)` returns: a valid buffer labelled with the block, with the disk's
contents of the block, and a disk read exactly when no buffer held a valid copy of the block. -/
structure BreadPost (m : Machine) (dev blockno e : Nat) (m' : Machine) : Prop where
  dev_eq : (m'.cache.buf e).dev = dev
  blockno_eq : (m'.cache.buf e).blockno = blockno
  valid : (m'.cache.buf e).valid = true
  data_eq : (m'.cache.buf e).data = m.disk (dev, blockno)
  disk_eq : m'.disk = m.disk
  reads_eq : m'.reads = if ∃ i < m.cache.nbuf, (m.cache.buf i).caches dev blockno = true ∧
    (m.cache.buf i).valid = true then m.reads else m.reads + 1

/-- From `binit` with 30 buffers, one thread reads blocks 0, 13 and 26 of device 1, the three
buffers of bucket 0, and holds them. -/
def readExhaustTrace : List Call := [.bread 0 1 0, .bread 0 1 13, .bread 0 1 26]

theorem readExhaustTrace_runs :
    (run ReadCallers (init 1 30 fun _ _ => 0) readExhaustTrace).isSome := by
  set_option maxRecDepth 20000 in decide

/-- The machine `readExhaustTrace` reaches. -/
def readExhaustState : Machine :=
  (run ReadCallers (init 1 30 fun _ _ => 0) readExhaustTrace).get readExhaustTrace_runs

end Machine

end BufCache
