import BufCache.Basic
import Mathlib.Data.List.Chain
import Mathlib.Data.List.Nodup
import Mathlib.Data.List.Perm.Subperm

/-!
# Bucket lists

Each bucket of `bcache` is a circular doubly-linked list through its head. `Bcache.Linked c k l`
says that bucket `k` holds the buffers `l` in order from its head, and `Bcache.Layout c lists`
that the lists of the thirteen buckets partition the pool. The scans of `bget` walk a bucket by
following pointers; on a linked bucket the walk returns `l` (`Linked.bucket_eq`), so the loops of
the code are read as operations on lists.

The two pointer surgeries of `bio.c`, unlinking a buffer and linking it first into a bucket,
implement moving the buffer from its list to the front of another (`Layout.relink`).
-/

namespace BufCache

open Function

/-- `x->next == y` and `y->prev == x`, for the pointer fields `f = next` and `g = prev`. -/
def Adj (f g : Node → Node) (x y : Node) : Prop := f x = y ∧ g y = x

/-- A chain of links survives a change of `f` off every node but its last, and of `g` off every
node but its first. -/
theorem chain_congr {f g f' g' : Node → Node} :
    ∀ {L : List Node}, List.Chain' (Adj f g) L → (∀ x ∈ L.dropLast, f' x = f x) →
      (∀ y ∈ L.tail, g' y = g y) → List.Chain' (Adj f' g') L
  | [], _, _, _ => List.chain'_nil
  | [_], _, _, _ => List.chain'_singleton _
  | x :: y :: L, h, hf, hg => by
    rw [List.chain'_cons] at h ⊢
    refine ⟨⟨(hf x (by simp)).trans h.1.1, (hg y (by simp)).trans h.1.2⟩,
      chain_congr h.2 (fun z hz => hf z ?_) (fun z hz => hg z (List.mem_cons_of_mem _ hz))⟩
    rw [List.dropLast_cons₂]
    exact List.mem_cons_of_mem _ hz

/-- Cutting the node `m` out of a chain: the two writes of `unlink` relink its neighbours. -/
theorem chain_cut {f g : Node → Node} {P Q : List Node} {p m n : Node}
    (h : List.Chain' (Adj f g) (P ++ p :: m :: n :: Q)) (hp : p ∉ P) (hn : n ∉ (P ++ [p]).tail)
    (hp' : p ∉ (n :: Q).dropLast) (hn' : n ∉ Q) :
    List.Chain' (Adj (update f p n) (update g n p)) (P ++ p :: n :: Q) := by
  rw [List.chain'_split, List.chain'_cons, List.chain'_cons] at h
  rw [List.chain'_split, List.chain'_cons]
  refine ⟨chain_congr h.1 ?_ ?_, ⟨by simp [Adj], by simp⟩, chain_congr h.2.2.2 ?_ ?_⟩
  · intro x hx
    rw [List.dropLast_concat] at hx
    exact update_noteq (fun e => hp (by rwa [e] at hx)) _ _
  · intro y hy
    exact update_noteq (fun e => hn (by rwa [e] at hy)) _ _
  · intro x hx
    exact update_noteq (fun e => hp' (by rwa [e] at hx)) _ _
  · intro y hy
    exact update_noteq (fun e => hn' (by rwa [e] at hy)) _ _

/-- In a chain, the successor of any node but the last is on the chain. -/
theorem chain_next_mem {f g : Node → Node} :
    ∀ {L : List Node}, List.Chain' (Adj f g) L → ∀ x ∈ L.dropLast, f x ∈ L
  | [], _, _, hx => absurd hx (List.not_mem_nil _)
  | [_], _, _, hx => absurd hx (List.not_mem_nil _)
  | x :: y :: L, h, z, hz => by
    rw [List.chain'_cons] at h
    rw [List.dropLast_cons₂, List.mem_cons] at hz
    rcases hz with rfl | hz
    · exact h.1.1 ▸ List.mem_cons_of_mem _ (List.mem_cons_self _ _)
    · exact List.mem_cons_of_mem _ (chain_next_mem h.2 z hz)

/-- In a chain, the predecessor of any node but the first is on the chain. -/
theorem chain_prev_mem {f g : Node → Node} :
    ∀ {L : List Node}, List.Chain' (Adj f g) L → ∀ y ∈ L.tail, g y ∈ L
  | [], _, _, hy => absurd hy (List.not_mem_nil _)
  | [_], _, _, hy => absurd hy (List.not_mem_nil _)
  | x :: y :: L, h, z, hz => by
    rw [List.chain'_cons] at h
    rw [List.tail_cons, List.mem_cons] at hz
    rcases hz with rfl | hz
    · exact h.1.2 ▸ List.mem_cons_self _ _
    · exact List.mem_cons_of_mem _ (chain_prev_mem h.2 z hz)

/-- In a chain, `g` undoes `f` on every node but the last. -/
theorem chain_prev_next {f g : Node → Node} :
    ∀ {L : List Node}, List.Chain' (Adj f g) L → ∀ x ∈ L.dropLast, g (f x) = x
  | [], _, _, hx => absurd hx (List.not_mem_nil _)
  | [_], _, _, hx => absurd hx (List.not_mem_nil _)
  | x :: y :: L, h, z, hz => by
    rw [List.chain'_cons] at h
    rw [List.dropLast_cons₂, List.mem_cons] at hz
    rcases hz with rfl | hz
    · rw [h.1.1, h.1.2]
    · exact chain_prev_next h.2 z hz

/-- In a chain, `f` undoes `g` on every node but the first. -/
theorem chain_next_prev {f g : Node → Node} :
    ∀ {L : List Node}, List.Chain' (Adj f g) L → ∀ y ∈ L.tail, f (g y) = y
  | [], _, _, hy => absurd hy (List.not_mem_nil _)
  | [_], _, _, hy => absurd hy (List.not_mem_nil _)
  | x :: y :: L, h, z, hz => by
    rw [List.chain'_cons] at h
    rw [List.tail_cons, List.mem_cons] at hz
    rcases hz with rfl | hz
    · rw [h.1.2, h.1.1]
    · exact chain_next_prev h.2 z hz

/-- The buffers met by following `f` from `x` until the node `h`, at most `fuel` of them: the
loops `for(b = head.next; b != &head; b = b->next)` and `for(b = head.prev; b != &head;
b = b->prev)` of `bget`. A pointer to anything but a buffer ends the walk. -/
def walk (f : Node → Node) (h : Node) : Nat → Node → List Nat
  | 0, _ => []
  | fuel + 1, x =>
    if x = h then [] else
      match x with
      | .buf i => i :: walk f h fuel (f x)
      | _ => []

/-- Along a chain that returns to the head, the walk meets exactly the buffers of the chain. -/
theorem walk_of_chain {f g : Node → Node} {k : Nat} :
    ∀ {x : Node} {l : List Nat} {fuel : Nat},
      List.Chain' (Adj f g) (x :: l.map .buf ++ [.head k]) → l.length < fuel →
      walk f (.head k) fuel (f x) = l
  | _, _, 0, _, hl => absurd hl (Nat.not_lt_zero _)
  | _, [], _ + 1, h, _ => by
    simp only [List.map_nil, List.cons_append, List.nil_append, List.chain'_cons] at h
    simp [h.1.1, walk]
  | _, i :: l, _ + 1, h, hl => by
    simp only [List.map_cons, List.cons_append, List.chain'_cons] at h
    simp only [h.1.1, walk, reduceCtorEq, if_false]
    exact congrArg _ (walk_of_chain h.2 (by simpa using hl))

namespace Bcache

variable {c c' : Bcache} {k b : Nat} {l A B : List Nat}

/-- Bucket `k` holds the buffers `l`, in order from its head: `next` runs from the head through
them and back to the head, and `prev` runs the other way. -/
def Linked (c : Bcache) (k : Nat) (l : List Nat) : Prop :=
  List.Chain' (Adj c.next c.prev) (.head k :: l.map .buf ++ [.head k])

/-- The buffers of bucket `k` from the head on, in the order the hit scan of `bget` visits
them. -/
def bucket (c : Bcache) (k : Nat) : List Nat :=
  walk c.next (.head k) (c.nbuf + 1) (c.next (.head k))

/-- The buffers of bucket `k` from the tail back, in the order the reuse scan of `bget` visits
them. -/
def bucketRev (c : Bcache) (k : Nat) : List Nat :=
  walk c.prev (.head k) (c.nbuf + 1) (c.prev (.head k))

theorem Linked.bucket_eq (h : c.Linked k l) (hl : l.length ≤ c.nbuf) : c.bucket k = l :=
  walk_of_chain h (Nat.lt_succ_of_le hl)

theorem Linked.bucketRev_eq (h : c.Linked k l) (hl : l.length ≤ c.nbuf) :
    c.bucketRev k = l.reverse := by
  have hr := List.chain'_reverse.2 (h.imp fun _ _ hxy => (⟨hxy.2, hxy.1⟩ : Adj c.prev c.next _ _))
  simp only [List.reverse_cons, List.reverse_append, List.reverse_singleton,
    List.singleton_append, List.cons_append, ← List.map_reverse] at hr
  exact walk_of_chain hr (by simpa using Nat.lt_succ_of_le hl)

@[simp] theorem unlink_next (c : Bcache) (x : Node) :
    (c.unlink x).next = update c.next (c.prev x) (c.next x) := by
  simp only [unlink, setNext_next, setPrev_next, setPrev_prev, update_apply, ite_self]

@[simp] theorem unlink_prev (c : Bcache) (x : Node) :
    (c.unlink x).prev = update c.prev (c.next x) (c.prev x) := rfl

@[simp] theorem linkHead_next (c : Bcache) (k : Nat) (x : Node) :
    (c.linkHead k x).next = update (update c.next x (c.next (.head k))) (.head k) x := rfl

@[simp] theorem linkHead_prev (c : Bcache) (k : Nat) (x : Node) :
    (c.linkHead k x).prev = update (update c.prev x (.head k)) (c.next (.head k)) x := by
  simp only [linkHead, setNext_prev, setPrev_prev, setPrev_next, setNext_next, update_apply,
    ite_self]

/-- A bucket stays linked through any change of pointers away from its nodes. -/
theorem Linked.frame (h : c.Linked k l)
    (hn : ∀ x ∈ Node.head k :: l.map .buf, c'.next x = c.next x)
    (hp : ∀ x ∈ Node.head k :: l.map .buf, c'.prev x = c.prev x) : c'.Linked k l := by
  refine chain_congr h (fun x hx => hn x ?_) (fun x hx => hp x ?_)
  · have := List.dropLast_subset _ hx
    simp only [List.cons_append, List.mem_cons, List.mem_append, List.mem_singleton] at this ⊢
    tauto
  · simp only [List.cons_append, List.tail_cons, List.mem_append, List.mem_singleton] at hx
    simp only [List.mem_cons]
    tauto

/-- Unlinking a buffer cuts it out of its bucket. -/
theorem Linked.unlink (h : c.Linked k (A ++ b :: B)) (hnd : (A ++ b :: B).Nodup) :
    (c.unlink (.buf b)).Linked k (A ++ B) := by
  -- the bucket, cut open at `b`, is `U ++ buf b :: V`
  set U : List Node := .head k :: A.map .buf with hU
  set V : List Node := B.map .buf ++ [.head k] with hV
  have hUne : U ≠ [] := List.cons_ne_nil _ _
  obtain ⟨n, Q, hnQ⟩ := List.exists_cons_of_ne_nil (show V ≠ [] by simp [hV])
  have hUp := List.dropLast_append_getLast hUne
  set p := U.getLast hUne
  have hsplit : ∀ X, U.dropLast ++ p :: X = U ++ X := fun X => by rw [List.append_cons, hUp]
  have hW : (U ++ Node.buf b :: B.map Node.buf).Nodup := by
    simpa [hU, List.nodup_cons] using (List.nodup_map_iff (fun _ _ => Node.buf.inj)).2 hnd
  obtain ⟨hUnd, hBnd, hdis⟩ := List.nodup_append.1 hW
  have hpU : p ∈ U := List.getLast_mem hUne
  have hnV : n ∈ V := hnQ ▸ List.mem_cons_self _ _
  have hVnd : V.Nodup := by
    simpa [hV, List.nodup_append] using (List.nodup_cons.1 hBnd).2
  have hcut : Node.head k :: (A ++ b :: B).map .buf ++ [.head k] =
      U.dropLast ++ p :: .buf b :: n :: Q := by
    rw [hsplit, ← hnQ]; simp [hU, hV]
  have hcut' : Node.head k :: (A ++ B).map .buf ++ [.head k] = U.dropLast ++ p :: n :: Q := by
    rw [hsplit, ← hnQ]; simp [hU, hV]
  unfold Linked at h ⊢
  rw [hcut] at h
  have hlinks := (List.chain'_split.1 h).2
  rw [List.chain'_cons, List.chain'_cons] at hlinks
  rw [unlink_next, unlink_prev, hlinks.1.2, hlinks.2.1.1, hcut']
  refine chain_cut h ?_ ?_ ?_ ?_
  · have hU' : (U.dropLast ++ [p]).Nodup := by rw [hUp]; exact hUnd
    exact fun hp => (List.nodup_append.1 hU').2.2 hp (List.mem_singleton_self p)
  · rw [hUp]
    intro hnA
    rcases List.mem_append.1 hnV with hnB | hnk
    · exact hdis (List.mem_of_mem_tail hnA) (List.mem_cons_of_mem _ hnB)
    · rw [List.mem_singleton.1 hnk] at hnA
      exact (List.nodup_cons.1 hUnd).1 hnA
  · rw [← hnQ, hV, List.dropLast_concat]
    exact fun hpB => hdis hpU (List.mem_cons_of_mem _ hpB)
  · exact (List.nodup_cons.1 (hnQ ▸ hVnd)).1

/-- Linking a buffer first into bucket `k` conses it onto the bucket's list. -/
theorem Linked.linkHead (h : c.Linked k l) (hnd : l.Nodup) (hb : b ∉ l) :
    (c.linkHead k (.buf b)).Linked k (b :: l) := by
  set V : List Node := l.map .buf ++ [.head k] with hV
  obtain ⟨n, Q, hnQ⟩ := List.exists_cons_of_ne_nil (show V ≠ [] by simp [hV])
  have hVnd : V.Nodup := by
    simpa [hV, List.nodup_append] using (List.nodup_map_iff (fun _ _ => Node.buf.inj)).2 hnd
  have hbV : Node.buf b ∉ V := by simpa [hV] using hb
  have hnV : n ∈ V := hnQ ▸ List.mem_cons_self _ _
  have hbn : Node.buf b ≠ n := fun e => hbV (e ▸ hnV)
  unfold Linked at h ⊢
  rw [List.cons_append, ← hV, hnQ, List.chain'_cons] at h
  rw [List.map_cons, List.cons_append, List.cons_append, ← hV, hnQ]
  rw [linkHead_next, linkHead_prev, h.1.1, List.chain'_cons, List.chain'_cons]
  refine ⟨⟨by simp, by simp [update_noteq hbn]⟩, ⟨by simp, by simp⟩, chain_congr h.2 ?_ ?_⟩
  · intro x hx
    rw [← hnQ, hV, List.dropLast_concat] at hx
    have hxb : x ≠ .buf b := fun e => hb (by simpa [e] using hx)
    have hxk : x ≠ .head k := by rintro rfl; simp at hx
    simp [update_noteq hxb, update_noteq hxk]
  · intro y hy
    have hyn : y ≠ n := fun e => (List.nodup_cons.1 (hnQ ▸ hVnd)).1 (e ▸ hy)
    have hyb : y ≠ .buf b := fun e => hbV (hnQ ▸ List.mem_cons_of_mem _ (e ▸ hy))
    simp [update_noteq hyn, update_noteq hyb]

/-- The nodes of bucket `k` when it holds `l`: its head and its buffers. -/
def nodes (k : Nat) (l : List Nat) : List Node := .head k :: l.map .buf

theorem mem_nodes {k : Nat} {l : List Nat} {x : Node} :
    x ∈ nodes k l ↔ x = .head k ∨ ∃ i ∈ l, x = .buf i := by
  simp [nodes, eq_comm]

theorem mem_cycle {k : Nat} {l : List Nat} {x : Node} :
    x ∈ Node.head k :: l.map Node.buf ++ [Node.head k] ↔ x ∈ nodes k l := by
  simp only [nodes, List.cons_append, List.mem_cons, List.mem_append, List.mem_singleton]
  tauto

/-- The pointers of a linked bucket lead from its nodes to its nodes. -/
theorem Linked.next_mem (h : c.Linked k l) {x : Node} (hx : x ∈ nodes k l) :
    c.next x ∈ nodes k l :=
  mem_cycle.1 (chain_next_mem h x (by rw [List.dropLast_concat]; exact hx))

theorem Linked.prev_mem (h : c.Linked k l) {i : Nat} (hi : i ∈ l) :
    c.prev (.buf i) ∈ nodes k l :=
  mem_cycle.1 (chain_prev_mem h (.buf i) (by simp [hi]))

/-- `x->next->prev == x` for every node of a linked bucket. -/
theorem Linked.prev_next (h : c.Linked k l) {x : Node} (hx : x ∈ nodes k l) :
    c.prev (c.next x) = x :=
  chain_prev_next h x (by rw [List.dropLast_concat]; exact hx)

/-- `x->prev->next == x` for every node of a linked bucket. -/
theorem Linked.next_prev (h : c.Linked k l) {x : Node} (hx : x ∈ nodes k l) :
    c.next (c.prev x) = x :=
  chain_next_prev h x (by
    rw [mem_nodes] at hx
    rcases hx with rfl | ⟨i, hi, rfl⟩ <;> simp [*])

/-- The lists of the buckets are `lists`: each bucket `k` is linked as `lists k`, without
repetition, and no buffer is on two buckets. -/
structure Lists (c : Bcache) (lists : Nat → List Nat) : Prop where
  linked : ∀ k < NBUCKETS, c.Linked k (lists k)
  nodup : ∀ k < NBUCKETS, (lists k).Nodup
  unique : ∀ k < NBUCKETS, ∀ k' < NBUCKETS, ∀ i ∈ lists k, i ∈ lists k' → k = k'

/-- The bucket lists are `lists`, and every buffer of the pool is on exactly one of them. -/
structure Layout (c : Bcache) (lists : Nat → List Nat) extends c.Lists lists : Prop where
  lt_nbuf : ∀ k < NBUCKETS, ∀ i ∈ lists k, i < c.nbuf
  cover : ∀ i < c.nbuf, ∃ k < NBUCKETS, i ∈ lists k

variable {lists : Nat → List Nat} {j m : Nat}

/-- Distinct buckets share no node. -/
theorem Lists.nodes_disjoint (h : c.Lists lists) (hk : k < NBUCKETS) (hm : m < NBUCKETS)
    (hkm : k ≠ m) {x : Node} (hx : x ∈ nodes k (lists k)) : x ∉ nodes m (lists m) := by
  intro hx'
  rw [mem_nodes] at hx hx'
  rcases hx with rfl | ⟨i, hi, rfl⟩
  · rcases hx' with e | ⟨_, _, e⟩ <;> cases e; exact hkm rfl
  · rcases hx' with e | ⟨i', hi', e⟩
    · cases e
    · cases e; exact hkm (h.unique k hk m hm i hi hi')

/-- Unlinking buffer `b` erases it from the list of its bucket and changes no other list. -/
theorem Lists.unlink (h : c.Lists lists) (hj : j < NBUCKETS) (hb : b ∈ lists j) :
    (c.unlink (.buf b)).Lists (fun m => (lists m).erase b) := by
  refine ⟨fun m hm => ?_, fun m hm => (h.nodup m hm).erase b,
    fun m hm m' hm' i hi hi' => h.unique m hm m' hm' i
      (List.mem_of_mem_erase hi) (List.mem_of_mem_erase hi')⟩
  by_cases hmj : m = j
  · subst hmj
    obtain ⟨A, B, hAB⟩ := List.append_of_mem hb
    have hnd := h.nodup m hm
    rw [hAB] at hnd ⊢
    have hbA : b ∉ A := fun hbA => (List.nodup_cons.1 (List.nodup_middle.1 hnd)).1
      (List.mem_append_left B hbA)
    rw [List.erase_append_right _ hbA, List.erase_cons_head]
    exact (hAB ▸ h.linked m hm).unlink hnd
  · have hbm : b ∉ lists m := fun hb' => hmj (h.unique m hm j hj b hb' hb)
    rw [List.erase_of_not_mem hbm]
    have hp := (h.linked j hj).prev_mem hb
    have hn := (h.linked j hj).next_mem (show Node.buf b ∈ nodes j (lists j) by simp [nodes, hb])
    refine (h.linked m hm).frame (fun x hx => ?_) (fun x hx => ?_)
    · rw [unlink_next]
      exact update_noteq (fun e => h.nodes_disjoint hj hm (Ne.symm hmj) hp (by rwa [← e])) _ _
    · rw [unlink_prev]
      exact update_noteq (fun e => h.nodes_disjoint hj hm (Ne.symm hmj) hn (by rwa [← e])) _ _

/-- Linking a buffer that is on no list first into bucket `k` conses it onto that list. -/
theorem Lists.linkHead (h : c.Lists lists) (hb : ∀ m < NBUCKETS, b ∉ lists m)
    (hk : k < NBUCKETS) : (c.linkHead k (.buf b)).Lists (update lists k (b :: lists k)) := by
  refine ⟨fun m hm => ?_, fun m hm => ?_, fun m hm m' hm' i hi hi' => ?_⟩
  · by_cases hmk : m = k
    · subst hmk
      rw [update_same]
      exact (h.linked m hm).linkHead (h.nodup m hm) (hb m hm)
    · rw [update_noteq hmk]
      have hn := (h.linked k hk).next_mem (x := .head k) (List.mem_cons_self _ _)
      refine (h.linked m hm).frame (fun x hx => ?_) (fun x hx => ?_)
      · have hxk : x ≠ .head k := by rintro rfl; simp at hx; exact hmk hx.symm
        have hxb : x ≠ .buf b := by rintro rfl; simp [hb m hm] at hx
        simp [update_noteq hxk, update_noteq hxb]
      · have hxn : x ≠ c.next (.head k) := fun e =>
          h.nodes_disjoint hk hm (Ne.symm hmk) hn (e ▸ hx)
        have hxb : x ≠ .buf b := by rintro rfl; simp [hb m hm] at hx
        rw [linkHead_prev, update_noteq hxn, update_noteq hxb]
  · by_cases hmk : m = k
    · subst hmk
      simpa [hb m hm] using h.nodup m hm
    · simpa [update_noteq hmk] using h.nodup m hm
  · have hmem : ∀ {m}, m < NBUCKETS → i ∈ update lists k (b :: lists k) m →
        (i = b ∧ m = k) ∨ (i ≠ b ∧ i ∈ lists m) := by
      intro m hm hi
      by_cases hmk : m = k
      · subst hmk
        rw [update_same, List.mem_cons] at hi
        by_cases hib : i = b
        · exact .inl ⟨hib, rfl⟩
        · exact .inr ⟨hib, hi.resolve_left hib⟩
      · rw [update_noteq hmk] at hi
        exact .inr ⟨fun e => hb m hm (e ▸ hi), hi⟩
    rcases hmem hm hi with ⟨hib, rfl⟩ | ⟨hib, hi⟩ <;>
      rcases hmem hm' hi' with ⟨hib', rfl⟩ | ⟨hib', hi'⟩
    · rfl
    · exact absurd hib hib'
    · exact absurd hib' hib
    · exact h.unique m hm m' hm' i hi hi'

/-- Linking buffers `bs` first into bucket `k` one after another, as `binit` does. -/
theorem Lists.foldl_linkHead (h : c.Lists lists) (hk : k < NBUCKETS) {bs : List Nat}
    (hnd : bs.Nodup) (hfresh : ∀ b ∈ bs, ∀ m < NBUCKETS, b ∉ lists m) :
    (bs.foldl (fun c b => c.linkHead k (.buf b)) c).Lists
      (update lists k (bs.reverse ++ lists k)) := by
  induction bs generalizing c lists with
  | nil => simpa using h
  | cons b bs ih =>
    have h' := h.linkHead (hfresh b (List.mem_cons_self _ _)) hk
    have := ih h' (List.nodup_cons.1 hnd).2 fun b' hb' m hm hb'm => by
      by_cases hmk : m = k
      · subst hmk
        rw [update_same, List.mem_cons] at hb'm
        rcases hb'm with rfl | hb'm
        · exact (List.nodup_cons.1 hnd).1 hb'
        · exact hfresh b' (List.mem_cons_of_mem _ hb') m hm hb'm
      · rw [update_noteq hmk] at hb'm
        exact hfresh b' (List.mem_cons_of_mem _ hb') m hm hb'm
    simpa using this

theorem Layout.length_le (h : c.Layout lists) (hk : k < NBUCKETS) :
    (lists k).length ≤ c.nbuf := by
  simpa using (List.subperm_of_subset (h.nodup k hk)
    fun i hi => List.mem_range.2 (h.lt_nbuf k hk i hi)).length_le

/-- The hit scan of a bucket reads its list. -/
theorem Layout.bucket_eq (h : c.Layout lists) (hk : k < NBUCKETS) : c.bucket k = lists k :=
  (h.linked k hk).bucket_eq (h.length_le hk)

/-- The reuse scan of a bucket reads its list backwards. -/
theorem Layout.bucketRev_eq (h : c.Layout lists) (hk : k < NBUCKETS) :
    c.bucketRev k = (lists k).reverse :=
  (h.linked k hk).bucketRev_eq (h.length_le hk)

/-- The layout reads only the pool size and the links. -/
theorem Layout.congr (h : c.Layout lists) (hn : c'.nbuf = c.nbuf) (hnext : c'.next = c.next)
    (hprev : c'.prev = c.prev) : c'.Layout lists := by
  refine ⟨⟨fun k hk => ?_, h.nodup, h.unique⟩, fun k hk i hi => hn ▸ h.lt_nbuf k hk i hi,
    fun i hi => h.cover i (hn ▸ hi)⟩
  unfold Linked
  rw [hnext, hprev]
  exact h.linked k hk

theorem Layout.setBuf (h : c.Layout lists) (i : Nat) (b : Buf) : (c.setBuf i b).Layout lists :=
  h.congr rfl rfl rfl

/-- The bucket lists after buffer `b` moves to the front of bucket `k`. -/
def move (lists : Nat → List Nat) (b k : Nat) : Nat → List Nat :=
  update (fun m => (lists m).erase b) k (b :: (lists k).erase b)

/-- Unlinking buffer `b` and linking it first into bucket `k` moves it there on the lists: the
relink of the steal path of `bget` and of `brelse`. -/
theorem Layout.relink (h : c.Layout lists) (hj : j < NBUCKETS) (hb : b ∈ lists j)
    (hk : k < NBUCKETS) : ((c.unlink (.buf b)).linkHead k (.buf b)).Layout (move lists b k) := by
  have hU := h.unlink hj hb
  have hn : ((c.unlink (.buf b)).linkHead k (.buf b)).nbuf = c.nbuf := by
    rw [linkHead_nbuf, unlink_nbuf]
  refine ⟨hU.linkHead (fun m hm => (h.nodup m hm).not_mem_erase) hk, fun m hm i hi => ?_,
    fun i hi => ?_⟩
  · rw [hn]
    unfold move at hi
    by_cases hmk : m = k
    · subst hmk
      rw [update_same, List.mem_cons] at hi
      rcases hi with rfl | hi
      · exact h.lt_nbuf j hj i hb
      · exact h.lt_nbuf m hm i (List.mem_of_mem_erase hi)
    · rw [update_noteq hmk] at hi
      exact h.lt_nbuf m hm i (List.mem_of_mem_erase hi)
  · by_cases hib : i = b
    · subst hib
      exact ⟨k, hk, by simp [move]⟩
    · obtain ⟨m, hm, him⟩ := h.cover i (hn ▸ hi)
      refine ⟨m, hm, ?_⟩
      unfold move
      by_cases hmk : m = k
      · subst hmk; simp [List.mem_erase_of_ne hib, him]
      · simp [update_noteq hmk, List.mem_erase_of_ne hib, him]

end Bcache

end BufCache
