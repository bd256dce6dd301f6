import Mathlib.Logic.Function.Basic

/-!
# The state of the buffer cache

`bcache` in `kernel/bio.c` holds `NBUF` buffers and one list head per hash bucket. Every buffer
and every head carries the `prev` and `next` pointers of a circular doubly-linked list, one list
per bucket. A pointer is a `Node`: a head, a buffer, or null, the value static storage starts
with. The pool size `NBUF` comes from `param.h`, which is not part of the sources, so it is a
field of the state, fixed by `binit`.

A buffer keeps the fields of `struct buf` that the cache reads or writes. Its sleeplock is the
id of the thread that holds it.
-/

namespace BufCache

/-- Number of hash buckets (`#define NBUCKETS 13`). -/
def NBUCKETS : Nat := 13

/-- A pointer into `bcache`: `&bcache.head[k]`, `&bcache.buf[i]`, or null. -/
inductive Node where
  | head (k : Nat)
  | buf (i : Nat)
  | null
  deriving DecidableEq, Repr

/-- The fields of `struct buf` that the buffer cache uses. -/
structure Buf where
  valid : Bool
  lock : Option Nat
  dev : Nat
  blockno : Nat
  refcnt : Nat
  data : Nat → UInt8

/-- A buffer as static storage leaves it: every field zero, sleeplock free. -/
def Buf.zero : Buf := ⟨false, none, 0, 0, 0, fun _ => 0⟩

/-- The global `bcache`, without its spinlocks. -/
structure Bcache where
  nbuf : Nat
  buf : Nat → Buf
  next : Node → Node
  prev : Node → Node

namespace Bcache

/-- Overwrite `bcache.buf[i]`. -/
def setBuf (c : Bcache) (i : Nat) (b : Buf) : Bcache := { c with buf := Function.update c.buf i b }

/-- `x->next = y`. -/
def setNext (c : Bcache) (x y : Node) : Bcache := { c with next := Function.update c.next x y }

/-- `x->prev = y`. -/
def setPrev (c : Bcache) (x y : Node) : Bcache := { c with prev := Function.update c.prev x y }

@[simp] lemma setBuf_nbuf (c : Bcache) (i : Nat) (b : Buf) : (c.setBuf i b).nbuf = c.nbuf := rfl
@[simp] lemma setBuf_buf (c : Bcache) (i : Nat) (b : Buf) :
    (c.setBuf i b).buf = Function.update c.buf i b := rfl
@[simp] lemma setBuf_next (c : Bcache) (i : Nat) (b : Buf) : (c.setBuf i b).next = c.next := rfl
@[simp] lemma setBuf_prev (c : Bcache) (i : Nat) (b : Buf) : (c.setBuf i b).prev = c.prev := rfl
@[simp] lemma setBuf_setBuf (c : Bcache) (i : Nat) (b b' : Buf) :
    (c.setBuf i b).setBuf i b' = c.setBuf i b' := by
  simp [setBuf, Function.update_idem]
@[simp] lemma setNext_nbuf (c : Bcache) (x y : Node) : (c.setNext x y).nbuf = c.nbuf := rfl
@[simp] lemma setNext_buf (c : Bcache) (x y : Node) : (c.setNext x y).buf = c.buf := rfl
@[simp] lemma setNext_next (c : Bcache) (x y : Node) :
    (c.setNext x y).next = Function.update c.next x y := rfl
@[simp] lemma setNext_prev (c : Bcache) (x y : Node) : (c.setNext x y).prev = c.prev := rfl
@[simp] lemma setPrev_nbuf (c : Bcache) (x y : Node) : (c.setPrev x y).nbuf = c.nbuf := rfl
@[simp] lemma setPrev_buf (c : Bcache) (x y : Node) : (c.setPrev x y).buf = c.buf := rfl
@[simp] lemma setPrev_next (c : Bcache) (x y : Node) : (c.setPrev x y).next = c.next := rfl
@[simp] lemma setPrev_prev (c : Bcache) (x y : Node) :
    (c.setPrev x y).prev = Function.update c.prev x y := rfl

/-- Take `b` out of its list: `b->next->prev = b->prev; b->prev->next = b->next;`. -/
def unlink (c : Bcache) (b : Node) : Bcache :=
  let c₁ := c.setPrev (c.next b) (c.prev b)
  c₁.setNext (c₁.prev b) (c₁.next b)

/-- Put `b` first in bucket `k`: `b->next = head.next; b->prev = &head; head.next->prev = b;
head.next = b;`, as `binit`, the steal path of `bget` and `brelse` all write it. -/
def linkHead (c : Bcache) (k : Nat) (b : Node) : Bcache :=
  let c₁ := c.setNext b (c.next (.head k))
  let c₂ := c₁.setPrev b (.head k)
  let c₃ := c₂.setPrev (c₂.next (.head k)) b
  c₃.setNext (.head k) b

@[simp] lemma unlink_nbuf (c : Bcache) (b : Node) : (c.unlink b).nbuf = c.nbuf := rfl
@[simp] lemma unlink_buf (c : Bcache) (b : Node) : (c.unlink b).buf = c.buf := rfl
@[simp] lemma linkHead_nbuf (c : Bcache) (k : Nat) (b : Node) : (c.linkHead k b).nbuf = c.nbuf :=
  rfl
@[simp] lemma linkHead_buf (c : Bcache) (k : Nat) (b : Node) : (c.linkHead k b).buf = c.buf := rfl

end Bcache

end BufCache
