import BufCache.User.Pingpong
import Mathlib.Data.List.Infix
import Mathlib.Tactic.IntervalCases

/-!
# Every interleaving of `pingpong`

A reachable state of `pingpong` is fixed by the two program counters and the two `printf`
columns: `canon ppid cpid a ca b cb` is the state where the parent is at statement `a` of
`mainCode`, `ca` characters into its `printf`, and the child, once forked, at `b`, `cb`
characters into its own. `Good` says which of these descriptions occur. A step of either process
moves the description as `parentMove` / `childMove` say (`step_parent_canon`,
`step_child_canon`), or cannot be taken: the parent waits in its `read` of `p2` until the child
has written (`a = 16`, `b < 10`), the child in its `read` of `p1` until the parent has
(`b = 5`, `a < 14`).

From it, whatever the interleaving: the console holds a prefix of the child's line followed by
the parent's, never a mix of the two (`console_ping_then_pong`); every run stops within
`22 + |ping line| + |pong line|` steps (`reachable_steps_le`); and a run stops only when both
processes have exited, after exactly that many steps, with both lines printed whole and both
five-byte strings received (`stuck_done`). When `fork` fails the parent runs alone: its `read`
of `p2` returns at once, as no process holds the write end, and it still prints that it
received the pong, with nothing read (`stuck_done_forkFail`).
-/

namespace BufCache.Pingpong

open Function

/-! ### The description of a reachable state -/

/-- The ends the parent holds at `a`: opened at 0 and 1, `p1[0]` closed at 12, `p1[1]` at 14,
`p2[1]` at 15, `p2[0]` at 17. -/
def parentFds (a : Nat) : End → Bool
  | ⟨.p1, false⟩ => 1 ≤ a ∧ a ≤ 12
  | ⟨.p1, true⟩ => 1 ≤ a ∧ a ≤ 14
  | ⟨.p2, false⟩ => 2 ≤ a ∧ a ≤ 17
  | ⟨.p2, true⟩ => 2 ≤ a ∧ a ≤ 15

/-- The ends the child holds at `b`: all four from `fork`, `p1[1]` closed at 4, `p1[0]` at 6,
`p2[0]` at 8, `p2[1]` at 10. -/
def childFds (b : Nat) : End → Bool
  | ⟨.p1, false⟩ => b ≤ 6
  | ⟨.p1, true⟩ => b ≤ 4
  | ⟨.p2, false⟩ => b ≤ 8
  | ⟨.p2, true⟩ => b ≤ 10

/-- The child's line. -/
def pingLine (cpid : Nat) : List Char := printfD pingFmt cpid

/-- The parent's line. -/
def pongLine (ppid : Nat) : List Char := printfD pongFmt ppid

/-- What a process at `pc`, column `col`, has printed of the `line` of its `printf` at `k`. -/
def printed (line : List Char) (k pc col : Nat) : List Char :=
  if k < pc then line else if pc = k then line.take col else []

/-- The bytes in the pipes: `"ping"` from the parent's `write` to the child's `read`, `"pong"`
from the child's `write` to the parent's `read`. -/
def pipesAt (a b : Nat) : Pipe → List Char
  | .p1 => if 14 ≤ a ∧ b ≤ 5 then cstr "ping" else []
  | .p2 => if 10 ≤ b ∧ a ≤ 16 then cstr "pong" else []

/-- The state where the parent is at `a`, column `ca`, and the child, once forked, at `b`,
column `cb`. -/
def canon (ppid cpid a ca b cb : Nat) : State where
  parent := ⟨ppid, if 3 ≤ a then cpid else 0, a, ca, parentFds a,
    if 17 ≤ a then cstr "pong" else []⟩
  child := if 3 ≤ a then
      some ⟨cpid, 0, b, cb, childFds b, if 6 ≤ b then cstr "ping" else []⟩
    else none
  pipes := pipesAt a b
  console := printed (pingLine cpid) 7 b cb ++ printed (pongLine ppid) 18 a ca

/-- Where a step of the parent takes its counter and column, for a line of `len` characters. -/
def parentMove (len a ca : Nat) : Nat × Nat :=
  if a = 3 then (12, 0) else if a = 18 ∧ ca < len then (18, ca + 1) else (a + 1, 0)

/-- Where a step of the child takes its counter and column, for a line of `len` characters. -/
def childMove (len b cb : Nat) : Nat × Nat :=
  if b = 11 then (19, 0) else if b = 7 ∧ cb < len then (7, cb + 1) else (b + 1, 0)

/-- The steps the parent has taken at `a`, column `ca`. -/
def parentSteps (len a ca : Nat) : Nat :=
  if a ≤ 3 then a else if a ≤ 18 then a - 8 + ca else a - 8 + len

/-- The steps the child has taken at `b`, column `cb`. -/
def childSteps (len b cb : Nat) : Nat :=
  if b ≤ 7 then b - 3 + cb else if b ≤ 11 then b - 3 + len else b - 10 + len

/-- The counters and columns the two processes reach together, for lines of `plen` and `clen`
characters. -/
structure Good (plen clen a ca b cb : Nat) : Prop where
  parent : a ≤ 3 ∨ 12 ≤ a ∧ a ≤ 20
  child : 3 ≤ b ∧ b ≤ 11 ∨ b = 19 ∨ b = 20
  unforked : a < 3 → b = 3 ∧ cb = 0
  pcol : (a ≠ 18 → ca = 0) ∧ ca ≤ plen
  ccol : (b ≠ 7 → cb = 0) ∧ cb ≤ clen
  /-- the child is past its `read` only once the parent has written -/
  ping : 6 ≤ b → 14 ≤ a
  /-- the parent is past its `read` only once the child has written -/
  pong : 17 ≤ a → 10 ≤ b

theorem fds_ext {f g : End → Bool} : f = g ↔ ∀ p w, f ⟨p, w⟩ = g ⟨p, w⟩ :=
  ⟨fun h _ _ => h ▸ rfl, fun h => funext fun ⟨p, w⟩ => h p w⟩

theorem pipes_ext {f g : Pipe → List Char} : f = g ↔ f .p1 = g .p1 ∧ f .p2 = g .p2 :=
  ⟨fun h => h ▸ ⟨rfl, rfl⟩, fun h => funext fun p => by cases p <;> simp [h]⟩

theorem Pipe.forall {P : Pipe → Prop} : (∀ p, P p) ↔ P .p1 ∧ P .p2 :=
  ⟨fun h => ⟨h _, h _⟩, fun h p => by cases p <;> simp [h]⟩

@[simp] theorem take_ping : (cstr "ping").take 5 = cstr "ping" := rfl
@[simp] theorem take_pong : (cstr "pong").take 5 = cstr "pong" := rfl
@[simp] theorem drop_ping : (cstr "ping").drop 5 = [] := rfl
@[simp] theorem drop_pong : (cstr "pong").drop 5 = [] := rfl

@[simp] theorem cstr_ne_nil (s : String) : cstr s ≠ [] := by simp [cstr]

theorem isPrefix_printed (line : List Char) (k pc col : Nat) : printed line k pc col <+: line := by
  unfold printed
  split_ifs
  exacts [List.prefix_refl _, List.take_prefix _ _, List.nil_prefix]

/-- The shell's `pingpong` process is the description with the parent at 0. -/
theorem init_eq_canon (ppid cpid : Nat) : init ppid = canon ppid cpid 0 0 3 0 := by
  simp [init, canon, fds_ext, Pipe.forall, parentFds, pipes_ext, pipesAt, printed]

/-! ### One step of each process -/

section Steps

variable {ppid cpid a ca b cb : Nat}

/-- The parent's `printf`: one more character, or on to `exit` once the line is out. -/
theorem step_parent_print (hc : ca ≤ (pongLine ppid).length) :
    step true cpid (canon ppid cpid 18 ca b cb) .parent =
      some (canon ppid cpid (parentMove (pongLine ppid).length 18 ca).1
        (parentMove (pongLine ppid).length 18 ca).2 b cb) := by
  have hline : printfD pongFmt ppid = pongLine ppid := rfl
  have hcode : mainCode[18]? = some (.printf pongFmt) := rfl
  simp only [step, run, canon, hcode, hline, parentMove]
  rcases Nat.lt_or_ge ca (pongLine ppid).length with h | h
  · simp only [List.getElem?_eq_getElem h, Option.map_some', printed, List.take_succ,
      List.append_assoc]
    simp [h]
  · have he := Nat.le_antisymm hc h
    simp [List.getElem?_eq_none h, Nat.not_lt.2 h, printed, Proc.next, fds_ext, Pipe.forall,
      parentFds, pipes_ext, pipesAt, he]

/-- A step of the parent from a good description: it waits at the end of `main` and in its
`read` of `p2` until the child has written, and otherwise moves as `parentMove` says. -/
theorem step_parent_canon (hcpid : 0 < cpid)
    (hg : Good (pongLine ppid).length (pingLine cpid).length a ca b cb) :
    step true cpid (canon ppid cpid a ca b cb) .parent =
      if a = 20 ∨ a = 16 ∧ b < 10 then none
      else some (canon ppid cpid (parentMove (pongLine ppid).length a ca).1
        (parentMove (pongLine ppid).length a ca).2 b cb) := by
  obtain ⟨ha, -, hu, ⟨hca, hcal⟩, -, hping, hpong⟩ := hg
  have hb5 : a < 14 → b ≤ 5 := fun h => by omega
  rcases ha with ha | ⟨ha, ha'⟩
  · interval_cases a <;> simp [step, run, canon, mainCode, parentMove, hca, Proc.next, printed,
      fds_ext, Pipe.forall, update_apply, parentFds, childFds, hu, hcpid.ne', pipes_ext, pipesAt,
      hb5, writers]
  · interval_cases a
    case «16» =>
      rcases Nat.lt_or_ge b 10 with hb | hb <;> simp [step, run, canon, mainCode, parentMove,
        Proc.next, printed, fds_ext, Pipe.forall, update_apply, parentFds, childFds, pipes_ext,
        pipesAt, writers, hb, hb.le]
    case «18» => simpa using step_parent_print hcal
    all_goals simp [step, run, canon, mainCode, parentMove, hca, Proc.next, printed,
      fds_ext, Pipe.forall, update_apply, parentFds, childFds, pipes_ext, pipesAt, hb5, writers,
      hpong]

/-- The child's `printf`: one more character, or on once the line is out. The parent is then
before its own `printf`, so the character goes right after the child's earlier ones. -/
theorem step_child_print (ha : 3 ≤ a) (ha' : a < 18) (hc : cb ≤ (pingLine cpid).length) :
    step true cpid (canon ppid cpid a ca 7 cb) .child =
      some (canon ppid cpid a ca (childMove (pingLine cpid).length 7 cb).1
        (childMove (pingLine cpid).length 7 cb).2) := by
  have hline : printfD pingFmt cpid = pingLine cpid := rfl
  have hcode : mainCode[7]? = some (.printf pingFmt) := rfl
  have hp : printed (pongLine ppid) 18 a ca = [] := by
    rw [printed, if_neg (by omega), if_neg (by omega)]
  simp only [step, canon, if_pos ha, Option.some_bind, run, hcode, hline, childMove, hp,
    List.append_nil]
  rcases Nat.lt_or_ge cb (pingLine cpid).length with h | h
  · simp only [List.getElem?_eq_getElem h, Option.map_some', printed, List.take_succ]
    simp [h]
  · have he := Nat.le_antisymm hc h
    simp [List.getElem?_eq_none h, Nat.not_lt.2 h, printed, Proc.next, fds_ext, Pipe.forall,
      childFds, pipes_ext, pipesAt, he]

/-- A step of the child from a good description: there is none before `fork`, it waits at the
end of `main` and in its `read` of `p1` until the parent has written, and otherwise moves as
`childMove` says. -/
theorem step_child_canon (hg : Good (pongLine ppid).length (pingLine cpid).length a ca b cb) :
    step true cpid (canon ppid cpid a ca b cb) .child =
      if a < 3 ∨ b = 20 ∨ b = 5 ∧ a < 14 then none
      else some (canon ppid cpid a ca (childMove (pingLine cpid).length b cb).1
        (childMove (pingLine cpid).length b cb).2) := by
  obtain ⟨-, hb, -, -, ⟨hcb, hcbl⟩, hping, hpong⟩ := hg
  rcases Nat.lt_or_ge a 3 with ha | ha
  · simp [step, canon, ha]
  have hb7 : b = 7 → a < 18 := fun h => by omega
  have ha0 : a ≠ 0 := by omega
  have ha16 : b < 10 → a ≤ 16 := fun h => by omega
  rcases hb with ⟨hb, hb'⟩ | rfl | rfl
  · interval_cases b
    case «5» =>
      rcases Nat.lt_or_ge a 14 with h | h <;> simp [step, run, canon, mainCode, childMove,
        Proc.next, printed, fds_ext, Pipe.forall, update_apply, parentFds, childFds, pipes_ext,
        pipesAt, writers, h, h.le, ha, Nat.not_lt.2 ha, ha0]
    case «7» => simpa [Nat.not_lt.2 ha] using step_child_print ha (hb7 rfl) hcbl
    all_goals simp [step, run, canon, mainCode, childMove, hcb, Proc.next, printed, fds_ext,
      Pipe.forall, update_apply, parentFds, childFds, pipes_ext, pipesAt, writers, ha,
      Nat.not_lt.2 ha, hping, ha16]
  all_goals simp [step, run, canon, mainCode, childMove, hcb, Proc.next, printed, fds_ext,
    Pipe.forall, update_apply, parentFds, childFds, pipes_ext, pipesAt, writers, ha,
    Nat.not_lt.2 ha, hping]

end Steps

/-! ### The moves keep the description good -/

section Moves

variable {plen clen a ca b cb : Nat}

/-- A step of the parent keeps the description good, and the parent has taken one step more. -/
theorem Good.parent_step (hg : Good plen clen a ca b cb) (h : ¬(a = 20 ∨ a = 16 ∧ b < 10)) :
    Good plen clen (parentMove plen a ca).1 (parentMove plen a ca).2 b cb ∧
      parentSteps plen (parentMove plen a ca).1 (parentMove plen a ca).2 =
        parentSteps plen a ca + 1 := by
  obtain ⟨h1, -, h3, ⟨h4, h5⟩, -, h7, h8⟩ := id hg
  unfold parentMove
  split_ifs <;>
    refine ⟨⟨by omega, hg.child, by omega, ⟨by omega, by omega⟩, hg.ccol, by omega, by omega⟩,
      ?_⟩ <;>
    simp only [parentSteps] <;> split_ifs <;> omega

/-- A step of the child keeps the description good, and the child has taken one step more. -/
theorem Good.child_step (hg : Good plen clen a ca b cb)
    (h : ¬(a < 3 ∨ b = 20 ∨ b = 5 ∧ a < 14)) :
    Good plen clen a ca (childMove clen b cb).1 (childMove clen b cb).2 ∧
      childSteps clen (childMove clen b cb).1 (childMove clen b cb).2 =
        childSteps clen b cb + 1 := by
  obtain ⟨-, h2, h3, -, ⟨h5, h6⟩, h7, h8⟩ := id hg
  unfold childMove
  split_ifs <;>
    refine ⟨⟨hg.parent, by omega, by omega, hg.pcol, ⟨by omega, by omega⟩, by omega, by omega⟩,
      ?_⟩ <;>
    simp only [childSteps] <;> split_ifs <;> omega

theorem Good.steps_le (hg : Good plen clen a ca b cb) :
    parentSteps plen a ca ≤ 12 + plen ∧ childSteps clen b cb ≤ 10 + clen := by
  obtain ⟨h1, h2, -, ⟨h4, h5⟩, ⟨h6, h7⟩, -, -⟩ := hg
  simp only [parentSteps, childSteps]
  split_ifs <;> omega

end Moves

/-! ### Every interleaving -/

section Runs

variable {ppid cpid n : Nat} {s : State}

/-- Every state an interleaving reaches has a good description, whose step counts add up to the
steps taken. -/
theorem reachable_canon (hcpid : 0 < cpid) (hs : Reachable true ppid cpid n s) :
    ∃ a ca b cb, Good (pongLine ppid).length (pingLine cpid).length a ca b cb ∧
      n = parentSteps (pongLine ppid).length a ca + childSteps (pingLine cpid).length b cb ∧
      s = canon ppid cpid a ca b cb := by
  induction hs with
  | init =>
    exact ⟨0, 0, 3, 0, ⟨by omega, by omega, by omega, by omega, by omega, by omega, by omega⟩,
      by simp [parentSteps, childSteps], init_eq_canon ppid cpid⟩
  | step w _ hstep ih =>
    obtain ⟨a, ca, b, cb, hg, rfl, rfl⟩ := ih
    cases w with
    | parent =>
      rw [step_parent_canon hcpid hg, Option.ite_none_left_eq_some, Option.some_inj] at hstep
      obtain ⟨h, rfl⟩ := hstep
      obtain ⟨hg', hn⟩ := hg.parent_step h
      exact ⟨_, _, _, _, hg', by omega, rfl⟩
    | child =>
      rw [step_child_canon hg, Option.ite_none_left_eq_some, Option.some_inj] at hstep
      obtain ⟨h, rfl⟩ := hstep
      obtain ⟨hg', hn⟩ := hg.child_step h
      exact ⟨_, _, _, _, hg', by omega, rfl⟩

/-- Whatever the interleaving, the console holds a prefix of the child's line followed by the
parent's: the characters of the two lines never mix, and the child's line comes first. -/
theorem console_ping_then_pong (hcpid : 0 < cpid) (hs : Reachable true ppid cpid n s) :
    s.console <+: pingLine cpid ++ pongLine ppid := by
  obtain ⟨a, ca, b, cb, hg, -, rfl⟩ := reachable_canon hcpid hs
  rcases Nat.lt_or_ge a 18 with ha | ha
  · have hp : printed (pongLine ppid) 18 a ca = [] := by
      rw [printed, if_neg (by omega), if_neg (by omega)]
    simp only [canon, hp, List.append_nil]
    exact (isPrefix_printed _ _ _ _).trans (List.prefix_append _ _)
  · have hc : printed (pingLine cpid) 7 b cb = pingLine cpid := if_pos (by have := hg.pong; omega)
    simp only [canon, hc]
    exact (List.prefix_append_right_inj _).2 (isPrefix_printed _ _ _ _)

/-- Every interleaving stops: no run takes more than `22 + |ping line| + |pong line|` steps. -/
theorem reachable_steps_le (hcpid : 0 < cpid) (hs : Reachable true ppid cpid n s) :
    n ≤ 22 + (pingLine cpid).length + (pongLine ppid).length := by
  obtain ⟨a, ca, b, cb, hg, rfl, -⟩ := reachable_canon hcpid hs
  have := hg.steps_le
  omega

/-- The only state no step leaves is the one where both processes have exited, reached after
`22 + |ping line| + |pong line|` steps. -/
theorem stuck_canon (hcpid : 0 < cpid) (hs : Reachable true ppid cpid n s)
    (hstuck : ∀ w, step true cpid s w = none) :
    n = 22 + (pingLine cpid).length + (pongLine ppid).length ∧ s = canon ppid cpid 20 0 20 0 := by
  obtain ⟨a, ca, b, cb, hg, rfl, rfl⟩ := reachable_canon hcpid hs
  have hp := hstuck .parent
  have hc := hstuck .child
  rw [step_parent_canon hcpid hg] at hp
  rw [step_child_canon hg] at hc
  simp only [ite_eq_left_iff, reduceCtorEq, imp_false, not_not] at hp hc
  obtain ⟨h1, h2, -, ⟨h4, -⟩, ⟨h6, -⟩, -, h9⟩ := hg
  obtain ⟨rfl, rfl, rfl, rfl⟩ : a = 20 ∧ b = 20 ∧ ca = 0 ∧ cb = 0 := by omega
  simp [parentSteps, childSteps]
  omega

/-- A run stops only when both processes have exited: after exactly
`22 + |ping line| + |pong line|` steps, with both lines whole on the console, the child's first,
no byte left in a pipe, the child holding `"ping"` and the parent `"pong"`. -/
theorem stuck_done (hcpid : 0 < cpid) (hs : Reachable true ppid cpid n s)
    (hstuck : ∀ w, step true cpid s w = none) :
    n = 22 + (pingLine cpid).length + (pongLine ppid).length ∧
      s.console = pingLine cpid ++ pongLine ppid ∧ (∀ p, s.pipes p = []) ∧
      s.child.map Proc.buf = some (cstr "ping") ∧ s.parent.buf = cstr "pong" := by
  obtain ⟨hn, rfl⟩ := stuck_canon hcpid hs hstuck
  refine ⟨hn, ?_, ?_, ?_, ?_⟩ <;> simp [canon, printed, Pipe.forall, pipesAt]

/-- From a reachable state, when runs are bounded, some interleaving goes on until no step is
left. -/
theorem exists_stuck_of_bounded {ok : Bool} {N : Nat}
    (hN : ∀ n s, Reachable ok ppid cpid n s → n ≤ N) :
    ∀ k n s, N - n = k → Reachable ok ppid cpid n s →
      ∃ m t, Reachable ok ppid cpid m t ∧ ∀ w, step ok cpid t w = none := by
  intro k
  induction k using Nat.strong_induction_on with
  | _ k ih =>
    intro n s hk hs
    by_cases hst : ∀ w, step ok cpid s w = none
    · exact ⟨n, s, hs, hst⟩
    · push_neg at hst
      obtain ⟨w, hw⟩ := hst
      obtain ⟨s', hs'⟩ := Option.ne_none_iff_exists'.1 hw
      have hr := hs.step w hs'
      exact ih _ (by have := hN _ _ hr; omega) _ _ rfl hr

/-- Some interleaving runs `pingpong` to its end. -/
theorem reachable_done (hcpid : 0 < cpid) :
    Reachable true ppid cpid (22 + (pingLine cpid).length + (pongLine ppid).length)
      (canon ppid cpid 20 0 20 0) := by
  have hN : ∀ n s, Reachable true ppid cpid n s →
      n ≤ 22 + (pingLine cpid).length + (pongLine ppid).length := fun n s hs => by
    obtain ⟨a, ca, b, cb, hg, rfl, -⟩ := reachable_canon hcpid hs
    have := hg.steps_le
    omega
  obtain ⟨m, t, ht, hst⟩ := exists_stuck_of_bounded hN _ 0 _ rfl .init
  obtain ⟨rfl, rfl⟩ := stuck_canon hcpid ht hst
  exact ht

/-- Neither process steps once both have exited. -/
theorem canon_done_stuck (hcpid : 0 < cpid) :
    ∀ w, step true cpid (canon ppid cpid 20 0 20 0) w = none := by
  have hg : Good (pongLine ppid).length (pingLine cpid).length 20 0 20 0 :=
    ⟨by omega, by omega, by omega, by omega, by omega, by omega, by omega⟩
  intro w
  cases w
  · simp [step_parent_canon hcpid hg]
  · simp [step_child_canon hg]

theorem console_ping_then_pong_done :
    Reachable true 3 4 (22 + (pingLine 4).length + (pongLine 3).length) (canon 3 4 20 0 20 0) ∧
    (canon 3 4 20 0 20 0).console <+: pingLine 4 ++ pongLine 3 :=
  ⟨reachable_done (by decide), console_ping_then_pong (by decide) (reachable_done (by decide))⟩

theorem reachable_steps_le_done :
    Reachable true 3 4 (22 + (pingLine 4).length + (pongLine 3).length) (canon 3 4 20 0 20 0) ∧
    22 + (pingLine 4).length + (pongLine 3).length ≤
      22 + (pingLine 4).length + (pongLine 3).length :=
  ⟨reachable_done (by decide), reachable_steps_le (by decide) (reachable_done (by decide))⟩

theorem stuck_done_four :
    Reachable true 3 4 (22 + (pingLine 4).length + (pongLine 3).length) (canon 3 4 20 0 20 0) ∧
      (∀ w, step true 4 (canon 3 4 20 0 20 0) w = none) ∧
    (22 + (pingLine 4).length + (pongLine 3).length =
        22 + (pingLine 4).length + (pongLine 3).length ∧
      (canon 3 4 20 0 20 0).console = pingLine 4 ++ pongLine 3 ∧
      (∀ p, (canon 3 4 20 0 20 0).pipes p = []) ∧
      (canon 3 4 20 0 20 0).child.map Proc.buf = some (cstr "ping") ∧
      (canon 3 4 20 0 20 0).parent.buf = cstr "pong") :=
  ⟨reachable_done (by decide), canon_done_stuck (by decide),
    stuck_done (by decide) (reachable_done (by decide)) (canon_done_stuck (by decide))⟩

end Runs

/-! ### When `fork` fails -/

/-- The bytes in the pipes when the parent runs alone: its `"ping"` stays in `p1`. -/
def pipesF (a : Nat) : Pipe → List Char
  | .p1 => if 14 ≤ a then cstr "ping" else []
  | .p2 => []

/-- The state where `fork` has failed, or not run yet, and the parent is at `a`, column `ca`. -/
def canonF (ppid a ca : Nat) : State where
  parent := ⟨ppid, if 3 ≤ a then -1 else 0, a, ca, parentFds a, []⟩
  child := none
  pipes := pipesF a
  console := printed (pongLine ppid) 18 a ca

/-- The counters and columns the parent reaches alone, for a line of `plen` characters. -/
structure GoodF (plen a ca : Nat) : Prop where
  parent : a ≤ 3 ∨ 12 ≤ a ∧ a ≤ 20
  pcol : (a ≠ 18 → ca = 0) ∧ ca ≤ plen

section ForkFail

variable {ppid cpid plen a ca n : Nat} {s : State}

/-- The parent's `printf` when it runs alone. -/
theorem step_parent_printF (hc : ca ≤ (pongLine ppid).length) :
    step false cpid (canonF ppid 18 ca) .parent =
      some (canonF ppid (parentMove (pongLine ppid).length 18 ca).1
        (parentMove (pongLine ppid).length 18 ca).2) := by
  have hline : printfD pongFmt ppid = pongLine ppid := rfl
  have hcode : mainCode[18]? = some (.printf pongFmt) := rfl
  simp only [step, run, canonF, hcode, hline, parentMove]
  rcases Nat.lt_or_ge ca (pongLine ppid).length with h | h
  · simp only [List.getElem?_eq_getElem h, Option.map_some', printed, List.take_succ]
    simp [h]
  · have he := Nat.le_antisymm hc h
    simp [List.getElem?_eq_none h, Nat.not_lt.2 h, printed, Proc.next, fds_ext, Pipe.forall,
      parentFds, pipes_ext, pipesF, he]

/-- A step of the parent alone: past the failed `fork` into the parent's branch, through a
`read` of `p2` that no writer holds up, and on until the end of `main`. -/
theorem step_parent_canonF (hg : GoodF (pongLine ppid).length a ca) :
    step false cpid (canonF ppid a ca) .parent =
      if a = 20 then none
      else some (canonF ppid (parentMove (pongLine ppid).length a ca).1
        (parentMove (pongLine ppid).length a ca).2) := by
  obtain ⟨ha, hca, hcal⟩ := hg
  rcases ha with ha | ⟨ha, ha'⟩
  · interval_cases a <;> simp [step, run, canonF, mainCode, parentMove, hca, Proc.next, printed,
      fds_ext, Pipe.forall, update_apply, parentFds, pipes_ext, pipesF]
  · interval_cases a
    case «18» => simpa using step_parent_printF hcal
    all_goals simp [step, run, canonF, mainCode, parentMove, hca, Proc.next, printed, fds_ext,
      Pipe.forall, update_apply, parentFds, pipes_ext, pipesF, writers]

/-- A step of the parent alone keeps its description good and counts one more step. -/
theorem GoodF.step (hg : GoodF plen a ca) (h : a ≠ 20) :
    GoodF plen (parentMove plen a ca).1 (parentMove plen a ca).2 ∧
      parentSteps plen (parentMove plen a ca).1 (parentMove plen a ca).2 =
        parentSteps plen a ca + 1 := by
  obtain ⟨h1, h2, h3⟩ := hg
  unfold parentMove
  split_ifs <;> refine ⟨⟨by omega, by omega, by omega⟩, ?_⟩ <;>
    simp only [parentSteps] <;> split_ifs <;> omega

/-- When `fork` fails, every reachable state is the parent's alone, after as many steps as it
has taken. -/
theorem reachable_canonF (hs : Reachable false ppid cpid n s) :
    ∃ a ca, GoodF (pongLine ppid).length a ca ∧ n = parentSteps (pongLine ppid).length a ca ∧
      s = canonF ppid a ca := by
  induction hs with
  | init =>
    refine ⟨0, 0, ⟨by omega, by omega, by omega⟩, rfl, ?_⟩
    simp [init, canonF, fds_ext, Pipe.forall, parentFds, pipes_ext, pipesF, printed]
  | step w _ hstep ih =>
    obtain ⟨a, ca, hg, rfl, rfl⟩ := ih
    cases w with
    | parent =>
      rw [step_parent_canonF hg, Option.ite_none_left_eq_some, Option.some_inj] at hstep
      obtain ⟨h, rfl⟩ := hstep
      obtain ⟨hg', hn⟩ := hg.step h
      exact ⟨_, _, hg', hn.symm, rfl⟩
    | child => simp [step, canonF] at hstep

/-- When `fork` fails, the parent runs alone to the end of `main`, in `12 + |pong line|` steps:
its `read` of `p2` returns with nothing, as it closed the only write end itself, yet it prints
the whole line saying it received the pong; its `"ping"` is left in `p1`. -/
theorem stuck_done_forkFail (hs : Reachable false ppid cpid n s)
    (hstuck : ∀ w, step false cpid s w = none) :
    n = 12 + (pongLine ppid).length ∧ s.console = pongLine ppid ∧ s.parent.buf = [] ∧
      s.pipes .p1 = cstr "ping" ∧ s.pipes .p2 = [] ∧ s.child = none := by
  obtain ⟨a, ca, hg, rfl, rfl⟩ := reachable_canonF hs
  have hp := hstuck .parent
  rw [step_parent_canonF hg] at hp
  simp only [ite_eq_left_iff, reduceCtorEq, imp_false, not_not] at hp
  obtain ⟨-, ⟨h2, -⟩⟩ := hg
  subst hp
  obtain rfl : ca = 0 := h2 (by omega)
  simp [parentSteps, canonF, printed, pipesF]

/-- When `fork` fails, the run of the parent alone reaches the end of `main`. -/
theorem reachable_doneF :
    Reachable false ppid cpid (12 + (pongLine ppid).length) (canonF ppid 20 0) := by
  have hN : ∀ n s, Reachable false ppid cpid n s → n ≤ 12 + (pongLine ppid).length :=
    fun n s hs => by
      obtain ⟨a, ca, ⟨h1, h2, h3⟩, rfl, -⟩ := reachable_canonF hs
      simp only [parentSteps]
      split_ifs <;> omega
  obtain ⟨m, t, ht, hst⟩ := exists_stuck_of_bounded hN _ 0 _ rfl .init
  obtain ⟨a, ca, ⟨h1, h2, h3⟩, rfl, rfl⟩ := reachable_canonF ht
  have hp := hst .parent
  rw [step_parent_canonF ⟨h1, h2, h3⟩] at hp
  simp only [ite_eq_left_iff, reduceCtorEq, imp_false, not_not] at hp
  subst hp
  obtain rfl : ca = 0 := h2 (by omega)
  exact ht

/-- Nothing steps once the parent alone has exited. -/
theorem canonF_done_stuck : ∀ w, step false cpid (canonF ppid 20 0) w = none
  | .parent => by simp [step_parent_canonF (⟨by omega, by omega, by omega⟩ : GoodF _ 20 0)]
  | .child => rfl

theorem stuck_done_forkFail_three :
    Reachable false 3 4 (12 + (pongLine 3).length) (canonF 3 20 0) ∧
      (∀ w, step false 4 (canonF 3 20 0) w = none) ∧
      (12 + (pongLine 3).length = 12 + (pongLine 3).length ∧
        (canonF 3 20 0).console = pongLine 3 ∧ (canonF 3 20 0).parent.buf = [] ∧
        (canonF 3 20 0).pipes .p1 = cstr "ping" ∧ (canonF 3 20 0).pipes .p2 = [] ∧
        (canonF 3 20 0).child = none) :=
  ⟨reachable_doneF, canonF_done_stuck,
    stuck_done_forkFail (@reachable_doneF 3 4) (@canonF_done_stuck 3 4)⟩

end ForkFail

end BufCache.Pingpong
