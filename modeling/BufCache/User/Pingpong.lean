import Mathlib.Logic.Function.Basic

/-!
# `pingpong`

`user/pingpong.c` makes two pipes and forks. The parent writes `"ping"` into `p1` and reads
`p2`; the child reads `p1`, prints that it received the ping, and writes `"pong"` into `p2`; the
parent then prints that it received the pong. Both run at once, and every order in which their
system calls can interleave is a run of the program.

The kernel side is xv6's and not part of the sources. A process holds the ends of the pipes it
opened or inherited until it closes them or exits; `fork` copies them. `read` of a pipe waits
while the pipe is empty and some process holds its write end, then takes up to `n` bytes; with
no writer left it returns 0. `write` puts its bytes in the pipe (the 512-byte buffer never fills
here: at most five bytes go into each pipe). `printf` of `user/printf.c` writes one character
per `write` system call, so the two processes' lines could interleave character by character.

The statements of `main` are a list `mainCode` run by a program counter in each process, the
`if (pid == 0) ... else ...` as two jumps, and `step` runs one statement of either process:
every interleaving of the two is a sequence of such steps (`Reachable`).
-/

namespace BufCache.Pingpong

open Function

/-- The pipes `p1` and `p2` of `main`. -/
inductive Pipe where
  | p1
  | p2
  deriving DecidableEq, Repr

/-- A pipe end: `p[0]`, the read end, or `p[1]`, the write end. -/
structure End where
  pipe : Pipe
  write : Bool
  deriving DecidableEq, Repr

/-- The statements of `main` that act: its system calls and its two branches. -/
inductive Act where
  /-- `pipe(p)` -/
  | pipe (p : Pipe)
  /-- `pid = fork()` -/
  | fork
  /-- `if (pid == 0)`: on to the next statement where `pid` is 0, past the next `n` elsewhere -/
  | ifChild (n : Nat)
  /-- the end of the `if` branch: past the `n` statements of the `else` branch -/
  | skip (n : Nat)
  /-- `close(e)` -/
  | close (e : End)
  /-- `read(p[0], buf, n)` -/
  | read (p : Pipe) (n : Nat)
  /-- `write(p[1], src, n)` -/
  | write (p : Pipe) (src : List Char) (n : Nat)
  /-- `printf(fmt, getpid())` -/
  | printf (fmt : List Char)
  /-- `exit(0)` -/
  | exit
  deriving DecidableEq, Repr

/-- The bytes of a C string literal, its terminating NUL included. -/
def cstr (s : String) : List Char := s.toList ++ [Char.ofNat 0]

/-- The format of the child's `printf` (line 16). -/
def pingFmt : List Char := "%d: received ping\n".toList

/-- The format of the parent's `printf` (line 30). -/
def pongFmt : List Char := "%d: received pong\n".toList

/-- `main` (lines 4-33). -/
def mainCode : List Act :=
  [.pipe .p1, .pipe .p2, .fork, .ifChild 8,
    -- the child, lines 13-19
    .close ⟨.p1, true⟩, .read .p1 5, .close ⟨.p1, false⟩,
    .printf pingFmt, .close ⟨.p2, false⟩,
    .write .p2 (cstr "pong") 5, .close ⟨.p2, true⟩, .skip 7,
    -- the parent, lines 24-30
    .close ⟨.p1, false⟩, .write .p1 (cstr "ping") 5, .close ⟨.p1, true⟩,
    .close ⟨.p2, true⟩, .read .p2 5, .close ⟨.p2, false⟩,
    .printf pongFmt,
    .exit]

/-- `printf(fmt, d)` of `user/printf.c` for a format whose only conversion is `%d`, with `d`
not negative: `%d` prints `d` in decimal. -/
def printfD : List Char → Nat → List Char
  | '%' :: 'd' :: rest, d => Nat.toDigits 10 d ++ printfD rest d
  | c :: rest, d => c :: printfD rest d
  | [], _ => []

/-- A process running `main`. -/
structure Proc where
  /-- what `getpid()` returns -/
  pid : Nat
  /-- the local `pid`: what `fork` returned -/
  forked : Int
  pc : Nat
  /-- the characters of the `printf` at `pc` written so far -/
  col : Nat
  /-- the pipe ends it holds -/
  fds : End → Bool
  /-- what its `read` put in `child_rev` or `father_rev` -/
  buf : List Char

/-- The two processes, the bytes in each pipe, and what the console has printed. -/
structure State where
  parent : Proc
  child : Option Proc
  pipes : Pipe → List Char
  console : List Char

/-- Whether some process holds the write end of `p`. -/
def writers (s : State) (p : Pipe) : Bool :=
  s.parent.fds ⟨p, true⟩ || s.child.any (·.fds ⟨p, true⟩)

/-- On to the next statement. -/
def Proc.next (q : Proc) : Proc := { q with pc := q.pc + 1, col := 0 }

/-- The statement at `q.pc` run by `q` in `s`: the new `q`, and `s` with its pipes, console and
child updated. `fork` gives the child the pid `cpid`, or fails where `ok` is false. `none` where
`q` has exited or waits in `read`. -/
def run (ok : Bool) (cpid : Nat) (s : State) (q : Proc) : Option (Proc × State) :=
  match mainCode[q.pc]? with
  | none => none
  | some (.pipe p) =>
    some ({ q.next with fds := update (update q.fds ⟨p, false⟩ true) ⟨p, true⟩ true },
      { s with pipes := update s.pipes p [] })
  | some .fork =>
    if ok then
      some ({ q.next with forked := cpid },
        { s with child := some { q.next with pid := cpid, forked := 0 } })
    else some ({ q.next with forked := -1 }, s)
  | some (.ifChild n) => some ({ q with pc := if q.forked = 0 then q.pc + 1 else q.pc + 1 + n }, s)
  | some (.skip n) => some ({ q with pc := q.pc + 1 + n }, s)
  | some (.close e) => some ({ q.next with fds := update q.fds e false }, s)
  | some (.read p n) =>
    if q.fds ⟨p, false⟩ then
      if s.pipes p = [] ∧ writers s p then none
      else
        some ({ q.next with buf := (s.pipes p).take n },
          { s with pipes := update s.pipes p ((s.pipes p).drop n) })
    else some (q.next, s)
  | some (.write p src n) =>
    if q.fds ⟨p, true⟩ then
      some (q.next, { s with pipes := update s.pipes p (s.pipes p ++ src.take n) })
    else some (q.next, s)
  | some (.printf fmt) =>
    match (printfD fmt q.pid)[q.col]? with
    | some c => some ({ q with col := q.col + 1 }, { s with console := s.console ++ [c] })
    | none => some (q.next, s)
  | some .exit => some ({ q.next with fds := fun _ => false }, s)

/-- The two processes. -/
inductive Who where
  | parent
  | child
  deriving DecidableEq, Repr

/-- One step of process `w`: a system call, a branch, or one character of a `printf`. -/
def step (ok : Bool) (cpid : Nat) (s : State) : Who → Option State
  | .parent => (run ok cpid s s.parent).map fun r => { r.2 with parent := r.1 }
  | .child => s.child.bind fun c => (run ok cpid s c).map fun r => { r.2 with child := some r.1 }

/-- The shell starts `pingpong` as the process `ppid`, holding no pipe end. -/
def init (ppid : Nat) : State :=
  ⟨⟨ppid, 0, 0, 0, fun _ => false, []⟩, none, fun _ => [], []⟩

/-- The states some interleaving reaches in `n` steps. -/
inductive Reachable (ok : Bool) (ppid cpid : Nat) : Nat → State → Prop where
  | init : Reachable ok ppid cpid 0 (init ppid)
  | step {n : Nat} {s s' : State} (w : Who) : Reachable ok ppid cpid n s →
      step ok cpid s w = some s' → Reachable ok ppid cpid (n + 1) s'

end BufCache.Pingpong
