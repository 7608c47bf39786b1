import Mathlib.Data.List.Basic
import Mathlib.Data.Option.Basic

/-! A manager that runs one background worker at a time and keeps a side buffer for it.
The buffer may grow up to a limit, its capacity outlives the job, and a job can be given up
before its worker has ended. Nothing here knows what the workers do. -/
namespace ByteKV.BackgroundJob

inductive Phase
  | idle
  | active
  | aborting
  deriving DecidableEq, Repr

/-- `worker` is the name the manager has noted, `child` the process there is. A worker gets
the name `next`. -/
structure Job where
  phase : Phase
  worker : Option Nat
  child : Option Nat
  next : Nat
  buf : Option Nat
  len : Nat
  cap : Nat
  completed : Nat
  failed : Nat
  deriving DecidableEq, Repr

namespace Job

def refuse (j : Job) : Job := { j with failed := j.failed + 1 }

def start (j : Job) : Job :=
  { j with
    phase := .active
    worker := some j.next
    child := some j.next
    next := j.next + 1
    buf := some j.cap
    len := 0 }

def copy (j : Job) (n : Nat) : Job := { j with len := j.len + n }

def grow (j : Job) (cap : Nat) : Job := { j with buf := some cap, cap := cap }

def abort (j : Job) : Job := { j with phase := .aborting, buf := none, len := 0 }

def collect (j : Job) : Job :=
  { j with phase := .idle, worker := none, child := none, buf := none, len := 0 }

def fail (j : Job) : Job := { j.collect with failed := j.failed + 1 }

def complete (j : Job) : Job := { j.collect with completed := j.completed + 1 }

end Job

/-- What can happen, with the number of attempts to start a job. -/
inductive Move (maxCap : Nat) : (starts : Nat) → Job → Job → Prop
  | still {j : Job} : Move maxCap 0 j j
  | refuse {j : Job} (idle : j.phase = .idle) : Move maxCap 1 j j.refuse
  | start {j : Job} (idle : j.phase = .idle) : Move maxCap 1 j j.start
  | copy {j : Job} (n : Nat) (active : j.phase = .active) (fits : j.len + n ≤ j.cap) :
      Move maxCap 0 j (j.copy n)
  | grow {j : Job} (n cap : Nat) (active : j.phase = .active) (fits : j.len + n ≤ cap)
      (bounded : cap ≤ maxCap) : Move maxCap 0 j ((j.grow cap).copy n)
  | abort {j : Job} (active : j.phase = .active) : Move maxCap 0 j j.abort
  | fail {j : Job} (busy : j.phase ≠ .idle) : Move maxCap 0 j j.fail
  | complete {j : Job} (busy : j.phase ≠ .idle) : Move maxCap 0 j j.complete

structure Sound (maxCap : Nat) (j : Job) : Prop where
  worker : j.phase = .idle ↔ j.worker = none
  child : j.child = j.worker
  buf : j.buf = if j.phase = .active then some j.cap else none
  len : j.len ≤ j.cap
  outside : j.phase ≠ .active → j.len = 0
  cap : j.cap ≤ maxCap

theorem Move.sound {maxCap starts : Nat} {j j' : Job} (move : Move maxCap starts j j')
    (inv : Sound maxCap j) : Sound maxCap j' := by
  obtain ⟨worker, child, buf, len, outside, cap⟩ := inv
  cases move with
  | still => exact ⟨worker, child, buf, len, outside, cap⟩
  | refuse idle => exact ⟨worker, child, buf, len, outside, cap⟩
  | start idle => exact ⟨by simp [Job.start], rfl, rfl, Nat.zero_le _, fun _ => rfl, cap⟩
  | copy n active fits =>
    exact ⟨worker, child, buf, fits, fun rest => absurd active rest, cap⟩
  | grow n cap' active fits bounded =>
    refine ⟨worker, child, ?_, fits, fun rest => absurd active rest, bounded⟩
    exact (if_pos active).symm
  | abort active =>
    refine ⟨?_, child, rfl, Nat.zero_le _, fun _ => rfl, cap⟩
    have known : j.worker ≠ none := fun none => by simp [worker.mpr none] at active
    simp [Job.abort, known]
  | fail busy => exact ⟨by simp [Job.fail, Job.collect], rfl, rfl, Nat.zero_le _, fun _ => rfl, cap⟩
  | complete busy =>
    exact ⟨by simp [Job.complete, Job.collect], rfl, rfl, Nat.zero_le _, fun _ => rfl, cap⟩

/-! The history of a job: how many attempts there were, and which workers have been started
and not yet collected. -/

structure Ledger where
  starts : Nat
  alive : List Nat
  deriving DecidableEq, Repr

/-- Starting one worker over another would leave both on the list. -/
def Ledger.note (ledger : Ledger) (starts : Nat) (j j' : Job) : Ledger where
  starts := ledger.starts + starts
  alive :=
    let alive := match j.child, j'.child with
      | some i, none => ledger.alive.erase i
      | _, _ => ledger.alive
    if j'.next = j.next then alive else j.next :: alive

/-- Every attempt has been counted in the end, and the list is that of the one worker. -/
structure Balanced (j : Job) (ledger : Ledger) : Prop where
  starts : j.completed + j.failed + (if j.phase = .idle then 0 else 1) = ledger.starts
  alive : ledger.alive = j.child.toList

theorem Move.balanced {maxCap starts : Nat} {j j' : Job} {ledger : Ledger}
    (move : Move maxCap starts j j') (inv : Sound maxCap j) (balanced : Balanced j ledger) :
    Balanced j' (ledger.note starts j j') := by
  have starts := balanced.starts
  have alive := balanced.alive
  -- A move that changes neither the worker nor the phase.
  have kept {n : Nat} {j'' : Job} (child : j''.child = j.child) (next : j''.next = j.next)
      (same : j''.completed + j''.failed + (if j''.phase = .idle then 0 else 1) = ledger.starts + n) :
      Balanced j'' (ledger.note n j j'') := by
    refine ⟨same, ?_⟩
    simp only [Ledger.note, next, if_true, child]
    cases known : j.child <;> simp [alive, known]
  cases move with
  | still => exact kept rfl rfl starts
  | refuse idle =>
    refine kept rfl rfl ?_
    change j.completed + (j.failed + 1) + (if j.phase = .idle then 0 else 1) = ledger.starts + 1
    omega
  | copy n active fits => exact kept rfl rfl starts
  | grow n cap' active fits bounded => exact kept rfl rfl starts
  | abort active =>
    refine kept rfl rfl ?_
    rw [active] at starts
    exact starts
  | start idle =>
    have free : j.child = none := inv.child.trans (inv.worker.mp idle)
    rw [free] at alive
    rw [if_pos idle] at starts
    refine ⟨?_, ?_⟩
    · change j.completed + j.failed + 1 = ledger.starts + 1
      omega
    · simp [Ledger.note, Job.start, free, alive]
  | fail busy =>
    rw [if_neg busy] at starts
    refine ⟨?_, ?_⟩
    · change j.completed + (j.failed + 1) + 0 = ledger.starts + 0
      omega
    · cases child : j.child <;> simp [Ledger.note, Job.fail, Job.collect, child, alive]
  | complete busy =>
    rw [if_neg busy] at starts
    refine ⟨?_, ?_⟩
    · change j.completed + 1 + j.failed + 0 = ledger.starts + 0
      omega
    · cases child : j.child <;> simp [Ledger.note, Job.complete, Job.collect, child, alive]

theorem Balanced.alive_le {j : Job} {ledger : Ledger} (balanced : Balanced j ledger) :
    ledger.alive.length ≤ 1 := by
  rw [balanced.alive]
  cases j.child <;> simp

end ByteKV.BackgroundJob
