import ByteKV.HashTable
import ByteKV.Transition
import Mathlib.Logic.Function.Basic

/-! The hash table as a finite map: along any sequence of calls it answers as a map
from keys to values does, and keeps its shape whatever the keys and their hashes are. -/
namespace ByteKV.HashTable
open Transition

inductive HtCall (α : Type)
  | set (key : Bytes) (value : α)
  | del (key : Bytes)
  | exists_ (key : Bytes)
  | get (key : Bytes)
  deriving DecidableEq, Repr

/-- A status is false for `EXIT_FAILURE`; no value stands for a NULL pointer. -/
inductive HtAnswer (α : Type)
  | status (ok : Bool)
  | found (b : Bool)
  | value (v : Option α)
  deriving DecidableEq, Repr

variable {α : Type}

def htCall (ht : RawHt α) : HtCall α → RawHt α × HtAnswer α
  | .set key value => (htSet ht key value, .status true)
  | .del key => ((htDel ht key).1, .status (htDel ht key).2)
  | .exists_ key => (ht, .found (htExists ht key))
  | .get key => (ht, .value (htGet ht key))

def htRun (calls : List (HtCall α)) : RawHt α :=
  run (fun ht call => (htCall ht call).1) htCreate calls

def mapCall (m : Bytes → Option α) : HtCall α → (Bytes → Option α) × HtAnswer α
  | .set key value => (Function.update m key (some value), .status true)
  | .del key => (Function.update m key none, .status (m key).isSome)
  | .exists_ key => (m, .found (m key).isSome)
  | .get key => (m, .value (m key))

def mapRun (calls : List (HtCall α)) : Bytes → Option α :=
  run (fun m call => (mapCall m call).1) (fun _ => none) calls

structure Represents (ht : RawHt α) (m : Bytes → Option α) : Prop where
  wf : ht.WF
  get : ∀ key, htGet ht key = m key

theorem represents_create : Represents (htCreate : RawHt α) (fun _ => none) where
  wf := htCreate_wf
  get key := by rw [htGet, htFind, htCreate_chain]; rfl

theorem represents_simulates : Simulates htCall mapCall (Represents (α := α)) := by
  intro ht m call h
  cases call with
  | set key value =>
    refine ⟨rfl, htSet_wf h.wf key value, fun k => ?_⟩
    rw [htCall, htGet_htSet h.wf, h.get]
    exact (Function.update_apply m key (some value) k).symm
  | del key =>
    refine ⟨?_, htDel_wf h.wf key, fun k => ?_⟩
    · rw [htCall, mapCall, htDel_status, htExists_eq, h.get]
    · rw [htCall, htGet_htDel h.wf, h.get]
      exact (Function.update_apply m key none k).symm
  | exists_ key =>
    refine ⟨?_, h⟩
    rw [htCall, mapCall, htExists_eq, h.get]
  | get key =>
    refine ⟨?_, h⟩
    rw [htCall, mapCall, h.get]

/-- Every answer is the map's, and the table is in shape after every call. -/
theorem htRun_refines (calls : List (HtCall α)) :
    answers htCall htCreate calls = answers mapCall (fun _ => none) calls ∧
      (∀ key, htGet (htRun calls) key = mapRun calls key) ∧
      ((∃ k, (htRun calls).size = 2 ^ k) ∧
        (htRun calls).sizemask = (htRun calls).size - 1 ∧
        (htRun calls).table.length = (htRun calls).size) ∧
      (∀ idx, ∀ e ∈ (htRun calls).chain idx, htHash e.key &&& (htRun calls).sizemask = idx) ∧
      ((htRun calls).entries.map HtEntry.key).Nodup ∧
      (htRun calls).used = (htRun calls).entries.length ∧
      4 * (htRun calls).used ≤ 3 * (htRun calls).size := by
  obtain ⟨answer, wf, get⟩ := represents_simulates.run represents_create calls
  obtain ⟨k, pow⟩ := wf.pow
  exact ⟨answer, get, ⟨⟨k + 2, pow⟩, wf.mask, wf.length_eq⟩, wf.placed, wf.keys_nodup, wf.used_eq,
    wf.load⟩

/-- Keys that share a bucket, one of them with a byte above 0x7f, through a doubling. -/
example : answers htCall htCreate
    [.set [0xc5] 1, .set [97] 2, .set [101] 3, .set [105] 4, .del [101], .get [0xc5], .exists_ [101]] =
    [.status true, .status true, .status true, .status true, .status true, .value (some 1),
      .found false] := by
  decide +kernel

end ByteKV.HashTable
