import Mathlib

/-!
# Pooled allocation

`PooledAllocator` on one device. The pools of all sizes are one list, the latest buffer first: the
back of the pool of a size is the first entry of that size. What the device answers to a request,
an address or an error, is part of the call. Its blocks that were not released are those in the pool
and those that were handed out.
-/
namespace TritonTvm.Runtime.PooledAllocator

open List

structure Buffer where
  data : Nat
  size : Nat
  deriving DecidableEq

structure State where
  usedMemory : Nat := 0
  memoryPool : List Buffer := []
  handedOut : List Buffer := []

/-- A whole number of pages; the sum is a `size_t`. -/
def roundUp (pageSize nbytes : Nat) : Nat := (nbytes + pageSize - 1) % 2 ^ 64 / pageSize * pageSize

def releaseAll (s : State) : State := { s with usedMemory := 0, memoryPool := [] }

/-- A block of the device goes to the caller. -/
def handOut (buf : Buffer) (s : State) : Option Buffer × State :=
  (buf, { s with
    usedMemory := (s.usedMemory + buf.size) % 2 ^ 64
    handedOut := buf :: s.handedOut })

/-- `first` and `second` are the answers of the device to the two attempts. -/
def alloc (pageSize nbytes : Nat) (first second : Option Nat) (s : State) : Option Buffer × State :=
  let size := roundUp pageSize nbytes
  match s.memoryPool.find? (·.size = size), first, second with
  | some ret, _, _ =>
    (ret, { s with memoryPool := s.memoryPool.erase ret, handedOut := ret :: s.handedOut })
  | none, some data, _ => handOut ⟨data, size⟩ s
  | none, none, some data => handOut ⟨data, size⟩ (releaseAll s)
  | none, none, none => (none, releaseAll s)

def free (buffer : Buffer) (s : State) : State :=
  { s with memoryPool := buffer :: s.memoryPool, handedOut := s.handedOut.erase buffer }

/-- The states after calls that release the pool only when nothing is handed out. -/
inductive Run (pageSize : Nat) : State → Prop
  | start : Run pageSize {}
  | alloc {s first} (nbytes : Nat) (second : Option Nat) : Run pageSize s →
    (first = none → s.handedOut = []) → Run pageSize (alloc pageSize nbytes first second s).2
  | free {s b} : Run pageSize s → b ∈ s.handedOut → Run pageSize (free b s)
  | clear {s} : Run pageSize s → s.handedOut = [] → Run pageSize (releaseAll s)

def total (s : State) : Nat := ((s.handedOut ++ s.memoryPool).map (·.size)).sum

variable {pageSize : Nat} {s : State} {b : Buffer}

/-- A buffer that moves between the pool and the callers stays in use. -/
theorem total_move {pool out : List Buffer} (moved : (out ++ pool).Perm (s.handedOut ++ s.memoryPool)) :
    total { s with memoryPool := pool, handedOut := out } = total s :=
  (moved.map _).sum_nat

theorem handOut_used (used : s.usedMemory = total s % 2 ^ 64) :
    (handOut b s).2.usedMemory = total (handOut b s).2 % 2 ^ 64 := by
  simp [handOut, used, total, Nat.add_comm]

theorem releaseAll_used (none : s.handedOut = []) :
    (releaseAll s).usedMemory = total (releaseAll s) % 2 ^ 64 := by
  simp [releaseAll, total, none]

/-- The memory in use is what the device gave and did not get back. -/
theorem usedMemory_eq (run : Run pageSize s) : s.usedMemory = total s % 2 ^ 64 := by
  induction run with
  | start => rfl
  | @alloc s first nbytes second _ settled used =>
    simp only [PooledAllocator.alloc]
    split
    next ret found =>
      have pooled := perm_cons_erase (mem_of_find?_eq_some found)
      rw [total_move (perm_middle.symm.trans (pooled.symm.append_left _)), used]
    next => exact handOut_used used
    next => exact handOut_used (releaseAll_used (settled rfl))
    next => exact releaseAll_used (settled rfl)
  | @free s b _ out used =>
    rw [PooledAllocator.free, total_move, used]
    exact perm_middle.trans ((perm_cons_erase out).symm.append_right _)
  | clear _ settled => exact releaseAll_used settled

theorem usedMemory_eq_pages : (alloc 4096 5000 (some 64) none {}).2.usedMemory = 8192 :=
  usedMemory_eq (.alloc 5000 none .start nofun)

/-- A release forgets what is handed out. -/
theorem usedMemory_forgets : let s := releaseAll (alloc 4096 5000 (some 64) none {}).2
    s.usedMemory = 0 ∧ total s = 8192 := by
  decide

end TritonTvm.Runtime.PooledAllocator
