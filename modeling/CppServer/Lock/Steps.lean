import CppServer.CoreMacro
import CppServer.Lock.Word

namespace CppServer

/-- The two fields of a `Lock`. -/
structure Lock where
  lockFlag : BitVec 32 := emptyFlag
  writeCount : BitVec 16 := 0
deriving DecidableEq, Repr

/-- The four member functions. The release build passes `name` on to nobody. -/
inductive Op
  | writeLock
  | writeUnlock
  | readLock
  | readUnlock
deriving DecidableEq, Repr

/-- Where a thread is in the code of a lock. A constructor stands before one
access to the lock or to the clock and carries the locals that live across it. -/
inductive Pc
  | idle
  | writeLockOwner
  | writeLockReenter
  | writeLockBegin
  | writeLockSpin (beginTick : BitVec 64) (spinCount : ℕ)
  | writeLockAcquired
  | writeLockTimeout (beginTick : BitVec 64)
  | writeUnlockCheck
  | writeUnlockCount
  | writeUnlockStore
  | readLockOwner
  | readLockReenter
  | readLockBegin
  | readLockLoad (beginTick : BitVec 64) (spinCount : ℕ)
  | readLockSpin (beginTick : BitVec 64) (spinCount : ℕ) (expected : BitVec 32)
  | readLockTimeout (beginTick : BitVec 64)
  | readUnlockSub
deriving DecidableEq, Repr

def Op.entry : Op → Pc
  | .writeLock => .writeLockOwner
  | .writeUnlock => .writeUnlockCheck
  | .readLock => .readLockOwner
  | .readUnlock => .readUnlockSub

/-- The call that a thread is in. -/
def Pc.op : Pc → Option Op
  | .idle => none
  | .writeLockOwner | .writeLockReenter | .writeLockBegin | .writeLockSpin .. | .writeLockAcquired
  | .writeLockTimeout _ => some .writeLock
  | .writeUnlockCheck | .writeUnlockCount | .writeUnlockStore => some .writeUnlock
  | .readLockOwner | .readLockReenter | .readLockBegin | .readLockLoad .. | .readLockSpin ..
  | .readLockTimeout _ => some .readLock
  | .readUnlockSub => some .readUnlock

namespace Lock

/-- One step of a thread inside the lock's code. `tick` is what
`GetTickCount64` returns where the step calls it. -/
def step (lThreadId : BitVec 32) (tick : BitVec 64) (lock : Lock) : Pc → Except Cause (Lock × Pc)
  | .idle => .ok (lock, .idle)
  -- WriteLock
  | .writeLockOwner =>
    if lThreadId = lockThreadId lock.lockFlag then .ok (lock, .writeLockReenter)
    else .ok (lock, .writeLockBegin)
  | .writeLockReenter => .ok ({ lock with writeCount := lock.writeCount + 1 }, .idle)
  | .writeLockBegin => .ok (lock, .writeLockSpin tick 0)
  | .writeLockSpin beginTick spinCount =>
    if lock.lockFlag = emptyFlag then
      .ok ({ lock with lockFlag := desired lThreadId }, .writeLockAcquired)
    else if spinCount + 1 < maxSpinCount then .ok (lock, .writeLockSpin beginTick (spinCount + 1))
    else .ok (lock, .writeLockTimeout beginTick)
  | .writeLockAcquired => .ok ({ lock with writeCount := lock.writeCount + 1 }, .idle)
  | .writeLockTimeout beginTick =>
    -- unsigned: a tick before `beginTick` counts as a long wait
    if acquireTimeoutTick ≤ tick - beginTick then .error .lockTimeout
    else .ok (lock, .writeLockSpin beginTick 0)
  -- WriteUnlock
  | .writeUnlockCheck =>
    if readCount lock.lockFlag ≠ 0 then .error .invalidUnlockOrder
    else .ok (lock, .writeUnlockCount)
  | .writeUnlockCount =>
    let lockCount := lock.writeCount - 1
    .ok ({ lock with writeCount := lockCount }, if lockCount = 0 then .writeUnlockStore else .idle)
  | .writeUnlockStore => .ok ({ lock with lockFlag := emptyFlag }, .idle)
  -- ReadLock
  | .readLockOwner =>
    if lThreadId = lockThreadId lock.lockFlag then .ok (lock, .readLockReenter)
    else .ok (lock, .readLockBegin)
  | .readLockReenter => .ok ({ lock with lockFlag := lock.lockFlag + 1 }, .idle)
  | .readLockBegin => .ok (lock, .readLockLoad tick 0)
  | .readLockLoad beginTick spinCount =>
    .ok (lock, .readLockSpin beginTick spinCount (readCount lock.lockFlag))
  | .readLockSpin beginTick spinCount expected =>
    if lock.lockFlag = expected then .ok ({ lock with lockFlag := expected + 1 }, .idle)
    else if spinCount + 1 < maxSpinCount then .ok (lock, .readLockLoad beginTick (spinCount + 1))
    else .ok (lock, .readLockTimeout beginTick)
  | .readLockTimeout beginTick =>
    if acquireTimeoutTick ≤ tick - beginTick then .error .lockTimeout
    else .ok (lock, .readLockLoad beginTick 0)
  -- ReadUnlock: the flag is already decremented when the test fails
  | .readUnlockSub =>
    if readCount lock.lockFlag = 0 then .error .multipleUnlock
    else .ok ({ lock with lockFlag := lock.lockFlag - 1 }, .idle)

end Lock

end CppServer
