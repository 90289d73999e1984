import CppServer.Base.Words

namespace CppServer

/-- A `uint32` in the source; both comparisons promote it to the 64 bits of
the tick counter. -/
def acquireTimeoutTick : BitVec 64 := 10000

def maxSpinCount : ℕ := 5000

def writeThreadMask : BitVec 32 := 0xFFFF0000

def readCountMask : BitVec 32 := 0x0000FFFF

def emptyFlag : BitVec 32 := 0

/-- The owner test's view of the flag, `(flag & WRITE_THREAD_MASK) >> 16`. -/
def lockThreadId (flag : BitVec 32) : BitVec 32 := (flag &&& writeThreadMask) >>> 16

/-- The word `WriteLock` exchanges in, `(LThreadId << 16) & WRITE_THREAD_MASK`. -/
def desired (lThreadId : BitVec 32) : BitVec 32 := (lThreadId <<< 16) &&& writeThreadMask

/-- The reader field, `flag & READ_COUNT_MASK`. -/
def readCount (flag : BitVec 32) : BitVec 32 := flag &&& readCountMask

theorem lockThreadId_toNat (flag : BitVec 32) : (lockThreadId flag).toNat = flag.toNat / 65536 := by
  simpa [lockThreadId, writeThreadMask] using
    Base.Words.and_highMask_shiftRight 16 16 flag.isLt

theorem readCount_toNat (flag : BitVec 32) : (readCount flag).toNat = flag.toNat % 65536 := by
  simpa [readCount, readCountMask] using Nat.and_two_pow_sub_one_eq_mod flag.toNat 16

theorem desired_toNat (lThreadId : BitVec 32) :
    (desired lThreadId).toNat = lThreadId.toNat % 65536 * 65536 := by
  simpa [desired, writeThreadMask] using
    Base.Words.shiftLeft_mod_and_highMask 16 16 lThreadId.toNat

/-- The owner test compares 32-bit values, so it succeeds exactly when the
upper half of the flag is the whole thread id. -/
theorem eq_lockThreadId_iff (lThreadId flag : BitVec 32) :
    lThreadId = lockThreadId flag ↔ flag.toNat / 65536 = lThreadId.toNat := by
  rw [← BitVec.toNat_inj, lockThreadId_toNat]
  exact eq_comm

theorem readCount_eq_zero_iff (flag : BitVec 32) : readCount flag = 0 ↔ flag.toNat % 65536 = 0 := by
  rw [← BitVec.toNat_inj, readCount_toNat]
  rfl

theorem eq_emptyFlag_iff (flag : BitVec 32) : flag = emptyFlag ↔ flag.toNat = 0 := by
  rw [← BitVec.toNat_inj]
  rfl

end CppServer
