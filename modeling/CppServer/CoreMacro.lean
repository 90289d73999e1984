namespace CppServer

/-- The causes given to `CRASH` by the modelled code. The macro writes through
a null pointer, so a crash ends the whole process. -/
inductive Cause
  | lockTimeout
  | invalidUnlockOrder
  | multipleUnlock
  | invalidUnlock
  | deadlockDetected
  | assertCrash
deriving DecidableEq, Repr

/-- The text passed to the macro. -/
def Cause.text : Cause → String
  | .lockTimeout => "Lock_Timeout"
  | .invalidUnlockOrder => "INVALID_UNLOCK_ORDER"
  | .multipleUnlock => "MULTIPLE UNLOCK"
  | .invalidUnlock => "INVALID_UNLOCK"
  | .deadlockDetected => "DEADLOCK_DETECTED"
  | .assertCrash => "ASSERT_CRASH"

/-- A crash's text identifies its cause. -/
theorem Cause.text_injective {c d : Cause} (htext : c.text = d.text) : c = d := by
  cases c <;> cases d <;> first | rfl | exact absurd htext (by decide)

end CppServer
