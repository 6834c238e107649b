import Mathlib.Algebra.Order.Ring.Rat

/-! Floating-point types by the operations that programs use of them: a program over an
arbitrary such type makes no assumption on rounding. -/
namespace ExecutionPlatform.Foundations

/-- One width of floating-point arithmetic. -/
class MachineFloat (F : Type) extends Add F, Sub F, Mul F, Div F, Neg F, NatCast F, IntCast F,
    LE F, LT F where
  half : F
  decLE : DecidableLE F
  decLT : DecidableLT F

attribute [reducible, instance] MachineFloat.decLE MachineFloat.decLT

/-- Exact arithmetic. -/
instance : MachineFloat ℚ where
  half := 1 / 2
  decLE := inferInstance
  decLT := inferInstance

end ExecutionPlatform.Foundations
