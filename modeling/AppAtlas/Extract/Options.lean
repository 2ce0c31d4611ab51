import AppAtlas.Confidence

/-! # How certain findings are

The confidences that references get when something about them is only known in part.
-/

namespace AppAtlas.Extract

structure Options (κ : Type) where
  /-- What each substitution takes from the confidence of a SQL statement's references. -/
  dynamicSqlPenalty : κ
  /-- The least confidence substitutions can leave. -/
  minDynamicConfidence : κ
  reflectionConfidence : κ
  dynamicUrlConfidence : κ
  /-- Statements named in a text that is handed to a SQL session. -/
  statementCallConfidence : κ
  /-- Calls on a variable whose type is not known. -/
  unknownReceiverConfidence : κ
deriving DecidableEq

namespace Options

variable {κ : Type} [Confidence κ]

def standard : Options κ where
  dynamicSqlPenalty := 0.15
  minDynamicConfidence := 0.1
  reflectionConfidence := 0.5
  dynamicUrlConfidence := 0.6
  statementCallConfidence := 0.9
  unknownReceiverConfidence := 0.7

instance : Inhabited (Options κ) := ⟨standard⟩

def maxFragments : Nat := Nat.pow 2 32 - 1

/-- The confidence of the references of a statement with a number of substitutions. -/
def dynamicConfidence (o : Options κ) (fragments : Nat) : κ :=
  let penalty := o.dynamicSqlPenalty * Confidence.ofNat (min fragments maxFragments)
  Confidence.clamp (1.0 - penalty) o.minDynamicConfidence 1.0

end Options

end AppAtlas.Extract
