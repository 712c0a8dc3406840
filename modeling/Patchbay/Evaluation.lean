import Patchbay.Definition
import Patchbay.Generation.Provider

/-!
# Carrying out one computation

A computation on its own, without an engine and with the gate open.
-/

namespace Patchbay

/-- The result of a computation whose jobs a provider carries out. -/
def Computation.run {m : Type → Type} [Monad m] (p : Generation.Provider m) :
    Computation → m (Except Failure Outputs)
  | .done result => pure result
  | .awaitPermit next => next.run p
  | .generate request next => do
    let outcome ← p.generate request
    (next outcome).run p

end Patchbay
