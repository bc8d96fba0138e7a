import Sluice.Decision.Occurrence
import Sluice.Flow.Render

/-!
# Faults of flow functions

What can be wrong with a flow function or with making one. None of this is
the fault of the program that is compiled.
-/

namespace Sluice.Flow

/-- A fault of a flow function, or of a typed function it is made from. -/
inductive Fault where
  | noBlocks
  | missingTerminator (block : Label)
  | misplacedTerminator (block : Label)
  | invalidSuccessor (block target : Label)
  | stalePredecessors (block : Label)
  | unknownRegister (register : Reg)
  | noReachableReturn
  | missingBlock (block : Label)
  | unknownLocal (id : Nat)
  | undeclaredLocal (id : Nat)
  | missingTree (matchId : Nat)
  | matchFailure
  | unknownOccurrence (matchId : Nat) (occurrence : Decision.Occurrence)
  | unresolvedType (ty : Ty)
  deriving DecidableEq, Repr

/-- The wording of a fault of the function with a given name. -/
def Fault.message (function : String) : Fault → String
  | noBlocks => "`" ++ function ++ "` has no blocks"
  | missingTerminator block =>
    "block " ++ labelText block ++ " in `" ++ function ++ "` does not end in a terminator"
  | misplacedTerminator block =>
    "block " ++ labelText block ++ " in `" ++ function
      ++ "` has a terminator before its last instruction"
  | invalidSuccessor block target =>
    "block " ++ labelText block ++ " in `" ++ function ++ "` branches to missing block "
      ++ labelText target
  | stalePredecessors block =>
    "predecessors of block " ++ labelText block ++ " in `" ++ function ++ "` are out of date"
  | unknownRegister register =>
    "register %" ++ toString register ++ " in `" ++ function ++ "` was never created"
  | noReachableReturn => "no return is reachable from the entry of `" ++ function ++ "`"
  | missingBlock block =>
    "control in `" ++ function ++ "` reaches missing block " ++ labelText block
  | unknownLocal id =>
    "local #" ++ toString id ++ " in `" ++ function ++ "` is used before it has a register"
  | undeclaredLocal id => "local #" ++ toString id ++ " in `" ++ function ++ "` does not exist"
  | missingTree matchId =>
    "match #" ++ toString matchId ++ " in `" ++ function ++ "` has no decision tree"
  | matchFailure =>
    "`" ++ function ++ "` contains a match failure which pattern checking should have rejected"
  | unknownOccurrence matchId occurrence =>
    "no type is known for `" ++ occurrence.text ++ "` of match #" ++ toString matchId ++ " in `"
      ++ function ++ "`"
  | unresolvedType ty =>
    "type `" ++ ty.text ++ "` of a value in `" ++ function ++ "` was never resolved"

end Sluice.Flow
