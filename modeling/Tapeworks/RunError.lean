/-! Why a machine cannot be set up, cannot be changed as asked, or cannot go on. -/

namespace Tapeworks

inductive RunError
  | noUniqueStart (found : Nat)
  | noMatchingRule (state : String) (symbol : Char)
  | tapeUnderflow
  | tapeOverflow (capacity : Nat)
  | unknownState (id : String)
  | stepLimitExceeded (steps : Nat)
  deriving DecidableEq, Repr

def RunError.message : RunError → String
  | noUniqueStart n => "expected exactly one start state, found " ++ toString n
  | noMatchingRule state c => "no rule in state " ++ state ++ " reads '" ++ String.singleton c ++ "'"
  | tapeUnderflow => "can't move left from the first cell, the head fell off the tape"
  | tapeOverflow n => "tape capacity of " ++ toString n ++ " cells exceeded"
  | unknownState id => "unknown state: " ++ id
  | stepLimitExceeded n => "no final state reached after " ++ toString n ++ " steps"

end Tapeworks
