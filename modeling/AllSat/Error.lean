namespace AllSat

inductive Error where
  | emptyClause
  | emptyGroup
  | duplicateLiteral (name : String)
  | emptyDnf
  | dnfTooLarge
  | unknownVariable (id : Nat)
  | oracleFailed (reason : String)
deriving DecidableEq

namespace Error

def message : Error → String
  | emptyClause => "empty clause"
  | emptyGroup => "exactly-one constraint over an empty group"
  | duplicateLiteral name =>
      "literal '" ++ name ++ "' appears more than once in an exactly-one group"
  | emptyDnf => "DNF formula with no terms"
  | dnfTooLarge => "DNF expansion does not fit in memory"
  | unknownVariable id => "oracle referenced unknown variable " ++ id.repr
  | oracleFailed reason => "oracle failed: " ++ reason

end Error

end AllSat
