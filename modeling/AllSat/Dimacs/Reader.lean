import AllSat.Dimacs.Signed
import AllSat.Formula
import AllSat.Text.Blank
import AllSat.Text.Decimal
import AllSat.Text.Source

namespace AllSat.Dimacs

open Text (ReadError Source)

inductive Malformed where
  | missingHeader
  | missingCnf
  | invalidVariableCount
  | invalidClauseCount
  | invalidLiteral (token : String)
  | emptyClause
deriving DecidableEq

def Malformed.message : Malformed → String
  | missingHeader => "missing 'p' line before clauses"
  | missingCnf => "missing 'cnf'"
  | invalidVariableCount => "invalid num_variables"
  | invalidClauseCount => "invalid num_clauses"
  | invalidLiteral token => "invalid literal '" ++ token ++ "'"
  | emptyClause => "empty clause"

inductive ParseError where
  | read (cause : ReadError)
  | format (cause : Malformed)
deriving DecidableEq

def ParseError.message : ParseError → String
  | read cause => "i/o error: " ++ cause.message
  | format cause => "malformed DIMACS: " ++ cause.message

inductive Line where
  | skipped
  | header (fields : List String)
  | clause (tokens : List String)
deriving DecidableEq

def Line.ofTokens : List String → Line
  | [] => skipped
  | token :: tokens =>
    if token = "c" then skipped
    else if token = "p" then header tokens
    else clause (token :: tokens)

def declaredCount (fields : List String) : Except Malformed Nat :=
  if fields[0]? ≠ some "cnf" then .error .missingCnf
  else if (fields[1]?.bind Text.unsigned?).isNone then .error .invalidVariableCount
  else
    match fields[2]?.bind Text.unsigned? with
    | none => .error .invalidClauseCount
    | some n => .ok n

def literals : List String → Except Malformed (Disjunction Nat)
  | [] => .ok []
  | token :: tokens =>
    match Text.signed? token with
    | none => .error (.invalidLiteral token)
    | some k =>
      match Literal.ofSigned? k with
      | none => .ok []
      | some l => (literals tokens).map (l :: ·)

def clause (tokens : List String) : Except Malformed (Disjunction Nat) :=
  match literals tokens with
  | .error cause => .error cause
  | .ok [] => .error .emptyClause
  | .ok c => .ok c

/-- Reads clauses until there are as many as the latest header declares. The count is compared only
after a clause has been read, so a header that declares none still admits one. -/
def clauses (declared : Option Nat) (count : Nat) :
    List (Except ReadError Line) → Except ParseError (Conjunction Nat)
  | [] => if declared.isNone then .error (.format .missingHeader) else .ok []
  | .error cause :: _ => .error (.read cause)
  | .ok .skipped :: lines => clauses declared count lines
  | .ok (.header fields) :: lines =>
    match declaredCount fields with
    | .error cause => .error (.format cause)
    | .ok n => clauses (some n) count lines
  | .ok (.clause tokens) :: lines =>
    match declared with
    | none => .error (.format .missingHeader)
    | some n =>
      match clause tokens with
      | .error cause => .error (.format cause)
      | .ok c =>
        if n ≤ count + 1 then .ok [c]
        else (clauses declared (count + 1) lines).map (c :: ·)

def parseLines (lines : List (Except ReadError Line)) : Except ParseError Formula :=
  (clauses none 0 lines).map Formula.mk

def parse (s : Source) : Except ParseError Formula :=
  parseLines (s.lines.map fun line => line.map fun text => Line.ofTokens (Text.words text))

end AllSat.Dimacs
