import AllSat.Command.Report
import AllSat.Command.Request
import AllSat.Dimacs.Reader
import AllSat.Dimacs.Writer
import AllSat.Enumerator
import AllSat.Solver.Learning

namespace AllSat.Command

open Text (Sink Source)

variable {σ : Type}

structure Outcome where
  code : Nat
  out : String
  err : String
deriving DecidableEq

def helpLines : List String :=
  ["satenum ",
    "Enumerates every model of a DIMACS CNF formula",
    "",
    "USAGE:",
    "    satenum [FLAGS] [OPTIONS] [INPUT]",
    "",
    "FLAGS:",
    "        --dimacs     print the formula as submitted to the oracle instead of solving",
    "    -h, --help       Prints help information",
    "    -V, --version    Prints version information",
    "",
    "OPTIONS:",
    "        --max-models <N>    stop after N models",
    "",
    "ARGS:",
    "    <INPUT>    input file (in CNF)"]

def helpText : String := String.join (helpLines.map (· ++ "\n"))

def versionText : String := "satenum \n"

def failure (message : String) : Outcome := ⟨255, "", message ++ "\n"⟩

def echo (f : Cnf) : Outcome :=
  let numbered := f.numbered .empty
  ⟨0, Dimacs.write numbered.1 numbered.2.size, ""⟩

/-- What a session yields, or what it yields first if there is a limit. Without a limit there is no
end to an oracle that goes on past the calls that one with true answers can take. -/
def items (o : Oracle σ) (memory : σ) (f : Cnf) : Option Nat → Option (List (Except Error Model))
  | some n => some ((Enumerator.start o memory f).take n).1
  | none =>
    let session := Enumerator.start o memory f
    (session.drain session.callBound).map Prod.fst

def list (vars : List Nat) (items : List (Except Error Model)) : Outcome :=
  match report vars .unlimited 0 items with
  | .error (.solver cause written) =>
      ⟨255, written, (ReportError.solver cause written).message ++ "\n"⟩
  | .error cause => failure cause.message
  | .ok (count, sink) => ⟨if 0 < count then 0 else 1, sink.written, ""⟩

def perform (o : Oracle σ) (memory : σ) (job : Job) (input : Source) : Option Outcome :=
  match Dimacs.parse input with
  | .error cause => some (failure ("parse error: " ++ cause.message))
  | .ok f =>
    match f.named with
    | .error cause => some (failure ("invalid formula: " ++ cause.message))
    | .ok named =>
      if job.echo then some (echo named) else (items o memory named job.maxModels).map (list f.vars)

def runWith (o : Oracle σ) (memory : σ) (request : Request) (input : Source) : Option Outcome :=
  match request with
  | .help => some ⟨0, helpText, ""⟩
  | .version => some ⟨0, versionText, ""⟩
  | .refuse cause => some ⟨1, "", "error: " ++ cause.message ++ "\n"⟩
  | .perform job => perform o memory job input

/-- The learning search has true answers, so it always comes to an outcome. -/
def run (request : Request) (input : Source) : Outcome :=
  (runWith Learning.oracle () request input).getD (failure "no outcome")

end AllSat.Command
