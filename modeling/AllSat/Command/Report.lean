import AllSat.Error
import AllSat.Model
import AllSat.Text.Sink

namespace AllSat.Command

open Text (Sink WriteError)

inductive ReportError where
  | solver (cause : Error) (written : String)
  | write (cause : WriteError)
deriving DecidableEq

def ReportError.message : ReportError → String
  | solver cause _ => "solver error: " ++ cause.message
  | write cause => "write error: " ++ cause.message

def signedName (m : Model) (v : Nat) : String := if m.contains v.repr then v.repr else "-" ++ v.repr

def modelLine (vars : List Nat) (m : Model) : String := " ".intercalate (vars.map (signedName m))

def report (vars : List Nat) (sink : Sink) (count : Nat) :
    List (Except Error Model) → Except ReportError (Nat × Sink)
  | [] =>
    match sink.put ("c " ++ count.repr ++ " models\n") with
    | .error cause => .error (.write cause)
    | .ok sink => .ok (count, sink)
  | .error cause :: _ => .error (.solver cause sink.written)
  | .ok m :: items =>
    match sink.put ("v " ++ modelLine vars m ++ " 0\n") with
    | .error cause => .error (.write cause)
    | .ok sink => report vars sink (count + 1) items

end AllSat.Command
