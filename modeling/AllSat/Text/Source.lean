namespace AllSat.Text

inductive ReadError where
  | invalidUtf8
  | failed (reason : String)
deriving DecidableEq

def ReadError.message : ReadError → String
  | invalidUtf8 => "stream did not contain valid UTF-8"
  | failed reason => reason

structure Source where
  bytes : List UInt8
  failure : Option String

namespace Source

def ofString (s : String) : Source := ⟨s.toByteArray.toList, none⟩

def missing : Source := ⟨[], some "No such file or directory (os error 2)"⟩

def decodeLine (line : List UInt8) : Except ReadError String :=
  match String.fromUTF8? line.toByteArray with
  | none => .error .invalidUtf8
  | some s => .ok s

def newline : UInt8 := 10

/-- The lines in the order in which they are met. Bytes after the last newline are a line of their
own at the end of a text, and are lost when the reader fails. -/
def lines (s : Source) : List (Except ReadError String) :=
  let pieces := s.bytes.splitOn newline
  match s.failure with
  | some reason => pieces.dropLast.map decodeLine ++ [.error (.failed reason)]
  | none =>
    let lines := if pieces.getLastD [] = [] then pieces.dropLast else pieces
    lines.map decodeLine

end Source

end AllSat.Text
