import AllSat.Command.Run

namespace AllSat

open Text (Source)

def readFile (path : String) : IO Source := do
  try
    let bytes ← IO.FS.readBinFile path
    return ⟨bytes.toList, none⟩
  catch
    | .noFileOrDirectory .. => return Source.missing
    | e => return ⟨[], some e.toString⟩

def readStdin : IO Source := do
  let stdin ← IO.getStdin
  try
    let bytes ← stdin.readBinToEnd
    return ⟨bytes.toList, none⟩
  catch e => return ⟨[], some e.toString⟩

end AllSat

open AllSat in
def main (args : List String) : IO UInt32 := do
  let request := Command.Request.ofArgs args
  let input ← match request with
    | .perform ⟨some path, _, _⟩ => readFile path
    | .perform ⟨none, _, _⟩ => readStdin
    | _ => pure Text.Source.missing
  let outcome := Command.run request input
  IO.print outcome.out
  IO.eprint outcome.err
  return outcome.code.toUInt32
