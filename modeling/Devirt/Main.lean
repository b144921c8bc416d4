import Devirt.CommandLine

set_option autoImplicit false

/-! # The program

Reads the files that a request names, answers it, and reports failures on the error stream. -/

namespace Devirt.CommandLine

/-- The files that can be read, with their texts. -/
def readAll (paths : List String) : IO (Dict String String) :=
  paths.foldlM (fun (d : Dict String String) (path : String) => do
    try return d.insert path (← IO.FS.readFile path)
    catch _ => return d) .empty

def reportFailure (f : Failure) : IO UInt32 := do
  IO.eprintln f.message
  return 1

end Devirt.CommandLine

open Devirt CommandLine in
def main (args : List String) : IO UInt32 := do
  match parse args with
  | none => return 2
  | some request =>
    let files ← readAll (inputs request)
    let result := answer files.get? request
    IO.print result.stdout
    match result.failure, result.output with
    | some f, _ => reportFailure f
    | none, some (path, bytes) =>
      try
        IO.FS.writeBinFile path (ByteArray.mk bytes.toArray)
        return 0
      catch _ => reportFailure (.unwritable path)
    | none, none => return 0
