import Peg.Calc.Command
import Peg.JsonCheck.Command

namespace Peg

def mainUsage : Octets := ascii "choose calc or jsoncheck"

def readInput : IO Octets := do
  return (← (← IO.getStdin).readBinToEnd).toList

def readEntryAt (name : Octets) : IO (Option JsonCheck.Entry) := do
  match String.fromUTF8? ⟨name.toArray⟩ with
  | none => return none
  | some path =>
      try
        return some (.file (← IO.FS.readBinFile path).toList)
      catch
        | .inappropriateType .. => return some .directory
        | _ => return none

def CommandResult.report (r : CommandResult) : IO UInt32 := do
  (← IO.getStdout).write ⟨r.out.toArray⟩
  (← IO.getStderr).write ⟨r.err.toArray⟩
  return r.exitCode.toUInt32

def runCalc (args : List Octets) : IO CommandResult := do
  let input ← if (Calc.Invocation.ofArgs {} args).ReadsInput then readInput else pure []
  return Calc.run args input

def runJsonCheck (args : List Octets) : IO CommandResult := do
  match (JsonCheck.Invocation.ofArgs {} args).file? with
  | none => return JsonCheck.run (fun _ => none) args []
  | some name =>
      if name = ascii "-" then return JsonCheck.run (fun _ => none) args (← readInput)
      else
        let found ← readEntryAt name
        return JsonCheck.run (fun _ => found) args []

def runCommand : List String → IO CommandResult
  | "calc" :: args => runCalc (args.map fun a => a.toUTF8.toList)
  | "jsoncheck" :: args => runJsonCheck (args.map fun a => a.toUTF8.toList)
  | _ => return .error mainUsage [] []

end Peg

def main (args : List String) : IO UInt32 := do (← Peg.runCommand args).report
