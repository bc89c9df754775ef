import Pc8086.CommandLine.Task

namespace Pc8086.CommandLine

def readFile? (path : String) : IO (Option ByteArray) := do
  try
    return some (← IO.FS.readBinFile path)
  catch _ => return none

/-- Iterations between two writes to the trace file. -/
def burst : Nat := 4096

def writeTrace (out : Option IO.FS.Handle) (m : Machine ExpansionCard) :
    IO (Machine ExpansionCard) := do
  match out, m.session.trace.file with
  | some h, some f =>
    let m := m.modifyTrace fun t => { t with file := some { f with lines := #[] } }
    try
      f.lines.forM h.putStrLn
      h.flush
      return m
    catch _ => return m.modifyTrace Trace.fail
  | _, _ => return m

partial def finishRun (out : Option IO.FS.Handle) :
    Machine.Progress ExpansionCard → IO (Except Fault Unit × Machine ExpansionCard)
  | .finished result m => do return (result, ← writeTrace out m)
  | .unfinished m => do
    let m ← writeTrace out m
    finishRun out (m.continueRun m.session.config.maxInstructions burst)

def fail (message : String) : IO UInt32 := do
  IO.eprintln message
  return 1

def createTrace? (path : Option String) : IO (Option (Option IO.FS.Handle)) := do
  match path with
  | none => return some none
  | some path =>
    try
      return some (some (← IO.FS.Handle.mk path .write))
    catch _ => return none

def runImage (a : Arguments) : IO UInt32 := do
  let files ← a.inputFiles.mapM fun path => do
    return (path, ← readFile? path)
  match a.machine fun path => (files.lookup path).join with
  | .error e => fail e.message
  | .ok m =>
    let some out ← createTrace? (a.value? .trace)
      | fail (Failure.notWritable ((a.value? .trace).getD "")).message
    let m := if out.isSome then m.modifyTrace fun t => t.openFile {} else m
    match a.limitTrace m with
    | .error e => fail e.message
    | .ok m =>
      let (result, m) ← finishRun out (m.run burst)
      (report m.cpu).forM IO.println
      if let .error f := result then IO.eprintln f.message
      return exitCode result

end Pc8086.CommandLine

open Pc8086.CommandLine in
def main (args : List String) : IO UInt32 :=
  match Command.ofWords args with
  | .ok .help => do
    helpLines.forM IO.println
    return 0
  | .ok .version => do
    IO.println versionText
    return 0
  | .ok (.run a) => runImage a
  | .error e => fail e.message
