import SemiThue.CommandLine.Report

/-!
# SemiThue.Main — the command

The command gathers its files and its input, and hands over the report on what it did with them.
-/

namespace SemiThue
namespace CommandLine

def SourceError.ofIO : IO.Error → SourceError
  | .noFileOrDirectory .. =>
    { kind := "NotFound".toList, code? := some 2, reason := "No such file or directory".toList }
  | .permissionDenied .. =>
    { kind := "PermissionDenied".toList, code? := some 13, reason := "Permission denied".toList }
  | .inappropriateType _ 21 _ =>
    { kind := "IsADirectory".toList, code? := some 21, reason := "Is a directory".toList }
  | .inappropriateType .. =>
    { kind := "NotADirectory".toList, code? := some 20, reason := "Not a directory".toList }
  | e => { kind := "Uncategorized".toList, reason := e.toString.toList }

/-- Opens the file at a path.  Directories can be opened, but not read. -/
def openFile (path : Word) : IO (Except SourceError File) := do
  try
    return .ok (.ok (← IO.FS.readBinFile (String.ofList path)).toList)
  catch
    | e@(.inappropriateType _ 21 _) => return .ok (.error (.ofIO e))
    | e => return .error (.ofIO e)

/-- Whether a source can ask for input: it is standard input itself, or has a rule that reads. -/
def asksForInput (opening : Opening) (path : Word) : Bool :=
  match Source.ofPath opening path with
  | .ok (.file _ (.ok content)) =>
    match (decode content).toOption.map Program.parse with
    | some (.ok program) => program.rules.any (·.kind = .read)
    | _ => false
  | .ok .standardInput => true
  | _ => false

partial def readAll (input : IO.FS.Stream) (content : ByteArray) : IO ByteArray := do
  let bytes ← input.read 4096
  if bytes.isEmpty then return content else readAll input (content ++ bytes)

/-- More passes than any run makes that comes to an end. -/
def fuel : Nat := UInt64.size

/-- Runs the command, which waits for its input only if a source can ask for it. -/
def perform (o : Options) : IO Report := do
  let files ← o.files.mapM fun path => return (path, ← openFile path)
  let opening : Opening := fun path =>
    (files.lookup path).getD (.error { kind := "NotFound".toList, reason := [] })
  let input ←
    if o.files.any (asksForInput opening) then readAll (← IO.getStdin) .empty else pure .empty
  let entropy := (← IO.getRandomBytes 8).toList.foldl (fun n b => 256 * n + b.toNat) 0
  let logging := (← IO.getEnv "LOG").map String.toList
  return report o fuel { opening, input := input.toList, logging, entropy }

def usage : String := "Usage: semithue [--seed N] [--max-passes N] [--sample] [--quiet] [FILE]...\n"

end CommandLine
end SemiThue

open SemiThue CommandLine in
def main (args : List String) : IO UInt32 := do
  match Options.parse? (args.map String.toList) with
  | none =>
    (← IO.getStderr).putStr usage
    return 2
  | some o =>
    let report ← perform o
    (← IO.getStderr).putStr (String.ofList report.diagnostics)
    (← IO.getStdout).putStr (String.ofList report.output)
    return report.code.toUInt32
