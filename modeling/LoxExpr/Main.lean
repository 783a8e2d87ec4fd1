import LoxExpr.Cli.Program
set_option autoImplicit false

namespace LoxExpr.Cli

def Report.write (r : Report) : IO Unit := do
  let out ← IO.getStdout
  out.putStr r.out
  out.flush
  (← IO.getStderr).putStr r.err

def Output.finish (o : Output) : IO UInt32 := do
  o.report.write
  return o.exit.code.toUInt32

/-- The bytes of a file, or why they cannot be had; a reason without a name here is a missing
file's. -/
def readScript (path : String) : IO (Except ReadError (List UInt8)) := do
  match ← (IO.FS.readBinFile path).toBaseIO with
  | .ok bytes => return .ok bytes.toList
  | .error (.inappropriateType _ 21 _) => return .error .isDirectory
  | .error (.inappropriateType _ _ _) => return .error .notDirectory
  | .error (.invalidArgument _ _ _) => return .error .nameTooLong
  | .error _ => return .error .missing

partial def readLine (input : IO.FS.Stream) (taken : List UInt8) : IO (List UInt8) := do
  match (← input.read 1).toList with
  | b :: _ => if b = 10 then return (b :: taken).reverse else readLine input (b :: taken)
  | [] => return taken.reverse

partial def promptLoop (s : Settings) (input : IO.FS.Stream) : IO UInt32 := do
  s.promptText.write
  match ← readLine input [] with
  | [] => Output.finish ⟨.success, .empty⟩
  | bytes => match s.line bytes with
    | .inr last => last.finish
    | .inl report => do
      report.write
      promptLoop s input

end LoxExpr.Cli

open LoxExpr.Cli in
def main (arguments : List String) : IO UInt32 := do
  match Arguments.read arguments with
  | .error stop => stop.output.finish
  | .ok a =>
    let settings := a.settings (← IO.getEnv "NO_COLOR")
    match a.script with
    | some path => (settings.script path (← readScript path)).finish
    | none => promptLoop settings (← IO.getStdin)
