import Straightline.CommandLine

/-!
# The executable

Reads the named files, hands everything to `CommandLine.program`, prints what it says and ends as it
says.
-/

open Straightline in
/-- The entry point. -/
def main (args : List String) : IO UInt32 := do
  let mut files : List (String × Input) := []
  for name in args do
    try
      let bytes ← IO.FS.readBinFile name
      files := (name, bytes.data.toList) :: files
    catch _ => pure ()
  let mut vars : List (String × String) := []
  for name in ["IROPT_LEVEL", "IROPT_UNROLL_THRESH", "IROPT_PRECISE_MEM_EXNS"] do
    if let some v ← IO.getEnv name then
      vars := (name, v) :: vars
  let r := CommandLine.program ⟨fun n => files.lookup n, fun n => vars.lookup n⟩ args
  IO.print r.stdout
  if let some e := r.error then
    IO.eprintln ("error: " ++ e)
  return r.exit.toUInt32
