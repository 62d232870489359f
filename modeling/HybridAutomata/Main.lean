import HybridAutomata.Command
import HybridAutomata.Decimal.Double

/-!
# Running the command

Does what the command's response says: writes the files, prints the text and exits.
-/

open HybridAutomata

/-- Writes files one after the other; the first one that cannot be written ends the command. -/
def writeFiles : List (String × String) → IO Bool
  | [] => return true
  | (path, content) :: files => do
      try
        IO.FS.writeFile path content
      catch e =>
        IO.eprintln e
        return false
      writeFiles files

def main (arguments : List String) : IO UInt32 := do
  let response := Command.run Float arguments
  if !response.complaint.isEmpty then
    IO.eprintln response.complaint
  if ← writeFiles response.files then
    IO.print response.output
    return response.code
  else
    return Command.writeCode
