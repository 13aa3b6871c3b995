import PipeQuery.Session
import Std.Time

/-!
The command line: a session over standard input, with the catalog in a file.
-/
namespace PipeQuery.Main

def readFile (path : String) : IO Catalog.File := do
  try
    return .contents (← IO.FS.readBinFile path)
  catch
    | .noFileOrDirectory .. => return .absent
    | _ => return .unreadable

def loadCatalog (path : String) : IO Catalog := do
  match Catalog.ofFile path (← readFile path) with
  | .ok c => return c
  | .error _ => return {}

def now : IO Instant := do
  let t ← Std.Time.Timestamp.now
  return ⟨t.val.second.val, t.val.nano.val.toNat⟩

/-- Reads lines until the input or the session ends. -/
partial def loop (ctx : Context) (pending : String) : IO UInt32 := do
  let line ← (← IO.getStdin).getLine
  if line.isEmpty then return 0
  match Session.step ctx pending (Session.lineOf line.toList) with
  | .unfinished pending => loop ctx pending
  | .printed lines =>
    lines.forM IO.println
    loop ctx ""
  | .ended => return 0
  | .aborted => return 1

end PipeQuery.Main

def main (args : List String) : IO UInt32 := do
  let catalog ← PipeQuery.Main.loadCatalog (args.head?.getD "catalog.json")
  let reference ← PipeQuery.Main.now
  IO.println PipeQuery.Session.banner
  PipeQuery.Main.loop ⟨.ofCatalog catalog, {}, reference⟩ ""
