import HotLoop.Command.Run

namespace HotLoop.Command

def lookAt (tree : FileTree) (path : String) : IO FileTree := do
  try
    let content ← IO.FS.readFile path
    return (tree.makeDirectory (Path.join path "..")).write path content
  catch
    | .inappropriateType .. => return tree.makeDirectory path
    | _ => return tree

def randomNumber : IO Nat :=
  (List.range 8).foldlM (fun n _ => return n * 65536 + (← IO.rand 0 65535)) 0

def writeBack (before after : FileTree) (path : String) : IO Unit := do
  match before.read path, after.read path with
  | .ok old, .ok new => if old ≠ new then IO.FS.writeFile path new
  | .error _, .ok new => IO.FS.writeFile path new
  | _, .error _ => return

def patience : Nat := Nat.pow 2 66

end HotLoop.Command

open HotLoop Command in
def main (args : List String) : IO UInt32 := do
  let working := (← IO.currentDir).toString
  let tree ← (manifestPlaces working args).foldlM lookAt []
  let data := dataFiles tree working args
  let tree ← (data ++ data.map (Path.join · "..")).foldlM lookAt tree
  let session := Session.ofRandom (← randomNumber)
  match run patience session working tree args with
  | none => return 1
  | some outcome =>
    data.forM (writeBack tree outcome.files)
    (← IO.getStdout).putStr outcome.stdout
    (← IO.getStderr).putStr outcome.stderr
    return outcome.exit
