import Jack.CommandLine.Run

/-!
# The command line

The outer layer of the command. It takes a picture of the files that the arguments can concern, runs
the command on that picture, prints what the command prints, and writes the files that have changed.
-/

namespace Jack.Main

/-- The bytes of a file, if there is one at the path. -/
def readFile? (path : String) : IO (Option (List UInt8)) := do
  try
    let bytes ← IO.FS.readBinFile path
    return some bytes.toList
  catch _ => return none

/-- The names in a directory, if there is one at the path. -/
def readNames? (path : String) : IO (Option (List String)) := do
  let here ← IO.currentDir
  try
    let entries ← (here / path).readDir
    return some (entries.toList.map fun e => e.fileName)
  catch _ => return none

/-- The path of a place from the root. -/
def pathOf (p : Place) : String :=
  "/" ++ String.intercalate "/" p

/-- Adds what stands at a place to a tree. -/
def photograph (t : FileTree) (p : Place) : IO FileTree := do
  match ← readNames? (pathOf p) with
  | some _ => return t.put p .directory
  | none =>
    match ← readFile? (pathOf p) with
    | some bytes => return t.put p (.file bytes)
    | none => return t

/-- The parts of the working directory. -/
def workingPlace : IO Place := do
  let here ← IO.currentDir
  return (Path.ofString here.toString).parts

/-- Where a list of names leads from a place, without a look at the files. -/
def steps (start : Place) (names : List String) : Place :=
  names.foldl (fun p c => if c = ".." then p.dropLast else p ++ [c]) start

/-- The places that a path goes through, last one first. -/
def waypoints (here : Place) (p : Path) : List Place :=
  let start := if p.anchor = .relative then here else []
  (List.range (p.parts.length + 1)).reverse.map fun n => steps start (p.parts.take n)

/-- A picture of everything that a path can concern: what it leads through, what stands there, and
if that is a directory, what is in it. -/
def photographPath (t : FileTree) (p : Path) : IO FileTree := do
  let mut tree := t
  for q in waypoints t.here p do
    tree ← photograph tree q
  match (waypoints t.here p).head? with
  | none => return tree
  | some q =>
    for name in (← readNames? (pathOf q)).getD [] do
      tree ← photograph tree (q ++ [name])
    return tree

/-- The picture that a run needs: the working directory, and what its operands and its output
concern. -/
def picture (arguments : List String) : IO FileTree := do
  let here ← workingPlace
  let above := (List.range here.length).map fun n => (here.take (n + 1), Node.directory)
  let mut tree : FileTree := { entries := above, here := here }
  let paths := match CommandLine.Arguments.read {} arguments with
    | .ok a => a.operands.take 1 ++ a.output.toList
    | .error _ => []
  for path in paths do
    tree ← photographPath tree (Path.ofString path)
  return tree

/-- Makes the changes real, in an order in which directories come before what is in them. -/
def develop (before after : FileTree) : IO Unit := do
  for (p, node) in after.entries do
    if before.entries.lookup p != some node then
      match node with
      | .directory => IO.FS.createDirAll (pathOf p)
      | .file bytes => IO.FS.writeBinFile (pathOf p) ⟨bytes.toArray⟩

end Jack.Main

/-- The command. -/
def main (arguments : List String) : IO UInt32 := do
  let before ← Jack.Main.picture arguments
  let ending := Jack.CommandLine.run before arguments
  let w := ending.transcript
  Jack.Main.develop before w.tree
  IO.print w.stdout
  IO.eprint w.stderr
  return ending.status.code.toUInt32
