import Jack.Path
import Jack.Text.Quoted

/-!
# File trees

Files and directories as a value. Reading leaves a tree as it is; writing and making directories
yield a new one. Places are lists of names from the root, so that every file has one place,
however a path spells it; `FileTree.walk` finds the place of a path by going through the tree.

`makePath` makes a directory together with all that are missing above it.
-/

namespace Jack

/-- What can stand at a place. -/
inductive Node where
  | directory
  | file (content : List UInt8)
  deriving Repr, DecidableEq

/-- Why the tree refuses an operation. -/
inductive TreeError where
  | noEntry
  | alreadyThere
  | notDirectory
  | isDirectory
  deriving Repr, DecidableEq

namespace TreeError

/-- The number of an error. -/
def code : TreeError → Nat
  | noEntry => 2
  | alreadyThere => 17
  | notDirectory => 20
  | isDirectory => 21

/-- An error in words. -/
def text : TreeError → String
  | noEntry => "No such file or directory"
  | alreadyThere => "File exists"
  | notDirectory => "Not a directory"
  | isDirectory => "Is a directory"

/-- An error with the path it is about. -/
def message (e : TreeError) (p : Path) : String :=
  s!"[Errno {e.code}] {e.text}: {Text.quoted p.text}"

end TreeError

/-- A place: the names on the way from the root. -/
abbrev Place := List String

/-- Files and directories, and the working directory, from which relative paths start. The root is
always there. -/
structure FileTree where
  entries : List (Place × Node) := []
  here : Place := []
  deriving Repr, DecidableEq

namespace FileTree

/-- What stands at a place. -/
def node? (t : FileTree) (p : Place) : Option Node :=
  if p = [] then some .directory else t.entries.lookup p

/-- Puts something at a place. -/
def put (t : FileTree) (p : Place) (n : Node) : FileTree :=
  { t with entries := t.entries.filter (fun e => e.1 != p) ++ [(p, n)] }

/-- Goes along the names of a path. Whatever is gone through must be a directory; nothing need stand
at the end. -/
def walk (t : FileTree) : Place → List String → Except TreeError Place
  | p, [] => .ok p
  | p, c :: cs =>
    match t.node? p with
    | none => .error .noEntry
    | some (.file _) => .error .notDirectory
    | some .directory => t.walk (if c = ".." then p.dropLast else p ++ [c]) cs

/-- The place of a path. -/
def place (t : FileTree) (p : Path) : Except TreeError Place :=
  t.walk (if p.anchor = .relative then t.here else []) p.parts

/-- What stands at the end of a path. -/
def status (t : FileTree) (p : Path) : Except TreeError Node := do
  let q ← t.place p
  match t.node? q with
  | some n => .ok n
  | none => .error .noEntry

/-- Whether anything stands at the end of a path. -/
def holds (t : FileTree) (p : Path) : Bool :=
  (t.status p).isOk

/-- Whether a path leads to a directory. -/
def isDirectory (t : FileTree) (p : Path) : Bool :=
  match t.status p with
  | .ok .directory => true
  | _ => false

/-- Whether a path leads to a file. -/
def isFile (t : FileTree) (p : Path) : Bool :=
  match t.status p with
  | .ok (.file _) => true
  | _ => false

/-- Whether a path as it was typed leads anywhere. The empty one does not, and one that ends in a
slash or a dot must lead to a directory. -/
def holdsTyped (t : FileTree) (given : String) : Bool :=
  let p := Path.ofString given
  match Path.fields given.toList with
  | [[]] => false
  | fields =>
    match fields.getLast? with
    | none | some [] | some ['.'] => t.isDirectory p
    | some _ => t.holds p

/-- The names in a directory. -/
def names (t : FileTree) (p : Path) : List String :=
  match t.place p with
  | .error _ => []
  | .ok q =>
    t.entries.filterMap fun e => if e.1.dropLast = q then e.1.getLast? else none

/-- The content of a file. -/
def read (t : FileTree) (p : Path) : Except TreeError (List UInt8) := do
  match ← t.status p with
  | .file content => .ok content
  | .directory => .error .isDirectory

/-- Writes a file, over another one if need be. -/
def write (t : FileTree) (p : Path) (content : List UInt8) : Except TreeError FileTree := do
  let q ← t.place p
  match t.node? q with
  | some .directory => .error .isDirectory
  | _ => .ok (t.put q (.file content))

/-- Makes one directory. -/
def makeDirectory (t : FileTree) (p : Path) : Except TreeError FileTree := do
  let q ← t.place p
  match t.node? q with
  | some _ => .error .alreadyThere
  | none => .ok (t.put q .directory)

/-- Makes one directory unless it is there. An error comes with the path it is about. -/
def ensureDirectory (t : FileTree) (p : Path) : Except (TreeError × Path) FileTree :=
  match t.makeDirectory p with
  | .ok t' => .ok t'
  | .error .noEntry => .error (.noEntry, p)
  | .error e => if t.isDirectory p then .ok t else .error (e, p)

/-- Makes the directory whose parts, last one first, are given, after those above it if it cannot be
made without them. The tree holds what has been made, also if the last step fails. -/
def makePathUp (t : FileTree) (anchor : Anchor) :
    List String → FileTree × Option (TreeError × Path)
  | [] =>
    match t.ensureDirectory ⟨anchor, []⟩ with
    | .ok t' => (t', none)
    | .error e => (t, some e)
  | c :: above =>
    let p : Path := ⟨anchor, (c :: above).reverse⟩
    match t.ensureDirectory p with
    | .ok t' => (t', none)
    | .error (.noEntry, _) =>
      match t.makePathUp anchor above with
      | (t', some e) => (t', some e)
      | (t', none) =>
        match t'.ensureDirectory p with
        | .ok t'' => (t'', none)
        | .error e => (t', some e)
    | .error e => (t, some e)

/-- Makes a directory and all that are missing above it. Those made before an error stay. -/
def makePath (t : FileTree) (p : Path) : FileTree × Option (TreeError × Path) :=
  t.makePathUp p.anchor p.parts.reverse

/-- The places below the working directory, relative to it, at which a later tree differs, with what
now stands there; in the order of their paths. -/
def changes (before after : FileTree) : List (String × Node) :=
  let changed := after.entries.filterMap fun e =>
    if before.entries.lookup e.1 = some e.2 then none
    else if after.here.isPrefixOf e.1 then
      some (String.intercalate "/" (e.1.drop after.here.length), e.2)
    else none
  changed.mergeSort fun a b => !(b.1 < a.1)

end FileTree

end Jack
