import RpcBindings.Text.Affix

/-!
Paths and file trees: everything below a root, and the directory of it that a command works in.

Files and directories are known by the names on the way to them from the root. A path that begins with
a slash leads from the root, and every other one from the working directory. Above the root there is
the root itself.
-/

namespace RpcBindings.CommandLine

/-! ## Paths -/

namespace Path

/-- The elements of a path. A slash at its start or end gives an empty one. -/
def elements (path : String) : List String :=
  (Text.splitOn '/' path.toList).map String.ofList

/-- Whether a path element changes nothing. -/
def isIdle (e : List Char) : Bool :=
  e.isEmpty || e == ['.']

/-- The elements of a path, last one first, without idle ones at the end. What stands first in a path
is never idle. -/
def trimElements : List (List Char) → List (List Char)
  | [] => []
  | [e] => [e]
  | e :: rest => if isIdle e then trimElements rest else e :: rest

/-- The directory part of a path; nothing for a path of a single element and for the root. -/
def parent? (path : String) : Option String :=
  match trimElements (Text.splitOn '/' path.toList).reverse with
  | [] => none
  | [_] => none
  | _ :: rest =>
    match trimElements rest with
    | [[]] => some "/"
    | es => some (.ofList (['/'].intercalate es.reverse))

end Path

/-! ## Trees -/

/-- The names on the way from the root to a file or directory. -/
abbrev Route := List String

/-- The files and directories below a root, and where among them a command works. A directory that
holds a file or the working directory need not be listed. -/
structure FileTree where
  here : Route
  files : List (Route × String)
  dirs : List Route
  deriving DecidableEq, Repr

namespace FileTree

/-- The tree with some files below the working directory. -/
def ofFiles (here : Route) (files : List (String × String)) : FileTree :=
  ⟨here, files.map fun f => (here ++ Path.elements f.1, f.2), []⟩

/-- The content of the file at the end of a route. -/
def get? (t : FileTree) (r : Route) : Option String :=
  t.files.lookup r

/-- Whether a directory is at the end of a route. -/
def isDir (t : FileTree) (r : Route) : Bool :=
  r.isPrefixOf t.here || t.dirs.contains r ||
    t.files.any fun f => r.isPrefixOf f.1 && r.length < f.1.length

/-- Where one more path element leads from a route, if that ends at a directory. -/
def step? (t : FileTree) (r : Route) (element : String) : Option Route :=
  if !t.isDir r then none
  else if element = "" || element = "." then some r
  else if element = ".." then some r.dropLast
  else some (r ++ [element])

/-- Where a path leads from. -/
def start (t : FileTree) (path : String) : Route :=
  if path.toList.head? = some '/' then [] else t.here

/-- Where a path leads. All but its last element must be directories. -/
def locate? (t : FileTree) (path : String) : Option Route :=
  if path.isEmpty then none else (Path.elements path).foldlM t.step? (t.start path)

/-- Whether a path leads to a file. -/
def isFile (t : FileTree) (path : String) : Bool :=
  ((t.locate? path).bind t.get?).isSome

/-- The content of a file. -/
def read? (t : FileTree) (path : String) : Option String :=
  (t.locate? path).bind t.get?

/-- Puts content at the end of a route. -/
def put (t : FileTree) (r : Route) (content : String) : FileTree :=
  { t with files := (r, content) :: t.files.filter fun f => f.1 != r }

/-- Writes a file, in place of one that is there. -/
def write? (t : FileTree) (path content : String) : Option FileTree :=
  match t.locate? path with
  | none => none
  | some r => if t.isDir r then none else some (t.put r content)

/-- Makes the directory at the end of a route, unless a file is there. -/
def makeDir? (t : FileTree) (r : Route) : Option FileTree :=
  if t.isDir r then some t
  else if (t.get? r).isSome then none
  else some { t with dirs := r :: t.dirs }

/-- Follows path elements from a route and makes the directories that are missing. -/
def makeDirsFrom? (t : FileTree) (r : Route) : List String → Option FileTree
  | [] => some t
  | e :: es =>
    match t.step? r e with
    | none => none
    | some r =>
      match t.makeDir? r with
      | none => none
      | some t => t.makeDirsFrom? r es

/-- Makes a directory and those on the way to it. -/
def makeDirs? (t : FileTree) (path : String) : Option FileTree :=
  t.makeDirsFrom? (t.start path) (Path.elements path)

/-- A path to the end of a route, from the working directory if that is on the way. -/
def pathTo (t : FileTree) (r : Route) : String :=
  if t.here.isPrefixOf r then "/".intercalate (r.drop t.here.length) else "/" ++ "/".intercalate r

/-- The files that are not the same in an earlier tree. -/
def changesSince (t earlier : FileTree) : List (String × String) :=
  (t.files.filter fun f => earlier.get? f.1 != some f.2).map fun f => (t.pathTo f.1, f.2)

end FileTree

end RpcBindings.CommandLine
