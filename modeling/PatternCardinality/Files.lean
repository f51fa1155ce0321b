import PatternCardinality.Failure

/-! Files by their paths, and folders held in memory. -/

namespace PatternCardinality

/-- What files hold, by their paths. -/
abbrev Files := String → Except FileFault String

/-- A path inside a directory. -/
def pathIn (directory name : String) : String :=
  if directory = "" ∨ directory.toList.getLast? = some '/' then directory ++ name
  else directory ++ "/" ++ name

/-- The files in a folder and below it, each with the names that lead to it. -/
abbrev Folder := List (List String × String)

namespace Folder

/-- Where a path may lead. Above a folder nothing is known but that there are folders. -/
inductive Place where
  | folder (names : List String)
  | file (text : String)
  | above

def ofFiles (files : List (String × String)) : Folder :=
  files.map (fun e => ((e.1.splitOn "/").filter (fun name => name ≠ "" ∧ name ≠ "."), e.2))

def isFolder (f : Folder) (names : List String) : Bool :=
  names.isEmpty || f.any (fun e => names.isPrefixOf e.1)

/-- No name has more bytes than this. -/
def longestName : Nat := 255

/-- One step of a path. The step after a file fails even if it is empty. -/
def enter (f : Folder) : Place → String → Except FileFault Place
  | .file _, _ => .error .notDirectory
  | .above, name => if name ∈ ["", ".", ".."] then .ok .above else .error .missing
  | .folder names, name =>
    if name = "" ∨ name = "." then .ok (.folder names)
    else if name = ".." then .ok (if names.isEmpty then .above else .folder names.dropLast)
    else if longestName < name.utf8ByteSize then .error .longName
    else match f.lookup (names ++ [name]) with
      | some s => .ok (.file s)
      | none =>
        if f.isFolder (names ++ [name]) then .ok (.folder (names ++ [name])) else .error .missing

/-- No path has more bytes than this. -/
def longestPath : Nat := 4095

/-- The files by paths that start in the folder. -/
def files (f : Folder) : Files := fun path =>
  if path.contains '\x00' then .error .zeroByte
  else if path = "" then .error .missing
  else if longestPath < path.utf8ByteSize then .error .longName
  else do
    let start := if path.startsWith "/" then Place.above else Place.folder []
    match ← (path.splitOn "/").foldlM f.enter start with
    | .file s => return s
    | _ => throw .directory

end Folder

end PatternCardinality
