import ProtoSchema.Source.Stream

/-
  A directory of files in memory, and the way that a path
  takes through it. Paths are relative to the directory;
  what lies outside of it has no names.

  Key definitions include:
    * `FileTree`
    * `FileTree.nodeAt?`
    * `FileTree.walk`
    * `FileTree.resolve`
    * `FileTree.fileSystem`
-/

namespace ProtoSchema

/- What a name stands for. -/
inductive Node where
  | file (content : List UInt8)
  | directory
deriving DecidableEq, Repr

/-
  The files and directories below the root, each by the
  names on the way to it. The directories on the way exist
  without an entry of their own.
-/
structure FileTree where
  entries : List (List String × Node)

/- A place on the way of a path. -/
inductive Place where
  /- At the end of some names below the root. -/
  | inside (names : List String)
  /- Above the root, where nothing is known. -/
  | outside
deriving DecidableEq, Repr

/- The names of a path, without the empty ones. -/
def pathNames (path : String) : List String :=
  ((path.toList.splitOn '/').filter (!·.isEmpty)).map
    String.ofList

/- The greatest length of a path and of a name in bytes. -/
def maxPathBytes : Nat :=
  4095

def maxNameBytes : Nat :=
  255

namespace FileTree

/- The node at the end of some names. A later entry wins. -/
def nodeAt?
    (tree : FileTree)
    (names : List String) : Option Node :=
  match tree.entries.reverse.find? (·.1 = names) with
  | some (_, node) => some node
  | none =>
      if names.isEmpty ||
          tree.entries.any (names.isPrefixOf ·.1) then
        some .directory
      else
        none

/- The node at a place. All that is outside is a directory. -/
def nodeHere?
    (tree : FileTree) : Place → Option Node
  | .inside names => tree.nodeAt? names
  | .outside => some .directory

/- The place that one name leads to from a directory. -/
def follow
    (tree : FileTree)
    (place : Place)
    (name : String) : Except InputFailure Place :=
  if name = "." then
    .ok place
  else if name = ".." then
    match place with
    | .inside [] => .ok .outside
    | .inside names => .ok (.inside names.dropLast)
    | .outside => .ok .outside
  else if maxNameBytes < name.utf8ByteSize then
    .error .nameTooLong
  else
    match place with
    | .inside names =>
        if (tree.nodeAt? (names ++ [name])).isSome then
          .ok (.inside (names ++ [name]))
        else
          .error .notFound
    | .outside => .error .notFound

/-
  The place that some names lead to. A file leads nowhere.
-/
def walk
    (tree : FileTree)
    (place : Place) :
    List String → Except InputFailure Place
  | [] => .ok place
  | name :: rest =>
      match tree.nodeHere? place with
      | some .directory => do
          let next ← tree.follow place name
          tree.walk next rest
      | _ => .error .notADirectory

/-
  The node that a path leads to. A path that begins with a
  slash starts outside, and one that ends with a slash has
  to lead to a directory.
-/
def resolve
    (tree : FileTree)
    (path : String) : Except InputFailure Node :=
  if path.toList.contains '\x00' then
    .error .nulInName
  else if path.isEmpty then
    .error .notFound
  else if maxPathBytes < path.utf8ByteSize then
    .error .nameTooLong
  else do
    let start :=
      if path.toList.head? = some '/' then
        Place.outside
      else
        Place.inside []
    let place ← tree.walk start (pathNames path)
    match tree.nodeHere? place with
    | none => .error .notFound
    | some .directory => .ok .directory
    | some (.file content) =>
        if path.toList.getLast? = some '/' then
          .error .notADirectory
        else
          .ok (.file content)

/-
  The directory as a file system. A directory opens, but
  cannot be read.
-/
def fileSystem (tree : FileTree) : FileSystem where
  openFile path := do
    match ← tree.resolve path with
    | .file content => .ok [.bytes content]
    | .directory => .ok [.failed .isADirectory]

end FileTree

end ProtoSchema
