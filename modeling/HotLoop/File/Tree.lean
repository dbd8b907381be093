import HotLoop.File.Path

namespace HotLoop

inductive File
  | text (content : String)
  | directory
deriving DecidableEq, Repr, Inhabited

inductive FileError
  | notFound
  | notDirectory
  | isDirectory
  | nameTooLong
  | badPath
deriving DecidableEq, Repr

def FileError.message (path : String) : FileError → String
  | notFound => "open " ++ path ++ ": no such file or directory"
  | notDirectory => "open " ++ path ++ ": not a directory"
  | isDirectory => "read " ++ path ++ ": is a directory"
  | nameTooLong => "open " ++ path ++ ": file name too long"
  | badPath => "open " ++ path ++ ": invalid argument"

abbrev FileTree := List (List String × File)

namespace FileTree

def addDirectories (tree : FileTree) (done : List String) : List String → FileTree
  | [] => tree
  | part :: rest =>
    let path := done ++ [part]
    let tree := if (tree.lookup path).isSome then tree else (path, .directory) :: tree
    addDirectories tree path rest

def makeDirectory (tree : FileTree) (path : String) : FileTree := tree.addDirectories [] (Path.parts path)

def write (tree : FileTree) (path content : String) : FileTree :=
  let parts := Path.parts path
  (parts, .text content) :: tree.filter fun e => e.1 ≠ parts

def nameLimit : Nat := 255

def follow (tree : FileTree) (done : List String) : List String → Except FileError File
  | [] => .ok .directory
  | part :: rest =>
    let path := done ++ [part]
    if nameLimit < part.utf8ByteSize then .error .nameTooLong
    else
      match tree.lookup path, rest with
      | none, _ => .error .notFound
      | some file, [] => .ok file
      | some .directory, rest => tree.follow path rest
      | some (.text _), _ => .error .notDirectory

def find (tree : FileTree) (path : String) : Except FileError File :=
  if path.toList.contains (Char.ofNat 0) then .error .badPath else tree.follow [] (Path.parts path)

def exists? (tree : FileTree) (path : String) : Bool :=
  match tree.find path with
  | .ok _ => true
  | .error _ => false

def read (tree : FileTree) (path : String) : Except FileError String :=
  match tree.find path with
  | .ok (.text content) => .ok content
  | .ok .directory => .error .isDirectory
  | .error e => .error e

def openFile (tree : FileTree) (path : String) : Except FileError String :=
  match tree.read path with
  | .error .notFound =>
    match tree.follow [] (Path.parts path).dropLast with
    | .ok .directory => .ok ""
    | .ok (.text _) => .error .notDirectory
    | .error e => .error e
  | result => result

end FileTree

end HotLoop
