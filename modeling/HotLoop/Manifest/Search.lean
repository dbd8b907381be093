import HotLoop.File.Tree
import HotLoop.Manifest.Basic

namespace HotLoop

inductive LoadError
  | unreadable (path : String) (e : FileError)
  | refused (path : String) (e : ManifestError)
deriving DecidableEq, Repr

def LoadError.message : LoadError → String
  | unreadable path e => "cannot read " ++ path ++ ": " ++ e.message path
  | refused path e => path ++ ": " ++ e.message

namespace Manifest

def fileName : String := "grass.toml"

def load (tree : FileTree) (working dir : String) : Except LoadError Manifest :=
  let path := Path.join dir fileName
  match tree.read (Path.absolute working path) with
  | .error e => .error (.unreadable path e)
  | .ok text =>
    match parse text with
    | .error e => .error (.refused path e)
    | .ok m => .ok { m with dir := Path.absolute working dir }

def searchUp (tree : FileTree) (working : String) : List String → Except LoadError (Option Manifest)
  | [] =>
    if tree.exists? (Path.join "/" fileName) then (load tree working "/").map some else .ok none
  | last :: above =>
    let dir := Path.ofParts (last :: above).reverse
    if tree.exists? (Path.join dir fileName) then (load tree working dir).map some
    else searchUp tree working above

def search (tree : FileTree) (working dir : String) : Except LoadError (Option Manifest) :=
  searchUp tree working (Path.parts (Path.absolute working dir)).reverse

end Manifest

end HotLoop
