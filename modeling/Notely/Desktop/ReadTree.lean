import Notely.Desktop.Dart
import Notely.Lib.Paths

/-! # Reading a tree

`FsNode` of `services/filesystem/fs_node.dart`, and `readTree` of `services/filesystem/file_system_service.dart`.
A read asks the disk one thing after another, whether a directory exists and what it lists, and the disk may change
between two answers. How far a read is (`Progress`) is a stack of the loops under way; `Progress.answer` takes one
answer and goes on to the next question. `toLowerCase` and the sorting by name are parameters. -/

namespace Notely.Desktop.ReadTree

open Notely.Lib.Strings Notely.Lib.Paths Notely.Desktop.Dart

/-! ### Nodes -/

/-- `FsNode`. -/
inductive FsNode
  | mk (path : Path) (isDirectory : Bool) (children : List FsNode)

namespace FsNode

def path : FsNode → Path
  | mk path _ _ => path

def isDirectory : FsNode → Bool
  | mk _ isDirectory _ => isDirectory

def children : FsNode → List FsNode
  | mk _ _ children => children

def name (n : FsNode) : Text := basename n.path

/-- `imageExtensions`. -/
def imageExtensions : List Text :=
  ["png", "jpg", "jpeg", "gif", "webp", "bmp", "svg"].map String.toList

/-- `p.extension` of a name, without its dot: what follows the last dot, if that is not the first character. -/
def extension (name : Text) : Text :=
  let after := (name.reverse.takeWhile (· ≠ '.')).reverse
  if after.length + 1 < name.length then after else []

section Lower
variable (lower : Text → Text)

def isMarkdown (n : FsNode) : Bool := ! n.isDirectory && endsWith (lower n.name) ".md".toList

def isImage (n : FsNode) : Bool := ! n.isDirectory && imageExtensions.contains (lower (extension n.name))

end Lower

end FsNode

/-! ### The disk -/

/-- What a directory lists: a `Directory`, a `File`, or a link, which is not followed. -/
inductive Kind
  | directory
  | file
  | link
  deriving DecidableEq

structure Entity where
  name : Text
  kind : Kind
  deriving DecidableEq

/-- What a read can ask. -/
structure Disk where
  /-- `Directory.exists`. -/
  dirExists : Path → Bool
  /-- `Directory.list`, or the message of its exception. -/
  list : Path → Except Text (List Entity)

/-! ### One read -/

/-- The loop over a listing, suspended at the folder `child`. -/
structure Frame where
  dirPath : Path
  dirs : List FsNode := []
  files : List FsNode := []
  child : Text := []
  rest : List Entity := []

/-- How far a read is: it waits for an answer about a directory, with the loops it is in, or it has ended. -/
inductive Progress
  | checking (dirPath : Path) (stack : List Frame)
  | listing (dirPath : Path) (stack : List Frame)
  | done (roots : List FsNode)
  | failed (message : Text)

section Read
variable (lower : Text → Text) (byName : List FsNode → List FsNode)

/-- The loop goes on to the next folder, or to the end of the listing. -/
def Frame.scan (f : Frame) : List Entity → Frame × Bool
  | [] => (f, false)
  | e :: es =>
    if e.name.head? = some '.' then f.scan es
    else
      match e.kind with
      | .directory => ({ f with child := e.name, rest := es }, true)
      | .file =>
        let node := FsNode.mk (f.dirPath ++ [e.name]) false []
        if node.isMarkdown lower || node.isImage lower then
          Frame.scan { f with files := f.files ++ [node] } es
        else f.scan es
      | .link => f.scan es

/-- What `_readDir` returns. -/
def Frame.nodes (f : Frame) : List FsNode := byName f.dirs ++ byName f.files

/-- A `_readDir` returns to the loop that has called it. -/
def giveBack (nodes : List FsNode) : List Frame → Progress
  | [] => .done nodes
  | f :: stack =>
    let f := { f with dirs := f.dirs ++ [FsNode.mk (f.dirPath ++ [f.child]) true nodes] }
    match f.scan lower f.rest with
    | (f, true) => .checking (f.dirPath ++ [f.child]) (f :: stack)
    | (f, false) => giveBack (f.nodes byName) stack

/-- **The disk answers**, and the read goes on to its next question. -/
def Progress.answer (disk : Disk) : Progress → Progress
  | .checking dirPath stack =>
    if disk.dirExists dirPath then .listing dirPath stack else giveBack lower byName [] stack
  | .listing dirPath stack =>
    match disk.list dirPath with
    | .error message => .failed message
    | .ok entities =>
      match Frame.scan lower { dirPath := dirPath } entities with
      | (f, true) => .checking (f.dirPath ++ [f.child]) (f :: stack)
      | (f, false) => giveBack lower byName (f.nodes byName) stack
  | p => p

/-- `readTree`, with the answers of the disk so far. -/
def readTree (rootPath : Path) (answers : List Disk) : Progress :=
  answers.foldl (fun p disk => p.answer lower byName disk) (.checking rootPath [])

/-- The nodes of a read that has ended. -/
def Progress.nodes : Progress → List FsNode
  | .done roots => roots
  | _ => []

end Read

end Notely.Desktop.ReadTree
