import TraceStore.Error

/-!
# A disk

A disk is a value: names bound to nodes, and nodes that hold bytes. An open file refers to its
node, so it outlives the removal of its name, and sees what is written to the node through any
name. Nodes are never given up. Two devices stand beside the files: one takes everything and is
always empty, the other delivers zeros without end and has no space.
-/
namespace TraceStore

/-- What a name on a disk stands for. -/
inductive Node
  | file (data : ByteArray)
  | directory
  | nullDevice
  | fullDevice

/-- Names bound to nodes. A later binding of a name comes first and is the one that counts. -/
structure Disk where
  names : List (String × Nat)
  nodes : Array Node

namespace Disk

/-- A disk with the two devices and nothing else. -/
def empty : Disk :=
  ⟨[("/dev/null", 0), ("/dev/full", 1)], #[.nullDevice, .fullDevice]⟩

instance : Inhabited Disk := ⟨empty⟩

/-- Number of the node that a path is bound to. -/
def find? (d : Disk) (path : String) : Option Nat := d.names.lookup path

/-- The node with a number. -/
def node? (d : Disk) (id : Nat) : Option Node := d.nodes[id]?

/-- Whether anything is bound to a path. -/
def exists? (d : Disk) (path : String) : Bool := (d.find? path).isSome

/-- Contents of the file that a path is bound to. -/
def contents? (d : Disk) (path : String) : Option ByteArray :=
  match (d.find? path).bind d.node? with
  | some (.file data) => some data
  | _ => none

/-- Paths of the directories that `path` goes through, outermost first. -/
def ancestors (path : String) : List String :=
  let rec go (before : List Char) : List Char → List String
    | [] => []
    | '/' :: rest => String.ofList before.reverse :: go ('/' :: before) rest
    | c :: rest => go (c :: before) rest
  go [] path.toList

/-- Whether a path is bound to a directory. -/
def isDirectory (d : Disk) (path : String) : Bool :=
  match (d.find? path).bind d.node? with
  | some .directory => true
  | _ => false

/-- Why a path that is bound to nothing cannot be reached. -/
def unreachable (d : Disk) (path : String) : IoError :=
  if (ancestors path).any fun parent => d.exists? parent && !d.isDirectory parent
  then .notDirectory else .notFound

/-- The node that a path is bound to. -/
def lookup (d : Disk) (path : String) : Except IoError Nat :=
  match d.find? path with
  | some id => .ok id
  | none => .error (d.unreachable path)

/-- Binds a path to a new node, if the directory it lies in is there. -/
def bind (d : Disk) (path : String) (node : Node) : Except IoError (Nat × Disk) :=
  let parents := ancestors path
  if path.isEmpty ∨ parents.any (fun parent => !d.isDirectory parent) then
    .error (d.unreachable path)
  else .ok (d.nodes.size, ⟨(path, d.nodes.size) :: d.names, d.nodes.push node⟩)

/-- The disk with another node in the place of one that is there. -/
def setNode (d : Disk) (id : Nat) (node : Node) : Disk :=
  { d with nodes := d.nodes.setIfInBounds id node }

/-- Opens a path for writing: an existing file loses its contents, a missing one is made. -/
def create (d : Disk) (path : String) : Except IoError (Nat × Disk) :=
  match d.find? path with
  | none => d.bind path (.file .empty)
  | some id =>
    match d.node? id with
    | some .directory => .error .isDirectory
    | some (.file _) => .ok (id, d.setNode id (.file .empty))
    | _ => .ok (id, d)

/-- Length that the file system reports for a node. -/
def size (d : Disk) (id : Nat) : Nat :=
  match d.node? id with
  | some (.file data) => data.size
  | some .directory => 4096
  | _ => 0

/-- Up to `count` bytes of a node from `position` on. Fewer are delivered only at the end. -/
def readAt (d : Disk) (id position count : Nat) : Except IoError ByteArray :=
  match d.node? id with
  | some (.file data) => .ok (data.extract position (position + count))
  | some .directory => .error .isDirectory
  | some .fullDevice => .ok ⟨Array.replicate count 0⟩
  | _ => .ok .empty

/-- `data` with `bytes` written over it from `position` on; a gap before them is filled with
zeros. -/
def splice (data : ByteArray) (position : Nat) (bytes : ByteArray) : ByteArray :=
  if position = data.size then data ++ bytes
  else data.extract 0 position ++ ⟨Array.replicate (position - data.size) 0⟩ ++ bytes
    ++ data.extract (position + bytes.size) data.size

/-- Writes `bytes` to a node from `position` on. -/
def writeAt (d : Disk) (id position : Nat) (bytes : ByteArray) : Except IoError Disk :=
  match d.node? id with
  | some (.file data) => .ok (d.setNode id (.file (splice data position bytes)))
  | some .fullDevice => if bytes.isEmpty then .ok d else .error .storageFull
  | _ => .ok d

/-- Makes a file with the given contents, in the place of what it held before. -/
def put (d : Disk) (path : String) (data : ByteArray) : Except IoError Disk := do
  let (id, d) ← d.create path
  d.writeAt id 0 data

/-- Adds bytes at the end of an existing file. -/
def append (d : Disk) (path : String) (data : ByteArray) : Except IoError Disk := do
  let id ← d.lookup path
  if d.isDirectory path then .error .isDirectory else d.writeAt id (d.size id) data

/-- Shortens an existing file to at most `size` bytes. -/
def truncate (d : Disk) (path : String) (size : Nat) : Except IoError Disk := do
  let id ← d.lookup path
  match d.node? id with
  | some (.file data) => return d.setNode id (.file (data.extract 0 size))
  | some .directory => .error .isDirectory
  | _ => return d

/-- Removes the name of a file. Its node stays for those who have it open. -/
def remove (d : Disk) (path : String) : Except IoError Disk := do
  let _ ← d.lookup path
  if d.isDirectory path then .error .isDirectory
  else return { d with names := d.names.filter (·.1 != path) }

/-- Makes an empty directory. -/
def makeDirectory (d : Disk) (path : String) : Except IoError Disk :=
  if d.exists? path then .error .alreadyExists
  else (d.bind path .directory).map (·.2)

end Disk
end TraceStore
