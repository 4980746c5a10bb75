import NamespaceService.Namespace.Resolution

namespace NamespaceService.Namespace

def onParent (path : String) : LockRequest :=
  .nodes .writeOnParent (.paths [path] false)

namespace MakeDirectory

def requests (path : String) : Except Fault RequestSet :=
  RequestSet.ofRequests [onParent path, .registers .write [.nodeIdCounter]]

def task (path : String) (resolved : Resolved) : Task NodeId := do
  let resolution ← resolve resolved path
  if resolution.target.isSome then Task.fail (.alreadyExists path)
  let parent ← parentDirectory path resolution
  let name ← leafName path
  let id : NodeId := ⟨← nextValue .nodeIdCounter⟩
  Action.upsert (.node ⟨id, parent.id, name, .directory, []⟩)
  Task.log .debug s!"mkdir {path} as node {id.text}"
  return id

end MakeDirectory

def makeDirectory (path : String) : UnitOfWork Unit NodeId :=
  .ofTask "mkdir" (MakeDirectory.requests path) (MakeDirectory.task path)

namespace CreateFile

def requests (path holder : String) : Except Fault RequestSet :=
  RequestSet.ofRequests [onParent path, .lease .write holder, .registers .write [.nodeIdCounter]]

def task (path holder : String) (resolved : Resolved) : Task NodeId := do
  let resolution ← resolve resolved path
  if resolution.target.isSome then Task.fail (.alreadyExists path)
  let parent ← parentDirectory path resolution
  let name ← leafName path
  let id : NodeId := ⟨← nextValue .nodeIdCounter⟩
  Action.upsert (.node ⟨id, parent.id, name, .file, []⟩)
  let lease := (← lease? holder).getD (.new holder)
  Action.upsert (.lease (lease.withPath path))
  Task.log .debug s!"created {path} for {holder}"
  return id

end CreateFile

-- Creates an empty file and puts it under the holder's lease.
def createFile (path holder : String) : UnitOfWork Unit NodeId :=
  .ofTask "create" (CreateFile.requests path holder) (CreateFile.task path holder)

namespace Delete

def requests (path : String) : Except Fault RequestSet :=
  RequestSet.ofRequests [.nodes .writeOnParent (.paths [path] true), .blocks .write .ofResolvedFiles]

def removeBlocks (file : NodeId) : Task Unit := do
  let blocks := (← Action.findList (.blocksOf file)).filterMap Row.block?
  blocks.forM fun block => Action.remove (.block block.id)

def task (path : String) (resolved : Resolved) : Task Bool := do
  let some target := (← resolve resolved path).target | return false
  if target.isRoot then Task.fail (.invalidArgument "cannot delete the root")
  if target.isDirectory then
    if !(← children target.id).isEmpty then Task.fail (.directoryNotEmpty path)
  else removeBlocks target.id
  Action.remove (.node target.id)
  Task.log .debug s!"deleted {path}"
  return true

end Delete

-- Removes a file with its blocks, or an empty directory; says whether there was one.
def delete (path : String) : UnitOfWork Unit Bool :=
  .ofTask "delete" (Delete.requests path) (Delete.task path)

namespace Rename

def requests (source destination : String) : Except Fault RequestSet :=
  RequestSet.ofRequests [.nodes .writeOnParent (.paths [source, destination] false)]

-- Refuses to move the root, to replace it, and to move a node into itself.
def checkArguments (source destination : String) (start goal : Position) : Task Unit := do
  if start = [] ∨ goal = [] then Task.fail (.invalidArgument "cannot rename the root")
  if start.length < goal.length ∧ start.isPrefixOf goal then
    Task.fail (.invalidArgument s!"{destination} is inside {source}")

def task (source destination : String) (resolved : Resolved) : Task Unit := do
  let start ← Task.ofPath (Path.components source)
  let goal ← Task.ofPath (Path.components destination)
  checkArguments source destination start goal
  let some node := (← resolve resolved source).target | Task.fail (.notFound source)
  if start = goal then return
  let resolution ← resolve resolved destination
  if resolution.target.isSome then Task.fail (.alreadyExists destination)
  let parent ← parentDirectory destination resolution
  let name ← leafName destination
  Action.upsert (.node { node with parent := parent.id, name })
  Task.log .debug s!"renamed {source} to {destination}"

end Rename

def rename (source destination : String) : UnitOfWork Unit Unit :=
  .ofTask "rename" (Rename.requests source destination) (Rename.task source destination)

namespace AddBlock

def requests (path holder : String) : Except Fault RequestSet :=
  RequestSet.ofRequests [
    .nodes .write (.paths [path] false),
    .lease .read holder,
    .registers .write [.blockIdCounter, .generationStamp]]

def checkLease (path holder : String) : Task Unit := do
  let leased := match ← lease? holder with
    | some lease => lease.covers path
    | none => false
  if !leased then Task.fail (.invalidArgument s!"{holder} holds no lease on {path}")

def task (path holder : String) (resolved : Resolved) : Task Block := do
  let some file := (← resolve resolved path).target | Task.fail (.notFound path)
  if !file.isFile then Task.fail (.notAFile path)
  checkLease path holder
  let id : BlockId := ⟨← nextValue .blockIdCounter⟩
  let stamp ← nextValue .generationStamp
  let block := Block.fresh id file.id stamp
  Action.upsert (.node { file with blocks := file.blocks ++ [id] })
  Action.upsert (.block block)
  Task.log .debug s!"allocated {id.text} with stamp {stamp} for {path}"
  return block

end AddBlock

-- Appends a new block to a file that the holder has open.
def addBlock (path holder : String) : UnitOfWork Unit Block :=
  .ofTask "add-block" (AddBlock.requests path holder) (AddBlock.task path holder)

def fileInfo (path : String) : UnitOfWork Unit (Option Node) :=
  .ofTask "get-file-info" (RequestSet.ofRequests [.nodes .read (.paths [path] false)]) fun resolved => do
    return (← resolve resolved path).target

namespace ListDirectory

def requests (path : String) : Except Fault RequestSet :=
  RequestSet.ofRequests [.nodes .read (.paths [path] true)]

def sortNames (names : List String) : List String :=
  names.mergeSort fun a b => !Ranked.Before b a

def task (path : String) (resolved : Resolved) : Task (List String) := do
  let some dir := (← resolve resolved path).target | Task.fail (.notFound path)
  if !dir.isDirectory then Task.fail (.notADirectory path)
  return sortNames ((← children dir.id).map Node.name)

end ListDirectory

def listDirectory (path : String) : UnitOfWork Unit (List String) :=
  .ofTask "list" (ListDirectory.requests path) (ListDirectory.task path)

end NamespaceService.Namespace
