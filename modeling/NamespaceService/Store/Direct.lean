import NamespaceService.Path
import NamespaceService.Row.Counter
import NamespaceService.Store.Basic

namespace NamespaceService.Store

def insert (s : Store) (row : Row) : Store :=
  (s.bump row.key).put row

def get? (s : Store) (key : Key) : Option Row :=
  s.rows.find? key

def counter? (s : Store) (name : Register) : Option UInt64 :=
  match s.get? (.register name) with
  | some (.register entry) => some entry.value
  | _ => none

-- The next free node id; advances the counter.
def allocate (s : Store) : Option (NodeId × Store) := do
  let next ← Counter.next? ((s.counter? .nodeIdCounter).getD NodeId.root.value)
  return (⟨next⟩, s.put (.register ⟨.nodeIdCounter, next⟩))

def childNamed? (s : Store) (parent : NodeId) (name : String) : Option Node :=
  (s.rows.lookup (.nodeNamed parent name)).bind Row.node?

def descend (s : Store) (start : Node) (names : List String) : Option Node :=
  names.foldlM (fun node name => s.childNamed? node.id name) start

def rootNode? (s : Store) : Option Node :=
  (s.get? (.node .root)).bind Row.node?

def nodeAt? (s : Store) (path : String) : Option Node :=
  match Path.components path with
  | .ok names => s.rootNode?.bind (s.descend · names)
  | .error _ => none

def inject (s : Store) (operation : Operation) (fault : Fault) : Store :=
  { s with faults := fun o => if o = operation then s.faults o ++ [fault] else s.faults o }

def clearEvents (s : Store) : Store :=
  { s with events := [] }

def acquisitions (s : Store) : List (LockKind × Finder) :=
  s.events.filterMap Event.acquisition?

-- A counter left its word: the result is missing, the store stays as it was then. What was done
-- before it stays done.
abbrev Direct (α : Type) := Store → Option α × Store

-- `walked` holds the names below the root that lead to `parent`.
def ensureFrom (kind : NodeKind) :
    (parent : Node) → (walked names : List String) → Direct (Option Node)
  | parent, _, [], s => (some (some parent), s)
  | parent, walked, name :: names, s =>
    match s.rootNode?.bind (s.descend · (walked ++ [name])) with
    | some existing => ensureFrom kind existing (walked ++ [name]) names s
    | none =>
      match s.allocate with
      | none => (none, s)
      | some (id, s) =>
        let node : Node :=
          ⟨id, parent.id, name, if names.isEmpty then kind else .directory, []⟩
        ensureFrom kind node (walked ++ [name]) names (s.insert (.node node))

-- Creates the node at `path`, and the directories above it, where they are missing.
def ensure (s : Store) (path : String) (kind : NodeKind) : Option (Option Node) × Store :=
  match Path.components path, s.rootNode? with
  | .ok names, some root => ensureFrom kind root [] names s
  | _, _ => (some none, s)

-- Gives the node at `path` one more block, stamped 1000 above its number.
def attachBlock (s : Store) (path : String) (number : UInt64) : Option (Option Block) × Store :=
  match s.nodeAt? path with
  | none => (some none, s)
  | some file =>
    match Counter.add? 1000 number with
    | none => (none, s)
    | some stamp =>
      let block := Block.fresh ⟨number⟩ file.id stamp
      let file := { file with blocks := file.blocks ++ [block.id] }
      (some (some block), (s.insert (.node file)).insert (.block block))

-- A store holding the given paths: directories where a path ends in a slash, files elsewhere.
def ofPaths (paths : List String) : Store :=
  paths.foldl (fun s path =>
    let kind := if path.toList.getLast? = some '/' then .directory else .file
    (s.ensure path kind).2) new

end NamespaceService.Store
