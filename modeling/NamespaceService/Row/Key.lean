import NamespaceService.Order.Ranked

namespace NamespaceService

@[ext]
structure NodeId where
  value : UInt64
deriving DecidableEq, Inhabited

namespace NodeId

def root : NodeId := ⟨0⟩

def text (id : NodeId) : String :=
  toString id.value

end NodeId

@[ext]
structure BlockId where
  value : UInt64
deriving DecidableEq, Inhabited

namespace BlockId

def text (id : BlockId) : String :=
  s!"blk_{id.value}"

end BlockId

-- Cluster-wide values that are kept as single rows: three counters, and the block token keys.
inductive Register
  | generationStamp
  | nodeIdCounter
  | blockIdCounter
  | blockTokenKey (number : UInt32)
deriving DecidableEq, Inhabited

namespace Register

def text : Register → String
  | generationStamp => "generation-stamp"
  | nodeIdCounter => "inode-id-counter"
  | blockIdCounter => "block-id-counter"
  | blockTokenKey number => s!"block-token-key-{number}"

end Register

inductive Key
  | node (id : NodeId)
  | block (id : BlockId)
  | lease (holder : String)
  | replica (block : BlockId) (storage : String)
  | replicaUnderConstruction (block : BlockId) (storage : String)
  | register (register : Register)
deriving DecidableEq, Inhabited

namespace Key

def text : Key → String
  | node id => s!"node {id.text}"
  | block id => s!"block {id.text}"
  | lease holder => s!"lease {holder}"
  | replica id storage => s!"replica {id.text}@{storage}"
  | replicaUnderConstruction id storage => s!"replica-uc {id.text}@{storage}"
  | register name => s!"variable {name.text}"

end Key

instance : Ranked NodeId where
  rank id := Ranked.rank id.value
  rank_injective h := NodeId.ext (Ranked.rank_injective h)

instance : Ranked BlockId where
  rank id := Ranked.rank id.value
  rank_injective h := BlockId.ext (Ranked.rank_injective h)

instance : Ranked Register where
  rank
    | .generationStamp => [0]
    | .nodeIdCounter => [1]
    | .blockIdCounter => [2]
    | .blockTokenKey number => [3, number.toNat]
  rank_injective {a b} h := by
    cases a <;> cases b <;> simp_all [UInt32.toNat_inj]

instance : Ranked Key where
  rank
    | .node id => 0 :: Ranked.rank id
    | .block id => 1 :: Ranked.rank id
    | .lease holder => 2 :: Ranked.rank holder
    | .replica block storage => 3 :: block.value.toNat :: Ranked.rank storage
    | .replicaUnderConstruction block storage => 4 :: block.value.toNat :: Ranked.rank storage
    | .register name => 5 :: Ranked.rank name
  rank_injective {a b} h := by
    cases a <;> cases b <;> simp_all [UInt64.toNat_inj, BlockId.ext_iff]

end NamespaceService
