import ProxyNode.Spec.RowOp

/-! Ops of a store of files, keyed by an entity and a path under it. -/

namespace ProxyNode

inductive FileMutation
  | upsert (content : List Byte) (mode : Fin (2 ^ 32))
  | delete
deriving DecidableEq

structure FileStoreOp where
  entityId : String
  path : String
  mutation : FileMutation
deriving DecidableEq

def rowPkOf (key : List (String × String)) : String := "\x1f".intercalate (key.map Prod.snd)

def FileStoreOp.rowPk (op : FileStoreOp) : String := rowPkOf [("id", op.entityId), ("path", op.path)]

end ProxyNode
