import Mathlib.Data.Finset.Insert
import ProxyNode.Spec.SqlTables

/-! A batch of remote ops set against the log: which of them are there byte for byte, and which of
those are finished with. The batch is folded into one candidate for each id, and the ids are looked up
in chunks, in whatever order the map gives them. -/

namespace ProxyNode

/-- The tables that the classification joins; `pending` is `external_row_pending_ops`. -/
structure RemoteOpTables where
  oplog : List OplogRow
  pending : List OpId
  verified : List VerifiedOp

/-- The envelope and digest of an id, or `none` once two of its ops have differed. -/
abbrev RemoteCandidate := Option (List Byte × Bytes 32)

@[ext]
structure RemoteOpClassification where
  durableExact : Finset OpId
  completed : Finset OpId
deriving DecidableEq

namespace RemoteOpTables

/-- One op of the batch. A conflict stays, whatever comes after it. -/
def addCandidate (C : Crypto) (candidates : SortedMap OpId RemoteCandidate) (op : SignedOp) :
    SortedMap OpId RemoteCandidate :=
  match candidates.get? op.id with
  | none => candidates.insert op.id (some (op.toBytes, C.sha256 op.toBytes))
  | some entry =>
    if entry.map Prod.fst ≠ some op.toBytes then candidates.insert op.id none else candidates

def candidates (C : Crypto) (ops : List SignedOp) : SortedMap OpId RemoteCandidate :=
  ops.foldl (addCandidate C) ∅

/-- The digests a row of the log is joined with: a left join, so `none` stands for no match. -/
def verifiedDigests (t : RemoteOpTables) (row : OplogRow) : List (Option (Bytes 32)) :=
  match t.verified.filter fun v => v.opId = row.opId with
  | [] => [none]
  | found => found.map fun v => some v.envelopeSha256

def completedRows (t : RemoteOpTables) (chunk : List OpId) : List (OplogRow × Option (Bytes 32)) :=
  (t.oplog.filter fun row => row.opId ∈ chunk ∧ row.applied ∧ (row.origin = originRemote ∨
    row.origin = originLocal) ∧ row.opId ∉ t.pending).flatMap fun row =>
      (t.verifiedDigests row).map fun digest => (row, digest)

def classifyRow (candidates : SortedMap OpId RemoteCandidate) (found : RemoteOpClassification)
    (row : OplogRow × Option (Bytes 32)) : RemoteOpClassification :=
  match candidates.get? row.1.opId with
  | some (some (envelope, digest)) =>
    if envelope = row.1.envelope then
      { durableExact := insert row.1.opId found.durableExact
        completed :=
          if row.1.origin = originLocal ∨ row.2 = some digest then insert row.1.opId found.completed
          else found.completed }
    else found
  | _ => found

def classifyChunk : ℕ := 500

/-- `candidateIds` are the keys of the candidates, in the order the map happens to give. -/
def classifyRemoteOps (t : RemoteOpTables) (C : Crypto) (ops : List SignedOp) (candidateIds : List OpId) :
    RemoteOpClassification :=
  if ops = [] then ⟨∅, ∅⟩
  else (OplogDb.chunksOf classifyChunk candidateIds.length candidateIds).foldl (fun found chunk =>
    (t.completedRows chunk).foldl (classifyRow (candidates C ops)) found) ⟨∅, ∅⟩

end RemoteOpTables

end ProxyNode
