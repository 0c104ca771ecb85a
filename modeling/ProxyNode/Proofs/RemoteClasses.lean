import ProxyNode.Sanity.Compaction
import ProxyNode.Spec.Kv
import ProxyNode.Spec.Quarantine

/-! A remote batch is classified by what it holds, not by the order it holds it in: two ops of one
id with different bytes rule the id out wherever they stand. -/

namespace ProxyNode.RemoteOpTables

open List

variable {C : Crypto} {t : RemoteOpTables} {ops ops' : List SignedOp} {id : OpId}

/-! ## The candidates -/

/-- There are ops of that id, and all of them encode to these bytes. -/
def Agree (ops : List SignedOp) (id : OpId) (envelope : List Byte) : Prop :=
  (∃ op ∈ ops, op.id = id) ∧ ∀ op ∈ ops, op.id = id → op.toBytes = envelope

variable {envelope : List Byte}

theorem Agree.perm (hperm : ops'.Perm ops) (h : Agree ops id envelope) :
    Agree ops' id envelope := by
  obtain ⟨⟨op, hop, hid⟩, hall⟩ := h
  exact ⟨⟨op, hperm.mem_iff.2 hop, hid⟩, fun op hop => hall op (hperm.mem_iff.1 hop)⟩

theorem agree_perm (hperm : ops'.Perm ops) :
    Agree ops' id envelope ↔ Agree ops id envelope :=
  ⟨fun h => h.perm hperm.symm, fun h => h.perm hperm⟩

variable {op : SignedOp}

theorem agree_snoc_of_ne (hne : op.id ≠ id) :
    Agree (ops ++ [op]) id envelope ↔ Agree ops id envelope := by
  have hex : (∃ o ∈ ops ++ [op], o.id = id) ↔ ∃ o ∈ ops, o.id = id := by
    simp [or_and_right, exists_or, hne]
  rw [Agree, Agree, hex, forall_mem_append, forall_mem_singleton]
  exact and_congr_right fun _ => and_iff_left fun heq => absurd heq hne

theorem agree_snoc_self :
    Agree (ops ++ [op]) op.id envelope ↔
      op.toBytes = envelope ∧ ∀ o ∈ ops, o.id = op.id → o.toBytes = envelope := by
  rw [Agree, forall_mem_append, forall_mem_singleton]
  constructor
  · rintro ⟨-, hall, hop⟩
    exact ⟨hop rfl, hall⟩
  · rintro ⟨hop, hall⟩
    exact ⟨⟨op, mem_append_right _ mem_cons_self, rfl⟩, hall, fun _ => hop⟩

structure Scanned (C : Crypto) (ops : List SignedOp) (id : OpId) (entry : Option RemoteCandidate) : Prop where
  absent : entry = none ↔ ∀ op ∈ ops, op.id ≠ id
  agreed : ∀ envelope digest, entry = some (some (envelope, digest)) ↔
    Agree ops id envelope ∧ digest = C.sha256 envelope

theorem Scanned.of_ne {entry : Option RemoteCandidate} (h : Scanned C ops id entry) (hne : op.id ≠ id) :
    Scanned C (ops ++ [op]) id entry where
  absent := by
    rw [h.absent, forall_mem_append, forall_mem_singleton]
    exact (and_iff_left hne).symm
  agreed envelope digest := by rw [h.agreed, agree_snoc_of_ne hne]

theorem Scanned.first (h : Scanned C ops op.id none) :
    Scanned C (ops ++ [op]) op.id (some (some (op.toBytes, C.sha256 op.toBytes))) where
  absent := by simp
  agreed envelope digest := by
    have hnone := h.absent.1 rfl
    rw [agree_snoc_self, and_iff_left fun o ho heq => absurd heq (hnone o ho), Option.some.injEq,
      Option.some.injEq, Prod.mk.injEq]
    constructor
    · rintro ⟨rfl, rfl⟩
      exact ⟨rfl, rfl⟩
    · rintro ⟨rfl, rfl⟩
      exact ⟨rfl, rfl⟩

variable {digest : Bytes 32}

theorem Scanned.again (h : Scanned C ops op.id (some (some (op.toBytes, digest)))) :
    Scanned C (ops ++ [op]) op.id (some (some (op.toBytes, digest))) where
  absent := by simp
  agreed envelope digest' := by
    rw [h.agreed, agree_snoc_self]
    have hagr := ((h.agreed _ _).1 rfl).1
    constructor
    · rintro ⟨hsame, hdig⟩
      obtain ⟨o, ho, hid⟩ := hagr.1
      exact ⟨⟨(hagr.2 o ho hid).symm.trans (hsame.2 o ho hid), hsame.2⟩, hdig⟩
    · rintro ⟨⟨hop, hall⟩, hdig⟩
      exact ⟨⟨hagr.1, hall⟩, hdig⟩

theorem Scanned.conflict {entry : RemoteCandidate} (h : Scanned C ops op.id (some entry))
    (hne : entry.map Prod.fst ≠ some op.toBytes) : Scanned C (ops ++ [op]) op.id (some none) where
  absent := by simp
  agreed envelope digest := by
    rw [agree_snoc_self]
    refine ⟨fun h => by simp at h, ?_⟩
    rintro ⟨⟨rfl, hall⟩, rfl⟩
    have hex : ∃ o ∈ ops, o.id = op.id := by
      by_contra hnone
      exact absurd (h.absent.2 fun o ho heq => hnone ⟨o, ho, heq⟩) (Option.some_ne_none _)
    have hsame := (h.agreed op.toBytes (C.sha256 op.toBytes)).2 ⟨⟨hex, hall⟩, rfl⟩
    rw [Option.some.injEq] at hsame
    exact absurd (congrArg (Option.map Prod.fst) hsame) hne

theorem candidates_snoc (C : Crypto) (ops : List SignedOp) (op : SignedOp) :
    candidates C (ops ++ [op]) = addCandidate C (candidates C ops) op := by
  rw [candidates, foldl_append]
  rfl

theorem addCandidate_get?_of_ne {m : SortedMap OpId RemoteCandidate} (hne : op.id ≠ id) :
    (addCandidate C m op).get? id = m.get? id := by
  rw [addCandidate]
  split
  · rw [SortedMap.get?_insert, if_neg hne.symm]
  · split
    · rw [SortedMap.get?_insert, if_neg hne.symm]
    · rfl

theorem candidates_scanned (C : Crypto) (ops : List SignedOp) (id : OpId) :
    Scanned C ops id ((candidates C ops).get? id) := by
  induction ops using reverseRecOn with
  | nil => exact ⟨by simp [candidates], by simp [candidates, Agree]⟩
  | append_singleton ops op ih =>
    rw [candidates_snoc]
    by_cases hid : op.id = id
    · subst hid
      rw [addCandidate]
      generalize hent : (candidates C ops).get? op.id = entry at ih
      cases entry with
      | none => simpa using ih.first
      | some entry =>
        by_cases hne : entry.map Prod.fst ≠ some op.toBytes
        · simpa [hne] using ih.conflict hne
        · rw [not_not, Option.map_eq_some_iff] at hne
          obtain ⟨⟨envelope, digest⟩, rfl, rfl⟩ := hne
          simpa [hent] using ih.again
    · rw [addCandidate_get?_of_ne hid]
      exact ih.of_ne hid

/-! ## The rows -/

/-- A row of the log that is applied, waits for no external row and has a known origin. -/
def Settled (t : RemoteOpTables) (row : OplogRow) : Prop :=
  row ∈ t.oplog ∧ row.applied ∧ (row.origin = originRemote ∨ row.origin = originLocal) ∧ row.opId ∉ t.pending

/-- The row stands for an op made here, or these bytes were once verified for it. -/
def Vouched (t : RemoteOpTables) (C : Crypto) (row : OplogRow) : Prop :=
  row.origin = originLocal ∨ ∃ v ∈ t.verified, v.opId = row.opId ∧ v.envelopeSha256 = C.sha256 row.envelope

variable {row : OplogRow × Option (Bytes 32)}

theorem mem_completedRows {chunk : List OpId} :
    row ∈ t.completedRows chunk ↔
      t.Settled row.1 ∧ row.1.opId ∈ chunk ∧ row.2 ∈ t.verifiedDigests row.1 := by
  simp only [completedRows, mem_flatMap, mem_filter, mem_map, decide_eq_true_eq, Settled]
  constructor
  · rintro ⟨r, ⟨hr, hchk, hrow⟩, digest, hdig, rfl⟩
    exact ⟨⟨hr, hrow⟩, hchk, hdig⟩
  · rintro ⟨⟨hr, hrow⟩, hchk, hdig⟩
    exact ⟨row.1, ⟨hr, hchk, hrow⟩, row.2, hdig, rfl⟩

theorem some_mem_verifiedDigests {row : OplogRow} :
    some digest ∈ t.verifiedDigests row ↔
      ∃ v ∈ t.verified, v.opId = row.opId ∧ v.envelopeSha256 = digest := by
  have hmem : (∃ v ∈ t.verified, v.opId = row.opId ∧ v.envelopeSha256 = digest) ↔
      some digest ∈ (t.verified.filter fun v => v.opId = row.opId).map fun v => some v.envelopeSha256 := by
    simp [and_assoc]
  rw [hmem, verifiedDigests]
  split
  · next hnil => simp [hnil]
  · rfl

theorem exists_mem_verifiedDigests (t : RemoteOpTables) (row : OplogRow) :
    ∃ digest, digest ∈ t.verifiedDigests row := by
  rw [verifiedDigests]
  split
  · exact ⟨none, mem_cons_self⟩
  · next hne =>
    obtain ⟨v, hv⟩ := exists_mem_of_ne_nil _ hne
    exact ⟨_, mem_map_of_mem hv⟩

/-! ## The classes -/

theorem classifyRow_of_agree (h : Agree ops row.1.opId row.1.envelope) (found : RemoteOpClassification) :
    classifyRow (candidates C ops) found row =
      { durableExact := insert row.1.opId found.durableExact
        completed :=
          if row.1.origin = originLocal ∨ row.2 = some (C.sha256 row.1.envelope) then
            insert row.1.opId found.completed
          else found.completed } := by
  have hget := ((candidates_scanned C ops row.1.opId).agreed _ _).2 ⟨h, rfl⟩
  rw [classifyRow, hget]
  exact if_pos rfl

theorem classifyRow_of_not_agree (h : ¬ Agree ops row.1.opId row.1.envelope) (found : RemoteOpClassification) :
    classifyRow (candidates C ops) found row = found := by
  rw [classifyRow]
  split
  · next envelope digest hget =>
    refine if_neg fun heq => h ?_
    exact heq ▸ (((candidates_scanned C ops row.1.opId).agreed _ _).1 hget).1
  · rfl

/-- A row adds its id when its candidate agrees with it. -/
theorem classifyRow_durableExact (found : RemoteOpClassification) (row : OplogRow × Option (Bytes 32)) :
    id ∈ (classifyRow (candidates C ops) found row).durableExact ↔
      id ∈ found.durableExact ∨ row.1.opId = id ∧ Agree ops id row.1.envelope := by
  by_cases hagr : Agree ops row.1.opId row.1.envelope
  · rw [classifyRow_of_agree hagr, Finset.mem_insert, or_comm]
    refine or_congr_right ⟨?_, fun h => h.1.symm⟩
    rintro rfl
    exact ⟨rfl, hagr⟩
  · rw [classifyRow_of_not_agree hagr]
    refine (or_iff_left ?_).symm
    rintro ⟨rfl, h⟩
    exact hagr h

theorem classifyRow_completed (found : RemoteOpClassification) (row : OplogRow × Option (Bytes 32)) :
    id ∈ (classifyRow (candidates C ops) found row).completed ↔
      id ∈ found.completed ∨ (row.1.opId = id ∧ Agree ops id row.1.envelope) ∧
        (row.1.origin = originLocal ∨ row.2 = some (C.sha256 row.1.envelope)) := by
  by_cases hagr : Agree ops row.1.opId row.1.envelope
  · rw [classifyRow_of_agree hagr]
    split_ifs with hvouched
    · rw [Finset.mem_insert, or_comm, and_iff_left hvouched]
      refine or_congr_right ⟨?_, fun h => h.1.symm⟩
      rintro rfl
      exact ⟨rfl, hagr⟩
    · exact (or_iff_left fun h => hvouched h.2).symm
  · rw [classifyRow_of_not_agree hagr]
    refine (or_iff_left ?_).symm
    rintro ⟨⟨rfl, h⟩, -⟩
    exact hagr h

theorem mem_keys_of_agree (h : Agree ops id envelope) : id ∈ (candidates C ops).keys :=
  SortedMap.mem_keys.2 ⟨_, ((candidates_scanned C ops id).agreed _ _).2 ⟨h, rfl⟩⟩

variable {ids : List OpId}

section Order

variable (hids : ids.Perm (candidates C ops).keys)
include hids

/-- An empty batch has no candidates to look up, so the early return changes nothing. -/
theorem classifyRemoteOps_eq :
    t.classifyRemoteOps C ops ids =
      (OplogDb.chunksOf classifyChunk ids.length ids).foldl (fun found chunk =>
        (t.completedRows chunk).foldl (classifyRow (candidates C ops)) found) ⟨∅, ∅⟩ := by
  rw [classifyRemoteOps]
  split_ifs with hops
  · subst hops
    rw [List.Perm.eq_nil hids]
    rfl
  · rfl

/-- A set of the classification holds the ids of the rows that add to it, whichever chunk their id
falls into. -/
theorem mem_classes {S : RemoteOpClassification → Finset OpId} (hemp : S ⟨∅, ∅⟩ = ∅)
    {P : OplogRow × Option (Bytes 32) → Prop}
    (hrow : ∀ found row, id ∈ S (classifyRow (candidates C ops) found row) ↔
      id ∈ S found ∨ (row.1.opId = id ∧ Agree ops id row.1.envelope) ∧ P row) :
    id ∈ S (t.classifyRemoteOps C ops ids) ↔
      ∃ row, t.Settled row ∧ row.opId = id ∧ Agree ops id row.envelope ∧
        ∃ digest ∈ t.verifiedDigests row, P (row, digest) := by
  have hchk := fun found chunk =>
    foldl_iff_exists (M := fun found => id ∈ S found) hrow (t.completedRows chunk) found
  rw [classifyRemoteOps_eq hids, foldl_iff_exists (M := fun found => id ∈ S found) hchk, hemp,
    or_iff_right (Finset.notMem_empty id)]
  constructor
  · rintro ⟨chunk, -, ⟨row, digest⟩, hrow, ⟨hid, hagr⟩, hP⟩
    obtain ⟨hsettled, -, hdig⟩ := mem_completedRows.1 hrow
    exact ⟨row, hsettled, hid, hagr, digest, hdig, hP⟩
  · rintro ⟨row, hsettled, hid, hagr, digest, hdig, hP⟩
    have hmem : row.opId ∈ ids := hid ▸ hids.mem_iff.2 (mem_keys_of_agree hagr)
    obtain ⟨chunk, hchk, hin⟩ := OplogDb.exists_chunk (by decide : 0 < classifyChunk) le_rfl hmem
    exact ⟨chunk, hchk, (row, digest), mem_completedRows.2 ⟨hsettled, hin, hdig⟩, ⟨hid, hagr⟩, hP⟩

theorem mem_durableExact_iff :
    id ∈ (t.classifyRemoteOps C ops ids).durableExact ↔
      ∃ row, t.Settled row ∧ row.opId = id ∧ Agree ops id row.envelope := by
  rw [mem_classes hids rfl (P := fun _ => True) (by simpa only [and_true] using classifyRow_durableExact)]
  refine exists_congr fun row => and_congr_right fun _ => and_congr_right fun _ => and_iff_left ?_
  obtain ⟨digest, hdig⟩ := t.exists_mem_verifiedDigests row
  exact ⟨digest, hdig, trivial⟩

theorem mem_completed_iff :
    id ∈ (t.classifyRemoteOps C ops ids).completed ↔
      ∃ row, t.Settled row ∧ row.opId = id ∧ Agree ops id row.envelope ∧ t.Vouched C row := by
  rw [mem_classes hids rfl classifyRow_completed]
  refine exists_congr fun row => and_congr_right fun _ => and_congr_right fun _ => and_congr_right fun _ => ?_
  rw [Vouched, ← some_mem_verifiedDigests]
  constructor
  · rintro ⟨digest, hdig, hlocal | heq⟩
    · exact .inl hlocal
    · exact .inr (heq ▸ hdig)
  · rintro (hlocal | hmem)
    · obtain ⟨digest, hdig⟩ := t.exists_mem_verifiedDigests row
      exact ⟨digest, hdig, .inl hlocal⟩
    · exact ⟨_, hmem, .inr rfl⟩

end Order

/-- The two sets depend on the content of the batch alone. -/
theorem remote_ops_classified (C : Crypto) (t : RemoteOpTables) {ops ops' : List SignedOp}
    (hperm : ops'.Perm ops) {ids ids' : List OpId} (hids : ids.Perm (candidates C ops).keys)
    (hids' : ids'.Perm (candidates C ops').keys) :
    t.classifyRemoteOps C ops' ids' = t.classifyRemoteOps C ops ids ∧ ∀ id,
      (id ∈ (t.classifyRemoteOps C ops ids).durableExact ↔
        ∃ row, t.Settled row ∧ row.opId = id ∧ Agree ops id row.envelope) ∧
      (id ∈ (t.classifyRemoteOps C ops ids).completed ↔
        ∃ row, t.Settled row ∧ row.opId = id ∧ Agree ops id row.envelope ∧ t.Vouched C row) := by
  refine ⟨?_, fun id => ⟨mem_durableExact_iff hids, mem_completed_iff hids⟩⟩
  apply RemoteOpClassification.ext
  · ext id
    rw [mem_durableExact_iff hids', mem_durableExact_iff hids]
    simp only [agree_perm hperm]
  · ext id
    rw [mem_completed_iff hids', mem_completed_iff hids]
    simp only [agree_perm hperm]

def first : SignedOp := plainPut (padTo 32 [5]) 10

def second : SignedOp := plainPut (padTo 32 [5]) 11

def mixedBatch : List SignedOp := [second, first, { second with sig := Wire.fill 64 1 }, second, first]

def rowFor (op : SignedOp) : OplogRow where
  key := .of op.orderKey
  row := ⟨op.body.store, "notes", "k"⟩
  payload := op.body.payload.1
  envelope := op.toBytes
  origin := originRemote
  applied := true

def mixedTables : RemoteOpTables where
  oplog := [rowFor first, rowFor second]
  pending := []
  verified := [⟨first.id, plainCrypto.sha256 first.toBytes⟩]

theorem mixed_batch_classified :
    mixedTables.classifyRemoteOps plainCrypto mixedBatch.reverse
        (candidates plainCrypto mixedBatch.reverse).keys.reverse =
      mixedTables.classifyRemoteOps plainCrypto mixedBatch (candidates plainCrypto mixedBatch).keys ∧
    mixedTables.classifyRemoteOps plainCrypto mixedBatch (candidates plainCrypto mixedBatch).keys =
      ⟨{first.id}, {first.id}⟩ :=
  ⟨(remote_ops_classified plainCrypto mixedTables mixedBatch.reverse_perm (.refl _) (List.reverse_perm _)).1,
    by decide +kernel⟩

end ProxyNode.RemoteOpTables
