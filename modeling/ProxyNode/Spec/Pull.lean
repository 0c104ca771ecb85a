import ProxyNode.Spec.Log

/-! Wire types of the two-channel mesh pull. Texts are carried by what they decode to: a
hex field by its bytes, `none` for a text that does not decode, and a page entry by the
bytes behind its base64. -/

namespace ProxyNode

def pullVersion : ℕ := 1

/-- The crate's page cap and byte governor, kept as parameters. -/
structure PageLimits where
  pageLimitMax : ℕ
  pageByteBudget : ℕ
  pageLimitMax_pos : 0 < pageLimitMax
  pageByteBudget_pos : 0 < pageByteBudget

def PageLimits.shipped : PageLimits where
  pageLimitMax := 8192
  pageByteBudget := 32 * 1024 * 1024
  pageLimitMax_pos := by decide
  pageByteBudget_pos := by decide

structure RelayCursor where
  epoch : Epoch
  after : ℕ
deriving DecidableEq

inductive PullPhase
  | backfill
  | keyed
deriving DecidableEq

structure Resume where
  phase : PullPhase
  afterSeq : ℕ
  origin : Option DeviceId
  afterKey : Option OrderKey
deriving DecidableEq

/-- Per-origin high-water claims; a claim is a key of the origin it is filed under, as
the wire decoder enforces. -/
structure CoverageVector where
  claims : SortedMap DeviceId OrderKey
  own : ∀ origin key, claims.get? origin = some key → key.device = origin

namespace CoverageVector

def new : CoverageVector := ⟨∅, by simp⟩

def covers (c : CoverageVector) (key : OrderKey) : Bool :=
  (c.claims.get? key.device).any fun claim => decide (key ≤ claim)

end CoverageVector

structure PullRequest where
  version : ℕ
  coverage : CoverageVector
  relayEpoch : Option Epoch
  relayAfter : ℕ
  resume : Option Resume
  limit : ℕ
  audit : Bool
  store : Option (List Byte)
  issuedAtMs : ℤ

/-- A page entry: the envelope its base64 text decodes to, if it does. -/
abbrev PageEntry := Option (List Byte)

def PageEntry.length (entry : PageEntry) : ℕ :=
  entry.elim 0 fun envelope => Wire.base64Length envelope.length

structure PullPage where
  version : ℕ
  epoch : Option Epoch
  reset : Bool
  floor : ℕ
  backfill : List (ℕ × PageEntry)
  keyed : List PageEntry
  nextRelaySeq : ℕ
  headSeq : ℕ
  resume : Option Resume
  complete : Bool
  snapshotRecommended : Bool
  store : Option (List Byte)

instance : DecidableEq CoverageVector := fun a b =>
  decidable_of_iff (a.claims.entries = b.claims.entries) ⟨fun h => by
    obtain ⟨⟨entries, _⟩, _⟩ := a
    obtain ⟨⟨entries', _⟩, _⟩ := b
    obtain rfl : entries = entries' := h
    rfl, fun h => by rw [h]⟩

deriving instance DecidableEq for PullRequest, PullPage

end ProxyNode
