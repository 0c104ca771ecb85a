import ProxyNode.Base.Interleave
import ProxyNode.Base.SortedMap
import ProxyNode.Base.Text
import ProxyNode.Spec.Op

/-! The outbox of move callbacks (`sqlite/pending_edges.rs`) and the calls that work on it. Each
function is one statement on `move_callback_fires`; what a caller does between two of them may
be anything another caller does. -/

namespace ProxyNode

/-- A row of `move_callback_fires` but for its key and the time it was written. -/
structure CallbackFire where
  resolutionOpId : OpId
  dispatched : Bool
deriving DecidableEq

/-- `move_callback_fires`, by move id. -/
abbrev CallbackLedger := SortedMap Text CallbackFire

namespace CallbackLedger

/-- `INSERT OR IGNORE`: only the first fire for a move is recorded. -/
def recordMoveCallbackFire (ledger : CallbackLedger) (moveId : Text) (resolutionOpId : OpId) :
    CallbackLedger × Bool :=
  if ledger.contains moveId then (ledger, false) else (ledger.insert moveId ⟨resolutionOpId, false⟩, true)

def undispatchedMoveCallback (ledger : CallbackLedger) (moveId : Text) : Option OpId :=
  (ledger.get? moveId).bind fun fire => if fire.dispatched then none else some fire.resolutionOpId

def undispatchedMoveCallbacks (ledger : CallbackLedger) : List (Text × OpId) :=
  ledger.entries.filterMap fun (moveId, fire) =>
    if fire.dispatched then none else some (moveId, fire.resolutionOpId)

/-- Deletes the row only if it still holds `resolution`, undispatched. -/
def discardUndispatchedMoveCallback (ledger : CallbackLedger) (moveId : Text) (resolution : OpId) :
    CallbackLedger :=
  if ledger.get? moveId = some ⟨resolution, false⟩ then ledger.erase moveId else ledger

/-- Sets the row of the move dispatched, whichever resolution it holds. -/
def markMoveCallbackDispatched (ledger : CallbackLedger) (moveId : Text) : CallbackLedger :=
  match ledger.get? moveId with
  | none => ledger
  | some fire => ledger.insert moveId { fire with dispatched := true }

end CallbackLedger

/-! ## Callers -/

inductive CallbackCall
  | record (moveId : Text) (resolutionOpId : OpId)
  /-- The dispatch of one move after its commit. -/
  | dispatch (moveId : Text)
  /-- The drain at start-up. -/
  | drain
  | discard (moveId : Text) (resolution : OpId)
deriving DecidableEq

/-- Where a caller stands: what a dispatcher has read and not yet marked is kept with it. -/
inductive CallbackPoint
  | start
  | deliver (owed : List (Text × OpId))
  | mark (delivered : Text × OpId) (owed : List (Text × OpId))
  | done
deriving DecidableEq

namespace CallbackCall

def reads (call : CallbackCall) (ledger : CallbackLedger) : List (Text × OpId) :=
  match call with
  | .dispatch moveId => (ledger.undispatchedMoveCallback moveId).toList.map (moveId, ·)
  | .drain => ledger.undispatchedMoveCallbacks
  | .record _ _ | .discard _ _ => []

def step (call : CallbackCall) (point : CallbackPoint) (ledger : CallbackLedger) :
    CallbackLedger × CallbackPoint :=
  match point with
  | .start =>
    match call with
    | .record moveId resolutionOpId => ((ledger.recordMoveCallbackFire moveId resolutionOpId).1, .done)
    | .discard moveId resolution => (ledger.discardUndispatchedMoveCallback moveId resolution, .done)
    | .dispatch _ | .drain => (ledger, .deliver (call.reads ledger))
  | .deliver [] => (ledger, .done)
  -- the callbacks run here, outside the ledger
  | .deliver (next :: owed) => (ledger, .mark next owed)
  | .mark delivered owed => (ledger.markMoveCallbackDispatched delivered.1, .deliver owed)
  | .done => (ledger, .done)

end CallbackCall

namespace Callbacks

abbrev Thread := Interleave.Thread CallbackCall CallbackPoint
abbrev World := Interleave.World CallbackLedger CallbackCall CallbackPoint
abbrev Event := Interleave.Event CallbackCall

def run (events : List Event) : World := Interleave.World.run .start CallbackCall.step ⟨∅, []⟩ events

def readsAt (w : World) : Event → List (Text × OpId)
  | .call _ => []
  | .turn i =>
    match w.threads[i]? with
    | some ⟨call, .start⟩ => call.reads w.shared
    | _ => []

def readsFrom (w : World) : List Event → List (Text × OpId)
  | [] => []
  | e :: events => readsAt w e ++ readsFrom (w.next .start CallbackCall.step e) events

def readsOf (events : List Event) : List (Text × OpId) := readsFrom ⟨∅, []⟩ events

end Callbacks

end ProxyNode
