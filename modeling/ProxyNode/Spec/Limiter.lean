import ProxyNode.Base.SortedMap
import ProxyNode.Base.Text

/-! The limiter of an address: events from one source are counted in a window that opens with
an event. A call carries the time it is made at. -/

namespace ProxyNode.OAuth

/-- The windows by source: when each opened and the events counted in it. -/
structure Limiter where
  per : ℕ
  windowSecs : ℕ
  windows : SortedMap Text (ℕ × ℕ)

namespace Limiter

def new (per windowSecs : ℕ) : Limiter := ⟨per, windowSecs, ∅⟩

/-- The number of windows from which on those that are over are dropped. -/
def evictAt : ℕ := 4096

def evicted (l : Limiter) (now : ℕ) : SortedMap Text (ℕ × ℕ) :=
  if evictAt ≤ l.windows.size then l.windows.retain fun _ w => now - w.1 < l.windowSecs else l.windows

/-- The window an event at `now` falls in, as it is before the event is counted. -/
def window (l : Limiter) (source : Text) (now : ℕ) : ℕ × ℕ :=
  let w := ((l.evicted now).get? source).getD (now, 0)
  if l.windowSecs ≤ now - w.1 then (now, 0) else w

def allow (l : Limiter) (source : Text) (now : ℕ) : Limiter × Bool :=
  let w := l.window source now
  if l.per ≤ w.2 then ({ l with windows := (l.evicted now).insert source w }, false)
  else ({ l with windows := (l.evicted now).insert source (w.1, w.2 + 1) }, true)

def answers (l : Limiter) : List (Text × ℕ) → List Bool
  | [] => []
  | (source, now) :: calls => (l.allow source now).2 :: (l.allow source now).1.answers calls

def allowedIn (l : Limiter) (calls : List (Text × ℕ)) (source : Text) (t : ℕ) : ℕ :=
  (calls.zip (l.answers calls)).countP fun ((s, now), allowed) =>
    s = source ∧ t ≤ now ∧ now < t + l.windowSecs ∧ allowed

end Limiter

end ProxyNode.OAuth
