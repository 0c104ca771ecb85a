import ProxyNode.Base.Wire

/-! Files under crashes. An appended file keeps the bytes of its last successful sync and
anything may follow them after a crash; a file replaced by rename is one of its versions
since the last directory sync. Records are stored as frames behind a 32-bit length, and a
scan folds over them until one is short or refused. -/

open Wire List

/-- A file with the length of the part that a crash cannot change. -/
@[ext]
structure DurableFile where
  bytes : List Byte
  synced : ℕ
  synced_le : synced ≤ bytes.length

namespace DurableFile

def empty : DurableFile := ⟨[], 0, le_rfl⟩

/-- The part of the file that a crash cannot change. -/
def durable (f : DurableFile) : List Byte := f.bytes.take f.synced

def write (f : DurableFile) (more : List Byte) : DurableFile where
  bytes := f.bytes ++ more
  synced := f.synced
  synced_le := by
    rw [List.length_append]
    exact Nat.le_add_right_of_le f.synced_le

/-- Cut the file to `n` bytes; the cut itself is not synced, but what it leaves is. -/
def setLen (f : DurableFile) (n : ℕ) : DurableFile where
  bytes := f.bytes.take n
  synced := min f.synced n
  synced_le := by
    have := f.synced_le
    rw [List.length_take]
    omega

def sync (f : DurableFile) : DurableFile := ⟨f.bytes, f.bytes.length, le_rfl⟩

/-- What a crash leaves: the synced bytes, and any others behind them. -/
def crash (f : DurableFile) (tail : List Byte) : DurableFile where
  bytes := f.durable ++ tail
  synced := f.synced
  synced_le := by
    have := f.synced_le
    rw [durable, List.length_append, List.length_take]
    omega

@[simp] theorem write_durable (f : DurableFile) (more : List Byte) : (f.write more).durable = f.durable :=
  take_append_of_le_length f.synced_le

@[simp] theorem sync_durable (f : DurableFile) : f.sync.durable = f.bytes := take_length

@[simp] theorem crash_durable (f : DurableFile) (tail : List Byte) : (f.crash tail).durable = f.durable := by
  have h : f.durable.length = f.synced := length_take_of_le f.synced_le
  calc (f.crash tail).durable = (f.durable ++ tail).take f.durable.length := by rw [h]; rfl
    _ = f.durable := take_left

theorem setLen_durable (f : DurableFile) (n : ℕ) : (f.setLen n).durable = f.durable.take n := by
  simp only [durable, setLen, take_take]
  congr 1
  omega

/-- Cutting off what was just written restores the file. -/
theorem write_setLen (f : DurableFile) (more : List Byte) : (f.write more).setLen f.bytes.length = f :=
  DurableFile.ext take_left (min_eq_left f.synced_le)

end DurableFile

/-- A file replaced as a whole: its visible version and the earlier ones that a crash may
still bring back, `none` for a file that does not exist. -/
structure AtomicFile (α : Type*) where
  current : Option α
  older : List (Option α)

namespace AtomicFile

variable {α : Type*}

def empty : AtomicFile α := ⟨none, []⟩

def versions (f : AtomicFile α) : List (Option α) := f.current :: f.older

def rename (f : AtomicFile α) (a : α) : AtomicFile α := ⟨some a, f.versions⟩

def syncDir (f : AtomicFile α) : AtomicFile α := ⟨f.current, []⟩

/-- A crash leaves one of the versions; `pick` counts back from the visible one. -/
def crash (f : AtomicFile α) (pick : ℕ) : AtomicFile α := ⟨f.versions.getD pick f.current, []⟩

theorem current_mem (f : AtomicFile α) : f.current ∈ f.versions := mem_cons_self

variable {f : AtomicFile α} {v : Option α}

@[simp] theorem mem_versions_rename {a : α} :
    v ∈ (f.rename a).versions ↔ v = some a ∨ v ∈ f.versions := mem_cons

theorem mem_versions_syncDir (h : v ∈ f.syncDir.versions) :
    v ∈ f.versions := by
  rw [versions, syncDir, mem_singleton] at h
  exact h ▸ f.current_mem

theorem mem_versions_crash {pick : ℕ} (h : v ∈ (f.crash pick).versions) :
    v ∈ f.versions := by
  rw [versions, crash, mem_singleton] at h
  rw [h, getD_eq_getElem?_getD]
  cases hp : f.versions[pick]? with
  | none => exact f.current_mem
  | some w => exact mem_of_getElem? hp

end AtomicFile

/-! ## Frames -/

namespace Wire

/-- A record behind its length; the prefix holds the length modulo `2 ^ 32`. -/
def frame (payload : List Byte) : List Byte := le32 payload.length ++ payload

@[simp] theorem length_frame (payload : List Byte) : (frame payload).length = 4 + payload.length := by
  rw [frame, length_append, le32_length]

theorem frame_append_inj {a b x y : List Byte} (ha : a.length < 2 ^ 32) (hb : b.length < 2 ^ 32)
    (h : frame a ++ x = frame b ++ y) : a = b ∧ x = y := by
  rw [frame, frame, append_assoc, append_assoc] at h
  obtain ⟨hlen, hrest⟩ := append_inj h (by rw [le32_length, le32_length])
  have hlen : a.length = b.length := by
    have hof := congrArg ofLe32 hlen
    rwa [ofLe32_le32, ofLe32_le32, Nat.mod_eq_of_lt ha, Nat.mod_eq_of_lt hb] at hof
  exact append_inj hrest hlen

section Scan

variable {σ : Type*} (step : σ → List Byte → Option σ)

/-- Fold `step` over the frames of a file until one is short or `step` refuses it. The
second component is the offset behind the last frame taken. -/
def scanFrames : ℕ → List Byte → σ → σ × ℕ
  | 0, _, s => (s, 0)
  | fuel + 1, bytes, s =>
    match takeBytes 4 bytes with
    | none => (s, 0)
    | some (len, rest) =>
      match takeBytes (ofLe32 len) rest with
      | none => (s, 0)
      | some (payload, rest) =>
        match step s payload with
        | none => (s, 0)
        | some s' =>
          let r := scanFrames fuel rest s'
          (r.1, 4 + payload.length + r.2)

variable {step}

theorem ofLe32_lt (l : List Byte) : ofLe32 l < 2 ^ 32 := by
  unfold ofLe32
  split
  · omega
  · norm_num

theorem le32_ofLe32 {l : List Byte} (h : l.length = 4) : le32 (ofLe32 l) = l := by
  match l, h with
  | [a, b, c, d], _ =>
    simp only [le32, ofLe32, byte, cons.injEq, and_true]
    refine ⟨?_, ?_, ?_, ?_⟩ <;> · apply Fin.ext; simp only [Fin.ofNat]; omega

variable {payload : List Byte}

theorem scanFrames_frame (hlen : payload.length < 2 ^ 32) (tail : List Byte) (s : σ) (fuel : ℕ) :
    scanFrames step (fuel + 1) (frame payload ++ tail) s =
      match step s payload with
      | none => (s, 0)
      | some s' =>
        ((scanFrames step fuel tail s').1, (frame payload).length + (scanFrames step fuel tail s').2) := by
  have h4 : takeBytes 4 (frame payload ++ tail) = some (le32 payload.length, payload ++ tail) :=
    takeBytes_eq_some.2 ⟨by simp [frame], le32_length _⟩
  have hp : takeBytes (ofLe32 (le32 payload.length)) (payload ++ tail) = some (payload, tail) := by
    rw [ofLe32_le32, Nat.mod_eq_of_lt hlen]
    exact takeBytes_append payload tail
  simp only [scanFrames, h4, hp, length_frame]

variable {bytes : List Byte}

/-- A length and as many bytes behind it are a frame. -/
theorem eq_frame_append {len rest tail : List Byte} (h4 : takeBytes 4 bytes = some (len, rest))
    (hp : takeBytes (ofLe32 len) rest = some (payload, tail)) :
    payload.length < 2 ^ 32 ∧ bytes = frame payload ++ tail := by
  obtain ⟨rfl, hl⟩ := takeBytes_eq_some.1 h4
  obtain ⟨rfl, hpl⟩ := takeBytes_eq_some.1 hp
  rw [frame, hpl, le32_ofLe32 hl, append_assoc]
  exact ⟨ofLe32_lt len, rfl⟩

/-- A scan stops at once unless the bytes start with a whole frame. -/
theorem frame_or_stop (step : σ → List Byte → Option σ) (bytes : List Byte) :
    (∃ payload tail, payload.length < 2 ^ 32 ∧ bytes = frame payload ++ tail) ∨
      ∀ (fuel : ℕ) (s : σ), scanFrames step fuel bytes s = (s, 0) := by
  cases h4 : takeBytes 4 bytes with
  | none =>
    refine Or.inr fun fuel s => ?_
    cases fuel with
    | zero => rfl
    | succ fuel => rw [scanFrames, h4]
  | some r =>
    obtain ⟨len, rest⟩ := r
    cases hp : takeBytes (ofLe32 len) rest with
    | none =>
      refine Or.inr fun fuel s => ?_
      cases fuel with
      | zero => rfl
      | succ fuel => simp only [scanFrames, h4, hp]
    | some r => exact Or.inl ⟨r.1, r.2, eq_frame_append h4 hp⟩

variable {payloads : List (List Byte)}

/-- A file that starts with frames the fold accepts is scanned through all of them. -/
theorem scanFrames_frames {s s' : σ} (hlen : ∀ p ∈ payloads, p.length < 2 ^ 32)
    (hstep : payloads.foldlM step s = some s') (tail : List Byte) (fuel : ℕ) :
    scanFrames step (payloads.length + fuel) (payloads.flatMap frame ++ tail) s =
      ((scanFrames step fuel tail s').1,
        (payloads.flatMap frame).length + (scanFrames step fuel tail s').2) := by
  induction payloads generalizing s with
  | nil =>
    obtain rfl : s = s' := by simpa using hstep
    simp
  | cons p ps ih =>
    rw [foldlM_cons] at hstep
    obtain ⟨t, ht, hrest⟩ := Option.bind_eq_some_iff.1 hstep
    rw [length_cons, show ps.length + 1 + fuel = ps.length + fuel + 1 by omega,
      flatMap_cons, append_assoc, scanFrames_frame (hlen p mem_cons_self), ht]
    dsimp only
    rw [ih (fun q hq => hlen q (mem_cons_of_mem _ hq)) hrest, length_append, Nat.add_assoc]

/-- What a scan went through is a sequence of frames the fold accepts. -/
theorem scanFrames_spec (step : σ → List Byte → Option σ) (fuel : ℕ) (bytes : List Byte) (s : σ) :
    ∃ payloads : List (List Byte), bytes.take (scanFrames step fuel bytes s).2 = payloads.flatMap frame ∧
      (∀ p ∈ payloads, p.length < 2 ^ 32) ∧
      payloads.foldlM step s = some (scanFrames step fuel bytes s).1 := by
  induction fuel generalizing bytes s with
  | zero => exact ⟨[], by simp [scanFrames], by simp, rfl⟩
  | succ fuel ih =>
    have stop : ∃ payloads : List (List Byte), bytes.take 0 = payloads.flatMap frame ∧
        (∀ p ∈ payloads, p.length < 2 ^ 32) ∧ payloads.foldlM step s = some s :=
      ⟨[], by simp, by simp, rfl⟩
    rcases frame_or_stop step bytes with ⟨payload, tail, hsml, rfl⟩ | hstop
    · rw [scanFrames_frame hsml]
      cases hs : step s payload with
      | none => exact stop
      | some s' =>
        obtain ⟨ps, htake, hlen, hfold⟩ := ih tail s'
        refine ⟨payload :: ps, ?_, forall_mem_cons.2 ⟨hsml, hlen⟩, ?_⟩
        · rw [flatMap_cons, ← htake, take_length_add_append]
        · rw [foldlM_cons, hs]
          exact hfold
    · rw [hstop]
      exact stop

/-- A scan needs no more fuel than there are bytes. -/
theorem scanFrames_fuel (step : σ → List Byte → Option σ) (fuel : ℕ) (bytes : List Byte) (s : σ)
    (h : bytes.length ≤ fuel) : scanFrames step (fuel + 1) bytes s = scanFrames step fuel bytes s := by
  induction fuel generalizing bytes s with
  | zero =>
    obtain rfl := eq_nil_of_length_eq_zero (Nat.le_zero.1 h)
    rfl
  | succ fuel ih =>
    rcases frame_or_stop step bytes with ⟨payload, tail, hsml, rfl⟩ | hstop
    · rw [scanFrames_frame hsml, scanFrames_frame hsml]
      rw [length_append, length_frame] at h
      cases step s payload with
      | none => rfl
      | some s' =>
        dsimp only
        rw [ih tail s' (by omega)]
    · rw [hstop, hstop]

/-! ### Torn frames -/

/-- The first bytes of a frame that was not written whole. -/
def Torn (bytes : List Byte) : Prop :=
  ∃ payload, payload.length < 2 ^ 32 ∧ bytes <+: frame payload ∧ bytes.length < (frame payload).length

theorem Torn.nil : Torn [] := ⟨[], by simp, nil_prefix, by simp⟩

theorem Torn.of_take (h : payload.length < 2 ^ 32) {n : ℕ} (hn : n < (frame payload).length) :
    Torn ((frame payload).take n) :=
  ⟨payload, h, take_prefix _ _, by rw [length_take]; omega⟩

theorem Torn.take (h : Torn bytes) (n : ℕ) : Torn (bytes.take n) := by
  obtain ⟨payload, hlen, hpre, hlt⟩ := h
  refine ⟨payload, hlen, (List.take_prefix n bytes).trans hpre, ?_⟩
  rw [length_take]
  omega

/-- A scan takes nothing off a torn frame. -/
theorem Torn.scan (h : Torn bytes) (fuel : ℕ) (s : σ) :
    scanFrames step fuel bytes s = (s, 0) := by
  rcases frame_or_stop step bytes with ⟨whole, tail, hsml, rfl⟩ | hstop
  · -- a whole frame would be the one that was not written whole
    obtain ⟨payload, hlen, ⟨missing, hframe⟩, hlt⟩ := h
    obtain ⟨rfl, -⟩ : whole = payload ∧ tail ++ missing = [] :=
      frame_append_inj hsml hlen (by rw [← append_assoc, hframe, append_nil])
    rw [length_append] at hlt
    omega
  · exact hstop fuel s

variable {torn : List Byte}

/-- Whole frames behind one another and a torn one, cut anywhere, are again that. -/
theorem take_frames (payloads : List (List Byte)) (hlen : ∀ p ∈ payloads, p.length < 2 ^ 32) (ht : Torn torn)
    (n : ℕ) :
    ∃ kept torn', kept <+: payloads ∧ Torn torn' ∧
      (payloads.flatMap frame ++ torn).take n = kept.flatMap frame ++ torn' := by
  induction payloads generalizing n with
  | nil => exact ⟨[], torn.take n, prefix_rfl, ht.take n, rfl⟩
  | cons p ps ih =>
    rw [flatMap_cons, append_assoc, take_append]
    by_cases hn : n < (frame p).length
    · refine ⟨[], (frame p).take n, nil_prefix, .of_take (hlen p mem_cons_self) hn, ?_⟩
      rw [Nat.sub_eq_zero_of_le hn.le, take_zero, append_nil]
      rfl
    · obtain ⟨kept, torn', hkept, ht', htake⟩ :=
        ih (fun q hq => hlen q (mem_cons_of_mem _ hq)) (n - (frame p).length)
      refine ⟨p :: kept, torn', cons_prefix_cons.2 ⟨rfl, hkept⟩, ht', ?_⟩
      rw [htake, take_of_length_le (not_lt.1 hn), flatMap_cons, append_assoc]

/-- A scan with enough fuel takes exactly the whole frames. -/
theorem scanFrames_torn {s s' : σ} (hlen : ∀ p ∈ payloads, p.length < 2 ^ 32) (ht : Torn torn)
    (hstep : payloads.foldlM step s = some s') {fuel : ℕ} (hfuel : payloads.length ≤ fuel) :
    scanFrames step fuel (payloads.flatMap frame ++ torn) s = (s', (payloads.flatMap frame).length) := by
  obtain ⟨more, rfl⟩ := Nat.exists_eq_add_of_le hfuel
  rw [scanFrames_frames hlen hstep torn more, ht.scan, Nat.add_zero]

/-- Frames are at least as many bytes as they are. -/
theorem length_le_flatMap_frame (payloads : List (List Byte)) :
    payloads.length ≤ (payloads.flatMap frame).length := by
  induction payloads with
  | nil => simp
  | cons p ps ih =>
    rw [flatMap_cons, length_append, length_cons, length_frame]
    omega

def completeFrames (bytes : List Byte) : List (List Byte) :=
  (scanFrames (fun payloads payload => some (payloads ++ [payload])) bytes.length bytes []).1

theorem completeFrames_torn (hlen : ∀ p ∈ payloads, p.length < 2 ^ 32) (ht : Torn torn) :
    completeFrames (payloads.flatMap frame ++ torn) = payloads := by
  have hfold : ∀ seen : List (List Byte),
      payloads.foldlM (fun payloads payload => some (payloads ++ [payload])) seen =
        some (seen ++ payloads) := by
    clear hlen
    induction payloads with
    | nil => simp
    | cons p ps ih =>
      intro seen
      rw [foldlM_cons]
      exact (ih (seen ++ [p])).trans (by simp)
  have hfuel : payloads.length ≤ (payloads.flatMap frame ++ torn).length := by
    have := length_le_flatMap_frame payloads
    rw [length_append]
    omega
  rw [completeFrames, scanFrames_torn hlen ht (hfold []) hfuel]
  rfl

end Scan

end Wire
