import ProxyNode.Sanity.Replay
import ProxyNode.Spec.Kv
import ProxyNode.Spec.OplogFile

/-! A failing read during the replay of the op-log file. If the read of a length fails, the
replay returns the error and leaves the file; if the read of a frame behind its length fails,
the replay takes it for a torn frame and cuts the file there, whole frames behind it included. -/

namespace ProxyNode

open Wire List

variable {C : Crypto} {registry : DeviceRegistry C}

/-! ## Where a read fails -/

/-- The read behind `fault` bytes is one for a frame's body: whole frames that decode come
before it, then a length, and less than that length is read behind it. -/
def FaultInBody (bytes : List Byte) (fault : ℕ) : Prop :=
  ∃ (payloads : List (List Byte)) (rest : List Byte), (∀ p ∈ payloads, Readable p) ∧
    bytes = payloads.flatMap frame ++ rest ∧ 4 ≤ rest.length ∧
    (payloads.flatMap frame).length + 4 ≤ fault ∧
    fault < (payloads.flatMap frame).length + 4 + ofLe32 (rest.take 4) ∧ fault ≤ bytes.length

variable {fault : ℕ}

/-- A body is not reached before a length is read. -/
theorem FaultInBody.four_le {bytes : List Byte} (h : FaultInBody bytes fault) :
    4 ≤ bytes.length ∧ 4 ≤ fault := by
  obtain ⟨payloads, rest, -, rfl, hrest, hlo, -, -⟩ := h
  rw [length_append]
  omega

theorem take_frame {payload tail : List Byte} (hlen : payload.length < 2 ^ 32) :
    ofLe32 ((frame payload ++ tail).take 4) = payload.length := by
  have h4 : (frame payload ++ tail).take 4 = le32 payload.length := by
    rw [frame, append_assoc]
    exact take_left' (le32_length _)
  rw [h4, ofLe32_le32, Nat.mod_eq_of_lt hlen]

/-- Behind a whole frame: the read fails in its body, or in one behind it that is reached. -/
theorem faultInBody_frame {payload tail : List Byte} (hlen : payload.length < 2 ^ 32) :
    FaultInBody (frame payload ++ tail) fault ↔
      4 ≤ fault ∧ fault < 4 + payload.length ∨
        Readable payload ∧ 4 + payload.length ≤ fault ∧ FaultInBody tail (fault - (4 + payload.length)) := by
  have htake : ofLe32 ((frame payload ++ tail).take 4) = payload.length := take_frame hlen
  constructor
  · rintro ⟨payloads, rest, hread, heq, hrest, hlo, hhi, hle⟩
    cases payloads with
    | nil =>
      rw [flatMap_nil, nil_append] at heq
      rw [← heq, htake, flatMap_nil, length_nil] at hhi
      rw [flatMap_nil, length_nil] at hlo
      exact .inl ⟨by omega, by omega⟩
    | cons p ps =>
      have hp := hread p mem_cons_self
      rw [flatMap_cons, append_assoc] at heq
      obtain ⟨rfl, rfl⟩ := frame_append_inj hlen hp.1 heq
      rw [flatMap_cons, length_append, length_frame] at hlo hhi
      rw [length_append, length_frame] at hle
      refine .inr ⟨hp, by omega, ps, rest, fun q hq => hread q (mem_cons_of_mem _ hq), rfl, hrest, ?_⟩
      omega
  · rintro (⟨hlo, hhi⟩ | ⟨hread, hpast, ps, rest, hreads, rfl, hrest, hlo, hhi, hle⟩)
    · refine ⟨[], frame payload ++ tail, fun _ h => absurd h not_mem_nil, rfl, ?_, ?_, ?_, ?_⟩
      · rw [length_append, length_frame]
        omega
      · rw [flatMap_nil, length_nil]
        omega
      · rw [htake, flatMap_nil, length_nil]
        omega
      · rw [length_append, length_frame]
        omega
    · refine ⟨payload :: ps, rest, forall_mem_cons.2 ⟨hread, hreads⟩, ?_, hrest, ?_⟩
      · rw [flatMap_cons, append_assoc]
      · rw [flatMap_cons, length_append, length_frame]
        rw [length_append] at hle
        rw [length_append, length_frame, length_append]
        omega

/-! ## The loop -/

theorem readExact_cases (reader : FaultyReader) (n : ℕ) :
    (n ≤ reader.bytes.length ∧ n ≤ reader.fault ∧
      reader.readExact n = .ok (reader.bytes.take n, ⟨reader.bytes.drop n, reader.fault - n⟩)) ∨
    (reader.fault < n ∧ reader.fault ≤ reader.bytes.length ∧ reader.readExact n = .error .other) ∨
    (reader.bytes.length < n ∧ reader.bytes.length < reader.fault ∧
      reader.readExact n = .error .unexpectedEof) := by
  rw [FaultyReader.readExact]
  by_cases hok : n ≤ reader.bytes.length ∧ n ≤ reader.fault
  · exact .inl ⟨hok.1, hok.2, if_pos hok⟩
  · rw [if_neg hok]
    by_cases hfault : reader.fault ≤ reader.bytes.length
    · exact .inr (.inl ⟨by omega, hfault, if_pos hfault⟩)
    · exact .inr (.inr ⟨by omega, by omega, if_neg hfault⟩)

/-- One turn of the loop: a whole frame is read, or the read of a length or of a body fails, or
the file ends before a whole frame. -/
theorem replayReads_turn (registry : DeviceRegistry C) (fuel : ℕ) (bytes : List Byte) (fault : ℕ) (log : OpLog) :
    (∃ payload tail, payload.length < 2 ^ 32 ∧ bytes = frame payload ++ tail ∧ 4 + payload.length ≤ fault ∧
      replayReads registry (fuel + 1) ⟨bytes, fault⟩ log =
        match replayFrame registry log payload with
        | none => ⟨log, 0, .undecodable⟩
        | some log =>
          let r := replayReads registry fuel ⟨tail, fault - (4 + payload.length)⟩ log
          { r with validEnd := 4 + payload.length + r.validEnd }) ∨
    (fault < 4 ∧ fault ≤ bytes.length ∧
      replayReads registry (fuel + 1) ⟨bytes, fault⟩ log = ⟨log, 0, .readFailed false⟩) ∨
    (4 ≤ fault ∧ fault < 4 + ofLe32 (bytes.take 4) ∧ fault ≤ bytes.length ∧
      replayReads registry (fuel + 1) ⟨bytes, fault⟩ log = ⟨log, 0, .readFailed true⟩) ∨
    (bytes.length < fault ∧ (∀ payload tail, payload.length < 2 ^ 32 → bytes ≠ frame payload ++ tail) ∧
      replayReads registry (fuel + 1) ⟨bytes, fault⟩ log = ⟨log, 0, .endOfFile⟩) := by
  rcases readExact_cases ⟨bytes, fault⟩ 4 with ⟨h4, hf4, hlen⟩ | ⟨hlt, hle, hlen⟩ | ⟨hlt, hend, hlen⟩
  · dsimp only at h4 hf4 hlen
    have htake : takeBytes 4 bytes = some (bytes.take 4, bytes.drop 4) := if_pos h4
    generalize hn : ofLe32 (bytes.take 4) = n
    rcases readExact_cases ⟨bytes.drop 4, fault - 4⟩ n with
      ⟨hb, hfb, hbody⟩ | ⟨hlt, hle, hbody⟩ | ⟨hlt, hend, hbody⟩
    · dsimp only at hb hfb hbody
      generalize hpay : (bytes.drop 4).take n = payload
      have hpl : payload.length = n := by rw [← hpay, length_take_of_le hb]
      obtain ⟨hsml, hbyt⟩ : payload.length < 2 ^ 32 ∧ bytes = frame payload ++ (bytes.drop 4).drop n := by
        refine eq_frame_append htake ?_
        rw [hn, takeBytes, if_pos hb, hpay]
      refine .inl ⟨payload, (bytes.drop 4).drop n, hsml, hbyt, by omega, ?_⟩
      rw [replayReads, hlen]
      dsimp only
      rw [hn, hbody]
      dsimp only
      rw [hpay]
      cases replayFrame registry log payload with
      | none => rfl
      | some log' =>
        dsimp only
        rw [hpl, Nat.sub_sub]
    · dsimp only at hlt hle hbody
      rw [length_drop] at hle
      refine .inr (.inr (.inl ⟨hf4, by omega, by omega, ?_⟩))
      rw [replayReads, hlen]
      dsimp only
      rw [hn, hbody]
    · dsimp only at hlt hend hbody
      rw [length_drop] at hlt hend
      refine .inr (.inr (.inr ⟨by omega, fun payload tail hsml hbyt => ?_, ?_⟩))
      · rw [hbyt, take_frame hsml] at hn
        rw [hbyt, length_append, length_frame] at hlt
        omega
      · rw [replayReads, hlen]
        dsimp only
        rw [hn, hbody]
  · refine .inr (.inl ⟨hlt, hle, ?_⟩)
    rw [replayReads, hlen]
  · refine .inr (.inr (.inr ⟨hend, fun payload tail _ hbyt => ?_, ?_⟩))
    · dsimp only at hlt
      rw [hbyt, length_append, length_frame] at hlt
      omega
    · rw [replayReads, hlen]

/-- The loop ends in the read of a body exactly if that is where the read fails. -/
theorem readFailed_inBody (registry : DeviceRegistry C) (fuel : ℕ) (bytes : List Byte) (fault : ℕ) (log : OpLog)
    (hfuel : bytes.length < fuel) :
    (replayReads registry fuel ⟨bytes, fault⟩ log).ended = .readFailed true ↔ FaultInBody bytes fault := by
  induction fuel generalizing bytes fault log with
  | zero => exact absurd hfuel (Nat.not_lt_zero _)
  | succ fuel ih =>
    rcases replayReads_turn registry fuel bytes fault log with
      ⟨payload, tail, hsml, rfl, hpast, hturn⟩ | ⟨hlt, -, hturn⟩ | ⟨hf4, hlt, hle, hturn⟩ | ⟨hlt, -, hturn⟩
    · rw [hturn, faultInBody_frame hsml]
      have hbef : ¬ (4 ≤ fault ∧ fault < 4 + payload.length) := by omega
      cases hframe : replayFrame registry log payload with
      | none =>
        refine iff_of_false nofun ?_
        rintro (h | ⟨hread, -⟩)
        · exact hbef h
        · obtain ⟨log', hlog⟩ := replayFrame_readable registry log hread
          cases hframe.symm.trans hlog
      | some log' =>
        have hread : Readable payload := ⟨hsml, (replayFrame_spec hframe).1⟩
        rw [length_append, length_frame] at hfuel
        dsimp only
        rw [ih tail _ log' (by omega)]
        constructor
        · exact fun h => Or.inr ⟨hread, hpast, h⟩
        · rintro (h | ⟨-, -, h⟩)
          · exact absurd h hbef
          · exact h
    · rw [hturn]
      exact iff_of_false nofun fun h => absurd h.four_le.2 (Nat.not_le.2 hlt)
    · rw [hturn]
      refine iff_of_true rfl ⟨[], bytes, fun _ h => absurd h not_mem_nil, rfl, by omega, ?_⟩
      rw [flatMap_nil, length_nil]
      omega
    · rw [hturn]
      refine iff_of_false nofun ?_
      rintro ⟨_, _, -, -, -, -, -, hle⟩
      omega

/-! ## Without a fault -/

/-- Where no read fails, the loop is the scan over whole frames. -/
theorem replayReads_calm (registry : DeviceRegistry C) (fuel : ℕ) (bytes : List Byte) (fault : ℕ) (log : OpLog)
    (h : bytes.length < fault) :
    let r := replayReads registry fuel ⟨bytes, fault⟩ log
    (r.log, r.validEnd) = scanFrames (replayFrame registry) fuel bytes log ∧
      ∀ inBody, r.ended ≠ .readFailed inBody := by
  induction fuel generalizing bytes fault log with
  | zero => exact ⟨rfl, nofun⟩
  | succ fuel ih =>
    rcases replayReads_turn registry fuel bytes fault log with
      ⟨payload, tail, hsml, rfl, -, hturn⟩ | ⟨-, hle, -⟩ | ⟨-, -, hle, -⟩ | ⟨-, hshort, hturn⟩
    · rw [hturn, scanFrames_frame hsml]
      cases replayFrame registry log payload with
      | none => exact ⟨rfl, nofun⟩
      | some log' =>
        rw [length_append, length_frame] at h
        obtain ⟨hsame, hcalm⟩ := ih tail (fault - (4 + payload.length)) log' (by omega)
        dsimp only
        rw [← hsame, length_frame]
        exact ⟨rfl, hcalm⟩
    · omega
    · omega
    · rw [hturn]
      rcases frame_or_stop (replayFrame registry) bytes with ⟨payload, tail, hsml, hbyt⟩ | hstop
      · exact absurd hbyt (hshort payload tail hsml)
      · exact ⟨(hstop _ log).symm, nofun⟩

theorem replayOplogFileReading_calm (file : DurableFile) (log : OpLog) (h : file.bytes.length < fault) :
    replayOplogFileReading registry fault file log = (replayOplogFile registry file log, none) := by
  obtain ⟨hsame, hcalm⟩ := replayReads_calm registry (file.bytes.length + 1) file.bytes fault log h
  rw [replayOplogFileReading, if_neg (hcalm false), replayOplogFile, ← scanFrames_fuel _ _ _ _ le_rfl, ← hsame]

/-! ## The file -/

/-- A failed read is returned and leaves the file, and the file is cut only behind a read to its
end or to a frame that does not decode. -/
def ReadErrorsKeepFile (registry : DeviceRegistry C) (fault : ℕ) (file : DurableFile) (log : OpLog) : Prop :=
  let ended := (replayReads registry (file.bytes.length + 1) ⟨file.bytes, fault⟩ log).ended
  let r := replayOplogFileReading registry fault file log
  ((∃ inBody, ended = .readFailed inBody) → r.2.isSome ∧ r.1.2 = file) ∧
    (r.1.2.bytes.length < file.bytes.length → ended = .endOfFile ∨ ended = .undecodable)

/-- Read errors leave the file exactly if the read that fails is not one for a frame's body. -/
theorem read_errors_keep_file_iff (registry : DeviceRegistry C) (fault : ℕ) (file : DurableFile) (log : OpLog) :
    ReadErrorsKeepFile registry fault file log ↔ ¬ FaultInBody file.bytes fault := by
  rw [← readFailed_inBody registry _ file.bytes fault log (Nat.lt_succ_self _), ReadErrorsKeepFile,
    replayOplogFileReading]
  cases hended : (replayReads registry (file.bytes.length + 1) ⟨file.bytes, fault⟩ log).ended with
  | endOfFile => exact iff_of_true ⟨nofun, fun _ => Or.inl rfl⟩ nofun
  | undecodable => exact iff_of_true ⟨nofun, fun _ => Or.inr rfl⟩ nofun
  | readFailed inBody =>
    cases inBody with
    | false => exact iff_of_true ⟨fun _ => ⟨rfl, rfl⟩, fun h => absurd h (lt_irrefl _)⟩ nofun
    | true => exact iff_of_false (fun h => absurd (h.1 ⟨true, rfl⟩).1 nofun) fun h => h rfl

/-! ## A file that a read error empties -/

namespace FailedRead

def author : Bytes 32 := padTo 32 [7]

def authors : DeviceRegistry plainCrypto := DeviceRegistry.new.insertKey author

def twoOps : DurableFile :=
  DurableFile.empty.write (frame (plainPut author 20).toBytes ++ frame (plainPut author 21).toBytes)

end FailedRead

open FailedRead in
/-- The read fails ten bytes behind the first length of a file with two whole frames, both of a
registered author: no error is returned and nothing is left of the file. -/
theorem read_error_empties_file :
    completeFrames twoOps.bytes = [(plainPut author 20).toBytes, (plainPut author 21).toBytes] ∧
      (replayOplogFile authors twoOps (.new (fill 32 5))).1.ops.entries.length = 2 ∧
      (replayReads authors (twoOps.bytes.length + 1) ⟨twoOps.bytes, 14⟩ (.new (fill 32 5))).ended =
        .readFailed true ∧
      (replayOplogFileReading authors 14 twoOps (.new (fill 32 5))).2 = none ∧
      (replayOplogFileReading authors 14 twoOps (.new (fill 32 5))).1.2.bytes = [] := by
  decide +kernel

end ProxyNode
