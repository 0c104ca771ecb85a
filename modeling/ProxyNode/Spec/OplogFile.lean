import ProxyNode.Spec.Daemon

/-! The op-log file over many lives: a writer appends to it, a crash cuts it at some byte,
a replay reads what is left and cuts off the torn frame, and the next writer opens it. -/

namespace ProxyNode

open Wire

structure OplogWriter where
  file : DurableFile
  poisoned : Bool

namespace OplogWriter

/-- `open`: writing goes on at the end of the file. -/
def openFile (file : DurableFile) : OplogWriter := ⟨file, false⟩

/-- The error is `none` where the call returns `Ok`. -/
def append (writer : OplogWriter) (op : SignedOp) (outcome : WriteOutcome) : OplogWriter × Option String :=
  if writer.poisoned then
    (writer, some "op-log writer poisoned: a torn frame could not be rolled back")
  else match outcome with
    | .noMetadata => (writer, some "op-log file io error")
    | .written => ({ writer with file := writer.file.write (frame op.toBytes) }, none)
    | .failed bytes setLen seek =>
      let start := writer.file.bytes.length
      let torn := writer.file.write ((frame op.toBytes).take bytes)
      -- the seek is tried only on a file that was cut
      (⟨if setLen then torn.setLen start else torn, !(setLen && seek)⟩, some "op-log file io error")

def appendAll (writer : OplogWriter) (calls : List (SignedOp × WriteOutcome)) : OplogWriter :=
  calls.foldl (fun writer call => (writer.append call.1 call.2).1) writer

end OplogWriter

/-- One life of the file: what its writer is asked for and how each call ends, the byte at
which the crash cuts the file, and what the replay behind it is given. -/
structure OplogCycle (C : Crypto) where
  calls : List (SignedOp × WriteOutcome)
  cut : ℕ
  registry : DeviceRegistry C
  log : OpLog

namespace OplogCycle

variable {C : Crypto}

def crashed (cycle : OplogCycle C) (file : DurableFile) : DurableFile :=
  ((OplogWriter.openFile file).appendAll cycle.calls).file.setLen cycle.cut

def replay (cycle : OplogCycle C) (file : DurableFile) : OpLog × DurableFile :=
  replayOplogFile cycle.registry (cycle.crashed file) cycle.log

def run (cycles : List (OplogCycle C)) (file : DurableFile) : DurableFile :=
  cycles.foldl (fun file cycle => (cycle.replay file).2) file

/-- The appended ops have the current version and fit a frame. -/
def Frameable (cycle : OplogCycle C) : Prop :=
  ∀ call ∈ cycle.calls, call.1.body.v = envelopeVersion ∧ call.1.toBytes.length < 2 ^ 32

end OplogCycle

/-! ## Reads that fail -/

/-- A reader over a file: the bytes it has not returned yet, and after how many of them a read
fails with another error than the end of the file. -/
structure FaultyReader where
  bytes : List Byte
  fault : ℕ

inductive ReadError
  | unexpectedEof
  | other

/-- `read_exact`. A fault at the end of the file comes instead of the end. -/
def FaultyReader.readExact (reader : FaultyReader) (n : ℕ) : Except ReadError (List Byte × FaultyReader) :=
  if n ≤ reader.bytes.length ∧ n ≤ reader.fault then
    .ok (reader.bytes.take n, ⟨reader.bytes.drop n, reader.fault - n⟩)
  else if reader.fault ≤ reader.bytes.length then .error .other
  else .error .unexpectedEof

inductive ReplayEnd
  | endOfFile
  | undecodable
  | readFailed (inBody : Bool)
deriving DecidableEq

structure ReplayReads where
  log : OpLog
  validEnd : ℕ
  ended : ReplayEnd

/-- The loop. The read of a length tells the end of the file from other errors, the read of a
frame does not: both end the loop there. -/
def replayReads {C : Crypto} (registry : DeviceRegistry C) : ℕ → FaultyReader → OpLog → ReplayReads
  | 0, _, log => ⟨log, 0, .endOfFile⟩
  | fuel + 1, reader, log =>
    match reader.readExact 4 with
    | .error .unexpectedEof => ⟨log, 0, .endOfFile⟩
    | .error .other => ⟨log, 0, .readFailed false⟩
    | .ok (len, reader) =>
      match reader.readExact (ofLe32 len) with
      | .error .unexpectedEof => ⟨log, 0, .endOfFile⟩
      | .error .other => ⟨log, 0, .readFailed true⟩
      | .ok (frame, reader) =>
        match replayFrame registry log frame with
        | none => ⟨log, 0, .undecodable⟩
        | some log =>
          let r := replayReads registry fuel reader log
          { r with validEnd := 4 + frame.length + r.validEnd }

/-- `replay_oplog_file` where the read behind `fault` bytes fails: the log, the file and the
error if there is one. Only an error in the read of a length is returned. -/
def replayOplogFileReading {C : Crypto} (registry : DeviceRegistry C) (fault : ℕ) (file : DurableFile)
    (log : OpLog) :
    (OpLog × DurableFile) × Option String :=
  let r := replayReads registry (file.bytes.length + 1) ⟨file.bytes, fault⟩ log
  if r.ended = .readFailed false then ((r.log, file), some "op-log file io error")
  else ((r.log, if r.validEnd < file.bytes.length then file.setLen r.validEnd else file), none)

def DeviceRegistry.accepts {C : Crypto} (registry : DeviceRegistry C) (op : SignedOp) : Bool :=
  match registry.keyFor op.body.device with
  | none => false
  | some key => (op.verify C key).isOk

/-- The daemon's writer is this one, over the disk's file and the daemon's mark. -/
theorem Node.writerAppend_writer {H : Host} (node : Node H) (op : SignedOp) (outcome : WriteOutcome) :
    let r := OplogWriter.append ⟨node.disk.oplog, node.daemon.poisoned⟩ op outcome
    let after := node.after (node.writerAppend op outcome).1
    after.disk.oplog = r.1.file ∧ after.daemon.poisoned = r.1.poisoned ∧
      (node.writerAppend op outcome).2 = r.2 := by
  simp only [Node.writerAppend, OplogWriter.append]
  split
  · exact ⟨rfl, rfl, rfl⟩
  · rename_i hcln
    cases outcome with
    | noMetadata => exact ⟨rfl, rfl, rfl⟩
    | written => exact ⟨rfl, rfl, rfl⟩
    | failed bytes setLen seek =>
      cases setLen
      · exact ⟨rfl, rfl, rfl⟩
      · cases seek
        · exact ⟨rfl, rfl, rfl⟩
        · exact ⟨rfl, eq_false_of_ne_true hcln, rfl⟩

end ProxyNode
