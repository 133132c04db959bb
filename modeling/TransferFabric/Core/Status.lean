import TransferFabric.Core.Types

/-!
The lifecycle of a transfer and the snapshot of its progress. The transition
table is the source's; the writers of the status are in the runtime modules,
and not all of them consult the table.
-/

namespace TransferFabric

inductive TransferState where
  | created | planned | reserved | queued | active | verifying | committing
  | completed | cancelled | failed | rolledBack
  deriving DecidableEq, Repr

def TransferState.isTerminal : TransferState → Bool
  | .completed | .cancelled | .failed | .rolledBack => true
  | _ => false

/-- `StateTransitionTable::table`, as the list of the entries it sets. -/
def transitions : List (TransferState × TransferState) :=
  [(.created, .planned), (.created, .failed), (.created, .cancelled),
   (.planned, .reserved), (.planned, .failed), (.planned, .cancelled),
   (.reserved, .queued), (.reserved, .rolledBack), (.reserved, .cancelled), (.reserved, .failed),
   (.queued, .active), (.queued, .cancelled), (.queued, .failed), (.queued, .rolledBack),
   (.active, .verifying), (.active, .cancelled), (.active, .failed), (.active, .rolledBack),
   (.verifying, .committing), (.verifying, .completed), (.verifying, .cancelled),
   (.verifying, .failed), (.verifying, .rolledBack),
   (.committing, .completed), (.committing, .failed), (.committing, .rolledBack)]

def TransferState.allowed (source target : TransferState) : Bool :=
  (source, target) ∈ transitions

structure TransferStatus where
  state : TransferState := .created
  error : Error := {}
  bytesScheduled : ByteCount := 0
  bytesCompleted : ByteCount := 0
  bytesVerified : ByteCount := 0
  chunkCount : ByteCount := 0
  chunksDone : ByteCount := 0
  attempt : UInt64 := 0
  deriving DecidableEq, Repr

/-- The terminal state `finalize` chooses for a transfer's result. -/
def terminalFor (e : Error) : TransferState :=
  if e.ok then .completed
  else if e.category = .cancellation then .cancelled
  else .failed

theorem terminalFor_completed (e : Error) : terminalFor e = .completed ↔ e.ok = true := by
  unfold terminalFor
  split_ifs with hok hcat
  · simp [hok]
  · simp [hok]
  · simp [hok]

theorem terminalFor_cases (e : Error) :
    terminalFor e = .completed ∨ terminalFor e = .cancelled ∨ terminalFor e = .failed := by
  unfold terminalFor
  split_ifs <;> simp

/-- The writes `run_transfer` makes to the status, one per critical section. -/
inductive StatusUpdate where
  /-- `bytes_completed` of an empty request. -/
  | emptyDone (total : ByteCount)
  | progress (completed chunksDone : ByteCount)
  | verifying
  | error (e : Error)
  | mismatch
  | verified (total : ByteCount)
  | unverified (total : ByteCount)
  deriving DecidableEq, Repr

def StatusUpdate.apply : StatusUpdate → TransferStatus → TransferStatus
  | .emptyDone total, s => { s with bytesCompleted := total }
  | .progress completed chunksDone, s => { s with bytesCompleted := completed, chunksDone }
  | .verifying, s => { s with state := .verifying }
  | .error e, s => { s with error := e }
  | .mismatch, s => { s with bytesVerified := 0 }
  | .verified total, s => { s with bytesCompleted := total, bytesVerified := total }
  | .unverified total, s => { s with bytesCompleted := total, bytesVerified := 0 }

end TransferFabric
