import Mathlib.Data.List.FinRange
import Mathlib.Data.Fintype.Basic
import Mathlib.Algebra.Order.Ring.Nat
import Mpedb.Lib.Transition

/-!
# The intent ring

Write requests arrive as intents in a fixed table of slots. The holder of the writer lock leads: it
resolves what a dead predecessor left (`recoverOrphans`), collects the ready intents, executes them
in one transaction, stamps each slot with its number and commits; the results are posted after the
commit. A step is one ring function or one commit, and a process may die between any two steps.
-/

namespace Mpedb.Ring

/-- `RING_SLOTS`. -/
abbrev ringSlots : ℕ := 256

instance : NeZero ringSlots := ⟨by decide⟩

/-- `RING_PARAMS_CAP`. -/
def ringParamsCap : ℕ := 824

/-- `RING_ERR_MSG_CAP`. -/
def ringErrMsgCap : ℕ := 126

/-- The state of a slot. -/
inductive SlotState
  | empty
  | reserved
  | ready
  | done
  deriving DecidableEq, Repr

/-- The header word of a slot. -/
structure Header where
  pid : ℕ
  gen : ℕ
  state : SlotState
  deriving DecidableEq, Repr

/-- The generation has 30 bits. -/
def pack (pid gen : ℕ) (state : SlotState) : Header := ⟨pid, gen % 2 ^ 30, state⟩

/-- A slot of the table. `intent` is the serial number of the enqueue that filled the slot; the
program does not store it, since two intents may carry the same plan and parameters. -/
structure Slot where
  header : Header
  resultState : Bool
  errCode : ℕ
  affected : ℕ
  committedIn : ℕ
  planHash : List UInt8
  params : List UInt8
  errMsg : List UInt8
  intent : ℕ
  deriving DecidableEq, Repr

/-- A slot that nobody has used. -/
def emptySlot : Slot := ⟨pack 0 0 .empty, false, 0, 0, 0, [], [], [], 0⟩

/-- The slots of the ring. -/
abbrev Slots := Fin ringSlots → Slot

/-- What the owner of an intent reads back. -/
structure RingResult where
  affected : ℕ
  errCode : ℕ
  errMsg : List UInt8
  deriving DecidableEq, Repr

/-- An intent as a leader collects it. -/
structure PendingIntent where
  idx : Fin ringSlots
  word : Header
  hash : List UInt8
  params : List UInt8
  intent : ℕ
  deriving DecidableEq, Repr

/-- The order in which a process looks for a free slot. -/
def scanOrder (pid : ℕ) : List (Fin ringSlots) :=
  (List.finRange ringSlots).map (Fin.ofNat ringSlots (pid * 2654435761 % 2 ^ 32) + ·)

/-- The owner fills a slot and makes it ready. -/
def publish (s : Slot) (pid : ℕ) (hash params : List UInt8) (intent : ℕ) : Slot :=
  { header := pack pid (s.header.gen + 1) .ready
    resultState := false
    errCode := 0
    affected := 0
    committedIn := 0
    planHash := hash
    params := params
    errMsg := s.errMsg
    intent := intent }

/-- `enqueue`: the first free slot gets the intent. -/
def enqueue (slots : Slots) (pid : ℕ) (hash params : List UInt8) (intent : ℕ) :
    Option (Slots × Fin ringSlots × Header) :=
  if params.length > ringParamsCap then none
  else match (scanOrder pid).find? fun i => (slots i).header.state = .empty with
    | none => none
    | some i =>
      let s := publish (slots i) pid hash params intent
      some (Function.update slots i s, i, s.header)

/-- `read_result`. -/
def readResult (s : Slot) : RingResult :=
  { affected := s.affected
    errCode := s.errCode
    errMsg := if s.errCode ≠ 0 then s.errMsg.take ringErrMsgCap else [] }

/-- `wait_result` and `try_take_result`: the posted result, if there is one. -/
def tryTakeResult (s : Slot) : Option RingResult :=
  if s.resultState then some (readResult s) else none

/-- `release_slot`, if the slot is still the owner's. -/
def releaseSlot (owned : Header) (s : Slot) : Slot :=
  if s.header = { owned with state := .done } ∨ s.header = { owned with state := .ready } then
    { s with header := pack 0 (owned.gen + 1) .empty }
  else s

/-- Posts the staged result. The header moves on only if it is still the word the leader saw. -/
def postDone (word : Header) (s : Slot) : Slot :=
  { s with
    resultState := true
    header := if s.header = word then { word with state := .done } else s.header }

/-- `recover_orphans` on one slot: a stamped intent is done if its commit is in. -/
def recoverSlot (committed : ℕ) (s : Slot) : Slot :=
  if s.committedIn = 0 then s
  else if s.header.state ≠ .ready then s
  else if s.committedIn ≤ committed then postDone s.header s
  else { s with committedIn := 0 }

/-- `recover_orphans`. -/
def recoverOrphans (committed : ℕ) (slots : Slots) : Slots :=
  fun i => recoverSlot committed (slots i)

/-- `reclaim_dead` on one slot: what a dead process reserved or never took is emptied. -/
def reclaimSlot (dead : List ℕ) (s : Slot) : Slot :=
  if s.header.state ≠ .reserved ∧ s.header.state ≠ .done then s
  else if s.header.pid ∈ dead then { s with header := pack 0 (s.header.gen + 1) .empty }
  else s

/-- `reclaim_dead`. -/
def reclaimDead (dead : List ℕ) (slots : Slots) : Slots := fun i => reclaimSlot dead (slots i)

/-- `collect_ready` on one slot. -/
def collectSlot (slots : Slots) (i : Fin ringSlots) : Option PendingIntent :=
  let s := slots i
  if s.header.state ≠ .ready ∨ s.committedIn ≠ 0 then none
  else if s.params.length > ringParamsCap then none
  else some ⟨i, s.header, s.planHash, s.params, s.intent⟩

/-- `collect_ready`. -/
def collectReady (slots : Slots) : List PendingIntent :=
  (List.finRange ringSlots).filterMap (collectSlot slots)

/-- The result of an intent and the commit that will carry it. -/
def stageSlot (affected errCode : ℕ) (errMsg : List UInt8) (nextTxn : ℕ) (s : Slot) : Slot :=
  { s with
    affected := affected
    errCode := errCode
    errMsg := if errCode ≠ 0 then errMsg.take ringErrMsgCap else s.errMsg
    committedIn := nextTxn }

/-- Changes one slot. -/
def modifySlot (slots : Slots) (i : Fin ringSlots) (f : Slot → Slot) : Slots :=
  Function.update slots i (f (slots i))

/-! ## Errors

The codes of `encode_error`; zero is success. -/

/-- The errors that an intent can end with. -/
inductive RingError
  | primaryKeyViolation
  | uniqueViolation
  | notNullViolation
  | checkViolation
  | typeMismatch
  | wrongParamCount
  | unknownPlan
  | planInvalidated
  | dbFull
  | corrupt
  | other
  deriving DecidableEq, Repr

/-- The code of an error in a slot. -/
def RingError.code : RingError → ℕ
  | .primaryKeyViolation => 1
  | .uniqueViolation => 2
  | .notNullViolation => 3
  | .checkViolation => 4
  | .typeMismatch => 5
  | .wrongParamCount => 6
  | .unknownPlan => 7
  | .planInvalidated => 8
  | .dbFull => 9
  | .corrupt => 10
  | .other => 255

/-- An error with its message. -/
structure Failure where
  kind : RingError
  msg : List UInt8
  deriving DecidableEq, Repr

/-- What executing one batch member came to. A failed execution reports whether `undo_is_exact`
holds; `residue` says whether the rollback to the savepoint left any of the statement's effects. -/
inductive Outcome
  | ok (affected : ℕ)
  | unprepared (e : Failure)
  | failed (e : Failure) (undoIsExact residue : Bool)
  deriving DecidableEq, Repr

/-- How the leader's own statement ends. -/
inductive OwnOutcome
  | ok
  | failed (undoIsExact : Bool)
  deriving DecidableEq, Repr

/-- A commit publishes and is acknowledged, fails before the meta slot is written, or fails when the
meta slot is written and its sync returns an error. -/
inductive CommitOutcome
  | ok
  | unpublished
  | published
  deriving DecidableEq, Repr

/-- An intent in a round, perhaps with its verdict from an earlier try. -/
structure Member where
  intent : PendingIntent
  predecided : Option Failure
  deriving DecidableEq, Repr

/-- The caller's own statement, which runs after the batch. -/
inductive OwnState
  | absent
  | pending
  | predecided
  | failed
  | ok
  deriving DecidableEq, Repr

/-- One attempt at a batch: `done` are staged, `todo` are still to execute, and `effects` are the
intents whose effects the write transaction holds. -/
structure Round where
  done : List Member
  todo : List Member
  effects : List ℕ
  own : OwnState
  deriving DecidableEq, Repr

/-- The slots of the members that are staged. -/
def Round.staged (r : Round) : List (Fin ringSlots × Header) :=
  r.done.map fun m => (m.intent.idx, m.intent.word)

/-- `txn.restart()`: the attempt is thrown away and the batch replayed. -/
def Round.restart (r : Round) (cur : List Member) : Round :=
  { r with done := [], todo := r.done ++ cur, effects := [] }

/-- What the holder of the lock is doing. -/
inductive Writer
  | direct
  | begun (own : Bool)
  | recovered (own : Bool)
  | reclaimed (own : Bool)
  | round (r : Round)
  | posting (staged : List (Fin ringSlots × Header))
  deriving DecidableEq, Repr

/-- The writer lock. `orphaned` is a lock whose owner died. `base` is the number of the meta the
holder's transaction started from. -/
inductive Lock
  | free
  | orphaned
  | held (pid base : ℕ) (w : Writer)
  deriving DecidableEq, Repr

/-- What the owner of an intent keeps. -/
structure Ticket where
  pid : ℕ
  idx : Fin ringSlots
  owned : Header
  intent : ℕ
  deriving DecidableEq, Repr

/-- The ring is used with the two durable modes. -/
inductive Durability
  | commit
  | wal
  deriving DecidableEq, Repr

/-- `committed` lists, for each committed transaction, the intents whose effects it holds.
`unacked` is a meta that a failed commit wrote and did not sync. -/
structure World where
  durability : Durability
  slots : Slots
  txnId : ℕ
  committed : List (List ℕ)
  unacked : Option (List ℕ)
  lock : Lock
  dead : List ℕ
  tickets : List Ticket
  reads : List (ℕ × RingResult)
  enqueued : ℕ

/-- The ring of a new file. -/
def World.init (d : Durability) (txnId : ℕ) : World :=
  { durability := d
    slots := fun _ => emptySlot
    txnId := txnId
    committed := []
    unacked := none
    lock := .free
    dead := []
    tickets := []
    reads := []
    enqueued := 0 }

/-- What processes, owners and leaders can do. -/
inductive Label
  | spawn (pid : ℕ)
  | die (pid : ℕ)
  | enqueue (pid : ℕ) (hash params : List UInt8)
  | take (t : Ticket)
  | release (t : Ticket)
  | beginDirect (pid : ℕ)
  | beginLead (pid : ℕ) (own : Bool)
  | recoverOrphans
  | reclaimDead
  | collect (order : List PendingIntent)
  | exec (o : Outcome)
  | execOwn (o : OwnOutcome)
  | abort
  | commit (o : CommitOutcome)
  | post
  | unlock
  deriving DecidableEq, Repr

/-- The successor of a dead writer takes the newest meta whose checksum holds, synced or not. -/
def recoverAfterOwnerDeath (w : World) : World :=
  match w.unacked with
  | none => w
  | some e => { w with txnId := w.txnId + 1, committed := w.committed ++ [e], unacked := none }

/-- `begin_write`: takes the lock, also from a dead owner. -/
def beginWrite (w : World) (pid : ℕ) (wr : Writer) : Option World :=
  if pid ∈ w.dead then none
  else match w.lock with
    | .free => some { w with lock := .held pid w.txnId wr }
    | .orphaned =>
      let w := recoverAfterOwnerDeath w
      some { w with lock := .held pid w.txnId wr }
    | .held _ _ _ => none

/-- A round over the collected intents. -/
def startRound (order : List PendingIntent) (own : Bool) : Round :=
  { done := []
    todo := order.map fun i => ⟨i, none⟩
    effects := []
    own := if own then .pending else .absent }

/-- The result of a member goes to its slot. -/
def stageMember (slots : Slots) (base : ℕ) (r : Round) (m : Member) (rest : List Member)
    (affected code : ℕ) (msg : List UInt8) (effects : List ℕ) : Slots × Round :=
  (modifySlot slots m.intent.idx (stageSlot affected code msg (base + 1)),
    { r with done := r.done ++ [m], todo := rest, effects := effects })

/-- Executes the next member of the batch and stages its result. A member whose failure tore the
transaction is pre-decided and the round restarts. -/
def execMember (slots : Slots) (base : ℕ) (r : Round) (o : Outcome) : Option (Slots × Round) :=
  match r.todo with
  | [] => none
  | m :: rest =>
    match m.predecided, o with
    | some e, _ => some (stageMember slots base r m rest 0 e.kind.code e.msg r.effects)
    | none, .ok a =>
      some (stageMember slots base r m rest a 0 [] (r.effects ++ [m.intent.intent]))
    | none, .unprepared e =>
      some (stageMember slots base r m rest 0 e.kind.code e.msg r.effects)
    | none, .failed e true residue =>
      some (stageMember slots base r m rest 0 e.kind.code e.msg
        (if residue then r.effects ++ [m.intent.intent] else r.effects))
    | none, .failed e false _ =>
      some (slots, r.restart ({ m with predecided := some e } :: rest))

/-- The leader's own statement, after all members. -/
def execOwn (r : Round) (o : OwnOutcome) : Option Round :=
  match r.todo, r.own, o with
  | [], .pending, .ok => some { r with own := .ok }
  | [], .pending, .failed true => some { r with own := .failed }
  | [], .pending, .failed false => some ({ r with own := .predecided }.restart [])
  | _, _, _ => none

/-- Every member has its verdict. -/
def Round.settled (r : Round) : Bool := r.todo.isEmpty && r.own != .pending

/-- The round has no effects to commit. -/
def Round.nothingToCommit (r : Round) : Bool := r.done.isEmpty && r.own != .ok

/-- The meta flip: the commit is in. -/
def World.flip (w : World) (base : ℕ) (effects : List ℕ) (next : Lock) : World :=
  { w with
    txnId := base + 1
    committed := w.committed ++ [effects]
    unacked := none
    lock := next }

/-- How a commit ends. -/
def commitAs (w : World) (base : ℕ) (effects : List ℕ) (next : Lock) :
    CommitOutcome → Option World
  | .ok => some (w.flip base effects next)
  | .unpublished => some { w with lock := .free }
  | .published =>
    match w.durability with
    | .commit => some { w with unacked := some effects, lock := .free }
    | .wal => none

/-- The steps of owners, which need no lock. -/
def stepOwner (w : World) : Label → Option World
  | .spawn pid => some { w with dead := w.dead.filter (· ≠ pid) }
  | .die pid =>
    some { w with
      dead := pid :: w.dead
      tickets := w.tickets.filter (·.pid ≠ pid)
      lock := match w.lock with
        | .held p b wr => if p = pid then .orphaned else .held p b wr
        | l => l }
  | .enqueue pid hash params =>
    if pid ∈ w.dead then none
    else match enqueue w.slots pid hash params w.enqueued with
      | none => none
      | some (slots, idx, owned) =>
        some { w with
          slots := slots
          tickets := ⟨pid, idx, owned, w.enqueued⟩ :: w.tickets
          enqueued := w.enqueued + 1 }
  | .take t =>
    if t ∈ w.tickets then
      (tryTakeResult (w.slots t.idx)).map fun r => { w with reads := (t.intent, r) :: w.reads }
    else none
  | .release t =>
    if t ∈ w.tickets ∧ t.intent ∈ w.reads.map Prod.fst then
      some { w with
        slots := modifySlot w.slots t.idx (releaseSlot t.owned)
        tickets := w.tickets.filter (· ≠ t) }
    else none
  | _ => none

/-- The steps of the holder of the lock. -/
def stepWriter (w : World) (pid base : ℕ) : Writer → Label → Option World
  | .direct, .commit o => commitAs w base [] .free o
  | .direct, .abort => some { w with lock := .free }
  | .begun own, .recoverOrphans =>
    some { w with
      slots := recoverOrphans base w.slots
      lock := .held pid base (.recovered own) }
  | .recovered own, .reclaimDead =>
    some { w with
      slots := reclaimDead w.dead w.slots
      lock := .held pid base (.reclaimed own) }
  | .reclaimed own, .collect order =>
    if order.isPerm (collectReady w.slots) then
      some { w with lock := .held pid base (.round (startRound order own)) }
    else none
  | .round r, .exec o =>
    (execMember w.slots base r o).map fun p =>
      { w with slots := p.1, lock := .held pid base (.round p.2) }
  | .round r, .execOwn o =>
    (execOwn r o).map fun r' => { w with lock := .held pid base (.round r') }
  | .round r, .abort =>
    if r.settled && r.nothingToCommit then some { w with lock := .free } else none
  | .round r, .commit o =>
    if r.settled && !r.nothingToCommit then
      commitAs w base r.effects (.held pid base (.posting r.staged)) o
    else none
  | .posting ((i, word) :: rest), .post =>
    some { w with
      slots := modifySlot w.slots i (postDone word)
      lock := .held pid base (.posting rest) }
  | .posting [], .unlock => some { w with lock := .free }
  | _, _ => none

/-- Every step of the system. -/
def step (w : World) (a : Label) : Option World :=
  match a with
  | .beginDirect pid => beginWrite w pid .direct
  | .beginLead pid own => beginWrite w pid (.begun own)
  | .spawn _ | .die _ | .enqueue _ _ _ | .take _ | .release _ => stepOwner w a
  | _ => match w.lock with
    | .held pid base wr => stepWriter w pid base wr a
    | _ => none

/-- The number of committed transactions that hold the intent's effects. -/
def World.landings (w : World) (intent : ℕ) : ℕ := w.committed.countP (intent ∈ ·)

/-- A success was read for an intent that one committed transaction holds, an error for an intent
that none holds. -/
def ExactlyOnce (w : World) : Prop :=
  ∀ p ∈ w.reads, w.landings p.1 = if p.2.errCode = 0 then 1 else 0

/-- A writer that does not lead a round holds the lock. -/
def Lock.isDirect : Lock → Bool
  | .held _ _ .direct => true
  | _ => false

/-- No ready slot is stamped for a transaction that is not committed. -/
def NoneStaged (w : World) : Prop :=
  ∀ i, (w.slots i).header.state = .ready → (w.slots i).committedIn ≤ w.txnId

/-- The condition on a step and the state before it: a writer that does not lead a round commits
only when no intent is staged, the lock is taken over from a dead writer only when no failed commit
has left its meta behind, and a rollback that is taken for exact is exact. -/
def Admissible (w : World) : Label → Prop
  | .commit _ => w.lock.isDirect → NoneStaged w
  | .beginDirect _ => w.lock = .orphaned → w.unacked = none
  | .beginLead _ _ => w.lock = .orphaned → w.unacked = none
  | .exec (.failed _ true residue) => residue = false
  | _ => True

instance (w : World) : Decidable (NoneStaged w) := inferInstanceAs (Decidable (∀ _, _ → _))

instance (w : World) : (a : Label) → Decidable (Admissible w a)
  | .commit _ => inferInstanceAs (Decidable (_ → NoneStaged w))
  | .beginDirect _ | .beginLead _ _ => inferInstanceAs (Decidable (_ → _))
  | .exec (.failed _ true residue) => inferInstanceAs (Decidable (residue = false))
  | .exec (.failed _ false _) | .exec (.ok _) | .exec (.unprepared _) => isTrue trivial
  | .spawn _ | .die _ | .enqueue _ _ _ | .take _ | .release _ => isTrue trivial
  | .recoverOrphans | .reclaimDead | .collect _ | .execOwn _ => isTrue trivial
  | .abort | .post | .unlock => isTrue trivial

end Mpedb.Ring
