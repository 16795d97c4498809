import Cadence.Config.Basic
import Cadence.Notice
import Cadence.Playhead
import Cadence.Sync.Correction
import Cadence.Sync.Session

/-!
# Following a session

The follower is idle or follows a session. While it follows, a reconciliation reads the session
every so many beats, adopts its tempo and nudges the playhead towards its phase. Every operation
answers what it decided, the playhead and follower it leaves, and what it has to say.
-/

namespace Cadence

/-- Something the clock says: a log message, or a notice to its audience. -/
inductive Output where
  /-- A log message. -/
  | logged (message : Log.Message)
  /-- A notice. -/
  | announced (notice : Notice)
deriving Repr, DecidableEq

/-- What is remembered while a session is followed. -/
structure Following where
  /-- Beats added to the phase of the session. -/
  phaseOffset : Float
  /-- Beats between two reconciliations. -/
  resyncInterval : Float
  /-- The beat of the next reconciliation. -/
  nextResync : Float
  /-- Failed reconciliations since the last successful one. -/
  failures : UInt32
  /-- The peers that the session last reported. -/
  peers : UInt64
deriving Repr, DecidableEq

/-- The settings, the transport, and what is followed. -/
structure Follower (σ : Type) where
  /-- How to follow. -/
  settings : SyncSettings
  /-- The transport to the session. -/
  session : σ
  /-- Present while the session is followed. -/
  following : Option Following
deriving Repr, DecidableEq

/-- The state of the follower as it is reported. -/
structure SyncStatus where
  /-- A session is followed. -/
  enabled : Bool
  /-- The tempo, that of the session if it can be read. -/
  tempo : Float
  /-- The beat, that of the session if it can be read. -/
  beat : Float
  /-- The position within the quantum, that of the session if it can be read. -/
  phase : Float
  /-- Beats over which the phase is aligned. -/
  quantum : Float
  /-- How many peers take part. -/
  peerCount : UInt64
  /-- Beats added to the phase of the session. -/
  phaseOffset : Float
  /-- Beats between two reconciliations. -/
  resyncInterval : Float
  /-- Failed reconciliations since the last successful one. -/
  consecutiveFailures : UInt32
deriving Repr, DecidableEq

/-- What a reconciliation came to. -/
inductive Reconciliation where
  /-- Nothing is followed, or the session could not be read. -/
  | skipped
  /-- The playhead was corrected. -/
  | corrected (correction : Correction Float)
  /-- A correction had to be limited by settings that give no bounds, and nothing was changed. -/
  | unbounded
deriving Repr, DecidableEq

/-- What an operation of the follower leaves behind. -/
structure Follower.Outcome (σ α : Type) where
  /-- The answer. -/
  answer : α
  /-- The playhead afterwards. -/
  playhead : Playhead
  /-- The follower afterwards. -/
  follower : Follower σ
  /-- What was said, in order. -/
  outputs : List Output

/-- The correction rules that the settings lay down. -/
def SyncSettings.rules (s : SyncSettings) : CorrectionRules Float where
  tempoEpsilon := s.tempoEpsilon
  phaseTolerance := s.phaseTolerance
  gain := s.correctionGain
  limit := s.maxCorrection
  snap := s.snapAtBarStart

namespace Follower

variable {σ : Type} [Transport σ]

/-- An idle follower. -/
def idle (settings : SyncSettings) (session : σ) : Follower σ := ⟨settings, session, none⟩

/-- A log message as an output. -/
def note (level : Log.Severity) (text : String) : Output := .logged (Log.say level text)

/-- Beats over which the phase is aligned: the quantum of the settings if it is usable, a bar of
the current meter otherwise. -/
def quantum (f : Follower σ) (p : Playhead) : Float :=
  (f.settings.quantum.filter isPositive).getD p.barLength

/-- A session is followed. -/
def isEnabled (f : Follower σ) : Bool := f.following.isSome

/-- The beat of the next reconciliation. -/
def nextResync? (f : Follower σ) : Option Float := f.following.map (·.nextResync)

/-- The state that an idle follower reports: that of the playhead. -/
def localStatus (f : Follower σ) (p : Playhead) : SyncStatus where
  enabled := false
  tempo := p.bpm
  beat := p.now
  phase := Number.cycleRemainder p.now (f.quantum p)
  quantum := f.quantum p
  peerCount := 0
  phaseOffset := f.settings.phaseOffset
  resyncInterval := f.settings.resyncInterval
  consecutiveFailures := 0

/-- The state of the follower. Only while a session is followed is the transport asked. -/
def status (f : Follower σ) (p : Playhead) : SyncStatus × Follower σ :=
  match f.following with
  | none => (f.localStatus p, f)
  | some following =>
    let (captured, session) := Transport.capture f.session (f.quantum p)
    let known := { f.localStatus p with
      enabled := true
      phaseOffset := following.phaseOffset
      resyncInterval := following.resyncInterval
      consecutiveFailures := following.failures
      peerCount := following.peers }
    let reported := match captured with
      | .ok remote => { known with
          tempo := remote.tempo
          beat := remote.beat
          phase := remote.phase
          peerCount := remote.peers }
      | .error _ => known
    (reported, { f with session })

/-- Answers the state of the follower as the result of an operation. -/
def Outcome.withStatus (p : Playhead) (f : Follower σ) (outputs : List Output) :
    Outcome σ (Except Fault SyncStatus) :=
  let (status, follower) := f.status p
  ⟨.ok status, p, follower, outputs⟩

/-- Refuses an operation, with nothing changed but the transport that was asked. -/
def Outcome.refused {α : Type} (p : Playhead) (f : Follower σ) (fault : Fault) :
    Outcome σ (Except Fault α) :=
  ⟨.error fault, p, f, []⟩

/-- Joins the session. The first reconciliation is due at once. -/
def join (f : Follower σ) (p : Playhead) (offset interval : Float) :
    Outcome σ (Except Fault SyncStatus) :=
  let name := Transport.name f.session
  match Transport.connect f.session p.bpm (f.quantum p) with
  | (.error refusal, session) =>
    Outcome.refused p { f with session } (.syncUnavailable s!"{name}: {refusal.text}")
  | (.ok (), joined) =>
    let (captured, session) := Transport.capture joined (f.quantum p)
    let peers := match captured with
      | .ok remote => remote.peers
      | .error _ => 0
    let following : Following :=
      { phaseOffset := offset, resyncInterval := interval, nextResync := p.now, failures := 0,
        peers }
    Outcome.withStatus p { f with session, following := some following }
      [note .info s!"Sync enabled with {name} ({peers} peers)", .announced (.syncEnabled peers)]

/-- Starts to follow the session. While it is followed already, only the offset and the interval
change. -/
def enable (f : Follower σ) (p : Playhead) (offset interval : Float) :
    Outcome σ (Except Fault SyncStatus) :=
  match checkPeriod interval with
  | .error fault => Outcome.refused p f fault
  | .ok interval =>
    if !offset.isFinite then Outcome.refused p f (.invalidBeat offset)
    else match f.following with
      | some following =>
        let changed := { following with phaseOffset := offset, resyncInterval := interval }
        let said := s!"Sync settings updated: offset {Number.text offset}, every "
          ++ s!"{Number.text interval} beats"
        Outcome.withStatus p { f with following := some changed } [note .debug said]
      | none => f.join p offset interval

/-- Stops following the session, and answers whether one was followed. -/
def disable (f : Follower σ) (p : Playhead) : Outcome σ Bool :=
  match f.following with
  | none => ⟨false, p, f, []⟩
  | some _ =>
    ⟨true, p, { f with session := Transport.disconnect f.session, following := none },
      [note .info "Sync disabled", .announced .syncDisabled]⟩

/-- Makes the next reconciliation due at once. -/
def resetSchedule (f : Follower σ) (p : Playhead) : Follower σ :=
  { f with following := f.following.map fun following => { following with nextResync := p.now } }

/-- Refuses a snapshot whose tempo cannot be adopted. -/
def usable (captured : Except Refusal Snapshot) : Except Refusal Snapshot := do
  let remote ← captured
  if isPositive remote.tempo then pure remote
  else throw ⟨[s!"session reported tempo {Number.text remote.tempo}"]⟩

/-- Counts a failed reconciliation. Every so many failures in a row there is a warning. -/
def recordFailure (f : Follower σ) (p : Playhead) (following : Following) (refusal : Refusal) :
    Outcome σ Reconciliation :=
  let failures := following.failures + 1
  let threshold := max f.settings.failureWarnThreshold 1
  let said :=
    if failures % threshold = 0 then
      note .warn s!"Sync failed {failures} times in a row: {refusal.text}"
    else note .debug s!"Sync skipped at beat {Number.fixed 3 p.now}: {refusal.text}"
  ⟨.skipped, p, { f with following := some { following with failures } }, [said]⟩

/-- Adopts the tempo of a correction. A tempo that the playhead refuses is left out. -/
def adoptTempo (p : Playhead) : Option Float → Playhead × List Output
  | none => (p, [])
  | some bpm =>
    match p.setBpm bpm with
    | .error _ => (p, [])
    | .ok (beat, changed) =>
      (changed,
        [note .info s!"Following session tempo: {Number.fixed 2 bpm} bpm",
          .announced (.tempoChanged bpm beat)])

/-- Carries a correction out on the playhead: the tempo first, then the nudge. -/
def applyCorrection (p : Playhead) (correction : Correction Float) :
    Playhead × List Output :=
  let (changed, tempoSaid) := adoptTempo p correction.tempo
  if correction.isStill then (changed, tempoSaid)
  else
    let said := s!"Phase error {Number.fixed 3 correction.phaseError}, nudged by "
      ++ s!"{Number.fixed 3 correction.nudge} beats"
    (changed.shift correction.nudge, tempoSaid ++ [note .debug said])

/-- Moves the playhead towards a session that was read. -/
def adopt (f : Follower σ) (p : Playhead) (following : Following) (remote : Snapshot) :
    Outcome σ Reconciliation :=
  let recovered :=
    if 0 < following.failures then
      [note .info s!"Sync recovered after {following.failures} failed attempts"]
    else []
  let follower :=
    { f with following := some { following with failures := 0, peers := remote.peers } }
  let target : CorrectionTarget Float :=
    { tempo := remote.tempo, phase := remote.phase, offset := following.phaseOffset,
      quantum := f.quantum p }
  match Correction.plan? f.settings.rules p.bpm p.now target with
  | none => ⟨.unbounded, p, follower, recovered⟩
  | some correction =>
    let (playhead, said) := applyCorrection p correction
    ⟨.corrected correction, playhead, follower, recovered ++ said⟩

/-- Reads the session and moves the playhead towards it. A session that cannot be read is skipped
until the next reconciliation. -/
def reconcile (f : Follower σ) (p : Playhead) : Outcome σ Reconciliation :=
  match f.following with
  | none => ⟨.skipped, p, f, []⟩
  | some following =>
    let (captured, session) := Transport.capture f.session (f.quantum p)
    let f := { f with session }
    let following := { following with nextResync := p.now + following.resyncInterval }
    match usable captured with
    | .error refusal => f.recordFailure p following refusal
    | .ok remote => f.adopt p following remote

/-- Reconciles if a session is followed and the next reconciliation is due. -/
def reconcileIfDue (f : Follower σ) (p : Playhead) : Outcome σ Reconciliation :=
  if f.following.any (·.nextResync ≤ p.now) then f.reconcile p else ⟨.skipped, p, f, []⟩

/-- Passes a local tempo change on to the session while it is followed. -/
def propose (f : Follower σ) (bpm : Float) : Follower σ × List Output :=
  if f.isEnabled then
    match Transport.propose f.session bpm with
    | (.ok (), session) => ({ f with session }, [])
    | (.error refusal, session) =>
      ({ f with session },
        [note .warn
          s!"Could not send tempo {Number.fixed 2 bpm} to the session: {refusal.text}"])
  else (f, [])

end Follower

end Cadence
