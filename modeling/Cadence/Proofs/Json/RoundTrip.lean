import Mathlib
import Cadence.Proofs.Json.Codec

/-!
# Values are read from their JSON text

Every value that the clock exchanges is read from the JSON text that is written for it, as long as its
numbers are finite. A number that is not finite is written as `null`. Where a number may be absent, the value
without it is read; anywhere else nothing is read.

- instances of `Numbers` and `LawfulCodec`, type by type;
- `read?_write`: what is read of a written value, for every type with a lawful codec;
- `values_round_trip`: so for all types of values that are exchanged.
-/

namespace Cadence

open Json
open Numbers (required dispensable settled)

/-! ## Values without numbers of their own -/

instance : Numbers Meter := ⟨fun _ => [], fun _ => [], id⟩

instance : LawfulCodec Meter where
  sound m _ := ⟨sound_ofNat m.numerator.toNat, sound_ofNat m.denominator.toNat, trivial⟩
  decode m _ := by
    simp only [Codec.decode?, Codec.encode, uint32?_ofNat, Option.bind_eq_bind, Option.bind_some, Meter.make,
      dif_pos (⟨m.numerator_ne_zero, m.denominator_ne_zero⟩ : m.numerator ≠ 0 ∧ m.denominator ≠ 0)]
    rfl
  settled_eq _ _ := rfl

instance : Numbers Log.Severity := ⟨fun _ => [], fun _ => [], id⟩

instance : LawfulCodec Log.Severity where
  sound _ _ := rfl
  decode severity _ := by cases severity <;> rfl
  settled_eq _ _ := rfl

instance : Numbers Log.Mode := ⟨fun _ => [], fun _ => [], id⟩

instance : LawfulCodec Log.Mode where
  sound _ _ := rfl
  decode mode _ := by cases mode <;> rfl
  settled_eq _ _ := rfl

/-! ## Choices -/

instance : Numbers Span where
  required
    | .micros _ => []
    | .beats count => [count]
    | .bars count => [count]
  dispensable _ := []
  settled := id

instance : LawfulCodec Span where
  sound
    | .micros count, _ => sound_case (sound_ofNat count.toNat)
    | .beats count, h => sound_case (sound_ofFloat (h count List.mem_cons_self))
    | .bars count, h => sound_case (sound_ofFloat (h count List.mem_cons_self))
  decode
    | .micros count, _ => congrArg (Option.map Span.micros) (uint64?_ofNat count)
    | .beats count, h => content?_ofFloat (h count List.mem_cons_self) Span.beats
    | .bars count, h => content?_ofFloat (h count List.mem_cons_self) Span.bars
  settled_eq _ _ := rfl

instance : Numbers Timing where
  required
    | .atBeat beat => [beat]
    | .afterBeats beats => [beats]
    | .atNextModulo beats => [beats]
    | .immediate => []
    | .atNextBeat => []
    | .atNextBar => []
  dispensable _ := []
  settled := id

instance : LawfulCodec Timing where
  sound
    | .immediate, _ => rfl
    | .atBeat beat, h => sound_case (sound_ofFloat (h beat List.mem_cons_self))
    | .afterBeats beats, h => sound_case (sound_ofFloat (h beats List.mem_cons_self))
    | .atNextBeat, _ => rfl
    | .atNextBar, _ => rfl
    | .atNextModulo beats, h => sound_case (sound_ofFloat (h beats List.mem_cons_self))
  decode
    | .immediate, _ => rfl
    | .atBeat beat, h => content?_ofFloat (h beat List.mem_cons_self) Timing.atBeat
    | .afterBeats beats, h => content?_ofFloat (h beats List.mem_cons_self) Timing.afterBeats
    | .atNextBeat, _ => rfl
    | .atNextBar, _ => rfl
    | .atNextModulo beats, h => content?_ofFloat (h beats List.mem_cons_self) Timing.atNextModulo
  settled_eq _ _ := rfl

instance : Numbers PointKind where
  required
    | .recurring period => [period]
    | .oneShot => []
    | .persistent => []
    | .derived => []
  dispensable _ := []
  settled := id

instance : LawfulCodec PointKind where
  sound
    | .oneShot, _ => rfl
    | .persistent, _ => rfl
    | .recurring period, h => sound_case (sound_case (sound_ofFloat (h period List.mem_cons_self)))
    | .derived, _ => rfl
  decode
    | .oneShot, _ => rfl
    | .persistent, _ => rfl
    | .recurring period, h => by
      simp [Codec.decode?, Codec.encode, Fields.required?, float?_of_required h, required, settled]
    | .derived, _ => rfl
  settled_eq _ _ := rfl

instance : Numbers Notice where
  required
    | .tempoChanged bpm atBeat => [bpm, atBeat]
    | .timeSet beat => [beat]
    | .actionFailed _ beat _ => [beat]
    | .meterChanged _ => []
    | .syncEnabled _ => []
    | .syncDisabled => []
    | .cleared => []
  dispensable _ := []
  settled := id

instance : LawfulCodec Notice where
  sound
    | .tempoChanged bpm atBeat, h =>
      sound_case (sound_ofFields (by simp [sound_of_required h, required]))
    | .meterChanged meter, _ => sound_case (LawfulCodec.sound meter nofun)
    | .timeSet beat, h => sound_case (sound_ofFloat (h beat List.mem_cons_self))
    | .syncEnabled peers, _ => sound_case (sound_case (sound_ofNat peers.toNat))
    | .syncDisabled, _ => rfl
    | .actionFailed label beat reason, h =>
      sound_case (sound_ofFields (by simp [sound_of_required h, required]))
    | .cleared, _ => rfl
  decode
    | .tempoChanged bpm atBeat, h => by
      simp [Codec.decode?, Codec.encode, Fields.required?, float?_of_required h, required, settled, ite_and]
    | .meterChanged meter, _ =>
      congrArg (Option.map Notice.meterChanged) (LawfulCodec.decode meter nofun)
    | .timeSet beat, h => content?_ofFloat (h beat List.mem_cons_self) Notice.timeSet
    | .syncEnabled peers, _ => by
      simp [Codec.decode?, Codec.encode, Fields.required?, required, settled]
    | .syncDisabled, _ => rfl
    | .actionFailed label beat reason, h => by
      simp [Codec.decode?, Codec.encode, Fields.required?, float?_of_required h, required, settled]
    | .cleared, _ => rfl
  settled_eq _ _ := rfl

/-! ## Records -/

instance : Numbers Snapshot where
  required s := [s.tempo, s.beat, s.phase]
  dispensable _ := []
  settled := id

instance : LawfulCodec Snapshot where
  sound s h := sound_ofFields (by simp [sound_of_required h, sound_ofNat, required])
  decode s h := by
    simp [Codec.decode?, Codec.encode, Fields.required?, float?_of_required h, required, settled, ite_and]
  settled_eq _ _ := rfl

instance : Numbers SyncStatus where
  required s := [s.tempo, s.beat, s.phase, s.quantum, s.phaseOffset, s.resyncInterval]
  dispensable _ := []
  settled := id

instance : LawfulCodec SyncStatus where
  sound s h := sound_ofFields (by simp [sound_of_required h, sound_ofNat, required])
  decode s h := by
    simp [Codec.decode?, Codec.encode, Fields.required?, float?_of_required h, required, settled, ite_and]
  settled_eq _ _ := rfl

instance : Numbers Log.Message where
  required _ := []
  dispensable m := m.beat.toList
  settled m := { m with beat := m.beat.filter Float.isFinite }

instance : LawfulCodec Log.Message where
  sound m h := by
    have hlevel : (Codec.encode m.level).Sound := LawfulCodec.sound m.level nofun
    have hbeat : (ofFloat? m.beat).Sound := by
      cases hm : m.beat with
      | none => trivial
      | some x => exact sound_of_dispensable h (by simp [dispensable, hm])
    exact sound_ofFields (by simp [hlevel, hbeat])
  decode m h := by
    have hlevel : Codec.decode? (Codec.encode m.level) = some m.level := LawfulCodec.decode m.level nofun
    have hbeat : nullable? float? (ofFloat? m.beat) = some (m.beat.filter Float.isFinite) :=
      nullable?_ofFloat? fun x hx => h x (Option.mem_toList.mpr hx)
    -- The codec of the severity stays closed, so only that of the message is opened.
    unfold Codec.decode? Codec.encode instCodecMessage
    simp [Fields.required?, Fields.optional?, hlevel, hbeat, required, settled]
  settled_eq m h := by
    simp only [settled, filter_isFinite h]

/-! ## Configurations -/

instance : Numbers ClockSettings where
  required s := [s.tempo, s.startBeat]
  dispensable _ := []
  settled := id

instance : LawfulCodec ClockSettings where
  sound s h := by
    have hmeter : (Codec.encode s.meter).Sound := LawfulCodec.sound s.meter nofun
    exact sound_ofFields (by simp [sound_of_required h, hmeter, required])
  decode s h := by
    have hmeter : Codec.decode? (Codec.encode s.meter) = some s.meter := LawfulCodec.decode s.meter nofun
    unfold Codec.decode? Codec.encode instCodecClockSettings
    simp [Fields.withDefault?, float?_of_required h, hmeter, required, settled, ite_and]
  settled_eq _ _ := rfl

instance : Numbers DriverSettings := ⟨fun _ => [], fun _ => [], id⟩

instance : LawfulCodec DriverSettings where
  sound s _ := sound_ofFields (by simp [sound_ofNat])
  decode s _ := by
    simp [Codec.decode?, Codec.encode, Fields.withDefault?, required, settled]
  settled_eq _ _ := rfl

instance : Numbers SyncSettings where
  required s := [s.phaseOffset, s.resyncInterval, s.tempoEpsilon, s.phaseTolerance, s.correctionGain,
    s.maxCorrection]
  dispensable s := s.quantum.toList
  settled s := { s with quantum := s.quantum.filter Float.isFinite }

instance : LawfulCodec SyncSettings where
  sound s h := by
    refine sound_ofFields ?_
    cases hs : s.quantum with
    | none => simp [sound_of_required h, sound_ofNat, required]
    | some quantum =>
      have hquantum : (ofFloat quantum).Sound := sound_of_dispensable h (by simp [dispensable, hs])
      simp [sound_of_required h, sound_ofNat, hquantum, required]
  decode s h := by
    -- The quantum is only written if there is one.
    cases hs : s.quantum with
    | none =>
      simp [Codec.decode?, Codec.encode, hs, Fields.withDefault?, SyncSettings.omitted, float?_of_required h,
        required, settled, ite_and]
    | some quantum =>
      have hquantum := nullable?_of_dispensable h (x := quantum) (by simp [dispensable, hs])
      simp [Codec.decode?, Codec.encode, hs, Fields.withDefault?, float?_of_required h, hquantum, required,
        settled, ite_and]
  settled_eq s h := by
    simp only [settled, filter_isFinite h]

instance : Numbers LoggingSettings := ⟨fun _ => [], fun _ => [], id⟩

instance : LawfulCodec LoggingSettings where
  sound s _ := sound_ofFields (by simp [Codec.encode])
  decode s _ := by
    have hmode : Codec.decode? (Codec.encode s.mode) = some s.mode := LawfulCodec.decode s.mode nofun
    have hseverity : Codec.decode? (Codec.encode s.minSeverity) = some s.minSeverity :=
      LawfulCodec.decode s.minSeverity nofun
    unfold Codec.decode? Codec.encode instCodecLoggingSettings
    simp [Fields.withDefault?, hmode, hseverity, required, settled]
  settled_eq _ _ := rfl

instance : Numbers Config where
  required c := required c.clock ++ required c.sync
  dispensable c := dispensable c.sync
  settled c := { c with sync := settled c.sync }

/-- The numbers of a configuration are those of its timeline and of its follower. -/
theorem Config.faithfulIn_iff {c : Config} : FaithfulIn c ↔ FaithfulIn c.clock ∧ FaithfulIn c.sync := by
  have hclock : FaithfulIn c.clock ↔ ∀ x ∈ required c.clock, Faithful x := by
    rw [FaithfulIn, show dispensable c.clock = [] from rfl, List.append_nil]
  have hsections : FaithfulIn c ↔
      ∀ x ∈ required c.clock ++ (required c.sync ++ dispensable c.sync), Faithful x := by
    rw [← List.append_assoc]
    rfl
  rw [hsections, List.forall_mem_append, hclock]
  rfl

instance : LawfulCodec Config where
  sound c h := by
    have hclock := LawfulCodec.sound c.clock (Config.faithfulIn_iff.mp h).1
    have hdriver := LawfulCodec.sound c.driver nofun
    have hsync := LawfulCodec.sound c.sync (Config.faithfulIn_iff.mp h).2
    have hlogging := LawfulCodec.sound c.logging nofun
    exact sound_ofFields (by simp [hclock, hdriver, hsync, hlogging])
  decode c h := by
    have hclock : Codec.decode? (Codec.encode c.clock) =
        if (required c.clock).all Float.isFinite = true then some c.clock else none :=
      LawfulCodec.decode c.clock (Config.faithfulIn_iff.mp h).1
    have hdriver : Codec.decode? (Codec.encode c.driver) = some c.driver := LawfulCodec.decode c.driver nofun
    have hsync := LawfulCodec.decode c.sync (Config.faithfulIn_iff.mp h).2
    have hlogging : Codec.decode? (Codec.encode c.logging) = some c.logging :=
      LawfulCodec.decode c.logging nofun
    have hrequired : required c = required c.clock ++ required c.sync := rfl
    have hsettled : settled c = { c with sync := settled c.sync } := rfl
    unfold Codec.decode? Codec.encode instCodecConfig
    simp [Fields.withDefault?, hclock, hdriver, hsync, hlogging, hrequired, hsettled, ite_and]
  settled_eq c h := by
    have hsync : settled c.sync = c.sync := LawfulCodec.settled_eq c.sync h
    simp only [settled] at hsync ⊢
    rw [hsync]

/-! ## Reading what was written -/

namespace Json

variable {J : Format} {α : Type} [Codec α] [Numbers α] [LawfulCodec α]

/-- What is read of the text that was written for a value. -/
theorem read?_write (hJ : J.Faithful) (a : α) (h : FaithfulIn a) :
    J.read? α (J.write a) = if (required a).all Float.isFinite = true then some (settled a) else none := by
  rw [Format.read?, Format.write, hJ.parse?_print (LawfulCodec.sound a h)]
  exact LawfulCodec.decode a h

/-- What is read of the text of a value, whose numbers are printed and read faithfully: the value if all its
numbers are finite, nothing if one of them is not that has to be there, and else the value without those that
are not. -/
def RoundTrips (J : Format) (α : Type) [Codec α] [Numbers α] : Prop :=
  ∀ a : α, FaithfulIn a →
    ((∀ x ∈ required a ++ dispensable a, x.isFinite = true) → J.read? α (J.write a) = some a) ∧
    ((∃ x ∈ required a, x.isFinite = false) → J.read? α (J.write a) = none) ∧
    ((∀ x ∈ required a, x.isFinite = true) → J.read? α (J.write a) = some (settled a))

theorem roundTrips (hJ : J.Faithful) (α : Type) [Codec α] [Numbers α] [LawfulCodec α] : RoundTrips J α := by
  intro a h
  have hread := read?_write hJ a h
  have hsettled (hrequired : ∀ x ∈ required a, x.isFinite = true) :
      J.read? α (J.write a) = some (settled a) := by
    rw [hread, if_pos (List.all_eq_true.mpr hrequired)]
  refine ⟨fun hfinite => ?_, fun hlost => ?_, hsettled⟩
  · obtain ⟨hrequired, hdispensable⟩ := List.forall_mem_append.mp hfinite
    rw [hsettled hrequired, LawfulCodec.settled_eq a hdispensable]
  · obtain ⟨x, hx, hnot⟩ := hlost
    rw [hread, if_neg]
    intro hall
    rw [List.all_eq_true.mp hall x hx] at hnot
    cases hnot

/-- In any format that reads the values it writes, the JSON text of what is exchanged is read as that if all
numbers in it are finite. If some are not, nothing is read, unless those are the beat of a log message or the
quantum of a configuration: then what is exchanged is read without them. -/
theorem values_round_trip (J : Format) (hJ : J.Faithful) :
    RoundTrips J Meter ∧ RoundTrips J Span ∧ RoundTrips J Timing ∧ RoundTrips J PointKind ∧
      RoundTrips J Notice ∧ RoundTrips J Log.Message ∧ RoundTrips J Log.Severity ∧ RoundTrips J SyncStatus ∧
      RoundTrips J Snapshot ∧ RoundTrips J Config :=
  ⟨roundTrips hJ Meter, roundTrips hJ Span, roundTrips hJ Timing, roundTrips hJ PointKind, roundTrips hJ Notice,
    roundTrips hJ Log.Message, roundTrips hJ Log.Severity, roundTrips hJ SyncStatus, roundTrips hJ Snapshot,
    roundTrips hJ Config⟩

/-- A message with quotes, a backslash and a control character in it comes back, a configuration loses a
quantum that is not finite, and a timing without a finite beat is not read. -/
theorem hostile_values_read :
    let J := Format.compact
    let message : Log.Message := ⟨.warn, some 0.5, "\"late\"\t\\\x01"⟩
    let config : Config := { sync := { quantum := some (1.0 / 0.0) } }
    let timing : Timing := .atBeat (0.0 / 0.0)
    J.Faithful ∧ FaithfulIn message ∧ FaithfulIn config ∧ FaithfulIn timing ∧
      J.read? Log.Message (J.write message) = some message ∧ J.read? Config (J.write config) = some {} ∧
        J.read? Timing (J.write timing) = none := by
  intro J message config timing
  have hmessage : FaithfulIn message := by decide +kernel
  have hconfig : FaithfulIn config := by decide +kernel
  have htiming : FaithfulIn timing := by decide +kernel
  obtain ⟨-, -, htimings, -, -, hmessages, -, -, -, hconfigs⟩ :=
    values_round_trip .compact Format.compact_faithful
  refine ⟨Format.compact_faithful, hmessage, hconfig, htiming,
    (hmessages message hmessage).1 (by decide +kernel),
    ((hconfigs config hconfig).2.2 (by decide +kernel)).trans ?_,
    (htimings timing htiming).2.1 ⟨0.0 / 0.0, List.mem_cons_self, by decide +kernel⟩⟩
  decide +kernel

end Json

end Cadence
