import Mathlib
import Cadence.Config.Toml
import Cadence.Proofs.Toml.Document

/-!
# Settings that are left out

A configuration is read back from its document bit for bit. From a document without some of its settings and
sections it is read back with the defaults in their place, whether a setting is left out by itself or with its
whole section.

- `Omission`: the settings and sections that are left out of a document;
- `SyncSettings.omitted_eq` and its like: the defaults of single settings are those of whole sections;
- `Config.readIn?_remaining`: what is read of the rest, in any faithful format;
- `Config.omitted_settings_default`: that, together with when a configuration can be written at all.
-/

namespace Cadence

open Toml

/-- Settings and sections that are left out of a document. -/
structure Omission where
  /-- The names of the sections. -/
  sections : List String := []
  /-- The names of the settings, each with the name of its section. -/
  keys : List (String × String) := []

namespace Omission

/-- A section stays. -/
def keepsSection (o : Omission) (name : String) : Bool := name ∉ o.sections

/-- A setting stays, together with its section. -/
def keeps (o : Omission) (name key : String) : Bool := o.keepsSection name && (name, key) ∉ o.keys

/-- What stays of a document. -/
def remaining (o : Omission) (document : List Section) : List Section :=
  (document.filter fun s => o.keepsSection s.name).map fun s =>
    { s with entries := s.entries.filter fun entry => o.keeps s.name entry.1 }

/-- A setting that stays has its value, and one that is left out its default. -/
def pick {α : Type} (o : Omission) (name key : String) (value fallback : α) : α :=
  if o.keeps name key then value else fallback

end Omission

namespace Config

/-- A configuration with the defaults in place of all that is left out. -/
def reset (c : Config) (o : Omission) : Config where
  clock :=
    let fallback : ClockSettings := {}
    { tempo := o.pick "clock" "tempo" c.clock.tempo fallback.tempo
      meter := o.pick "clock" "meter" c.clock.meter fallback.meter
      startBeat := o.pick "clock" "start_beat" c.clock.startBeat fallback.startBeat }
  driver :=
    let fallback : DriverSettings := {}
    { tickIntervalMicros :=
        o.pick "driver" "tick_interval_micros" c.driver.tickIntervalMicros fallback.tickIntervalMicros
      activeWaitMicros :=
        o.pick "driver" "active_wait_micros" c.driver.activeWaitMicros fallback.activeWaitMicros
      realtimePriority :=
        o.pick "driver" "realtime_priority" c.driver.realtimePriority fallback.realtimePriority }
  sync :=
    let fallback : SyncSettings := {}
    { enabled := o.pick "sync" "enabled" c.sync.enabled fallback.enabled
      phaseOffset := o.pick "sync" "phase_offset" c.sync.phaseOffset fallback.phaseOffset
      resyncInterval := o.pick "sync" "resync_interval" c.sync.resyncInterval fallback.resyncInterval
      quantum := o.pick "sync" "quantum" c.sync.quantum fallback.quantum
      tempoEpsilon := o.pick "sync" "tempo_epsilon" c.sync.tempoEpsilon fallback.tempoEpsilon
      phaseTolerance := o.pick "sync" "phase_tolerance" c.sync.phaseTolerance fallback.phaseTolerance
      correctionGain := o.pick "sync" "correction_gain" c.sync.correctionGain fallback.correctionGain
      maxCorrection := o.pick "sync" "max_correction" c.sync.maxCorrection fallback.maxCorrection
      snapAtBarStart := o.pick "sync" "snap_at_bar_start" c.sync.snapAtBarStart fallback.snapAtBarStart
      failureWarnThreshold :=
        o.pick "sync" "failure_warn_threshold" c.sync.failureWarnThreshold fallback.failureWarnThreshold }
  logging :=
    let fallback : LoggingSettings := {}
    { mode := o.pick "logging" "mode" c.logging.mode fallback.mode
      minSeverity := o.pick "logging" "min_severity" c.logging.minSeverity fallback.minSeverity }

/-- The integers of a configuration. -/
def integers (c : Config) : List ℕ :=
  [c.clock.meter.numerator.toNat, c.clock.meter.denominator.toNat, c.driver.tickIntervalMicros.toNat,
    c.driver.activeWaitMicros.toNat, c.sync.failureWarnThreshold.toNat]

end Config

/-! ## Two sets of defaults -/

/-- A setting that is left out by itself has the same default as with its whole section. -/
theorem ClockSettings.omitted_eq : ClockSettings.omitted = {} := rfl

theorem DriverSettings.omitted_eq : DriverSettings.omitted = {} := rfl

theorem SyncSettings.omitted_eq : SyncSettings.omitted = {} := rfl

theorem LoggingSettings.omitted_eq : LoggingSettings.omitted = {} := rfl

/-! ## Reading settings -/

namespace Toml

variable {α : Type} {entries : List (String × Value)} {o : Omission} {name key : String} {value fallback : α}
  {read : Value → Option α} {v : Value}

/-- A setting that is there is read, unless it is left out. -/
theorem setting?_filter (hlookup : entries.lookup key = some v) (hread : read v = some value) :
    setting? (entries.filter fun entry => o.keeps name entry.1) key fallback read =
      some (o.pick name key value fallback) := by
  rw [setting?, lookup_filter, Omission.pick]
  split_ifs
  · rw [hlookup]
    exact hread
  · rfl

theorem float?_float (x : Float) : float? (.float x) = some x := rfl

theorem bool?_bool (b : Bool) : bool? (.bool b) = some b := rfl

theorem uint64?_toNat (n : UInt64) : uint64? (.integer n.toNat) = some n := by
  have := n.toNat_lt
  have hlimit : (n.toNat : ℤ) ≤ Number.countLimit := by
    unfold Number.countLimit UInt64.size
    omega
  rw [uint64?, count?, if_pos ⟨by omega, hlimit⟩]
  simp

theorem uint32?_toNat (n : UInt32) : uint32? (.integer n.toNat) = some n := by
  have := n.toNat_lt
  have hlimit : (n.toNat : ℤ) ≤ (UInt32.size - 1 : ℕ) := by
    unfold UInt32.size
    omega
  rw [uint32?, count?, if_pos ⟨by omega, hlimit⟩]
  simp

theorem meter?_numbers (m : Meter) :
    meter? (.array [.integer m.numerator.toNat, .integer m.denominator.toNat]) = some m := by
  simp only [meter?, uint32?_toNat, Option.bind_eq_bind, Option.bind_some, Meter.make,
    dif_pos (⟨m.numerator_ne_zero, m.denominator_ne_zero⟩ : m.numerator ≠ 0 ∧ m.denominator ≠ 0)]
  rfl

/-- What is read from the same entries is the same. -/
theorem eq_of_read {rest rest' : List (String × Value)} {first second : α}
    (hfirst : read (.table rest) = some first) (hsecond : read (.table rest') = some second)
    (hrest : rest = rest') : first = second := by
  rw [hrest, hsecond] at hfirst
  exact (Option.some.inj hfirst).symm

/-- A section that is there is read, and one that is left out has the defaults. -/
theorem setting?_remaining {document : List Section} {entries : List (String × Value)}
    (hlookup : (document.map fun s =>
      (s.name, Value.table (s.entries.filter fun entry => o.keeps s.name entry.1))).lookup name =
        some (.table entries))
    (hread : read (.table entries) = some value) (hdefault : o.keepsSection name = false → value = fallback) :
    setting? ((o.remaining document).map fun s => (s.name, .table s.entries)) name fallback read =
      some value := by
  have hremaining : ((o.remaining document).map fun s => (s.name, Value.table s.entries)) =
      (document.map fun s =>
        (s.name, Value.table (s.entries.filter fun entry => o.keeps s.name entry.1))).filter
          fun entry => o.keepsSection entry.1 := by
    rw [Omission.remaining, List.map_map, List.filter_map]
    rfl
  rw [hremaining, setting?, lookup_filter]
  cases hkept : o.keepsSection name with
  | true =>
    rw [if_pos rfl, hlookup]
    exact hread
  | false => rw [if_neg Bool.false_ne_true, hdefault hkept]

end Toml

namespace Config

variable {c : Config} {o : Omission}

/-! ## Reading the rest of a document -/

theorem pick_of_not_keepsSection {α : Type} {name : String} (h : o.keepsSection name = false) (key : String)
    (value fallback : α) : o.pick name key value fallback = fallback := by
  rw [Omission.pick, Omission.keeps, h, Bool.false_and, if_neg Bool.false_ne_true]

theorem clock_ofToml?_filter :
    ClockSettings.ofToml? (.table (c.clock.section.entries.filter fun entry => o.keeps "clock" entry.1)) =
      some (c.reset o).clock := by
  simp only [ClockSettings.ofToml?, ClockSettings.omitted_eq, record?, Option.bind_eq_bind, Option.bind_some]
  rw [setting?_filter rfl (float?_float c.clock.tempo), Option.bind_some,
    setting?_filter rfl (meter?_numbers c.clock.meter), Option.bind_some,
    setting?_filter rfl (float?_float c.clock.startBeat)]
  rfl

theorem driver_ofToml?_filter :
    DriverSettings.ofToml? (.table (c.driver.section.entries.filter fun entry => o.keeps "driver" entry.1)) =
      some (c.reset o).driver := by
  simp only [DriverSettings.ofToml?, DriverSettings.omitted_eq, record?, Option.bind_eq_bind, Option.bind_some]
  rw [setting?_filter rfl (uint64?_toNat c.driver.tickIntervalMicros), Option.bind_some,
    setting?_filter rfl (uint64?_toNat c.driver.activeWaitMicros), Option.bind_some,
    setting?_filter rfl (bool?_bool c.driver.realtimePriority)]
  rfl

/-- The quantum is there exactly if it was set. -/
theorem lookup_quantum : c.sync.section.entries.lookup "quantum" = c.sync.quantum.map .float := by
  unfold SyncSettings.section
  cases c.sync.quantum <;> rfl

theorem quantum_filter :
    setting? (c.sync.section.entries.filter fun entry => o.keeps "sync" entry.1) "quantum" none
      (fun v => (float? v).map some) = some (o.pick "sync" "quantum" c.sync.quantum none) := by
  have hlookup := lookup_quantum (c := c)
  cases hquantum : c.sync.quantum with
  | some quantum =>
    rw [hquantum] at hlookup
    exact setting?_filter hlookup rfl
  | none =>
    rw [hquantum] at hlookup
    rw [setting?, lookup_filter, hlookup, Omission.pick]
    split_ifs <;> rfl

theorem sync_ofToml?_filter :
    SyncSettings.ofToml? (.table (c.sync.section.entries.filter fun entry => o.keeps "sync" entry.1)) =
      some (c.reset o).sync := by
  have hlookup : ∀ entry ∈
      [("enabled", Value.bool c.sync.enabled), ("phase_offset", .float c.sync.phaseOffset),
      ("resync_interval", .float c.sync.resyncInterval), ("tempo_epsilon", .float c.sync.tempoEpsilon),
      ("phase_tolerance", .float c.sync.phaseTolerance), ("correction_gain", .float c.sync.correctionGain),
      ("max_correction", .float c.sync.maxCorrection), ("snap_at_bar_start", .bool c.sync.snapAtBarStart),
      ("failure_warn_threshold", .integer c.sync.failureWarnThreshold.toNat)],
      c.sync.section.entries.lookup entry.1 = some entry.2 := by
    unfold SyncSettings.section
    cases c.sync.quantum <;> simp [List.lookup]
  simp only [List.forall_mem_cons] at hlookup
  obtain ⟨henabled, hoffset, hinterval, hepsilon, htolerance, hgain, hmax, hsnap, hthreshold, -⟩ := hlookup
  simp only [SyncSettings.ofToml?, SyncSettings.omitted_eq, record?, Option.bind_eq_bind, Option.bind_some]
  rw [setting?_filter henabled (bool?_bool _), Option.bind_some, setting?_filter hoffset (float?_float _),
    Option.bind_some, setting?_filter hinterval (float?_float _), Option.bind_some, quantum_filter,
    Option.bind_some, setting?_filter hepsilon (float?_float _), Option.bind_some,
    setting?_filter htolerance (float?_float _), Option.bind_some, setting?_filter hgain (float?_float _),
    Option.bind_some, setting?_filter hmax (float?_float _), Option.bind_some,
    setting?_filter hsnap (bool?_bool _), Option.bind_some, setting?_filter hthreshold (uint32?_toNat _)]
  rfl

theorem logging_ofToml?_filter :
    LoggingSettings.ofToml?
        (.table (c.logging.section.entries.filter fun entry => o.keeps "logging" entry.1)) =
      some (c.reset o).logging := by
  have hmode : choice? Log.Mode.ofName? (.text c.logging.mode.name) = some c.logging.mode := by
    cases c.logging.mode <;> rfl
  have hseverity : choice? Log.Severity.ofName? (.text c.logging.minSeverity.name) =
      some c.logging.minSeverity := by
    cases c.logging.minSeverity <;> rfl
  simp only [LoggingSettings.ofToml?, LoggingSettings.omitted_eq, record?, Option.bind_eq_bind,
    Option.bind_some]
  rw [setting?_filter rfl hmode, Option.bind_some, setting?_filter rfl hseverity]
  rfl

/-- What is read of a document that lacks some settings and sections. -/
theorem ofToml?_remaining :
    ofToml? ((o.remaining c.sections).map fun s => (s.name, .table s.entries)) = some (c.reset o) := by
  have hclock : o.keepsSection "clock" = false → (c.reset o).clock = {} := fun h => by
    simp only [reset, pick_of_not_keepsSection h]
  have hdriver : o.keepsSection "driver" = false → (c.reset o).driver = {} := fun h => by
    simp only [reset, pick_of_not_keepsSection h]
  have hsync : o.keepsSection "sync" = false → (c.reset o).sync = {} := fun h => by
    simp only [reset, pick_of_not_keepsSection h]
  have hlogging : o.keepsSection "logging" = false → (c.reset o).logging = {} := fun h => by
    simp only [reset, pick_of_not_keepsSection h]
  -- The sections are read in their turn, none depends on another one.
  unfold ofToml?
  simp only [Option.bind_eq_bind]
  rw [setting?_remaining rfl clock_ofToml?_filter hclock, Option.bind_some,
    setting?_remaining rfl driver_ofToml?_filter hdriver, Option.bind_some,
    setting?_remaining rfl sync_ofToml?_filter hsync, Option.bind_some,
    setting?_remaining rfl logging_ofToml?_filter hlogging]
  rfl

/-! ## Writing what is left -/

/-- A name needs no quotes. -/
def isBare (name : String) : Bool := !name.toList.isEmpty && name.toList.all isKeyChar

theorem bareKey_of_isBare {name : String} (h : isBare name = true) : BareKey name := by
  rw [isBare, Bool.and_eq_true, Bool.not_eq_true', List.isEmpty_eq_false_iff, List.all_eq_true] at h
  exact ⟨h.1, h.2⟩

/-- A section with this name and these keys can be read if its texts can. -/
theorem plain_of_keys {s : Section} (name : String) (keys : List String) (hname : s.name = name)
    (hentries : s.entries.map Prod.fst = keys) (hbare : (name :: keys).all isBare = true)
    (hnodup : keys.Nodup) (hlegible : ∀ entry ∈ s.entries, entry.2.Legible) : s.Plain where
  name := hname ▸ bareKey_of_isBare (List.all_eq_true.mp hbare _ List.mem_cons_self)
  keys entry hentry := by
    have hkey : entry.1 ∈ keys := hentries ▸ List.mem_map_of_mem hentry
    exact bareKey_of_isBare (List.all_eq_true.mp hbare _ (List.mem_cons_of_mem _ hkey))
  nodup := hentries ▸ hnodup
  legible := hlegible

theorem plain_sync : c.sync.section.Plain := by
  -- The quantum is the one setting that a document can lack.
  unfold SyncSettings.section
  cases c.sync.quantum with
  | none =>
    refine plain_of_keys "sync" ["enabled", "phase_offset", "resync_interval", "tempo_epsilon",
      "phase_tolerance", "correction_gain", "max_correction", "snap_at_bar_start",
      "failure_warn_threshold"] rfl rfl (by decide +kernel) (by decide) ?_
    simp [Value.Legible, Value.LegibleScalar]
  | some quantum =>
    refine plain_of_keys "sync" ["enabled", "phase_offset", "resync_interval", "quantum",
      "tempo_epsilon", "phase_tolerance", "correction_gain", "max_correction", "snap_at_bar_start",
      "failure_warn_threshold"] rfl rfl (by decide +kernel) (by decide) ?_
    simp [Value.Legible, Value.LegibleScalar]

/-- Every section of a configuration can be read. -/
theorem plain_sections : ∀ s ∈ c.sections, s.Plain := by
  have hmode : ∀ ch ∈ c.logging.mode.name.toList, isPrintable ch = true := by
    cases c.logging.mode <;> exact List.all_eq_true.mp rfl
  have hseverity : ∀ ch ∈ c.logging.minSeverity.name.toList, isPrintable ch = true := by
    cases c.logging.minSeverity <;> exact List.all_eq_true.mp rfl
  simp only [sections, List.forall_mem_cons]
  refine ⟨?_, ?_, plain_sync, ?_, nofun⟩
  · refine plain_of_keys "clock" ["tempo", "meter", "start_beat"] rfl rfl (by decide +kernel) (by decide) ?_
    simp [ClockSettings.section, Value.Legible, Value.LegibleScalar]
  · refine plain_of_keys "driver" ["tick_interval_micros", "active_wait_micros", "realtime_priority"] rfl rfl
      (by decide +kernel) (by decide) ?_
    simp [DriverSettings.section, Value.Legible, Value.LegibleScalar]
  · refine plain_of_keys "logging" ["mode", "min_severity"] rfl rfl (by decide +kernel) (by decide) ?_
    simpa [LoggingSettings.section, Value.Legible, Value.LegibleScalar] using ⟨hmode, hseverity⟩

theorem nodup_sections : (c.sections.map Section.name).Nodup := by
  change ["clock", "driver", "sync", "logging"].Nodup
  decide

/-- What is left of a document can be read if the document can. -/
theorem plain_remaining {document : List Section} (h : ∀ s ∈ document, s.Plain) :
    ∀ s ∈ o.remaining document, s.Plain := by
  intro s hs
  obtain ⟨full, hfull, rfl⟩ := List.mem_map.mp hs
  have hplain := h full (List.mem_of_mem_filter hfull)
  exact ⟨hplain.name, fun entry hentry => hplain.keys entry (List.mem_of_mem_filter hentry),
    hplain.nodup.sublist (List.filter_sublist.map Prod.fst),
    fun entry hentry => hplain.legible entry (List.mem_of_mem_filter hentry)⟩

theorem nodup_remaining {document : List Section} (h : (document.map Section.name).Nodup) :
    ((o.remaining document).map Section.name).Nodup := by
  rw [Omission.remaining, List.map_map]
  exact h.sublist (List.filter_sublist.map Section.name)

theorem oversized_integer {n : ℕ} : (Value.integer n).Oversized ↔ 2 ^ 63 ≤ n := by
  have hmin : Int64.minValue.toInt = -2 ^ 63 := rfl
  have hmax : Int64.maxValue.toInt = 2 ^ 63 - 1 := rfl
  change isInteger n = false ↔ _
  rw [isInteger, hmin, hmax, Bool.and_eq_false_iff, decide_eq_false_iff_not, decide_eq_false_iff_not]
  omega

theorem oversized_meter {m n : ℕ} :
    (Value.array [.integer m, .integer n]).Oversized ↔ 2 ^ 63 ≤ m ∨ 2 ^ 63 ≤ n := by
  rw [← oversized_integer, ← oversized_integer]
  simp [Value.Oversized]

theorem not_oversized_bool (b : Bool) : ¬ (Value.bool b).Oversized := id

theorem not_oversized_float (x : Float) : ¬ (Value.float x).Oversized := id

theorem not_oversized_text (text : String) : ¬ (Value.text text).Oversized := id

/-- The settings of each section that are too large. -/
theorem oversized_settings :
    ((∃ entry ∈ c.clock.section.entries, entry.2.Oversized) ↔
        2 ^ 63 ≤ c.clock.meter.numerator.toNat ∨ 2 ^ 63 ≤ c.clock.meter.denominator.toNat) ∧
      ((∃ entry ∈ c.driver.section.entries, entry.2.Oversized) ↔
        2 ^ 63 ≤ c.driver.tickIntervalMicros.toNat ∨ 2 ^ 63 ≤ c.driver.activeWaitMicros.toNat) ∧
      ((∃ entry ∈ c.sync.section.entries, entry.2.Oversized) ↔
        2 ^ 63 ≤ c.sync.failureWarnThreshold.toNat) ∧
      ¬ ∃ entry ∈ c.logging.section.entries, entry.2.Oversized := by
  refine ⟨?_, ?_, ?_, ?_⟩
  · simp [ClockSettings.section, oversized_meter, not_oversized_float]
  · simp [DriverSettings.section, oversized_integer, not_oversized_bool]
  · cases hquantum : c.sync.quantum <;>
      simp [SyncSettings.section, hquantum, oversized_integer, not_oversized_bool, not_oversized_float]
  · simp [LoggingSettings.section, not_oversized_text]

section Format

variable {T : Format}

/-- A configuration cannot be written exactly if one of its integers is too large. -/
theorem textIn?_eq_none (hT : T.Faithful) : c.textIn? T = none ↔ ∃ n ∈ c.integers, 2 ^ 63 ≤ n := by
  obtain ⟨hclock, hdriver, hsync, hlogging⟩ := oversized_settings (c := c)
  rw [textIn?, hT.print? plain_sections nodup_sections]
  simp only [sections, List.mem_cons, exists_eq_or_imp, exists_eq_left, hclock, hdriver, hsync, hlogging,
    integers, List.not_mem_nil, or_assoc, or_false]

/-- What is left of a configuration that can be written can be written. -/
theorem print?_remaining (hT : T.Faithful) (h : ∀ n ∈ c.integers, n < 2 ^ 63) :
    ∃ text, T.print? (o.remaining c.sections) = some text := by
  rw [← Option.isSome_iff_exists, ← Option.ne_none_iff_isSome, ne_eq,
    hT.print? (plain_remaining plain_sections) (nodup_remaining nodup_sections)]
  rintro ⟨s, hs, entry, hentry, hlarge⟩
  obtain ⟨full, hfull, rfl⟩ := List.mem_map.mp hs
  have hunwritable : c.textIn? T = none := (hT.print? plain_sections nodup_sections).mpr
    ⟨full, List.mem_of_mem_filter hfull, entry, List.mem_of_mem_filter hentry, hlarge⟩
  obtain ⟨n, hn, hlarge⟩ := (textIn?_eq_none hT).mp hunwritable
  exact absurd (h n hn) (not_lt.mpr hlarge)

/-- What is left of a document is read with the defaults in place of what is missing. -/
theorem readIn?_remaining (hT : T.Faithful) {text : String}
    (htext : T.print? (o.remaining c.sections) = some text) : readIn? T text = some (c.reset o) := by
  have hparse := hT.parse? (plain_remaining plain_sections) (nodup_remaining nodup_sections) htext
  rw [readIn?, hparse]
  exact ofToml?_remaining

theorem remaining_nothing (document : List Section) : Omission.remaining {} document = document := by
  have hkeeps (name key : String) : Omission.keeps {} name key = true := by
    simp [Omission.keeps, Omission.keepsSection]
  simp [Omission.remaining, hkeeps, Omission.keepsSection]

theorem reset_nothing (c : Config) : c.reset {} = c := by
  have hkeeps (name key : String) : Omission.keeps {} name key = true := by
    simp [Omission.keeps, Omission.keepsSection]
  simp [reset, Omission.pick, hkeeps]

/-- A configuration is read back from its own document. -/
theorem readIn?_textIn? (hT : T.Faithful) {text : String} (htext : c.textIn? T = some text) :
    readIn? T text = some c := by
  rw [textIn?, ← remaining_nothing c.sections] at htext
  rw [readIn?_remaining hT htext, reset_nothing]

end Format

/-- Only what the document holds can be left out of it. -/
theorem reset_congr {o' : Omission}
    (h : ∀ s ∈ c.sections, ∀ entry ∈ s.entries, o.keeps s.name entry.1 = o'.keeps s.name entry.1) :
    c.reset o = c.reset o' := by
  -- The rest of each section is the same, and the settings are read from it.
  have hfilter (s : Section) (hs : s ∈ c.sections) :
      (s.entries.filter fun entry => o.keeps s.name entry.1) =
        s.entries.filter fun entry => o'.keeps s.name entry.1 :=
    List.filter_congr (h s hs)
  have hclock : (c.reset o).clock = (c.reset o').clock :=
    eq_of_read clock_ofToml?_filter clock_ofToml?_filter (hfilter c.clock.section (by simp [sections]))
  have hdriver : (c.reset o).driver = (c.reset o').driver :=
    eq_of_read driver_ofToml?_filter driver_ofToml?_filter (hfilter c.driver.section (by simp [sections]))
  have hsync : (c.reset o).sync = (c.reset o').sync :=
    eq_of_read sync_ofToml?_filter sync_ofToml?_filter (hfilter c.sync.section (by simp [sections]))
  have hlogging : (c.reset o).logging = (c.reset o').logging :=
    eq_of_read logging_ofToml?_filter logging_ofToml?_filter
      (hfilter c.logging.section (by simp [sections]))
  change Config.mk (c.reset o).clock (c.reset o).driver (c.reset o).sync (c.reset o).logging = _
  rw [hclock, hdriver, hsync, hlogging]

/-- Leaving a section out is leaving all its settings out. -/
theorem reset_section {s : Section} (hs : s ∈ c.sections) :
    c.reset { o with sections := s.name :: o.sections } =
      c.reset { o with keys := s.entries.map (fun entry => (s.name, entry.1)) ++ o.keys } := by
  refine reset_congr fun other hother entry hentry => ?_
  by_cases hname : other.name = s.name
  · obtain rfl := List.inj_on_of_nodup_map nodup_sections hother hs hname
    have hkey : (other.name, entry.1) ∈ other.entries.map (fun entry => (other.name, entry.1)) ++ o.keys :=
      List.mem_append_left _ (List.mem_map_of_mem hentry)
    simp [Omission.keeps, Omission.keepsSection, hkey]
  · have hkey : (other.name, entry.1) ∉ s.entries.map (fun entry => (s.name, entry.1)) := by
      simp [Ne.symm hname]
    simp [Omission.keeps, Omission.keepsSection, hname, hkey]

/-- With any way to write and read TOML that is faithful to scalars and lists of them, a configuration cannot be
written exactly if one of its integers needs more than 63 bits. Any other one is read back from its document bit
for bit, and without some of its settings and sections it is read with the defaults in their place. Leaving out a
section is leaving out all that is assigned in it. The quantum is in the document exactly if it is set. -/
theorem omitted_settings_default (T : Format) (hT : T.Faithful) (c : Config) :
    (c.textIn? T = none ↔ ∃ n ∈ c.integers, 2 ^ 63 ≤ n) ∧
      ((∀ n ∈ c.integers, n < 2 ^ 63) →
        (∃ text, c.textIn? T = some text ∧ readIn? T text = some c) ∧
        (∀ o : Omission, ∃ text, T.print? (o.remaining c.sections) = some text ∧
          readIn? T text = some (c.reset o)) ∧
        ∀ (o : Omission), ∀ s ∈ c.sections, ∃ whole single,
          T.print? (Omission.remaining { o with sections := s.name :: o.sections } c.sections) = some whole ∧
          T.print? (Omission.remaining
            { o with keys := s.entries.map (fun entry => (s.name, entry.1)) ++ o.keys } c.sections) =
              some single ∧
          readIn? T whole = readIn? T single) ∧
      c.sync.section.entries.lookup "quantum" = c.sync.quantum.map .float := by
  refine ⟨textIn?_eq_none hT, fun hfits => ⟨?_, fun o => ?_, fun o s hs => ?_⟩, lookup_quantum⟩
  · obtain ⟨text, htext⟩ := print?_remaining (o := {}) hT hfits
    rw [remaining_nothing] at htext
    exact ⟨text, htext, readIn?_textIn? hT htext⟩
  · obtain ⟨text, htext⟩ := print?_remaining (o := o) hT hfits
    exact ⟨text, htext, readIn?_remaining hT htext⟩
  · obtain ⟨whole, hwhole⟩ := print?_remaining (o := { o with sections := s.name :: o.sections }) hT hfits
    obtain ⟨single, hsingle⟩ := print?_remaining
      (o := { o with keys := s.entries.map (fun entry => (s.name, entry.1)) ++ o.keys }) hT hfits
    refine ⟨whole, single, hwhole, hsingle, ?_⟩
    rw [readIn?_remaining hT hwhole, readIn?_remaining hT hsingle, reset_section hs]

/-- A slow tempo and a quantum were set, and the driver loop was changed. Without the quantum and without the
section of the driver loop only the tempo is left. -/
theorem quantum_and_driver_left_out :
    let c : Config :=
      { clock := { tempo := 90.0 }, driver := { tickIntervalMicros := 5000 }, sync := { quantum := some 4.0 } }
    let o : Omission := { sections := ["driver"], keys := [("sync", "quantum")] }
    (∀ n ∈ c.integers, n < 2 ^ 63) ∧
      ∃ text, print? (o.remaining c.sections) = some text ∧
        ofText? text = some { clock := { tempo := 90.0 } } := by
  intro c o
  have hfits : ∀ n ∈ c.integers, n < 2 ^ 63 := by decide +kernel
  obtain ⟨text, htext, hread⟩ :=
    ((omitted_settings_default .byLine Format.byLine_faithful c).2.1 hfits).2.1 o
  refine ⟨hfits, text, htext, hread.trans ?_⟩
  decide +kernel

end Config

end Cadence
