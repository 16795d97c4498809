import Mathlib
import Cadence.Proofs.Accounting
import Cadence.Proofs.Run.Turn

/-!
# Limited passes

A tick makes at most 32 passes, whatever the actions queue meanwhile. What it does not get to is left
to the next tick, and nothing is lost on the way: the entries that a pass leaves queued, those that were
started in it and those that an operation took off the queue are the ones it found and the ones that were
accepted in it. So actions that queue one another without end are run 32 a tick.

- `Run.conserves`: what becomes of the entries in a run;
- `Chain.reached`: the links of a chain are run one pass after another, over several ticks;
- `ticks_hand_over`: the bound, the report, and what is left to the next tick.
-/

namespace Cadence

variable {σ β ω : Type} [Transport σ]

open Conductor

/-! ## What is handed over -/

/-- The entries that are queued in the end, those that were started and those that an operation took off
the queue are, by their names, the ones that were queued at first and the next so many names, each of
them once. -/
def Conserves (c : Conductor σ β) (events : List (Event σ β)) (c' : Conductor σ β) : Prop :=
  ∃ accepted, c'.queue.submitted = c.queue.submitted + accepted ∧
    ((c'.queue.entries ++ startedEntries events ++ droppedEntries events).map (·.id.index)).Perm
      (c.queue.entries.map (·.id.index) ++ List.range' c.queue.submitted accepted)

/-- Over a run, every name that is handed out is pending in the end, was started or was dropped, and so is
every entry that was pending at first. -/
theorem Run.accounted {m m' : Moment σ β} {events : List (Event σ β)} (hs : Sound m)
    (h : Run m events m') :
    ∃ accepted, m'.clock.queue.submitted = m.clock.queue.submitted + accepted ∧
      ((m'.pending ++ startedEntries events ++ droppedEntries events).map (·.id.index)).Perm
        (m.pending.map (·.id.index) ++ List.range' m.clock.queue.submitted accepted) := by
  induction h with
  | nil => exact ⟨0, rfl, by simp [startedEntries, droppedEntries]⟩
  | @snoc events event m₁ m₂ hrun hstep ih =>
    obtain ⟨accepted, hsubmitted, hperm⟩ := ih
    obtain ⟨requests, heffect, -⟩ := hstep.effect (hrun.sound hs)
    refine ⟨accepted + requests.length, ?_, ?_⟩
    · rw [heffect.submitted, hsubmitted, Nat.add_assoc]
    · refine ((heffect.accepted_perm events).map _).trans ?_
      rw [List.map_append, Request.map_index_entries, hsubmitted, ← List.range'_append_1,
        ← List.append_assoc]
      exact hperm.append_right _

/-- The passes further out have no part in it. -/
theorem Run.conserves {c c' : Conductor σ β} {u : List (Pass β)} {events : List (Event σ β)}
    (hs : Sound ⟨c, u⟩) (h : Run ⟨c, u⟩ events ⟨c', u⟩) : Conserves c events c' := by
  obtain ⟨accepted, hsubmitted, hperm⟩ := h.accounted hs
  refine ⟨accepted, hsubmitted, ?_⟩
  simp only [Moment.pending, Moment.flying, List.map_append] at hperm ⊢
  rw [← Multiset.coe_eq_coe] at hperm ⊢
  simp only [← Multiset.coe_add] at hperm ⊢
  refine add_left_cancel (a := (↑((u.flatMap (·.rest)).map (·.id.index)) : Multiset ℕ)) ?_
  calc _ = _ := by abel
    _ = _ := hperm
    _ = _ := by abel

/-! ## Stages of a tick -/

section Stages

variable {L : LawfulPerformer σ β ω} {s : Conductor σ β × ω} {u : List (Pass β)}

/-- Each pass of a tick finds a clock in order. -/
theorem sound_iterate (hs : Sound ⟨s.1, u⟩) (hheld : ∀ id ∈ L.handles s.2, s.1.points.Has id) (k : ℕ) :
    Sound ⟨((passEnd L.perform)^[k] s).1, u⟩ ∧
      ∀ id ∈ L.handles ((passEnd L.perform)^[k] s).2, ((passEnd L.perform)^[k] s).1.points.Has id := by
  induction k with
  | zero => exact ⟨hs, hheld⟩
  | succ k ih =>
    obtain ⟨hsound, hknown⟩ := ih
    rw [Function.iterate_succ_apply']
    obtain ⟨hrun, hafter⟩ := LawfulPerformer.run_pass hsound hknown
    exact ⟨hrun.sound hsound, hafter⟩

omit [Transport σ] in
/-- An entry that is queued and due is drained by the pass that is made now. -/
theorem mem_drain_of_due {e : Entry (Task β)} (hs : Sound ⟨s.1, u⟩)
    (h : e ∈ s.1.queue.entries ∧ e.dueBeat ≤ s.1.now) : e ∈ s.1.drain.1 :=
  Queue.mem_drainDue_of_le hs.valid h.1 h.2

end Stages

/-! ## Chains -/

/-- Ticks that follow one another. Between two of them anything may happen to the clock, as long as what
is due stays queued and due. -/
structure Successive (L : LawfulPerformer σ β ω) (u : List (Pass β)) (starts : ℕ → Conductor σ β × ω) :
    Prop where
  /-- What happens between two ticks is a run. -/
  run : ∀ j, ∃ between, Run ⟨(runDue L.perform (starts j)).2.1, u⟩ between ⟨(starts (j + 1)).1, u⟩
  /-- The points that the program knows were created. -/
  held : ∀ j, ∀ id ∈ L.handles (starts j).2, (starts j).1.points.Has id
  /-- What is due after a tick is due before the next one. -/
  kept : ∀ j, ∀ e ∈ (runDue L.perform (starts j)).2.1.queue.entries,
    e.dueBeat ≤ (runDue L.perform (starts j)).2.1.now →
      e ∈ (starts (j + 1)).1.queue.entries ∧ e.dueBeat ≤ (starts (j + 1)).1.now

/-- The stage at which a pass is made, if the passes of all ticks are numbered in order. -/
def stageAt (P : Performer σ β ω) (starts : ℕ → Conductor σ β × ω) (k : ℕ) : Conductor σ β × ω :=
  (passEnd P)^[k % TickReport.maxPasses] (starts (k / TickReport.maxPasses))

theorem stageAt_add (P : Performer σ β ω) (starts : ℕ → Conductor σ β × ω) (i : ℕ) {j : ℕ}
    (h : j < TickReport.maxPasses) :
    stageAt P starts (TickReport.maxPasses * i + j) = (passEnd P)^[j] (starts i) := by
  rw [stageAt, Nat.mul_add_mod, Nat.mod_eq_of_lt h, Nat.mul_add_div (Nat.zero_lt_of_lt h),
    Nat.div_eq_of_lt h, Nat.add_zero]

/-- Entries each of which leaves the next one queued at a beat already due, if it is run in the pass
that comes next. -/
structure Chain (P : Performer σ β ω) (starts : ℕ → Conductor σ β × ω) (n : ℕ)
    (links : ℕ → Entry (Task β)) : Prop where
  /-- The first one is queued and due when the first tick starts. -/
  first : links 0 ∈ (starts 0).1.queue.entries ∧ (links 0).dueBeat ≤ (starts 0).1.now
  /-- Each of the others is queued and due when the pass is over that runs the one before it. -/
  next : ∀ k, k + 1 < n → links k ∈ (stageAt P starts k).1.drain.1 →
    links (k + 1) ∈ (passEnd P (stageAt P starts k)).1.queue.entries ∧
      (links (k + 1)).dueBeat ≤ (passEnd P (stageAt P starts k)).1.now

section Chains

variable {L : LawfulPerformer σ β ω} {u : List (Pass β)} {starts : ℕ → Conductor σ β × ω} {n : ℕ}
  {links : ℕ → Entry (Task β)}

/-- Every tick starts with a clock in order. -/
theorem Successive.sound (h : Successive L u starts) (hs : Sound ⟨(starts 0).1, u⟩) (j : ℕ) :
    Sound ⟨(starts j).1, u⟩ := by
  induction j with
  | zero => exact hs
  | succ j ih =>
    obtain ⟨between, hbetween⟩ := h.run j
    exact hbetween.sound ((LawfulPerformer.run_due ih (h.held j)).1.sound ih)

theorem Successive.sound_stageAt (h : Successive L u starts) (hs : Sound ⟨(starts 0).1, u⟩) (k : ℕ) :
    Sound ⟨(stageAt L.perform starts k).1, u⟩ :=
  (sound_iterate (h.sound hs _) (h.held _) _).1

/-- What is queued and due after a pass is drained by the next one, which may be the first one of the
next tick. -/
theorem Successive.mem_drain_succ (h : Successive L u starts) (hs : Sound ⟨(starts 0).1, u⟩) {k : ℕ}
    {e : Entry (Task β)}
    (hdue : e ∈ (passEnd L.perform (stageAt L.perform starts k)).1.queue.entries ∧
      e.dueBeat ≤ (passEnd L.perform (stageAt L.perform starts k)).1.now) :
    e ∈ (stageAt L.perform starts (k + 1)).1.drain.1 := by
  refine mem_drain_of_due (h.sound_stageAt hs (k + 1)) ?_
  have hpos : 0 < TickReport.maxPasses := by decide
  have hsplit : k + 1 = TickReport.maxPasses * (k / TickReport.maxPasses) +
      (k % TickReport.maxPasses + 1) := by
    rw [← Nat.add_assoc, Nat.div_add_mod]
  have hafter : passEnd L.perform (stageAt L.perform starts k) =
      (passEnd L.perform)^[k % TickReport.maxPasses + 1] (starts (k / TickReport.maxPasses)) :=
    (Function.iterate_succ_apply' _ _ _).symm
  rw [hafter] at hdue
  have hle : k % TickReport.maxPasses + 1 ≤ TickReport.maxPasses := Nat.mod_lt k hpos
  rcases hle.lt_or_eq with hlt | hwrap
  · rw [hsplit, stageAt_add _ _ _ hlt]
    exact hdue
  · -- That was the last pass of its tick.
    rw [hwrap, ← runDue_snd] at hdue
    rw [hsplit, hwrap, ← Nat.mul_add_one, ← Nat.add_zero (_ * _), stageAt_add _ _ _ hpos]
    exact h.kept _ e hdue.1 hdue.2

namespace Chain

/-- Every link is drained by its pass. -/
theorem mem_drain (h : Chain L.perform starts n links) (hticks : Successive L u starts)
    (hs : Sound ⟨(starts 0).1, u⟩) {k : ℕ} (hk : k < n) :
    links k ∈ (stageAt L.perform starts k).1.drain.1 := by
  induction k with
  | zero => exact mem_drain_of_due hs h.first
  | succ k ih => exact hticks.mem_drain_succ hs (h.next k hk (ih (Nat.lt_of_succ_lt hk)))

/-- Every link is reached: the pass that drains it is made, in the tick and at the place that its number
tells, and starts it. -/
theorem reached (h : Chain L.perform starts n links) (hticks : Successive L u starts)
    (hs : Sound ⟨(starts 0).1, u⟩) {k : ℕ} (hk : k < n) :
    (passes L.perform TickReport.maxPasses (starts (k / TickReport.maxPasses)))[
        k % TickReport.maxPasses]? = some (stageAt L.perform starts k) ∧
      links k ∈ (stageAt L.perform starts k).1.drain.1 ∧
      ∃ c, Event.started (stageAt L.perform starts k).1.now (links k) c ∈
        L.dueEvents (starts (k / TickReport.maxPasses)) := by
  have hmem := h.mem_drain hticks hs hk
  have hpass : (passes L.perform TickReport.maxPasses (starts (k / TickReport.maxPasses)))[
      k % TickReport.maxPasses]? = some (stageAt L.perform starts k) := by
    have hlast : k % TickReport.maxPasses < TickReport.maxPasses := Nat.mod_lt k (by decide)
    refine getElem?_passes hlast fun j hj hnil => ?_
    -- The earlier passes of the tick drained earlier links.
    have hearlier : TickReport.maxPasses * (k / TickReport.maxPasses) + j < n := by
      have hsplit := Nat.div_add_mod k TickReport.maxPasses
      omega
    have hlink := h.mem_drain hticks hs hearlier
    rw [stageAt_add _ _ _ (hj.trans hlast), hnil] at hlink
    cases hlink
  obtain ⟨c, hc⟩ := LawfulPerformer.started_mem_firstPass (L := L) hmem
  refine ⟨hpass, hmem, c, ?_⟩
  rw [LawfulPerformer.dueEvents_eq]
  exact List.mem_flatMap.mpr ⟨_, List.mem_of_getElem? hpass, hc⟩

end Chain

end Chains

/-! ## Ticks -/

/-- The passes of a tick end with one that found nothing due by the beat it measured, or they were 32 and
the last one lost nothing. -/
theorem exists_last_pass {L : LawfulPerformer σ β ω} {u : List (Pass β)} {s : Conductor σ β × ω}
    (hs : Sound ⟨s.1, u⟩) (hheld : ∀ id ∈ L.handles s.2, s.1.points.Has id) :
    ∃ last, (passes L.perform TickReport.maxPasses s).getLast? = some last ∧
      (runDue L.perform s).1.beat = last.1.now ∧
      ((∀ e ∈ (runDue L.perform s).2.1.queue.entries, ¬ e.dueBeat ≤ (runDue L.perform s).1.beat) ∨
        (passes L.perform TickReport.maxPasses s).length = TickReport.maxPasses ∧
          Conserves last.1 (L.firstPass last) (runDue L.perform s).2.1) := by
  obtain ⟨last, hlast, hend, hreason⟩ := passes_last (P := L.perform) 31 s
  change (passEnd L.perform)^[TickReport.maxPasses] s = _ at hend
  obtain ⟨k, hk⟩ := exists_iterate_of_mem_passes (List.mem_of_getLast? hlast)
  obtain ⟨hsound, hknown⟩ := sound_iterate hs hheld k
  rw [← hk] at hsound hknown
  have hbeat : (runDue L.perform s).1.beat = last.1.now := by
    rw [runDue_beat]
    change ((passes L.perform (31 + 1) s).getLast?.map (·.1.now)).getD 0.0 = _
    rw [hlast]
    rfl
  refine ⟨last, hlast, hbeat, ?_⟩
  rw [runDue_snd, hend, hbeat]
  rcases hreason with hnil | hall
  · -- It would have drained whatever is due.
    refine .inl fun e he hdue => ?_
    rw [passEnd_of_drain_eq_nil hnil] at he
    have hdrained := mem_drain_of_due hsound ⟨he, hdue⟩
    rw [hnil] at hdrained
    cases hdrained
  · exact .inr ⟨hall, (LawfulPerformer.run_pass hsound hknown).1.conserves hsound⟩

/-- What is run in a tick is what its passes drain, and the report counts each of it. -/
theorem count_drained (P : Performer σ β ω) (s : Conductor σ β × ω) :
    (runDue P s).1.fired + (runDue P s).1.failures.length =
      ((passes P TickReport.maxPasses s).flatMap (·.1.drain.1)).length := by
  rw [count_runDue, ← map_entry_turns, List.length_map]

/-- Whatever the actions do, a tick is over after at most 32 passes. When it is over, nothing that is
queued is due at the beat of the report; or there were 32 passes, and whatever the last one found or had
accepted is still queued, was started in it, or was taken off the queue by an operation. The report counts
every entry that the passes took off the queue, and each of these has been started once. Actions that
queue one another at a beat already due are run one pass after another, so 32 a tick, and none of them is
lost. -/
theorem ticks_hand_over (L : LawfulPerformer σ β ω) {events : List (Event σ β)} {u : List (Pass β)}
    {s : Conductor σ β × ω} (h : History events ⟨s.1, u⟩)
    (hheld : ∀ id ∈ L.handles s.2, s.1.points.Has id) :
    (passes L.perform 32 s).length ≤ 32 ∧
      L.dueEvents s = (passes L.perform 32 s).flatMap L.firstPass ∧
      History (events ++ L.dueEvents s) ⟨(runDue L.perform s).2.1, u⟩ ∧
      (∃ last, (passes L.perform 32 s).getLast? = some last ∧
        (runDue L.perform s).1.beat = last.1.now ∧
        ((∀ e ∈ (runDue L.perform s).2.1.queue.entries,
            ¬ e.dueBeat ≤ (runDue L.perform s).1.beat) ∨
          (passes L.perform 32 s).length = 32 ∧
            Conserves last.1 (L.firstPass last) (runDue L.perform s).2.1)) ∧
      (runDue L.perform s).1.fired + (runDue L.perform s).1.failures.length =
        ((passes L.perform 32 s).flatMap (·.1.drain.1)).length ∧
      (((passes L.perform 32 s).flatMap (·.1.drain.1)).map (·.id)).Nodup ∧
      (∀ e ∈ (passes L.perform 32 s).flatMap (·.1.drain.1),
        (startedEntries (events ++ L.dueEvents s)).filter (·.id = e.id) = [e]) ∧
      ∀ starts n links, starts 0 = s → Successive L u starts → Chain L.perform starts n links →
        ∀ k < n, (passes L.perform 32 (starts (k / 32)))[k % 32]? = some (stageAt L.perform starts k) ∧
          links k ∈ (stageAt L.perform starts k).1.drain.1 ∧
          ∃ c, Event.started (stageAt L.perform starts k).1.now (links k) c ∈
            L.dueEvents (starts (k / 32)) := by
  have hafter : History (events ++ L.dueEvents s) ⟨(runDue L.perform s).2.1, u⟩ :=
    h.append (LawfulPerformer.run_due h.sound hheld).1
  have hdrained := (LawfulPerformer.drained_sublist_startedEntries (L := L) s).trans
    (List.sublist_append_right (startedEntries events) _)
  rw [← startedEntries_append] at hdrained
  refine ⟨length_passes_le _ _, LawfulPerformer.dueEvents_eq s, hafter,
    exists_last_pass h.sound hheld, count_drained _ _,
    hafter.nodup_startedEntries.sublist (hdrained.map _),
    fun e he => hafter.filter_startedEntries (hdrained.subset he), ?_⟩
  rintro starts n links rfl hticks hchain k hk
  exact hchain.reached hticks h.sound hk

/-! ### A chain without end -/

/-- While no driver loop is attached, scheduling an action at a finite beat only queues it. -/
theorem Conductor.scheduleAt_of_isFinite {σ β : Type} {c : Conductor σ β} {beat : Float}
    (hbeat : beat.isFinite = true) (hdriver : c.driver = none) (action : Action β) :
    (c.scheduleAt beat action).2 =
      { c with queue := (c.queue.submit (.ofFloat beat) false (.act action) none).2 } := by
  simp only [scheduleAt, scheduleOwned, submit, checkBeat, hbeat, if_true, wake, hdriver, Option.map_none]
  split_ifs <;> rfl

/-- Bodies that queue the next action at a beat already due. -/
def LawfulPerformer.relaying : LawfulPerformer Offline Unit Unit :=
  ofOperations (fun _ => [.scheduleAt 0.0 ⟨"link", ()⟩]) (fun _ => .ok ())
    (by simp [Operation.Permitted])

/-- A link of the chain that they make. -/
def link (k : ℕ) : Entry (Task Unit) := ⟨⟨k⟩, .ofFloat 0.0, false, .act ⟨"link", ()⟩, none⟩

/-- The clock with one link queued. -/
def Conductor.relay (k : ℕ) : Conductor Offline Unit := { offline with queue := ⟨[link k], k + 1⟩ }

/-- Ticks of it, one after another. -/
def relays (j : ℕ) : Conductor Offline Unit × Unit := (relay (TickReport.maxPasses * j), ())

theorem due_relay (k : ℕ) : (link k).dueBeat ≤ (relay k).now :=
  (by decide +kernel : (link 0).dueBeat ≤ (offline : Conductor Offline Unit).now)

theorem driver_offline : (offline : Conductor Offline Unit).driver = none := by decide +kernel

theorem drain_relay (k : ℕ) :
    (relay k).drain = ([link k], { offline with queue := ⟨[], k + 1⟩ }) := by
  have hdue : ¬ (relay k).now < (link k).dueBeat :=
    (by decide +kernel : ¬ (offline : Conductor Offline Unit).now < (link 0).dueBeat)
  have hqueue : (relay k).queue.drainDue (relay k).now = ([link k], ⟨[], k + 1⟩) :=
    Queue.drainDue_cons_of_not_lt hdue
  rw [drain, hqueue]
  rfl

/-- A pass runs the link that is queued, and leaves the next one. -/
theorem passEnd_relay (k : ℕ) :
    passEnd LawfulPerformer.relaying.perform (relay k, ()) = (relay (k + 1), ()) := by
  rw [passEnd, drain_relay]
  have hfinite : (0.0 : Float).isFinite = true := by decide +kernel
  have hscheduled := scheduleAt_of_isFinite (c := { offline with queue := ⟨[], k + 1⟩ }) hfinite
    driver_offline ⟨"link", ()⟩
  exact congrArg (Prod.mk · ()) hscheduled

theorem iterate_passEnd_relay (k i : ℕ) :
    (passEnd LawfulPerformer.relaying.perform)^[i] (relay k, ()) = (relay (k + i), ()) := by
  induction i with
  | zero => rfl
  | succ i ih => rw [Function.iterate_succ_apply', ih, passEnd_relay, Nat.add_assoc]

theorem history_relay :
    History (callEvents offline [.scheduleAt 0.0 ⟨"link", ()⟩]) ⟨relay 0, []⟩ := by
  have hscheduled : (offline.scheduleAt 0.0 ⟨"link", ()⟩).2 = relay 0 :=
    (scheduleAt_of_isFinite (by decide +kernel) driver_offline _).trans rfl
  have hpermitted : ∀ op ∈ [Operation.scheduleAt 0.0 ⟨"link", ()⟩], ∀ c : Conductor Offline Unit,
      op.Permitted c := by simp [Operation.Permitted]
  have hhistory := history_offline hpermitted
  change History _ ⟨(offline.scheduleAt 0.0 ⟨"link", ()⟩).2, []⟩ at hhistory
  rwa [hscheduled] at hhistory

theorem successive_relays : Successive LawfulPerformer.relaying [] relays := by
  have hafter (j : ℕ) : (runDue LawfulPerformer.relaying.perform (relays j)).2 = relays (j + 1) := by
    rw [runDue_snd, relays, iterate_passEnd_relay, ← Nat.mul_add_one]
    rfl
  refine ⟨fun j => ⟨[], ?_⟩, ?_, fun j e he hdue => ?_⟩
  · rw [hafter]
    exact .nil
  · intro _ _ hid
    cases hid
  · rw [hafter] at he hdue
    exact ⟨he, hdue⟩

theorem stageAt_relays (k : ℕ) :
    stageAt LawfulPerformer.relaying.perform relays k = (relay k, ()) := by
  rw [stageAt, relays, iterate_passEnd_relay, Nat.div_add_mod]

theorem chain_relays (n : ℕ) : Chain LawfulPerformer.relaying.perform relays n link := by
  refine ⟨⟨.head _, due_relay 0⟩, fun k _ _ => ?_⟩
  rw [stageAt_relays, passEnd_relay]
  exact ⟨.head _, due_relay (k + 1)⟩

/-- Of a hundred actions that queue one another, every 32 are run by one tick. -/
theorem hundred_links_run :
    (∃ c, .started (relay 31).now (link 31) c ∈ LawfulPerformer.relaying.dueEvents (relay 0, ())) ∧
      (∃ c, .started (relay 32).now (link 32) c ∈ LawfulPerformer.relaying.dueEvents (relay 32, ())) ∧
      ∃ c, .started (relay 99).now (link 99) c ∈ LawfulPerformer.relaying.dueEvents (relay 96, ()) := by
  have hall := (ticks_hand_over LawfulPerformer.relaying (s := relays 0) history_relay
    fun _ hid => by cases hid).2.2.2.2.2.2.2 relays 100 link rfl successive_relays (chain_relays 100)
  have hstarted (k : ℕ) (hk : k < 100) : ∃ c, .started (relay k).now (link k) c ∈
      LawfulPerformer.relaying.dueEvents (relay (32 * (k / 32)), ()) := by
    obtain ⟨-, -, c, hc⟩ := hall k hk
    rw [stageAt_relays] at hc
    exact ⟨c, hc⟩
  exact ⟨hstarted 31 (by decide), hstarted 32 (by decide), hstarted 99 (by decide)⟩

/-! ### An action that takes back what it queued -/

/-- Bodies that queue an entry, take it off the queue and queue themselves again. -/
def LawfulPerformer.wavering : LawfulPerformer Offline Unit Unit :=
  ofOperations (fun _ => [.scheduleAt 50.0 ⟨"held", ()⟩, .clearQueue, .scheduleAt 0.0 ⟨"loop", ()⟩])
    (fun _ => .ok ()) (by simp [Operation.Permitted])

/-- The clock with one of them queued. -/
def Conductor.wavering : Conductor Offline Unit × Unit :=
  (offline.applyAll [.scheduleAt 0.0 ⟨"loop", ()⟩], ())

/-- After a tick of 32 passes something is due at the beat of the report, and entry 63, which the last
pass had accepted, has neither been started nor is it queued. Of the 64 entries that left the queue, the
report counts 32. -/
theorem taken_back_not_queued :
    (passes LawfulPerformer.wavering.perform 32 Conductor.wavering).length = 32 ∧
      ((runDue LawfulPerformer.wavering.perform Conductor.wavering).2.1.queue.entries.any fun e =>
        e.dueBeat ≤ (runDue LawfulPerformer.wavering.perform Conductor.wavering).1.beat) = true ∧
      (passes LawfulPerformer.wavering.perform 32 Conductor.wavering).getLast?.map
        (·.1.queue.submitted) = some 63 ∧
      (runDue LawfulPerformer.wavering.perform Conductor.wavering).2.1.queue.submitted = 65 ∧
      (runDue LawfulPerformer.wavering.perform Conductor.wavering).2.1.queue.entries.length = 1 ∧
      (runDue LawfulPerformer.wavering.perform Conductor.wavering).1.fired +
        (runDue LawfulPerformer.wavering.perform Conductor.wavering).1.failures.length = 32 ∧
      63 ∉ (startedEntries (callEvents offline [.scheduleAt 0.0 ⟨"loop", ()⟩] ++
        LawfulPerformer.wavering.dueEvents Conductor.wavering)).map (·.id.index) ∧
      63 ∉ (runDue LawfulPerformer.wavering.perform Conductor.wavering).2.1.queue.entries.map
        (·.id.index) := by
  decide +kernel

end Cadence
