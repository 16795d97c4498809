import Mathlib
import Cadence.Script.Run
import Cadence.Proofs.Run.Tick

/-!
# Scripts as runs

A script acts on its clock only through the operations of the clock and through ticks, also where its
routines take steps of their own. So whatever a script does, its clock has a history, and what is proved
of histories is true of it:

- `Stage.follows_step`: one step of a script is a run, as long as the steps within it are;
- `follows_play`: so are several steps, however deep routines can run within each other;
- `Follows.history`: a clock that a script has got to has a history.
-/

namespace Cadence

namespace Conductor

variable {σ β : Type} (c : Conductor σ β)

theorem has_createPoint (kind : PointKind) :
    (c.createPoint kind).2.points.Has (c.createPoint kind).1 :=
  Points.has_of_node? ((Points.node?_insert c.points kind c.points.nextId).trans (if_pos rfl))

/-- A point that moves on by a period was created, if it is answered. -/
theorem has_recurringPoint {period : Float} {id : PointId}
    (h : (c.recurringPoint period).1 = .ok id) : (c.recurringPoint period).2.points.Has id := by
  unfold recurringPoint at h ⊢
  cases hcheck : checkPeriod period with
  | error fault =>
    rw [hcheck] at h
    cases h
  | ok period' =>
    rw [hcheck] at h
    cases h
    exact c.has_createPoint _

/-- So was one that runs an action every so many beats. -/
theorem has_every (hlinked : c.points.Linked) {period : Float} {action : Action β} {id : PointId}
    (h : (c.every period action).1 = .ok id) : (c.every period action).2.points.Has id := by
  cases hcheck : checkPeriod period with
  | error fault =>
    simp only [every, recurringPoint, hcheck] at h
    cases h
  | ok period' =>
    have hnew := c.has_createPoint (.recurring period')
    have hlinked₁ : (c.createPoint (.recurring period')).2.points.Linked :=
      Points.linked_insert hlinked _
    simp only [every, recurringPoint, hcheck] at h ⊢
    generalize c.createPoint (.recurring period') = created at h hnew hlinked₁ ⊢
    obtain ⟨new, c₁⟩ := created
    have hattach := c₁.change_addAction new action
    obtain ⟨_, hbind, -⟩ := (c₁.addAction new action).change_bind
      (hattach.points.linked hlinked₁) new ((c₁.addAction new action).now + period)
    -- Neither attaching the action nor binding the point takes it away.
    have hhas := hbind.points.has (hattach.points.has hnew)
    simp only at h ⊢
    split at h <;> rename_i hbound
    · cases h
    · cases h
      rwa [hbound] at hhas

theorem has_derivePoint {d : Derivation} (h : ∀ id ∈ d.points, c.points.Has id) :
    ∃ id, (c.derivePoint d).1 = .ok id ∧ (c.derivePoint d).2.points.Has id := by
  obtain ⟨_, hderive, -⟩ := Points.derive_ok h
  obtain ⟨_, hnode, -⟩ := Points.node?_derive h
  refine ⟨c.points.nextId, congrArg Prod.fst hderive, ?_⟩
  exact Points.has_of_node? ((hnode c.points.nextId).trans (if_pos rfl))

end Conductor

namespace Script

/-! ## Stages that follow others -/

/-- A stage in order leads to another one: there is a run in between, and the points that the script
knows then were created. -/
def Follows (s s' : Stage) : Prop :=
  Ready Notebook.known s →
    (∃ events, Run ⟨s.1, []⟩ events ⟨s'.1, []⟩) ∧ ∀ id ∈ s'.2.known, s'.1.points.Has id

namespace Follows

variable {s s' s'' : Stage}

theorem ready (h : Follows s s') (hs : Ready Notebook.known s) : Ready Notebook.known s' := by
  obtain ⟨⟨events, hrun⟩, hheld⟩ := h hs
  exact ⟨hrun.sound hs.sound, hheld⟩

/-- A stage follows itself, also if the script has noted something meanwhile. -/
theorem of_eq (hclock : s'.1 = s.1) (hknown : s'.2.known = s.2.known) : Follows s s' := by
  intro hs
  rw [hclock, hknown]
  exact ⟨⟨[], .nil⟩, hs.held⟩

theorem refl (s : Stage) : Follows s s := of_eq rfl rfl

theorem trans (h : Follows s s') (h' : Follows s' s'') : Follows s s'' := by
  intro hs
  obtain ⟨⟨events, hrun⟩, -⟩ := h hs
  obtain ⟨⟨events', hrun'⟩, hheld⟩ := h' (h.ready hs)
  exact ⟨⟨events ++ events', hrun.append hrun'⟩, hheld⟩

/-- A stage follows when an operation is called, and the script knows the points that it knew and
some that were created. -/
theorem call (op : Operation Rehearsal Routine) (hclock : s'.1 = op.apply s.1)
    (hpermitted : Ready Notebook.known s → op.Permitted s.1)
    (hheld : Ready Notebook.known s → ∀ id ∈ s'.2.known, id ∈ s.2.known ∨ s'.1.points.Has id) :
    Follows s s' := by
  intro hs
  have hrun : Run ⟨s.1, []⟩ [.called op s.1] ⟨s'.1, []⟩ := by
    rw [hclock]
    exact .single (.call (hpermitted hs))
  refine ⟨⟨_, hrun⟩, fun id hid => ?_⟩
  rcases hheld hs id hid with hid | hhas
  · exact hrun.has hs.sound (hs.held id hid)
  · exact hhas

/-- A stage follows when an operation is called that anybody may call. -/
theorem of_apply (op : Operation Rehearsal Routine) (hclock : s'.1 = op.apply s.1)
    (hknown : s'.2.known = s.2.known) (hpermitted : ∀ c, op.Permitted c) : Follows s s' :=
  call op hclock (fun _ => hpermitted _) fun _ _ hid => .inl (hknown ▸ hid)

end Follows

/-! ## What steps are made of -/

namespace Stage

variable {s : Stage}

theorem follows_adopt {α : Type} {read : α → Reply}
    {answer : Except Fault α × Conductor Rehearsal Routine} (op : Operation Rehearsal Routine)
    (hclock : answer.2 = op.apply s.1) (hpermitted : ∀ c, op.Permitted c) :
    Follows s (s.adopt read answer).2 := by
  obtain ⟨_ | _, c⟩ := answer
  · exact .of_apply op hclock rfl hpermitted
  · exact .of_apply op hclock rfl hpermitted

theorem follows_reply {c : Conductor Rehearsal Routine} {reply : Reply}
    (op : Operation Rehearsal Routine) (hclock : c = op.apply s.1)
    (hpermitted : ∀ c, op.Permitted c) : Follows s (s.reply c reply).2 :=
  .of_apply op hclock rfl hpermitted

/-- The point that an operation creates may be known from then on. -/
theorem follows_adoptPoint {answer : Except Fault PointId × Conductor Rehearsal Routine}
    (op : Operation Rehearsal Routine) (hclock : answer.2 = op.apply s.1)
    (hpermitted : Ready Notebook.known s → op.Permitted s.1)
    (hnew : Ready Notebook.known s → ∀ id, answer.1 = .ok id → answer.2.points.Has id) :
    Follows s (s.adoptPoint answer).2 := by
  obtain ⟨_ | new, c⟩ := answer
  · exact .call op hclock hpermitted fun _ _ hid => .inl hid
  · refine .call op hclock hpermitted fun hs id hid => ?_
    rcases List.mem_append.mp hid with hid | hid
    · exact .inl hid
    · exact .inr (List.mem_singleton.mp hid ▸ hnew hs new rfl)

theorem follows_withPoint {id : PointId} {next : Outcome × Stage} (h : Follows s next.2) :
    Follows s (s.withPoint id next).2 := by
  unfold withPoint
  split_ifs
  · exact h
  · exact .refl s

theorem follows_withAction {ref : ActionRef} {next : Action Routine → Outcome × Stage}
    (h : ∀ action, Follows s (next action).2) : Follows s (s.withAction ref next).2 := by
  unfold withAction
  simp only
  split
  · exact h _
  · exact .refl s

theorem follows_submit {ref : ActionRef}
    {submit : Action Routine → Except Fault EntryId × Conductor Rehearsal Routine}
    (op : Action Routine → Operation Rehearsal Routine)
    (hclock : ∀ action, (submit action).2 = (op action).apply s.1)
    (hpermitted : ∀ action c, (op action).Permitted c) : Follows s (s.submit ref submit).2 :=
  follows_withAction fun action => follows_adopt (op action) (hclock action) (hpermitted action)

/-! ## Ticks and loops -/

/-- Players whose steps lead from each stage to one that follows it. -/
def LawfulPlayer (play : Player) : Prop := ∀ steps s, Follows s (play steps s).2

variable {play : Player}

/-- Running a routine leads to a stage that follows. -/
theorem follows_performWith (hplay : LawfulPlayer play) (routine : Routine) (s : Stage) :
    Follows s (performWith play routine s).2 := by
  obtain ⟨label, steps, ending⟩ := routine
  cases steps with
  | none => exact .of_eq rfl rfl
  | some steps =>
    let began : Happening := .began label s.1.now s.1.bpm
    have hbegan : Follows s (s.1, { s.2 with happenings := s.2.happenings ++ [began] }) :=
      .of_eq rfl rfl
    exact (hbegan.trans (hplay steps _)).trans (.of_eq rfl rfl)

/-- Routines act on the clock only through its operations and through ticks. -/
noncomputable def performer (hplay : LawfulPlayer play) :
    LawfulPerformer Rehearsal Routine Notebook where
  perform := performWith play
  handles := Notebook.known
  trace routine s :=
    open Classical in
    if hs : Ready Notebook.known s then (follows_performWith hplay routine s hs).1.choose else []
  run hs := by
    rw [dif_pos hs]
    exact (follows_performWith hplay _ _ hs).1.choose_spec
  held hs := (follows_performWith hplay _ _ hs).2

theorem follows_tick (hplay : LawfulPlayer play) (s : Stage) :
    Follows s (s.tick (performWith play)).2 := by
  have heq : (s.tick (performWith play)).2 = (Conductor.tick (performWith play) s).2 := by
    unfold Stage.tick
    split <;> rename_i hanswer <;> rw [hanswer]
  rw [heq]
  intro hs
  obtain ⟨hrun, hheld⟩ :=
    LawfulPerformer.run_tick (L := performer hplay) (s := s) hs.sound hs.held
  exact ⟨⟨_, hrun⟩, hheld⟩

theorem follows_goTo (s : Stage) (beat : Float) : Follows s (s.goTo beat) :=
  .of_apply (.moveTo (s.1.playhead.dateAtBeat beat)) rfl rfl fun _ => trivial

theorem follows_goToTick (hplay : LawfulPlayer play) (s : Stage) (beat : Float) :
    Follows s (s.goToTick (performWith play) beat).2 :=
  (s.follows_goTo beat).trans (follows_tick hplay _)

theorem follows_runFrom (hplay : LawfulPlayer play) (goal step : Float) (fuel : ℕ) (beat : Float)
    (counts : ℕ × ℕ × ℕ) (s : Stage) :
    Follows s (s.runFrom (performWith play) goal step fuel beat counts).2 := by
  induction fuel generalizing beat counts s with
  | zero => exact .refl s
  | succ fuel ih =>
    obtain ⟨ticks, fired, failed⟩ := counts
    unfold runFrom
    split_ifs
    · have hnext := s.follows_goToTick hplay
        (Number.smaller ((Number.floor (beat / step) + 1.0) * step) goal)
      simp only
      split <;> rename_i hticked <;> rw [hticked] at hnext
      · exact hnext.trans (ih _ _ _)
      · exact hnext
    · exact .refl s

theorem follows_settle (hplay : LawfulPlayer play) (fuel : ℕ) (s : Stage) :
    Follows s (s.settle (performWith play) fuel) := by
  induction fuel generalizing s with
  | zero => exact .refl s
  | succ fuel ih =>
    unfold settle
    split_ifs
    · have hnext := s.follows_tick hplay
      split <;> rename_i hticked <;> rw [hticked] at hnext
      · exact hnext.trans (ih _)
      · exact hnext
    · exact .refl s

/-- Taking steps while a driver loop is attached is a run of its own: the loop comes and goes through
operations. -/
theorem follows_drive (hplay : LawfulPlayer play) (s : Stage) (steps : List Step) :
    Follows s (s.drive play steps).2 := by
  -- The loop is attached, the steps are taken, what is due is run, and the loop is detached.
  have hattach (s : Stage) : Follows s (s.1.start, s.2) := .of_apply .start rfl rfl fun _ => trivial
  have hdetach (s : Stage) : Follows s (s.1.stop, s.2) := .of_apply .stop rfl rfl fun _ => trivial
  have hlog (s : Stage) (log : List Log.Message) : Follows s ({ s.1 with log }, s.2) :=
    .of_apply (.outside s.1.follower.session s.1.audience log) rfl rfl fun _ => trivial
  refine (hattach s).trans <| (hattach _).trans <| (hplay steps _).trans <|
    (follows_settle hplay maxTicks _).trans <| (hdetach _).trans <| (hdetach _).trans ?_
  exact hlog _ s.1.log

/-! ## Scripts -/

/-- Computing a point from others is a run if the script knows them all; otherwise nothing happens. -/
theorem follows_combine (s : Stage) (d : Derivation) : Follows s (s.combine d).2 := by
  unfold combine
  split
  · exact .refl s
  · exact .refl s
  · rename_i hfind _
    -- No operand was found that the script does not know.
    have hknown : ∀ id ∈ d.points, id ∈ s.2.known := by
      intro id hid
      simpa using List.find?_eq_none.mp hfind id hid
    have hpoints (hs : Ready Notebook.known s) : ∀ id ∈ d.points, s.1.points.Has id :=
      fun id hid => hs.held id (hknown id hid)
    split <;> rename_i hderive
    · refine follows_adoptPoint (.derivePoint d) (by rw [Operation.apply, hderive]) hpoints ?_
      intro hs new hnew
      obtain ⟨new', hok, hhas⟩ := s.1.has_derivePoint (hpoints hs)
      rw [hderive] at hok hhas
      cases hok
      cases hnew
      exact hhas
    · exact .call (.derivePoint d) (by rw [Operation.apply, hderive]) hpoints
        fun _ _ hid => .inl hid

/-- A change of the playhead alone is an operation if it is accepted; otherwise nothing happens. -/
theorem follows_changePlayhead (s : Stage) (play : Player) (change : PlayheadChange) :
    Follows s (s.step play (.playhead change)).2 := by
  -- A change that is refused leaves the stage as it is.
  have haccepted (op : Operation Rehearsal Routine) (changed : Except Fault (Reply × Playhead))
      (heq : changePlayhead s.1.playhead change = changed)
      (hclock : op.apply s.1 = Operation.accepted s.1 (changed.map (·.2)))
      (hpermitted : ∀ c, op.Permitted c) : Follows s (s.step play (.playhead change)).2 := by
    simp only [Stage.step, heq]
    cases changed with
    | error fault => exact .refl s
    | ok answer => exact .of_apply op hclock.symm rfl hpermitted
  cases change with
  | bpm bpm =>
    refine haccepted (.playheadBpm bpm) _ rfl ?_ fun _ => trivial
    simp only [changePlayhead, Operation.apply]
    cases s.1.playhead.setBpm bpm <;> rfl
  | bpmAt beat bpm =>
    refine haccepted (.playheadBpmAt beat bpm) _ rfl ?_ fun _ => trivial
    simp only [changePlayhead, Operation.apply]
    cases s.1.playhead.setBpmAt beat bpm <;> rfl
  | time beat =>
    refine haccepted (.playheadTime beat) _ rfl ?_ fun _ => trivial
    simp only [changePlayhead, Operation.apply]
    cases s.1.playhead.setTime beat <;> rfl
  | shift beats => exact haccepted (.playheadShift beats) _ rfl rfl fun _ => trivial
  | meter numerator denominator =>
    simp only [Stage.step, changePlayhead]
    cases Meter.make numerator denominator with
    | error fault => exact .refl s
    | ok meter => exact .of_apply (.playheadMeter meter) rfl rfl fun _ => trivial

/-- Printing the state of the clock asks the follower for its state, and logging it writes a message. -/
theorem follows_report (s : Stage) (json : Bool) : Follows s (s.report json).2 := by
  have hstatus : Follows s (s.1.syncStatus.2, s.2) :=
    .of_apply .syncStatus rfl rfl fun _ => trivial
  have hsay (s : Stage) (said : String) : Follows s (s.1.say .info said, s.2) :=
    .of_apply (.outside s.1.follower.session s.1.audience (s.1.say .info said).log) rfl rfl
      fun _ => trivial
  cases json with
  | true => exact hstatus
  | false => exact hstatus.trans (hsay _ _)

/-- A step of a script leads to a stage that follows, if the steps within it do. -/
theorem follows_step (hplay : LawfulPlayer play) (s : Stage) (step : Step) :
    Follows s (s.step play step).2 := by
  cases step with
  | ask question => exact .refl s
  | advance micros => exact .of_apply (.advance micros) rfl rfl fun _ => trivial
  | advanceBy seconds nanoseconds =>
    exact follows_reply (.advanceBy seconds nanoseconds) rfl fun _ => trivial
  | moveTo date => exact .of_apply (.moveTo date) rfl rfl fun _ => trivial
  | goTo beat => exact s.follows_goTo beat
  | tick => exact follows_tick hplay s
  | goToTick beat => exact follows_goToTick hplay s beat
  | run goal step => exact follows_runFrom hplay goal step _ _ _ s
  | playhead change => exact s.follows_changePlayhead play change
  | setBpm bpm => exact follows_adopt (.setBpm bpm) rfl fun _ => trivial
  | setBpmAtNextBar bpm => exact follows_adopt (.setBpmAtNextBar bpm) rfl fun _ => trivial
  | setMeter numerator denominator =>
    simp only [Stage.step]
    split
    · exact .of_apply (.setMeter _) rfl rfl fun _ => trivial
    · exact .refl s
  | setTime beat => exact follows_adopt (.setTime beat) rfl fun _ => trivial
  | shift beats => exact follows_adopt (.shift beats) rfl fun _ => trivial
  | scheduleAt beat action =>
    exact follows_submit (.scheduleAt beat) (fun _ => rfl) fun _ _ => trivial
  | scheduleAfter beats action =>
    exact follows_submit (.scheduleAfter beats) (fun _ => rfl) fun _ _ => trivial
  | schedule timing action =>
    exact follows_submit (.schedule timing) (fun _ => rfl) fun _ _ => trivial
  | scheduleIn span action =>
    exact follows_submit (.scheduleIn span) (fun _ => rfl) fun _ _ => trivial
  | schedulePriority beat action =>
    exact follows_submit (.schedulePriority beat) (fun _ => rfl) fun _ _ => trivial
  | scheduleOwned beat action owner =>
    exact follows_submit (.scheduleOwned beat · owner) (fun _ => rfl) fun _ _ => trivial
  | every period action =>
    refine follows_withAction fun action => ?_
    exact follows_adoptPoint (.every period action) rfl (fun _ => trivial)
      fun hs _ hnew => s.1.has_every hs.sound.linked hnew
  | cancel id =>
    exact follows_withPoint (.of_apply (.cancel id) rfl rfl fun _ => trivial)
  | cancelOwners ids => exact .of_apply (.cancelOwners ids) rfl rfl fun _ => trivial
  | cancelEntry id => exact .of_apply (.cancelEntry id) rfl rfl fun _ => trivial
  | clear => exact .of_apply .clear rfl rfl fun _ => trivial
  | clearQueue => exact .of_apply .clearQueue rfl rfl fun _ => trivial
  | createPoint kind =>
    refine follows_adoptPoint (.createPoint kind) rfl (fun _ => trivial) fun _ new hnew => ?_
    cases hnew
    exact s.1.has_createPoint kind
  | recurringPoint period =>
    exact follows_adoptPoint (.recurringPoint period) rfl (fun _ => trivial)
      fun _ _ hnew => s.1.has_recurringPoint hnew
  | combine derivation => exact s.follows_combine derivation
  | combineForeign id => exact follows_withPoint (.refl s)
  | bind id beat => exact follows_withPoint (follows_adopt (.bind id beat) rfl fun _ => trivial)
  | addAction id action =>
    refine follows_withPoint (follows_withAction fun action => ?_)
    exact .of_apply (.addAction id action) rfl rfl fun _ => trivial
  | clearPoint id =>
    exact follows_withPoint (.of_apply (.clearPoint id) rfl rfl fun _ => trivial)
  | clearAllPoints => exact .of_apply .clearAllPoints rfl rfl fun _ => trivial
  | debugAction action => exact follows_withAction fun _ => .refl s
  | steer steering =>
    exact .of_apply (.outside (s.1.follower.session.steer steering) s.1.audience s.1.log) rfl rfl
      fun _ => trivial
  | enableSync offset interval =>
    exact follows_adopt (.enableSync offset interval) rfl fun _ => trivial
  | enableConfiguredSync => exact follows_adopt .enableConfiguredSync rfl fun _ => trivial
  | disableSync => exact .of_apply .disableSync rfl rfl fun _ => trivial
  | status => exact .of_apply .syncStatus rfl rfl fun _ => trivial
  | report json => exact s.follows_report json
  | drive steps => exact follows_drive hplay s steps
  | unclear remark => exact .refl s

/-- Reading what a script was told changes nothing but what is left to be read. -/
theorem follows_collect (s : Stage) : Follows s s.collect.2 :=
  .of_apply (.outside s.1.follower.session (s.1.audience.drain 0).2 []) rfl rfl fun _ => trivial

end Stage

/-- Taking steps one after another leads to a stage that follows, if each of them does. -/
theorem follows_takeEach {step : Stage → Step → Outcome × Stage}
    (hstep : ∀ s next, Follows s (step s next).2) (steps : List Step) (s : Stage) :
    Follows s (takeEach step steps s).2 := by
  -- The outcomes collected so far do not matter to the clock.
  have hall (take : List Outcome × Stage → Step → List Outcome × Stage)
      (htake : ∀ taken next, (take taken next).2 = (step taken.2 next).2)
      (taken : List Outcome × Stage) : Follows taken.2 (steps.foldl take taken).2 := by
    induction steps generalizing taken with
    | nil => exact .refl taken.2
    | cons next rest ih =>
      have hnext := hstep taken.2 next
      rw [← htake] at hnext
      exact hnext.trans (ih _)
  exact hall _ (fun _ _ => rfl) ([], s)

/-- However deep routines can run within each other, a script leads to a stage that follows. -/
theorem follows_play (depth : ℕ) : Stage.LawfulPlayer (play depth) := by
  induction depth with
  | zero => exact fun _ s => .refl s
  | succ depth ih => exact follows_takeEach (Stage.follows_step ih)

/-- So does the next step that a script is given. -/
theorem Stage.follows_next (s : Stage) (step : Step) : Follows s (s.next step).2 :=
  Stage.follows_step (follows_play maxDepth) s step

/-- The stage that a script starts on is in order. -/
theorem Stage.ready_start {config : Config} {time : WallTime} {session : Rehearsal}
    {routines : List (String × Routine)} {s : Stage}
    (h : Stage.start config time session routines = .ok s) :
    (∃ events, History events ⟨s.1, []⟩) ∧ Ready Notebook.known s := by
  unfold Stage.start at h
  cases hcreate : (Conductor.create config time session : Except Fault (Conductor Rehearsal Routine)) with
  | error fault =>
    rw [hcreate] at h
    cases h
  | ok c =>
    rw [hcreate] at h
    cases h
    have hlisten : Cadence.Step ⟨c, []⟩
        (.called (.outside c.follower.session c.audience.subscribe.2 c.log) c)
        ⟨{ c with audience := c.audience.subscribe.2 }, []⟩ := .call trivial
    have hhistory := (History.create hcreate).append (.single hlisten)
    exact ⟨⟨_, hhistory⟩, hhistory.sound, fun id hid => by cases hid⟩

/-- A clock that a script has got to has a history. -/
theorem Follows.history {config : Config} {time : WallTime} {session : Rehearsal}
    {routines : List (String × Routine)} {s s' : Stage}
    (hstart : Stage.start config time session routines = .ok s) (h : Follows s s') :
    ∃ events, History events ⟨s'.1, []⟩ := by
  obtain ⟨⟨events, hhistory⟩, hready⟩ := Stage.ready_start hstart
  obtain ⟨⟨events', hrun⟩, -⟩ := h hready
  exact ⟨_, hhistory.append hrun⟩

end Script

end Cadence
