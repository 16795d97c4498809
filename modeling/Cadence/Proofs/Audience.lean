import Mathlib
import Cadence.Notice

/-!
# Listeners that come and go

Listeners subscribe, are sent notices, take them out of their mailboxes and close these, in any
order. Which notices a listener is owed is told by the calls alone: those sent since it subscribed
(`since`, `sent`). A listener that has not closed its mailbox was handed, or still finds there, just
these.

- `Holds`: a listener is subscribed, with some notices in its mailbox;
- `Call`, `after`: any sequence of calls;
- `Served.snoc`: what one more call keeps;
- `listeners_served`: every listener gets what it is owed, and who closed its mailbox is forgotten
  with the next notice.
-/

namespace Cadence

/-! ## Mailboxes -/

namespace Audience

/-- Sends several notices, in order. -/
def sendAll (a : Audience) (notices : List Notice) : Audience := notices.foldl send a

/-- A listener is subscribed, with some notices in its mailbox. -/
structure Holds (a : Audience) (listener : ℕ) (box : List Notice) : Prop where
  /-- Notices are sent to the listener. -/
  subscribed : listener ∈ a.subscribers
  /-- The mailbox is open. -/
  mailbox : a.mailbox? listener = some box

variable {a : Audience} {listener other : ℕ} {box : List Notice}

/-- Nobody's mailbox but those that are handed out is open. -/
theorem mailbox?_eq_some : a.mailbox? listener = some box ↔ a.mailboxes[listener]? = some (some box) := by
  simp [mailbox?, Option.join_eq_some_iff]

/-- A mailbox that was just handed out is empty. -/
theorem holds_subscribe (a : Audience) : a.subscribe.2.Holds a.subscribe.1 [] :=
  ⟨List.mem_append_right _ (.head _), mailbox?_eq_some.mpr (by simp [subscribe])⟩

namespace Holds

/-- A notice is put at the end of the mailbox. -/
theorem send (h : a.Holds listener box) (notice : Notice) :
    (a.send notice).Holds listener (box ++ [notice]) where
  subscribed := List.mem_filter.mpr ⟨h.subscribed, by simp [h.mailbox]⟩
  mailbox := by
    rw [mailbox?_eq_some]
    simp [Audience.send, mailbox?_eq_some.mp h.mailbox, h.subscribed]

theorem sendAll (h : a.Holds listener box) (notices : List Notice) :
    (a.sendAll notices).Holds listener (box ++ notices) := by
  induction notices generalizing a box with
  | nil => rwa [List.append_nil]
  | cons notice rest ih =>
    have hrest := ih (h.send notice)
    rwa [List.append_assoc, List.singleton_append] at hrest

/-- Somebody else may subscribe. -/
theorem subscribe (h : a.Holds listener box) : a.subscribe.2.Holds listener box where
  subscribed := List.mem_append_left _ h.subscribed
  mailbox := by
    have hbox := mailbox?_eq_some.mp h.mailbox
    rw [mailbox?_eq_some, ← hbox]
    exact List.getElem?_append_left (List.getElem?_eq_some_iff.mp hbox).1

/-- Somebody else may close a mailbox. -/
theorem close (h : a.Holds listener box) (hne : other ≠ listener) :
    (a.close other).Holds listener box where
  subscribed := h.subscribed
  mailbox := by
    rw [mailbox?_eq_some, ← mailbox?_eq_some.mp h.mailbox]
    exact List.getElem?_set_ne hne

/-- Taking out what a mailbox holds leaves it empty. -/
theorem drain (h : a.Holds listener box) : (a.drain listener).2.Holds listener [] := by
  have hlt := (List.getElem?_eq_some_iff.mp (mailbox?_eq_some.mp h.mailbox)).1
  unfold Audience.drain
  rw [h.mailbox]
  exact ⟨h.subscribed, mailbox?_eq_some.mpr (by simp [hlt])⟩

/-- Somebody else may take out what their mailbox holds. -/
theorem drain_other (h : a.Holds listener box) (hne : other ≠ listener) :
    (a.drain other).2.Holds listener box := by
  unfold Audience.drain
  split
  · refine ⟨h.subscribed, ?_⟩
    rw [mailbox?_eq_some, ← mailbox?_eq_some.mp h.mailbox]
    exact List.getElem?_set_ne hne
  · exact h

end Holds

/-! ## Taking out one notice -/

/-- Takes out the first notice that a mailbox holds. -/
def receive (a : Audience) (listener : ℕ) : Option Notice × Audience :=
  match a.mailbox? listener with
  | some (notice :: rest) =>
    (some notice, { a with mailboxes := a.mailboxes.set listener (some rest) })
  | _ => (none, a)

/-- What is taken out is gone from the front of the mailbox. -/
theorem Holds.receive (h : a.Holds listener box) :
    (a.receive listener).1 = box.head? ∧ (a.receive listener).2.Holds listener box.tail := by
  have hlt := (List.getElem?_eq_some_iff.mp (mailbox?_eq_some.mp h.mailbox)).1
  unfold Audience.receive
  rw [h.mailbox]
  cases box with
  | nil => exact ⟨rfl, h⟩
  | cons notice rest => exact ⟨rfl, h.subscribed, mailbox?_eq_some.mpr (by simp [hlt])⟩

/-- Somebody else may take out a notice. -/
theorem Holds.receive_other (h : a.Holds listener box) (hne : other ≠ listener) :
    (a.receive other).2.Holds listener box := by
  unfold Audience.receive
  split
  · refine ⟨h.subscribed, ?_⟩
    rw [mailbox?_eq_some, ← mailbox?_eq_some.mp h.mailbox]
    exact List.getElem?_set_ne hne
  · exact h

/-! ## Calls -/

/-- Something that is done to an audience. -/
inductive Call where
  /-- A listener subscribes. -/
  | subscribe
  /-- A notice is sent. -/
  | send (notice : Notice)
  /-- A listener takes out the first notice in its mailbox. -/
  | receive (listener : ℕ)
  /-- A listener takes out all that its mailbox holds. -/
  | drain (listener : ℕ)
  /-- A listener closes its mailbox. -/
  | close (listener : ℕ)
deriving DecidableEq

namespace Call

/-- The audience after a call. -/
def run (a : Audience) : Call → Audience
  | subscribe => a.subscribe.2
  | send notice => a.send notice
  | receive listener => (a.receive listener).2
  | drain listener => (a.drain listener).2
  | close listener => a.close listener

/-- What a call hands to a listener. -/
def handed (listener : ℕ) (a : Audience) : Call → List Notice
  | receive other => if other = listener then (a.receive listener).1.toList else []
  | drain other => if other = listener then (a.drain listener).1.getD [] else []
  | _ => []

/-- The notice that a call sends. -/
def sent? : Call → Option Notice
  | send notice => some notice
  | _ => none

end Call

/-- The audience after calls made one after another, of which nobody listened at first. -/
def after (calls : List Call) : Audience := calls.foldl Call.run empty

/-- What a sequence of calls has handed to a listener, in order. -/
def received (listener : ℕ) : Audience → List Call → List Notice
  | _, [] => []
  | a, call :: calls => call.handed listener a ++ received listener (call.run a) calls

/-- The notices that were sent. -/
def sent (calls : List Call) : List Notice := calls.filterMap Call.sent?

/-- How many have subscribed. -/
def subscriptions (calls : List Call) : ℕ := calls.count .subscribe

/-- The calls since a listener subscribed. -/
def since : ℕ → List Call → List Call
  | _, [] => []
  | 0, .subscribe :: calls => calls
  | listener + 1, .subscribe :: calls => since listener calls
  | listener, _ :: calls => since listener calls

/-- The listeners that have subscribed and not closed their mailboxes. -/
def alive (calls : List Call) : List ℕ :=
  (List.range (subscriptions calls)).filter fun listener => .close listener ∉ since listener calls

/-! ### One more call -/

variable {calls : List Call} {call : Call}

theorem after_snoc (calls : List Call) (call : Call) :
    after (calls ++ [call]) = call.run (after calls) := by
  simp [after]

theorem received_snoc (listener : ℕ) (a : Audience) (calls : List Call) (call : Call) :
    received listener a (calls ++ [call]) =
      received listener a calls ++ call.handed listener (calls.foldl Call.run a) := by
  induction calls generalizing a with
  | nil => simp [received]
  | cons first rest ih =>
    rw [List.cons_append, received, ih, received, List.append_assoc, List.foldl_cons]

theorem sent_append (calls later : List Call) : sent (calls ++ later) = sent calls ++ sent later :=
  List.filterMap_append

theorem subscriptions_append (calls later : List Call) :
    subscriptions (calls ++ later) = subscriptions calls + subscriptions later :=
  List.count_append

theorem subscriptions_cons (call : Call) (calls : List Call) :
    subscriptions (call :: calls) = subscriptions [call] + subscriptions calls :=
  subscriptions_append [call] calls

/-- Later calls add to those since an earlier subscription. -/
theorem since_append_of_lt (later : List Call) (h : listener < subscriptions calls) :
    since listener (calls ++ later) = since listener calls ++ later := by
  -- Up to the subscription the calls are passed over one by one, and then all of them are kept.
  fun_induction since listener calls with
  | case1 => cases h
  | case2 => rfl
  | case3 listener calls ih =>
    exact ih (by simpa [subscriptions] using h)
  | case4 listener call calls hzero hsucc ih =>
    have hother : call ≠ .subscribe := by
      rintro rfl
      cases listener with
      | zero => exact hzero rfl rfl
      | succ listener => exact hsucc listener rfl rfl
    rw [List.cons_append, since, ih]
    · simpa [subscriptions, List.count_cons_of_ne hother] using h
    · exact hzero
    · exact hsucc

/-- There are no calls since a subscription that has not been made, or was the last call. -/
theorem since_snoc_of_le (call : Call) (h : subscriptions calls ≤ listener) :
    since listener (calls ++ [call]) = [] := by
  fun_induction since listener calls with
  | case1 listener => cases listener <;> cases call <;> rfl
  | case2 => simp [subscriptions] at h
  | case3 listener calls ih =>
    exact ih (by simpa [subscriptions] using h)
  | case4 listener first calls hzero hsucc ih =>
    have hle : subscriptions calls ≤ listener := (List.count_le_count_cons).trans h
    rw [List.cons_append, since, ih hle]
    · exact hzero
    · exact hsucc

theorem mem_alive :
    listener ∈ alive calls ↔ listener < subscriptions calls ∧ .close listener ∉ since listener calls := by
  simp [alive]

/-- A call other than closing the mailbox of a listener hands over the front of it, and puts what is
sent at the end. -/
theorem Holds.run (h : a.Holds listener box) (hopen : call ≠ .close listener) :
    ∃ box', (call.run a).Holds listener box' ∧
      call.handed listener a ++ box' = box ++ sent [call] := by
  cases call with
  | subscribe => exact ⟨box, h.subscribe, (List.append_nil box).symm⟩
  | send notice => exact ⟨box ++ [notice], h.send notice, rfl⟩
  | close other =>
    have hne : other ≠ listener := fun heq => hopen (congrArg Call.close heq)
    exact ⟨box, h.close hne, (List.append_nil box).symm⟩
  | receive other =>
    rcases eq_or_ne other listener with rfl | hne
    · obtain ⟨hfirst, hrest⟩ := h.receive
      refine ⟨box.tail, hrest, ?_⟩
      rw [Call.handed, if_pos rfl, hfirst]
      cases box <;> simp [sent, Call.sent?]
    · exact ⟨box, h.receive_other hne, by simp [Call.handed, hne, sent, Call.sent?]⟩
  | drain other =>
    rcases eq_or_ne other listener with rfl | hne
    · refine ⟨[], h.drain, ?_⟩
      simp [Call.handed, Audience.drain, h.mailbox, sent, Call.sent?]
    · exact ⟨box, h.drain_other hne, by simp [Call.handed, hne, sent, Call.sent?]⟩

/-- A closed mailbox stays closed. -/
theorem closed_run (call : Call) (h : a.mailboxes[listener]? = some none) :
    (call.run a).mailboxes[listener]? = some none := by
  -- Only the owner of an open mailbox takes anything out.
  have hne {other : ℕ} {box : List Notice} (hother : a.mailbox? other = some box) : other ≠ listener := by
    rintro rfl
    rw [mailbox?_eq_some, h] at hother
    cases hother
  cases call with
  | subscribe =>
    exact (List.getElem?_append_left (List.getElem?_eq_some_iff.mp h).1).trans h
  | send notice => simp [Call.run, Audience.send, h]
  | receive other =>
    simp only [Call.run, Audience.receive]
    split
    · rename_i hother
      exact (List.getElem?_set_ne (hne hother)).trans h
    · exact h
  | drain other =>
    simp only [Call.run, Audience.drain]
    split
    · rename_i hother
      exact (List.getElem?_set_ne (hne hother)).trans h
    · exact h
  | close other =>
    have hlt := (List.getElem?_eq_some_iff.mp h).1
    rcases eq_or_ne other listener with rfl | hother
    · exact List.getElem?_set_self hlt
    · exact (List.getElem?_set_ne hother).trans h

/-- Nothing is handed to a listener whose mailbox is not open. -/
theorem handed_of_mailbox?_eq_none (call : Call) (h : a.mailbox? listener = none) :
    call.handed listener a = [] := by
  cases call <;> simp [Call.handed, Audience.receive, Audience.drain, h]

/-- Mailboxes are handed out by subscribing, and are never taken back. -/
theorem length_mailboxes_run (call : Call) (a : Audience) :
    (call.run a).mailboxes.length = a.mailboxes.length + subscriptions [call] := by
  cases call with
  | subscribe => simp [Call.run, Audience.subscribe, subscriptions]
  | send notice => simp [Call.run, Audience.send, subscriptions]
  | receive other =>
    simp only [Call.run, Audience.receive]
    split <;> simp [subscriptions]
  | drain other =>
    simp only [Call.run, Audience.drain]
    split <;> simp [subscriptions]
  | close other => simp [Call.run, Audience.close, subscriptions]

/-- While nothing is sent, whoever subscribes comes after those that are there. -/
theorem subscribers_run (h : sent [call] = []) (a : Audience) :
    (call.run a).subscribers =
      a.subscribers ++ List.range' a.mailboxes.length (subscriptions [call]) := by
  cases call with
  | subscribe => simp [Call.run, Audience.subscribe, subscriptions]
  | send notice => cases h
  | receive other =>
    simp only [Call.run, Audience.receive]
    split <;> simp [subscriptions]
  | drain other =>
    simp only [Call.run, Audience.drain]
    split <;> simp [subscriptions]
  | close other => simp [Call.run, Audience.close, subscriptions]

theorem subscribers_foldl (h : sent calls = []) (a : Audience) :
    (calls.foldl Call.run a).subscribers =
      a.subscribers ++ List.range' a.mailboxes.length (subscriptions calls) := by
  induction calls generalizing a with
  | nil => simp [subscriptions]
  | cons call rest ih =>
    have hsent : sent [call] ++ sent rest = [] := (sent_append [call] rest).symm.trans h
    obtain ⟨hcall, hrest⟩ := List.append_eq_nil_iff.mp hsent
    rw [List.foldl_cons, ih hrest, subscribers_run hcall, length_mailboxes_run, List.append_assoc,
      List.range'_append_1, ← subscriptions_cons]

/-! ### Any sequence of calls -/

/-- What a sequence of calls leaves behind for the listeners. -/
structure Served (calls : List Call) : Prop where
  /-- Each subscription handed out a mailbox. -/
  mailboxes : (after calls).mailboxes.length = subscriptions calls
  /-- A listener with an open mailbox was handed, or still finds there, what was sent since it
  subscribed. -/
  live : ∀ listener ∈ alive calls, ∃ box, (after calls).Holds listener box ∧
    received listener empty calls ++ box = sent (since listener calls)
  /-- The other mailboxes that were handed out are closed. -/
  closed : ∀ listener < subscriptions calls, listener ∉ alive calls →
    (after calls).mailboxes[listener]? = some none
  /-- Nobody is handed anything before they subscribe. -/
  early : ∀ listener, subscriptions calls ≤ listener → received listener empty calls = []
  /-- The subscribers are in the order in which they subscribed. -/
  order : (after calls).subscribers.Sublist (List.range (subscriptions calls))

namespace Served

theorem mailbox?_of_mem (h : Served calls) (hmem : listener ∈ alive calls) :
    ((after calls).mailbox? listener).isSome = true := by
  obtain ⟨box, hbox, -⟩ := h.live listener hmem
  rw [hbox.mailbox]
  rfl

theorem mailbox?_of_notMem (h : Served calls) (hmem : listener ∉ alive calls) :
    (after calls).mailbox? listener = none := by
  rcases lt_or_ge listener (subscriptions calls) with hlt | hge
  · rw [mailbox?, h.closed listener hlt hmem]
    rfl
  · rw [mailbox?, List.getElem?_eq_none (h.mailboxes.trans_le hge)]
    rfl

/-- Sending keeps the subscribers whose mailbox is open. -/
theorem subscribers_send (h : Served calls) (notice : Notice) :
    ((after calls).send notice).subscribers =
      (after calls).subscribers.filter (· ∈ alive calls) := by
  refine List.filter_congr fun listener _ => ?_
  by_cases hmem : listener ∈ alive calls
  · simp [h.mailbox?_of_mem hmem, hmem]
  · simp [h.mailbox?_of_notMem hmem, hmem]

/-- These are all whose mailbox is open. -/
theorem subscribers_send_eq_alive (h : Served calls) (notice : Notice) :
    ((after calls).send notice).subscribers = alive calls := by
  rw [h.subscribers_send]
  have hsublist : ((after calls).subscribers.filter (· ∈ alive calls)).Sublist
      ((List.range (subscriptions calls)).filter (· ∈ alive calls)) := h.order.filter _
  have hall : (List.range (subscriptions calls)).filter (· ∈ alive calls) = alive calls := by
    refine List.filter_congr fun listener hlistener => ?_
    simp [mem_alive, List.mem_range.mp hlistener]
  rw [hall] at hsublist
  -- Both are in the order of subscription, so it is enough that everybody alive is still a subscriber.
  refine hsublist.eq_of_length_le ?_
  have hnodup : (alive calls).Nodup := List.nodup_range.filter _
  refine (hnodup.subperm fun listener hmem => ?_).length_le
  obtain ⟨box, hbox, -⟩ := h.live listener hmem
  exact List.mem_filter.mpr ⟨hbox.subscribed, by simpa using hmem⟩

end Served

theorem served_nil : Served [] where
  mailboxes := rfl
  live _ hmem := by cases hmem
  closed _ hlt := by cases hlt
  early _ _ := rfl
  order := .slnil

/-- One more call keeps it so. -/
theorem Served.snoc (h : Served calls) (call : Call) : Served (calls ++ [call]) := by
  have hcount : subscriptions (calls ++ [call]) = subscriptions calls + subscriptions [call] :=
    subscriptions_append calls [call]
  refine ⟨?mailboxes, ?live, ?closed, ?early, ?order⟩
  case mailboxes => rw [after_snoc, length_mailboxes_run, h.mailboxes, hcount]
  case live =>
    intro listener hmem
    obtain ⟨hlt, hopen⟩ := mem_alive.mp hmem
    rw [after_snoc, received_snoc]
    change ∃ box, _ ∧ received listener empty calls ++ call.handed listener (after calls) ++ box = _
    rcases lt_or_ge listener (subscriptions calls) with hearlier | hnew
    · rw [since_append_of_lt [call] hearlier, List.mem_append, not_or, List.mem_singleton] at hopen
      obtain ⟨box, hbox, hserved⟩ := h.live listener (mem_alive.mpr ⟨hearlier, hopen.1⟩)
      obtain ⟨box', hbox', hpassed⟩ := hbox.run (Ne.symm hopen.2)
      refine ⟨box', hbox', ?_⟩
      rw [List.append_assoc, hpassed, ← List.append_assoc, hserved,
        since_append_of_lt [call] hearlier, sent_append]
    · -- The listener is the one that just subscribed.
      obtain rfl : call = .subscribe := by
        by_contra hne
        have hnone : subscriptions [call] = 0 := by simp [subscriptions, hne]
        omega
      have hself : (after calls).subscribe.1 = listener := by
        have hone : subscriptions [Call.subscribe] = 1 := rfl
        exact h.mailboxes.trans (by omega)
      have hholds := holds_subscribe (after calls)
      rw [hself] at hholds
      refine ⟨[], hholds, ?_⟩
      rw [h.early listener hnew, since_snoc_of_le .subscribe hnew]
      rfl
  case closed =>
    intro listener hlt hdead
    rw [after_snoc]
    rcases lt_or_ge listener (subscriptions calls) with hearlier | hnew
    · have hclose : .close listener ∈ since listener (calls ++ [call]) := by
        by_contra hopen
        exact hdead (mem_alive.mpr ⟨hlt, hopen⟩)
      rw [since_append_of_lt [call] hearlier, List.mem_append, List.mem_singleton] at hclose
      rcases hclose with hbefore | rfl
      · have hgone : listener ∉ alive calls := fun hmem => (mem_alive.mp hmem).2 hbefore
        exact closed_run call (h.closed listener hearlier hgone)
      · exact List.getElem?_set_self (hearlier.trans_eq h.mailboxes.symm)
    · -- Who just subscribed has not closed anything.
      refine absurd (mem_alive.mpr ⟨hlt, ?_⟩) hdead
      rw [since_snoc_of_le call hnew]
      exact List.not_mem_nil
  case early =>
    intro listener hle
    have hbefore : subscriptions calls ≤ listener := by omega
    have hnotMem : listener ∉ alive calls := fun hmem => hbefore.not_gt (mem_alive.mp hmem).1
    rw [received_snoc, h.early listener hbefore, List.nil_append]
    exact handed_of_mailbox?_eq_none call (h.mailbox?_of_notMem hnotMem)
  case order =>
    rw [after_snoc, hcount]
    rcases hsent : sent [call] with _ | ⟨notice, rest⟩
    · have hrange : List.range (subscriptions calls) ++
          List.range' (subscriptions calls) (subscriptions [call]) =
            List.range (subscriptions calls + subscriptions [call]) := by
        have hjoined := @List.range'_append_1 0 (subscriptions calls) (subscriptions [call])
        rwa [Nat.zero_add, ← List.range_eq_range', ← List.range_eq_range'] at hjoined
      rw [subscribers_run hsent, h.mailboxes, ← hrange]
      exact h.order.append_right _
    · obtain ⟨notice, rfl⟩ : ∃ notice, call = .send notice := by
        cases call <;> first | exact ⟨_, rfl⟩ | cases hsent
      exact List.filter_sublist.trans h.order

theorem served (calls : List Call) : Served calls := by
  induction calls using List.reverseRecOn with
  | nil => exact served_nil
  | append_singleton calls call ih => exact ih.snoc call

/-- Whatever sequence of calls is made, and whatever the other listeners do: a listener that has not
closed its mailbox has been handed, and still finds there, the notices sent since it subscribed, once
and in order. A notice keeps the subscribers whose mailbox is open, in order, so that those counted
are the ones whose mailbox was open when the last notice was sent, and after them all who have
subscribed since. -/
theorem listeners_served (calls : List Call) :
    (∀ listener ∈ alive calls, ∃ box, (after calls).mailbox? listener = some box ∧
      received listener empty calls ++ box = sent (since listener calls)) ∧
    (∀ listener ∉ alive calls, (after calls).mailbox? listener = none) ∧
    (∀ notice, (after (calls ++ [.send notice])).subscribers =
      (after calls).subscribers.filter (· ∈ alive calls)) ∧
    (sent calls = [] → (after calls).subscribers = List.range (subscriptions calls) ∧
      (after calls).count = subscriptions calls) ∧
    ∀ earlier notice later, calls = earlier ++ .send notice :: later → sent later = [] →
      (after calls).subscribers =
        alive earlier ++ List.range' (subscriptions earlier) (subscriptions later) ∧
      (after calls).count = (alive earlier).length + subscriptions later := by
  have hserved := served calls
  refine ⟨?_, ?_, ?_, ?_, ?_⟩
  · intro listener hmem
    obtain ⟨box, hbox, hall⟩ := hserved.live listener hmem
    exact ⟨box, hbox.mailbox, hall⟩
  · exact fun listener => hserved.mailbox?_of_notMem
  · intro notice
    rw [after_snoc]
    exact hserved.subscribers_send notice
  · intro hsent
    have hsubscribers : (after calls).subscribers = List.range (subscriptions calls) := by
      rw [after, subscribers_foldl hsent, List.range_eq_range']
      rfl
    exact ⟨hsubscribers, by rw [count, hsubscribers, List.length_range]⟩
  · rintro earlier notice later rfl hsent
    have hbefore := served earlier
    have hsubscribers : (after (earlier ++ .send notice :: later)).subscribers =
        alive earlier ++ List.range' (subscriptions earlier) (subscriptions later) := by
      rw [after, List.foldl_append, List.foldl_cons, subscribers_foldl hsent, length_mailboxes_run]
      change ((after earlier).send notice).subscribers ++
        List.range' ((after earlier).mailboxes.length + 0) _ = _
      rw [hbefore.subscribers_send_eq_alive, hbefore.mailboxes, Nat.add_zero]
    exact ⟨hsubscribers, by rw [count, hsubscribers, List.length_append, List.length_range']⟩

/-- Who hung up is forgotten with the next notice, and who stays gets it. -/
example :
    (after [.subscribe, .subscribe, .close 1]).count = 2 ∧
      (after [.subscribe, .subscribe, .close 1, .send .cleared]).count = 1 ∧
      (after [.subscribe, .subscribe, .close 1, .send .cleared]).mailbox? 0 = some [.cleared] := by
  decide

end Audience

end Cadence
