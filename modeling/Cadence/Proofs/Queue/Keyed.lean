import Mathlib
import Cadence.Proofs.Queue.Calls

/-!
# The queue as an ordered map

The entries of a queue can be kept in an ordered map instead of a list, each under a key of its due
beat, its priority and the number of entries submitted before it. An insertion into a map overwrites
what is filed under its key, a drain takes the first key out again and again, and a removal looks an
entry up by its name and then takes out its key. This file runs the calls to a queue on such a map.

- `KeyedQueue.Agrees.call`: list and map give the same answers and keep the same entries;
- `entries_accounted`: whatever the calls, every entry that was submitted is in one place, every
  answer is truthful, and no insertion into the map overwrites an entry.
-/

namespace Cadence

open Std

variable {α : Type}

/-! ## Keys -/

/-- The key of an entry. -/
structure QueueKey where
  /-- The beat at which the entry is due. -/
  beat : DueBeat
  /-- The entry leads its beat. -/
  priority : Bool
  /-- How many entries were submitted before it. -/
  seq : ℕ
deriving DecidableEq

namespace QueueKey

/-- Keys are ordered by beat, then priority first, then by submission. -/
def order : QueueKey → QueueKey → Ordering :=
  compareLex (compareOn (·.beat.rank))
    (compareLex (fun a b => compare b.priority a.priority) (compareOn (·.seq)))

end QueueKey

namespace Number

/-- No two patterns have one rank. -/
theorem patternRank_injective : Function.Injective patternRank := by
  intro a b h
  have ha := a.toNat_lt
  have hb := b.toNat_lt
  have hcount : countLimit = 2 ^ 64 - 1 := rfl
  unfold patternRank at h
  rw [hcount, show Nat.pow 2 63 = 2 ^ 63 from rfl] at h
  apply UInt64.toNat_inj.mp
  split_ifs at h <;> omega

end Number

namespace QueueKey

instance : TransCmp (fun a b : QueueKey => compare b.priority a.priority) :=
  inferInstanceAs (TransCmp fun a b => compareOn priority b a)

instance : TransCmp order := inferInstanceAs (TransCmp (compareLex _ (compareLex _ _)))

instance : LawfulEqCmp order where
  eq_of_compare {a b} h := by
    obtain ⟨hrank, h⟩ := Ordering.then_eq_eq.mp h
    obtain ⟨hpriority, hseq⟩ := Ordering.then_eq_eq.mp h
    have hbits := Number.patternRank_injective (LawfulEqCmp.eq_of_compare hrank)
    have hseq : a.seq = b.seq := LawfulEqCmp.eq_of_compare hseq
    obtain ⟨⟨bits⟩, priority, seq⟩ := a
    obtain ⟨⟨bits'⟩, priority', seq'⟩ := b
    obtain rfl : bits = bits' := hbits
    obtain rfl : seq = seq' := hseq
    obtain rfl : priority' = priority := LawfulEqCmp.eq_of_compare hpriority
    rfl

theorem order_irrefl (key : QueueKey) : order key key ≠ .lt := by
  have hself : order key key = .eq := ReflCmp.compare_self
  rw [hself]
  decide

end QueueKey

/-- The key under which an entry is filed. -/
def Entry.key (e : Entry α) : QueueKey := ⟨e.due, e.priority, e.id.index⟩

/-- Keys are in the order of their entries. -/
theorem order_key (a b : Entry α) : QueueKey.order a.key b.key = .lt ↔ a.before b = true := by
  rw [Entry.before_iff]
  change (compare a.due.rank b.due.rank).then
    ((compare b.priority a.priority).then (compare a.id.index b.id.index)) = .lt ↔ _
  rw [Ordering.then_eq_lt, Ordering.then_eq_lt, Nat.compare_eq_lt, Nat.compare_eq_eq,
    Nat.compare_eq_lt]
  cases a.priority <;> cases b.priority <;> simp [show compare false true = .lt from rfl]

/-! ## Calls to a map -/

/-- A queue kept as an ordered map. -/
structure KeyedQueue (α : Type) where
  /-- The entries under their keys. -/
  entries : TreeMap QueueKey (Entry α) QueueKey.order
  /-- How many entries were ever submitted. -/
  next : ℕ

namespace KeyedQueue

/-- The map to which nothing was submitted. -/
def empty : KeyedQueue α := ⟨∅, 0⟩

/-- Files an entry under the next number. Whatever is filed under its key is overwritten. -/
def insert (t : KeyedQueue α) (due : DueBeat) (priority : Bool) (task : α)
    (owner : Option PointId) : EntryId × KeyedQueue α :=
  (⟨t.next⟩, ⟨t.entries.insert ⟨due, priority, t.next⟩ ⟨⟨t.next⟩, due, priority, task, owner⟩,
    t.next + 1⟩)

/-- The first key of a map is one of its keys. -/
theorem size_erase_lt {m : TreeMap QueueKey (Entry α) QueueKey.order} {key : QueueKey}
    {e : Entry α} {rest : List (QueueKey × Entry α)} (h : m.toList = (key, e) :: rest) :
    (m.erase key).size < m.size := by
  have hmem : m[key]? = some e :=
    TreeMap.mem_toList_iff_getElem?_eq_some.mp (h ▸ List.mem_cons_self)
  have hcontains : m.contains key = true := by
    rw [TreeMap.contains_eq_isSome_getElem?, hmem, Option.isSome_some]
  rw [TreeMap.size_erase, if_pos hcontains]
  have hsize : 0 < m.size := by
    rw [← TreeMap.length_toList, h]
    exact Nat.succ_pos _
  omega

/-- Takes the first entry out again and again, until it is due after a beat. -/
def drainDue (t : KeyedQueue α) (beat : Float) : List (Entry α) × KeyedQueue α :=
  match _h : t.entries.toList with
  | [] => ([], t)
  | (key, e) :: _ =>
    if beat < key.beat.value then ([], t)
    else
      let (es, left) := drainDue { t with entries := t.entries.erase key } beat
      (e :: es, left)
termination_by t.entries.size
decreasing_by exact size_erase_lt _h

/-- Keeps the entries that pass a test, and answers by how much the map has shrunk. -/
def retain (t : KeyedQueue α) (keep : Entry α → Bool) : ℕ × KeyedQueue α :=
  let kept := t.entries.filter fun _ e => keep e
  (t.entries.size - kept.size, { t with entries := kept })

/-- Looks an entry up by its name and takes out its key. -/
def remove (t : KeyedQueue α) (id : EntryId) : Bool × KeyedQueue α :=
  match t.entries.toList.find? (·.2.id = id) with
  | some (key, _) => (t.entries.contains key, { t with entries := t.entries.erase key })
  | none => (false, t)

/-- Makes a call to a map. -/
def call (t : KeyedQueue α) : Queue.Call α → Queue.Answer α × KeyedQueue α
  | .push due task owner => (t.insert due false task owner).map .name id
  | .pushPriority due task => (t.insert due true task none).map .name id
  | .drainDue beat => (t.drainDue beat).map .entries id
  | .cancelOwner owner => (t.retain (·.owner ≠ some owner)).map .count id
  | .cancelOwners owners =>
      if owners.isEmpty then (.count 0, t)
      else (t.retain (!·.owner.any (· ∈ owners))).map .count id
  | .remove id => (t.remove id).map .found (·)
  | .clear => (.count t.entries.size, { t with entries := ∅ })

/-- The map after calls made one after another. -/
def afterCalls (t : KeyedQueue α) (calls : List (Queue.Call α)) : KeyedQueue α :=
  calls.foldl (fun t c => (t.call c).2) t

/-- The answers to calls made one after another. -/
def answers (t : KeyedQueue α) : List (Queue.Call α) → List (Queue.Answer α)
  | [] => []
  | c :: calls => (t.call c).1 :: answers (t.call c).2 calls

/-! ## List and map agree -/

/-- The map holds the entries of the queue, each under its key. -/
structure Agrees (t : KeyedQueue α) (q : Queue α) : Prop where
  /-- Key by key, the map lists the entries in the order of the queue. -/
  toList_eq : t.entries.toList = q.entries.map fun e => (e.key, e)
  /-- Both have handed out the same names. -/
  next : t.next = q.submitted

theorem agrees_empty : (empty : KeyedQueue α).Agrees Queue.empty where
  toList_eq := rfl
  next := rfl

/-- Maps with the same look-ups list the same entries. -/
theorem toList_eq_of_mem {m : TreeMap QueueKey (Entry α) QueueKey.order} {es : List (Entry α)}
    (hes : es.Pairwise (·.before ·)) (h : ∀ key e, m[key]? = some e ↔ e ∈ es ∧ e.key = key) :
    m.toList = es.map fun e => (e.key, e) := by
  have : Irrefl fun a b : QueueKey × Entry α => QueueKey.order a.1 b.1 = .lt :=
    ⟨fun a => QueueKey.order_irrefl a.1⟩
  have : Antisymm fun a b : QueueKey × Entry α => QueueKey.order a.1 b.1 = .lt :=
    ⟨fun a _ hab hba => absurd (TransCmp.lt_trans hab hba) (QueueKey.order_irrefl a.1)⟩
  refine TreeMap.ordered_keys_toList.eq_of_mem_iff ?_ fun ⟨key, e⟩ => ?_
  · rw [List.pairwise_map]
    exact hes.imp fun h => (order_key _ _).mpr h
  · rw [TreeMap.mem_toList_iff_getElem?_eq_some, h, List.mem_map]
    constructor
    · rintro ⟨he, rfl⟩
      exact ⟨e, he, rfl⟩
    · rintro ⟨d, hd, heq⟩
      obtain ⟨rfl, rfl⟩ := Prod.mk.inj heq
      exact ⟨hd, rfl⟩

namespace Agrees

variable {t : KeyedQueue α} {q : Queue α}

/-- A look-up finds the entry of the queue that has the key. -/
theorem getElem?_iff (h : t.Agrees q) {key : QueueKey} {e : Entry α} :
    t.entries[key]? = some e ↔ e ∈ q.entries ∧ e.key = key := by
  rw [← TreeMap.mem_toList_iff_getElem?_eq_some, h.toList_eq, List.mem_map]
  constructor
  · rintro ⟨d, hd, heq⟩
    obtain ⟨rfl, rfl⟩ := Prod.mk.inj heq
    exact ⟨hd, rfl⟩
  · rintro ⟨he, rfl⟩
    exact ⟨e, he, rfl⟩

/-- Nothing is filed under a key with the next number. -/
theorem getElem?_next (h : t.Agrees q) (hq : q.Ordered) (due : DueBeat) (priority : Bool) :
    t.entries[(⟨due, priority, t.next⟩ : QueueKey)]? = none := by
  rw [Option.eq_none_iff_forall_ne_some]
  intro e he
  obtain ⟨hmem, hkey⟩ := h.getElem?_iff.mp he
  have hindex : e.id.index = t.next := congrArg QueueKey.seq hkey
  exact absurd (hq.issued e hmem) (by rw [hindex, h.next]; exact lt_irrefl _)

/-- Filing an entry is submitting it. -/
theorem insert (h : t.Agrees q) (hq : q.Ordered) (due : DueBeat) (priority : Bool) (task : α)
    (owner : Option PointId) :
    (t.insert due priority task owner).1 = (q.submit due priority task owner).1 ∧
      (t.insert due priority task owner).2.Agrees (q.submit due priority task owner).2 := by
  refine ⟨congrArg EntryId.mk h.next, ?_, congrArg (· + 1) h.next⟩
  refine toList_eq_of_mem (hq.submit due priority task owner).sorted fun key e => ?_
  rw [(Queue.submit_perm ..).mem_iff, List.mem_cons]
  change (t.entries.insert _ _)[key]? = some e ↔ _
  rw [TreeMap.getElem?_insert, ← h.next]
  split_ifs with hkey
  · -- The key is the new one, which nothing in the queue has.
    obtain rfl : _ = key := LawfulEqCmp.eq_of_compare hkey
    constructor
    · intro heq
      obtain rfl := Option.some.inj heq
      exact ⟨.inl rfl, rfl⟩
    · rintro ⟨rfl | he, hek⟩
      · rfl
      · have hfree := h.getElem?_next hq due priority
        rw [h.getElem?_iff.mpr ⟨he, hek⟩] at hfree
        cases hfree
  · rw [h.getElem?_iff]
    constructor
    · rintro ⟨he, hek⟩
      exact ⟨.inr he, hek⟩
    · rintro ⟨rfl | he, rfl⟩
      · exact absurd ReflCmp.compare_self hkey
      · exact ⟨he, rfl⟩

/-- Keeping the entries that are not picked is removing those that are. -/
theorem retain (h : t.Agrees q) {keep picked : Entry α → Bool} (hkeep : ∀ e, keep e = !picked e) :
    (t.retain keep).1 = (q.removeIf picked).1 ∧
      (t.retain keep).2.Agrees (q.removeIf picked).2 := by
  have hlist : (t.entries.filter fun _ e => keep e).toList =
      (q.entries.filter (!picked ·)).map fun e => (e.key, e) := by
    rw [TreeMap.toList_filter, h.toList_eq, List.filter_map]
    simp only [Function.comp_def, hkeep]
  -- The map shrinks by as many entries as are picked.
  have hsplit : q.entries.length =
      q.entries.countP picked + (q.entries.filter (!picked ·)).length := by
    rw [List.length_eq_countP_add_countP picked, ← List.countP_eq_length_filter]
    simp
  refine ⟨?_, hlist, h.next⟩
  change t.entries.size - (t.entries.filter fun _ e => keep e).size = q.entries.countP picked
  rw [← TreeMap.length_toList, ← TreeMap.length_toList, hlist, h.toList_eq, List.length_map,
    List.length_map]
  omega

/-- Taking out a key takes out the entry that has it. -/
theorem erase (h : t.Agrees q) (hq : q.Ordered) (key : QueueKey) :
    (t.entries.erase key).toList =
      (q.entries.filter (·.key ≠ key)).map fun e => (e.key, e) := by
  refine toList_eq_of_mem (hq.sorted.sublist List.filter_sublist) fun key' e => ?_
  rw [TreeMap.getElem?_erase, List.mem_filter, decide_eq_true_iff]
  split_ifs with heq
  · obtain rfl : key = key' := LawfulEqCmp.eq_of_compare heq
    simp
  · rw [h.getElem?_iff]
    constructor
    · rintro ⟨he, rfl⟩
      refine ⟨⟨he, ?_⟩, rfl⟩
      rintro rfl
      exact heq ReflCmp.compare_self
    · rintro ⟨⟨he, -⟩, hkey⟩
      exact ⟨he, hkey⟩

/-- Looking a name up and taking out its key removes the entry of that name. -/
theorem remove (h : t.Agrees q) (hq : q.Ordered) (id : EntryId) :
    (t.remove id).1 = (q.remove id).1 ∧ (t.remove id).2.Agrees (q.remove id).2 := by
  rw [Queue.remove_fst]
  -- The map lists the entries in the order of the queue, so both find the same one.
  have hfind : t.entries.toList.find? (·.2.id = id) =
      (q.entries.find? (·.id = id)).map fun e => (e.key, e) := by
    rw [h.toList_eq, List.find?_map]
    rfl
  cases hfound : q.entries.find? (·.id = id) with
  | none =>
    rw [hfound] at hfind
    have hnone : ∀ e ∈ q.entries, e.id ≠ id := by simpa using hfound
    have hremove : t.remove id = (false, t) := by
      simp only [KeyedQueue.remove, hfind, Option.map_none]
    rw [hremove]
    refine ⟨?_, ?_, h.next⟩
    · simpa using hnone
    · have hkept : q.entries.filter (fun e => !decide (e.id = id)) = q.entries :=
        List.filter_eq_self.mpr (by simpa using hnone)
      exact h.toList_eq.trans (congrArg (List.map _) hkept.symm)
  | some e =>
    rw [hfound] at hfind
    have he : e ∈ q.entries := List.mem_of_find?_eq_some hfound
    obtain rfl : e.id = id := by simpa using List.find?_some hfound
    have hremove : t.remove e.id =
        (t.entries.contains e.key, { t with entries := t.entries.erase e.key }) := by
      simp only [KeyedQueue.remove, hfind, Option.map_some]
    rw [hremove]
    refine ⟨?_, (h.erase hq e.key).trans (congrArg (List.map _) ?_), h.next⟩
    · have hany : q.entries.any (·.id = e.id) = true :=
        List.any_eq_true.mpr ⟨e, he, decide_eq_true rfl⟩
      rw [hany, TreeMap.contains_eq_isSome_getElem?, h.getElem?_iff.mpr ⟨he, rfl⟩,
        Option.isSome_some]
    · -- In an ordered queue the key of an entry and its name pick the same entry.
      refine List.filter_congr fun d hd => ?_
      by_cases hid : d.id = e.id
      · obtain rfl := List.inj_on_of_nodup_map hq.distinct hd he hid
        simp
      · have hkey : d.key ≠ e.key := fun heq => hid (congrArg (EntryId.mk ∘ QueueKey.seq) heq)
        simp [hid, hkey]

/-- Taking out the key of the first entry leaves the rest of the queue. -/
theorem erase_head {e : Entry α} {es : List (Entry α)} {submitted : ℕ}
    (h : t.Agrees ⟨e :: es, submitted⟩) (hq : (⟨e :: es, submitted⟩ : Queue α).Ordered) :
    Agrees { t with entries := t.entries.erase e.key } ⟨es, submitted⟩ := by
  refine ⟨(h.erase hq e.key).trans (congrArg (List.map _) ?_), h.next⟩
  rw [List.filter_cons_of_neg (by simp), List.filter_eq_self]
  intro d hd
  -- Whatever comes after the first entry has another key, since keys are in the order of entries.
  have hlt := (order_key e d).mpr ((List.pairwise_cons.mp hq.sorted).1 d hd)
  have hne : d.key ≠ e.key := fun heq => QueueKey.order_irrefl _ (heq ▸ hlt)
  simpa using hne

/-- Taking out the first entry again and again is draining the queue. -/
theorem drainDue (h : t.Agrees q) (hq : q.Ordered) (beat : Float) :
    (t.drainDue beat).1 = (q.drainDue beat).1 ∧
      (t.drainDue beat).2.Agrees (q.drainDue beat).2 := by
  obtain ⟨es, submitted⟩ := q
  -- By induction on the entries of the queue: the map lists the same ones.
  induction es generalizing t with
  | nil =>
    rw [KeyedQueue.drainDue]
    split
    · exact ⟨rfl, h⟩
    · next hlist =>
      rw [h.toList_eq] at hlist
      cases hlist
  | cons e es ih =>
    rw [KeyedQueue.drainDue]
    split
    · next hlist =>
      rw [h.toList_eq] at hlist
      cases hlist
    · next key first rest hlist =>
      rw [h.toList_eq] at hlist
      obtain ⟨hhead, -⟩ := List.cons.inj hlist
      obtain ⟨rfl, rfl⟩ := Prod.mk.inj hhead
      by_cases hlater : beat < e.key.beat.value
      · rw [if_pos hlater, Queue.drainDue_cons_of_lt hlater]
        exact ⟨rfl, h⟩
      · obtain ⟨htaken, hleft⟩ := ih (h.erase_head hq) (hq.sublist (List.sublist_cons_self ..))
        rw [if_neg hlater, Queue.drainDue_cons_of_not_lt hlater]
        exact ⟨congrArg (e :: ·) htaken, hleft⟩

/-- List and map give the same answer to a call, and agree afterwards. -/
theorem call (h : t.Agrees q) (hq : q.Ordered) (c : Queue.Call α) :
    (t.call c).1 = (c.run q).1 ∧ (t.call c).2.Agrees (c.run q).2 := by
  cases c with
  | push due task owner =>
    obtain ⟨hanswer, hleft⟩ := h.insert hq due false task owner
    exact ⟨congrArg Queue.Answer.name hanswer, hleft⟩
  | pushPriority due task =>
    obtain ⟨hanswer, hleft⟩ := h.insert hq due true task none
    exact ⟨congrArg Queue.Answer.name hanswer, hleft⟩
  | drainDue beat =>
    obtain ⟨hanswer, hleft⟩ := h.drainDue hq beat
    exact ⟨congrArg Queue.Answer.entries hanswer, hleft⟩
  | cancelOwner owner =>
    have hkeep (e : Entry α) :
        decide (e.owner ≠ some owner) = !decide (e.owner = some owner) := by simp
    obtain ⟨hanswer, hleft⟩ := h.retain hkeep
    exact ⟨congrArg Queue.Answer.count hanswer, hleft⟩
  | cancelOwners owners =>
    by_cases hempty : owners.isEmpty = true
    · obtain rfl := List.isEmpty_iff.mp hempty
      have hleft : q.removeIf (·.ownedBy []) = (0, q) := by
        simp [Queue.removeIf, Entry.ownedBy_nil]
      change Queue.Answer.count 0 = .count (q.removeIf (·.ownedBy [])).1 ∧
        t.Agrees (q.removeIf (·.ownedBy [])).2
      rw [hleft]
      exact ⟨rfl, h⟩
    · have hcall : t.call (.cancelOwners owners) =
          (t.retain (!·.ownedBy owners)).map .count id := if_neg hempty
      have hkeep (e : Entry α) : (!e.ownedBy owners) = !e.ownedBy owners := rfl
      obtain ⟨hanswer, hleft⟩ := h.retain hkeep
      rw [hcall]
      exact ⟨congrArg Queue.Answer.count hanswer, hleft⟩
  | remove id =>
    obtain ⟨hanswer, hleft⟩ := h.remove hq id
    exact ⟨congrArg Queue.Answer.found hanswer, hleft⟩
  | clear =>
    have hsize : t.entries.size = q.entries.length := by
      rw [← TreeMap.length_toList, h.toList_eq, List.length_map]
    exact ⟨congrArg Queue.Answer.count hsize, rfl, h.next⟩

/-- List and map agree over any sequence of calls. -/
theorem calls (h : t.Agrees q) (hq : q.Ordered) (cs : List (Queue.Call α)) :
    t.answers cs = (q.turns cs).map Queue.Turn.answer ∧
      (t.afterCalls cs).Agrees (q.afterCalls cs) := by
  induction cs generalizing t q with
  | nil => exact ⟨rfl, h⟩
  | cons c cs ih =>
    obtain ⟨hanswer, hleft⟩ := h.call hq c
    obtain ⟨hanswers, hend⟩ := ih hleft (Queue.Turn.ordered ⟨c, q⟩ hq)
    exact ⟨congrArg₂ List.cons hanswer hanswers, hend⟩

end Agrees

end KeyedQueue

/-! ## Every entry is in one place -/

/-- Whatever calls are made to a new queue, the entries that were submitted are named in succession
from zero, and each of them is in one place: left in the queue, drained once, or removed once. Every
answer is truthful. Kept as an ordered map, the queue gives the same answers, files every entry that
is left under its own beat, priority and name, and the key of the next entry is free. -/
theorem entries_accounted (calls : List (Queue.Call α)) :
    let turns := Queue.empty.turns calls
    let left := Queue.empty.afterCalls calls
    let map := KeyedQueue.empty.afterCalls calls
    (turns.flatMap Queue.Turn.pushed).map (·.id.index) = List.range left.submitted ∧
      (left.entries ++ (turns.flatMap Queue.Turn.drained ++ turns.flatMap Queue.Turn.removed)).Perm
        (turns.flatMap Queue.Turn.pushed) ∧
      (∀ turn ∈ turns, turn.Truthful) ∧
      KeyedQueue.empty.answers calls = turns.map Queue.Turn.answer ∧
      (∀ (key : QueueKey) (e : Entry α), map.entries[key]? = some e ↔
        e ∈ left.entries ∧ key = ⟨e.due, e.priority, e.id.index⟩) ∧
      map.next = left.submitted ∧
      ∀ due priority, map.entries[(⟨due, priority, map.next⟩ : QueueKey)]? = none := by
  intro turns left map
  have hordered : (Queue.empty : Queue α).Ordered := Queue.ordered_empty
  have hleft : left.Ordered := hordered.afterCalls calls
  obtain ⟨hnames, hsubmitted⟩ := Queue.names_pushed Queue.empty calls
  obtain ⟨hanswers, hagrees⟩ := KeyedQueue.agrees_empty.calls hordered calls
  refine ⟨?_, Queue.conserved hordered calls, ?_, hanswers, ?_, hagrees.next, ?_⟩
  · rw [hnames, hsubmitted, List.range_eq_range']
    exact congrArg (List.range' 0) (Nat.zero_add _).symm
  · intro turn hturn
    exact turn.truthful (hordered.before hturn)
  · intro key e
    exact hagrees.getElem?_iff.trans (and_congr_right' eq_comm)
  · exact hagrees.getElem?_next hleft

end Cadence
