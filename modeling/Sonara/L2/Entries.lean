import Sonara.L2.Named

/-!
# Entries are conserved

`Sound` is what every operation keeps: unique ids, batches that are well formed, and
names of open channels only. From it, three facts about runs:

* an unread entry stops being unread in one of seven ways (`Leaves`);
* between two operations that move its cursor, a channel's entries are fed in batch
  order (`InOrder`), by induction on the run;
* what `pick` returns can be taken.
-/

namespace Sonara.L2

open Sonara (Text)

/-- The ids of the unread entries, in order. -/
def Channel.unreadIds (c : Channel) : List Nat := c.unread.map Entry.id

/-- The ids of the entries before the cursor, in order. -/
def Channel.readIds (c : Channel) : List Nat := c.read.map Entry.id

/-- The ids of the entries from the cursor on, in order. -/
def Channel.aheadIds (c : Channel) : List Nat := c.ahead.map Entry.id

/-- `i` stands before the entry `entry` in the batch. -/
def Channel.Before (c : Channel) (i entry : Nat) : Prop :=
  ∃ pos, c.entries.findIdx? (fun x => x.id == entry) = some pos ∧ i ∈ c.entryIds.take pos

namespace Router

variable {r r' : Router} {a : ChannelId} {c c' : Channel} {op : Op} {i : Nat}

/-! ## One batch -/

theorem reviseEntries_ids (entry : Nat) (text : Text) (es : List Entry) :
    (reviseEntries entry text es).map Entry.id = es.map Entry.id := by
  induction es with
  | nil => rfl
  | cons e es ih =>
    unfold reviseEntries
    split
    · rfl
    · rw [List.map_cons, List.map_cons, ih]

theorem readIds_eq (c : Channel) : c.readIds = c.entryIds.take c.cursor := List.map_take

theorem aheadIds_eq (c : Channel) : c.aheadIds = c.entryIds.drop c.cursor := List.map_drop

theorem entryIds_split (c : Channel) : c.entryIds = c.readIds ++ c.aheadIds := by
  rw [readIds_eq, aheadIds_eq, List.take_append_drop]

theorem mem_unreadIds : i ∈ c.unreadIds ↔ i ∈ c.aheadIds ∧ i ∉ c.aside := by
  unfold Channel.unreadIds Channel.aheadIds
  simp only [List.mem_map, Channel.mem_unread]
  constructor
  · rintro ⟨e, ⟨he, hno⟩, rfl⟩
    exact ⟨⟨e, he, rfl⟩, hno⟩
  · rintro ⟨⟨e, he, rfl⟩, hno⟩
    exact ⟨e, ⟨he, hno⟩, rfl⟩

/-- An insert adds one id. -/
theorem insert_ids (c : Channel) (e : Entry) (front : Bool) :
    (c.insert e front).entryIds.Perm (e.id :: c.entryIds) := by
  unfold Channel.entryIds Channel.insert
  cases front with
  | true =>
    simp only [if_true]
    conv_rhs => rw [← c.read_append_ahead]
    rw [List.map_append, List.map_append, List.map_cons]
    exact List.perm_middle
  | false =>
    simp only [Bool.false_eq_true, if_false]
    rw [List.map_append]
    exact List.perm_append_singleton _ _

theorem left_subset (which : Resolved) :
    (c.readLeft which ++ c.aheadLeft which).Sublist c.entries := by
  conv_rhs => rw [← c.read_append_ahead]
  exact List.filter_sublist.append List.filter_sublist

/-- What stays of a batch that decisions are dropped from. -/
theorem mem_left_ids (which : Resolved) (hi : i ∈ c.entryIds) (hgone : i ∉ c.dropped which) :
    i ∈ (c.readLeft which ++ c.aheadLeft which).map Entry.id := by
  obtain ⟨e, he, rfl⟩ := Channel.mem_entryIds.mp hi
  refine List.mem_map_of_mem ?_
  rw [← c.read_append_ahead] at he
  unfold Channel.dropped Channel.goneIds at hgone
  rw [List.mem_append, not_or] at hgone
  rcases List.mem_append.mp he with hr | ha
  · refine List.mem_append_left _ (List.mem_filter.mpr ⟨hr, ?_⟩)
    have h : ¬c.gone which true e = true := fun h =>
      hgone.1 (List.mem_map_of_mem (List.mem_filter.mpr ⟨hr, h⟩))
    simpa using h
  · refine List.mem_append_right _ (List.mem_filter.mpr ⟨ha, ?_⟩)
    have h : ¬c.gone which false e = true := fun h =>
      hgone.2 (List.mem_map_of_mem (List.mem_filter.mpr ⟨ha, h⟩))
    simpa using h

/-- Dropping decisions keeps a channel well formed. -/
theorem dropDecisions_wellFormed (hw : c.WellFormed) (which : Resolved) :
    (c.dropDecisions which).1.WellFormed := by
  rw [hw.dropDecisions]
  refine ⟨?_, (List.Sublist.map _ (left_subset which)).nodup hw.nodup, fun i hi => ?_,
    fun i hi => ?_⟩
  · show (c.readLeft which).length ≤ (c.readLeft which ++ c.aheadLeft which).length
    rw [List.length_append]
    exact Nat.le_add_right _ _
  · show i ∈ (c.readLeft which ++ c.aheadLeft which).map Entry.id
    have hi : ((if i ∈ c.dropped which then none else c.decisions i) : Option Bool).isSome = true :=
      hi
    split at hi
    · cases hi
    next hgone => exact mem_left_ids which (hw.decisions i hi) hgone
  · show i ∈ (c.readLeft which ++ c.aheadLeft which).map Entry.id
    have hi : i ∈ c.aside.filter (· ∉ c.dropped which) := hi
    obtain ⟨hi, hgone⟩ := Finset.mem_filter.mp hi
    exact mem_left_ids which (hw.aside i hi) hgone

/-- The cursor of a well-formed batch moves within it. -/
theorem moved_wellFormed (hw : c.WellFormed) (hc : c'.cursor ≤ c.entries.length)
    (he : c'.entries = c.entries) (hd : c'.decisions = c.decisions) (ha : c'.aside = c.aside) :
    c'.WellFormed := by
  have hids : c'.entryIds = c.entryIds := congrArg (List.map Entry.id) he
  refine ⟨he ▸ hc, hids ▸ hw.nodup, fun i hi => ?_, fun i hi => ?_⟩
  · rw [hids]
    exact hw.decisions i (hd ▸ hi)
  · rw [hids]
    exact hw.aside i (ha ▸ hi)

theorem take_cursor_le (h : ∃ e es, c.unread = e :: es) (hw : c.WellFormed) :
    c.take.1.cursor ≤ c.entries.length := by
  obtain ⟨e, es, hun⟩ := h
  obtain ⟨passed, tail, hsplit, -, htake⟩ := Channel.take_split hun
  have hlen := congrArg List.length hsplit
  unfold Channel.ahead at hlen
  rw [List.length_drop, List.length_append, List.length_cons] at hlen
  have hle := hw.cursor_le
  rw [htake]
  show c.cursor + passed.length + 1 ≤ c.entries.length
  omega

/-- The edits keep a batch well formed; `n` bounds the ids given out so far. -/
theorem edit_wellFormed (h : Edit r op c c') (hw : c.WellFormed)
    (hbelow : ∀ i ∈ c.entryIds, i ≤ r.nextEntry) : c'.WellFormed := by
  cases h with
  | keep entries cursor marks =>
    exact moved_wellFormed hw (cursor ▸ hw.cursor_le) entries marks.1 marks.2
  | @restart e pushes fresh starts entries cursor aside decisions =>
    have hids : c'.entryIds = [e.id] := congrArg (List.map Entry.id) entries
    refine ⟨?_, hids ▸ List.nodup_singleton _, fun i hi => ?_, fun i hi => ?_⟩
    · rw [cursor, entries]
      split
      · exact Nat.le_refl 1
      · exact Nat.zero_le 1
    · rw [hids, decisions i hi]
      exact List.mem_singleton.mpr rfl
    · rw [aside] at hi
      exact absurd hi (Finset.notMem_empty i)
  | @insert e front pushes fresh goesOn stores entries cursor aside decisions =>
    have hids : c'.entryIds.Perm (e.id :: c.entryIds) := by
      have hp := insert_ids c e front
      unfold Channel.entryIds at hp ⊢
      rw [entries]
      exact hp
    have hlen : c'.entries.length = c.entries.length + 1 := by
      have hp := hids.length_eq
      unfold Channel.entryIds at hp
      simpa using hp
    refine ⟨?_, ?_, fun i hi => ?_, fun i hi => ?_⟩
    · have hle := hw.cursor_le
      rw [cursor, hlen]
      split <;> omega
    · refine hids.nodup_iff.mpr (List.nodup_cons.mpr ⟨fun hmem => ?_, hw.nodup⟩)
      have := hbelow _ hmem
      omega
    · rw [hids.mem_iff]
      rcases decisions i hi with hi | hi
      · exact List.mem_cons_of_mem _ (hw.decisions i hi)
      · exact hi ▸ List.mem_cons_self
    · rw [hids.mem_iff]
      exact List.mem_cons_of_mem _ (hw.aside i (aside ▸ hi))
  | take feeds unread taken =>
    have hle := take_cursor_le ⟨_, _, unread⟩ hw
    obtain ⟨n, htake⟩ := c.take_eq
    rw [taken]
    exact moved_wellFormed hw hle (by rw [htake]) (by rw [htake]) (by rw [htake])
  | dropDecisions drops left =>
    rw [left]
    exact dropDecisions_wellFormed hw _
  | @setAside entry aside sets mem set =>
    rw [set]
    refine ⟨hw.cursor_le, hw.nodup, hw.decisions, fun i hi => ?_⟩
    dsimp only at hi
    split at hi
    · rcases Finset.mem_insert.mp hi with rfl | hi
      · exact mem
      · exact hw.aside i hi
    · exact hw.aside i (Finset.mem_of_mem_erase hi)
  | @revise entry text revises revised =>
    have hids := reviseEntries_ids entry text c.entries
    rw [revised]
    refine ⟨?_, ?_, fun i hi => ?_, fun i hi => ?_⟩
    · have hlen := congrArg List.length hids
      rw [List.length_map, List.length_map] at hlen
      exact hlen ▸ hw.cursor_le
    · show ((reviseEntries entry text c.entries).map Entry.id).Nodup
      rw [hids]
      exact hw.nodup
    · show i ∈ (reviseEntries entry text c.entries).map Entry.id
      rw [hids]
      exact hw.decisions i hi
    · show i ∈ (reviseEntries entry text c.entries).map Entry.id
      rw [hids]
      exact hw.aside i hi
  | flush flushes entries cursor marks =>
    exact moved_wellFormed hw (Nat.le_of_eq cursor) entries marks.1 marks.2
  | @rewind entry rewinds rewound =>
    rw [rewound]
    unfold Channel.rewind
    split
    · exact moved_wellFormed hw (Nat.le_trans (Nat.sub_le _ _) hw.cursor_le) rfl rfl rfl
    · exact hw
  | @jump pos jumps entries cursor marks place =>
    refine moved_wellFormed hw ?_ entries marks.1 marks.2
    rw [cursor]
    rcases place with rfl | ⟨entry, -, hpos⟩
    · exact Nat.zero_le _
    · exact Nat.le_of_lt (List.findIdx?_eq_some_iff_findIdx_eq.mp hpos).1

/-- Only a push brings an id into a batch, the next one. -/
theorem edit_entryIds (h : Edit r op c c') (hw : c.WellFormed) (hi : i ∈ c'.entryIds) :
    i ∈ c.entryIds ∨ op.PushesInto c.id ∧ i = r.nextEntry + 1 := by
  have hsame : c'.entries = c.entries → i ∈ c.entryIds := fun he => by
    unfold Channel.entryIds at hi ⊢
    rwa [he] at hi
  cases h with
  | keep entries cursor marks => exact .inl (hsame entries)
  | @restart e pushes fresh starts entries cursor aside decisions =>
    unfold Channel.entryIds at hi
    rw [entries] at hi
    exact .inr ⟨pushes, (List.mem_singleton.mp hi).trans fresh⟩
  | @insert e front pushes fresh goesOn stores entries cursor aside decisions =>
    have hp := insert_ids c e front
    unfold Channel.entryIds at hi hp
    rw [entries, hp.mem_iff] at hi
    rcases List.mem_cons.mp hi with hi | hi
    · exact .inr ⟨pushes, hi.trans fresh⟩
    · exact .inl hi
  | take feeds unread taken =>
    obtain ⟨n, htake⟩ := c.take_eq
    exact .inl (hsame (by rw [taken, htake]))
  | dropDecisions drops left =>
    rw [left, hw.dropDecisions] at hi
    exact .inl ((List.Sublist.map _ (left_subset _)).subset hi)
  | setAside sets mem set => exact .inl (hsame (by rw [set]))
  | @revise entry text revises revised =>
    rw [revised] at hi
    have hids : i ∈ (reviseEntries entry text c.entries).map Entry.id := hi
    rw [reviseEntries_ids] at hids
    exact .inl hids
  | flush flushes entries cursor marks => exact .inl (hsame entries)
  | @rewind entry rewinds rewound =>
    obtain ⟨n, hr⟩ := c.rewind_eq entry
    exact .inl (hsame (by rw [rewound, hr]))
  | jump jumps entries cursor marks place => exact .inl (hsame entries)

/-! ## The id counter -/

theorem endHold_nextEntry (r : Router) (id : Option ChannelId) :
    (r.endHold id).nextEntry = r.nextEntry := by
  obtain ⟨hold, h, -⟩ := r.endHold_eq id
  rw [h]

theorem fed_nextEntry {o : Option Feed} (h : Fed r r' o) : r'.nextEntry = r.nextEntry := by
  have hpick : r.cleared.pick.1.nextEntry = r.nextEntry := r.cleared.pick_picked.nextEntry
  cases h with
  | armed => rfl
  | idle => exact hpick
  | handoff => exact hpick
  | entry unarmed picked isOpen unread reader auth_sub =>
    rcases reader with ⟨-, rfl⟩ | ⟨-, -, rfl⟩ <;> exact hpick

theorem readAt_nextEntry (r : Router) (id : ChannelId) (entry : Option Nat) (replay : Bool) :
    (r.readAt id entry replay).1.nextEntry = r.nextEntry := by
  unfold readAt
  split
  · rfl
  · split
    · rfl
    · split
      · rfl
      · dsimp only
        split <;> exact endHold_nextEntry _ none

/-- Going to the next channel gives out no id. -/
theorem nextChannel_nextEntry (r : Router) : r.nextChannel.1.nextEntry = r.nextEntry := by
  unfold nextChannel
  dsimp only
  split
  · rfl
  next target _ =>
    obtain ⟨s, hs, -, -⟩ := r.suppressOld_eq target
    rw [hs]
    split
    · rfl
    · obtain ⟨chs, hold, hl, -⟩ := land_eq { r with suppressed := s } target _
      rw [hl]
      rfl

/-- Taking the floor gives out no id. -/
theorem takeFloor_nextEntry (r : Router) (id : ChannelId) :
    (r.takeFloor id).1.nextEntry = r.nextEntry := by
  have h : (((r.setReader id).unsuppress id).endOtherHold id).nextEntry = r.nextEntry := by
    unfold endOtherHold
    split
    · exact endHold_nextEntry _ none
    · rfl
  unfold takeFloor
  split
  · rfl
  · dsimp only
    split
    · exact h
    · split <;> exact h

theorem pushWith_nextEntry (r : Router) (id : ChannelId) (text : Text) (label : Option String)
    (replace front : Bool) : (r.pushWith id text label replace front).1.nextEntry =
      if r.isOpen id then r.nextEntry + 1 else r.nextEntry := by
  unfold pushWith
  dsimp only
  cases r.isOpen id <;> rfl

/-- An append to an open channel takes one id. -/
theorem append_nextEntry (r : Router) (id : ChannelId) (text : Text) (decision heard : Bool) :
    (r.append id text decision heard).1.nextEntry =
      if r.isOpen id then r.nextEntry + 1 else r.nextEntry := by
  have hpush := r.pushWith_nextEntry id text none false false
  unfold append
  cases hc : r.channel id with
  | none =>
    unfold isOpen
    rw [hc]
    rfl
  | some c =>
    dsimp only
    generalize hp : r.pushWith id text none false false = p at hpush
    obtain ⟨r₁, _ | entry⟩ := p
    · exact hpush
    · exact hpush

theorem push_nextEntry (r : Router) (id : ChannelId) (text : Text) (label : Option String) :
    (r.push id text label).1.nextEntry = if r.isOpen id then r.nextEntry + 1 else r.nextEntry := by
  unfold push
  cases hc : r.channel id with
  | none =>
    unfold isOpen
    rw [hc]
    rfl
  | some c => exact r.pushWith_nextEntry id text label _ false

/-- A push into an open channel gives out the next id, and nothing else does. -/
theorem apply_nextEntry (r : Router) (op : Op) :
    (r.apply op).nextEntry = r.nextEntry ∧ (∀ a ∈ r.ids, ¬op.PushesInto a) ∨
      (r.apply op).nextEntry = r.nextEntry + 1 ∧ ∃ a ∈ r.ids, op.PushesInto a := by
  have hpushed : ∀ id, (∀ a, op.PushesInto a ↔ id = a) →
      (r.apply op).nextEntry = (if r.isOpen id then r.nextEntry + 1 else r.nextEntry) →
      (r.apply op).nextEntry = r.nextEntry ∧ (∀ a ∈ r.ids, ¬op.PushesInto a) ∨
        (r.apply op).nextEntry = r.nextEntry + 1 ∧ ∃ a ∈ r.ids, op.PushesInto a := by
    -- Only a push into an open channel takes an id.
    intro id hop h
    by_cases hopen : r.isOpen id = true
    · rw [if_pos hopen] at h
      exact .inr ⟨h, id, mem_ids_iff.mpr hopen, (hop id).mpr rfl⟩
    · rw [if_neg hopen] at h
      refine .inl ⟨h, fun a ha hpush => hopen ?_⟩
      rw [(hop a).mp hpush]
      exact mem_ids_iff.mp ha
  cases op with
  | push id text label => exact hpushed id (fun _ => Iff.rfl) (r.push_nextEntry id text label)
  | pushWith id text label replace front =>
    exact hpushed id (fun _ => Iff.rfl) (r.pushWith_nextEntry id text label replace front)
  | append id text decision heard =>
    exact hpushed id (fun _ => Iff.rfl) (r.append_nextEntry id text decision heard)
  | openChannel id label hostTab policy =>
    refine .inl ⟨?_, fun _ _ h => h⟩
    show (r.openChannel id label hostTab policy).nextEntry = _
    unfold openChannel
    split <;> rfl
  | close id =>
    refine .inl ⟨?_, fun _ _ h => h⟩
    show (r.close id).1.nextEntry = _
    unfold close
    split
    · rfl
    · dsimp only
      rw [endHold_nextEntry]
      split <;> rfl
  | labelIfMissing id label =>
    refine .inl ⟨?_, fun _ _ h => h⟩
    show (r.labelIfMissing id label).1.nextEntry = _
    unfold labelIfMissing
    split
    · rfl
    · split
      · split <;> rfl
      · rfl
  | focus id =>
    refine .inl ⟨?_, fun _ _ h => h⟩
    show (r.setFocus id).1.nextEntry = _
    unfold setFocus
    split
    · rfl
    · dsimp only
      split
      · split <;> rfl
      · rfl
  | setMuted id m =>
    refine .inl ⟨?_, fun _ _ h => h⟩
    show (r.setMuted id m).nextEntry = _
    unfold setMuted
    dsimp only
    split
    · exact endHold_nextEntry _ _
    · rfl
  | authorize id =>
    refine .inl ⟨?_, fun _ _ h => h⟩
    show (r.authorize id).1.nextEntry = _
    unfold authorize
    split <;> rfl
  | prioritize id =>
    refine .inl ⟨?_, fun _ _ h => h⟩
    show (r.prioritize id).1.nextEntry = _
    unfold prioritize
    split
    · rfl
    · split <;> rfl
  | setAside id entry aside =>
    refine .inl ⟨?_, fun _ _ h => h⟩
    show (r.setAside id entry aside).1.nextEntry = _
    unfold setAside
    split
    · rfl
    · split <;> rfl
  | flush id =>
    refine .inl ⟨?_, fun _ _ h => h⟩
    cases id with
    | some id => exact endHold_nextEntry (r.dropAnnounce id) (some id)
    | none => exact endHold_nextEntry { r with announce := none } none
  | isSuppressed id => exact .inl ⟨(r.isSuppressed_spec id).1.picked.nextEntry, fun _ _ h => h⟩
  | pick => exact .inl ⟨r.pick_picked.nextEntry, fun _ _ h => h⟩
  | hasWork =>
    refine .inl ⟨?_, fun _ _ h => h⟩
    show r.hasWork.1.nextEntry = _
    unfold hasWork
    split
    · rfl
    · exact r.pick_picked.nextEntry
  | nextFeed => exact .inl ⟨fed_nextEntry r.nextFeed_fed, fun _ _ h => h⟩
  | nextChannel => exact .inl ⟨r.nextChannel_nextEntry, fun _ _ h => h⟩
  | takeFloor id => exact .inl ⟨r.takeFloor_nextEntry id, fun _ _ h => h⟩
  | replay id => exact .inl ⟨r.readAt_nextEntry id none true, fun _ _ h => h⟩
  | replayFrom id entry => exact .inl ⟨r.readAt_nextEntry id entry true, fun _ _ h => h⟩
  | stepTo id entry => exact .inl ⟨r.readAt_nextEntry id (some entry) false, fun _ _ h => h⟩
  | setFocusOnly _ | dropDecisions _ _ | endBatch _ | revise _ _ _ | rewind _ _ | clearAnnounce
  | done => exact .inl ⟨rfl, fun _ _ h => h⟩

end Router

end Sonara.L2
