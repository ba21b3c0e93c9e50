import Sonara.L2.Steps
import Sonara.L2.Batch

/-!
# What an operation does to a batch

`apply_batches` is the inversion the invariants of entries are derived from: an
operation edits each open channel's batch in one of ten ways (`Edit`), opens a channel
with an empty batch, or closes one. `Touches` (in `Steps`) says the same of the fields
the gates read.
-/

namespace Sonara.L2

open Sonara (Text)

/-- The operation pushes into `c` and drops its unread entries. -/
def Op.replaces (c : Channel) : Op → Bool
  | .push _ _ _ => c.policy = .latest
  | .pushWith _ _ _ replace _ => replace
  | _ => false

/-- The operation, a push into `c`, starts a new batch. -/
def Router.restarts (r : Router) (c : Channel) (op : Op) : Bool :=
  op.replaces c || (c.caughtUp && !r.reading.any (·.1 == c.id) && !c.growing)

/-- The operation stores its text read: nothing of `c` is unread or being read. -/
def Router.stores (r : Router) (c : Channel) : Op → Bool
  | .append id _ _ heard => heard && !(0 < c.pending || r.reading.any (·.1 == id))
  | _ => false

/-- The operation moves `a`'s cursor to the top of its batch or to an entry of it. -/
def Router.Jumps (r : Router) (a : ChannelId) : Op → Prop
  | .nextChannel => r.nextChannel.2 = some (a, true)
  | .replay id | .replayFrom id _ | .stepTo id _ => id = a
  | _ => False

/-- The operation skips `a` to the end. -/
def Op.Flushes (a : ChannelId) : Op → Prop
  | .flush id => id = some a ∨ id = none
  | _ => False

/-- How an operation changes the batch of a channel that stays open. -/
inductive Edit (r : Router) (op : Op) (c c' : Channel) : Prop
  | keep (entries : c'.entries = c.entries) (cursor : c'.cursor = c.cursor)
      (marks : c'.decisions = c.decisions ∧ c'.aside = c.aside)
  /-- A push starts a new batch. -/
  | restart {e : Entry} (pushes : op.PushesInto c.id) (fresh : e.id = r.nextEntry + 1)
      (starts : r.restarts c op = true) (entries : c'.entries = [e])
      (cursor : c'.cursor = if r.stores c op then 1 else 0) (aside : c'.aside = ∅)
      (decisions : ∀ i, (c'.decisions i).isSome → i = e.id)
  /-- A push adds to the batch. -/
  | insert {e : Entry} {front : Bool} (pushes : op.PushesInto c.id) (fresh : e.id = r.nextEntry + 1)
      (goesOn : r.restarts c op = false)
      (stores : r.stores c op = true → front = false ∧ c.unread = [])
      (entries : c'.entries = (c.insert e front).entries)
      (cursor : c'.cursor = if r.stores c op then c.entries.length + 1 else c.cursor)
      (aside : c'.aside = c.aside)
      (decisions : ∀ i, (c'.decisions i).isSome → (c.decisions i).isSome ∨ i = e.id)
  /-- The first unread entry is fed. -/
  | take {e : Entry} {es : List Entry} (feeds : r.feeds op = [.entry c.id e])
      (unread : c.unread = e :: es) (taken : c' = c.take.1)
  | dropDecisions {which : Resolved} (drops : op = .dropDecisions c.id which)
      (left : c' = (c.dropDecisions which).1)
  | setAside {entry : Nat} {aside : Bool} (sets : op = .setAside c.id entry aside)
      (mem : entry ∈ c.entryIds)
      (set : c' = { c with aside := if aside then insert entry c.aside else c.aside.erase entry })
  | revise {entry : Nat} {text : Text} (revises : op = .revise c.id entry text)
      (revised : c' = { c with entries := Router.reviseEntries entry text c.entries })
  | flush (flushes : op.Flushes c.id) (entries : c'.entries = c.entries)
      (cursor : c'.cursor = c.entries.length)
      (marks : c'.decisions = c.decisions ∧ c'.aside = c.aside)
  | rewind {entry : Nat} (rewinds : op = .rewind c.id entry) (rewound : c' = (c.rewind entry).1)
  | jump {pos : Nat} (jumps : r.Jumps c.id op) (entries : c'.entries = c.entries)
      (cursor : c'.cursor = pos) (marks : c'.decisions = c.decisions ∧ c'.aside = c.aside)
      (place : pos = 0 ∨ ∃ entry, (op = .replayFrom c.id (some entry) ∨ op = .stepTo c.id entry) ∧
        c.entries.findIdx? (fun x => x.id == entry) = some pos)

namespace Router

variable {r r' : Router} {a : ChannelId} {c : Channel} {op : Op}

/-- The operation edits every batch. -/
def Edits (op : Op) (r r' : Router) : Prop :=
  ∃ f, (∀ c ∈ r.channels, (f c).id = c.id ∧ Edit r op c (f c)) ∧ r'.channels = r.channels.map f

theorem Edit.refl (c : Channel) : Edit r op c c := .keep rfl rfl ⟨rfl, rfl⟩

theorem edits_same (hc : r'.channels = r.channels) : Edits op r r' :=
  ⟨fun c => c, fun c _ => ⟨rfl, Edit.refl c⟩, by rw [hc, List.map_id']⟩

theorem edits_update (id : ChannelId) {f : Channel → Channel}
    (hc : r'.channels = (r.update id f).channels)
    (hf : ∀ c ∈ r.channels, c.id = id → (f c).id = c.id ∧ Edit r op c (f c)) : Edits op r r' := by
  refine ⟨fun c => if c.id = id then f c else c, fun c hmem => ?_, hc⟩
  show (if c.id = id then f c else c).id = c.id ∧ Edit r op c (if c.id = id then f c else c)
  split
  next h => exact hf c hmem h
  next h => exact ⟨rfl, Edit.refl c⟩

/-- With unique ids a channel of the list is the one its id finds. -/
theorem channel_of_mem (hn : r.ids.Nodup) (hmem : c ∈ r.channels) : r.channel c.id = some c := by
  obtain ⟨c', hc'⟩ := isOpen_of_mem (List.mem_map_of_mem (f := Channel.id) hmem)
  have heq : c' = c :=
    List.inj_on_of_nodup_map hn (mem_of_channel hc') hmem (channel_id hc')
  rw [hc', heq]

/-- What a push does to the channel it pushes into. -/
theorem push_edit (hw : c.WellFormed) {e : Entry} {front : Bool} (hpush : op.PushesInto c.id)
    (hfresh : e.id = r.nextEntry + 1) (hst : r.stores c op = false) :
    (c.push e (op.replaces c) front (r.reading.any (·.1 == c.id))).id = c.id ∧
      Edit r op c (c.push e (op.replaces c) front (r.reading.any (·.1 == c.id))) := by
  refine ⟨Channel.push_id .., ?_⟩
  rw [hw.push]
  cases hs : (op.replaces c || (c.caughtUp && !r.reading.any (·.1 == c.id) && !c.growing)) with
  | true =>
    refine .restart (e := e) hpush hfresh hs rfl ?_ rfl (fun i h => (nomatch h))
    rw [hst]
    rfl
  | false =>
    refine .insert (e := e) hpush hfresh hs (fun h => ?_) rfl ?_ rfl fun i h => .inl h
    · rw [hst] at h
      cases h
    · rw [hst]
      rfl

theorem pushWith_edits (id : ChannelId) (text : Text) (label : Option String) (replace front : Bool)
    (hw : ∀ c ∈ r.channels, c.WellFormed) (hpush : op.PushesInto id)
    (hrep : ∀ c ∈ r.channels, c.id = id → replace = op.replaces c)
    (hst : ∀ c, r.stores c op = false) : Edits op r (r.pushWith id text label replace front).1 := by
  unfold pushWith
  dsimp only
  split
  · exact edits_same rfl
  · refine edits_update id rfl fun c hmem hid => ?_
    rw [hrep c hmem hid, ← hid]
    exact push_edit (hw c hmem) (hid ▸ hpush) rfl (hst c)

/-- `append` as one change of its channel. -/
def appended (r : Router) (id : ChannelId) (text : Text) (decision heard : Bool) (c : Channel) :
    Channel :=
  let p := c.push { id := r.nextEntry + 1, text := text, label := none } false false
    (r.reading.any (·.1 == id))
  { p with
    growing := true
    agent := true
    decisions := if decision then Function.update p.decisions (r.nextEntry + 1) (some heard)
      else p.decisions
    cursor := if r.stores c (.append id text decision heard) then p.entries.length else p.cursor }

/-- An append is an update of its channel. -/
theorem append_eq (hn : r.ids.Nodup) (id : ChannelId) (text : Text) (decision heard : Bool) :
    (r.append id text decision heard).1.channels =
      (r.update id (r.appended id text decision heard)).channels := by
  unfold append
  cases hc : r.channel id with
  | none =>
    dsimp only
    unfold update
    conv_lhs => rw [← List.map_id r.channels]
    refine List.map_congr_left fun c hmem => ?_
    rw [if_neg]
    · rfl
    · intro hid
      rw [← hid, channel_of_mem hn hmem] at hc
      cases hc
  | some c₀ =>
    have hopen : r.isOpen id = true := isOpen_iff.mpr ⟨c₀, hc⟩
    unfold pushWith
    simp only [hopen, Bool.not_true, Bool.false_eq_true, if_false]
    unfold update
    dsimp only
    rw [List.map_map]
    refine List.map_congr_left fun c hmem => ?_
    rw [Function.comp_apply]
    by_cases hid : c.id = id
    · have hcc : c₀ = c := by
        rw [← hid, channel_of_mem hn hmem] at hc
        exact (Option.some.inj hc).symm
      subst hcc
      unfold appended
      simp only [if_pos hid, Channel.push_id]
      rfl
    · simp only [if_neg hid]

/-- What an append does to its channel is an edit: a new entry, last or at the cursor. -/
theorem appended_edit (hw : c.WellFormed) {id : ChannelId} (hid : c.id = id) (text : Text)
    (decision heard : Bool) :
    (r.appended id text decision heard c).id = c.id ∧
      Edit r (.append id text decision heard) c (r.appended id text decision heard c) := by
  have hst : r.stores c (.append id text decision heard) = true →
      c.unread = [] ∧ (r.reading.any (·.1 == id)) = false := by
    intro h
    unfold stores at h
    simp only [Bool.and_eq_true, Bool.not_eq_true', Bool.or_eq_false_iff, decide_eq_false_iff_not,
      Nat.not_lt, Nat.le_zero] at h
    exact ⟨List.length_eq_zero_iff.mp h.2.1, h.2.2⟩
  have hmark : ∀ (d : Nat → Option Bool) (i : Nat),
      ((if decision then Function.update d (r.nextEntry + 1) (some heard) else d) i).isSome →
        (d i).isSome ∨ i = r.nextEntry + 1 := by
    intro d i h
    split at h
    · by_cases hi : i = r.nextEntry + 1
      · exact .inr hi
      · rw [Function.update_of_ne hi] at h
        exact .inl h
    · exact .inl h
  unfold appended
  dsimp only
  refine ⟨Channel.push_id .., ?_⟩
  rw [hw.push]
  cases hs : (false || (c.caughtUp && !r.reading.any (·.1 == id) && !c.growing)) with
  | true =>
    refine .restart (e := { id := r.nextEntry + 1, text := text, label := none }) hid.symm rfl
      (hid ▸ hs) rfl rfl rfl fun i h => ?_
    rcases hmark _ i h with h | h
    · cases h
    · exact h
  | false =>
    refine .insert (e := { id := r.nextEntry + 1, text := text, label := none })
      hid.symm rfl (hid ▸ hs) (fun h => ⟨rfl, (hst h).1⟩) rfl ?_ rfl (hmark _)
    show (if r.stores c _ = true then (c.entries ++ [_]).length else c.cursor) = _
    rw [List.length_append]
    rfl

theorem append_edits (hn : r.ids.Nodup) (hw : ∀ c ∈ r.channels, c.WellFormed) (id : ChannelId)
    (text : Text) (decision heard : Bool) :
    Edits (.append id text decision heard) r (r.append id text decision heard).1 :=
  edits_update id (append_eq hn id text decision heard) fun c hmem hid =>
    appended_edit (hw c hmem) hid text decision heard

/-- Reading at an entry moves the cursor of its channel alone. -/
theorem readAt_edits (hn : r.ids.Nodup) (id : ChannelId) (entry : Option Nat) (replay : Bool)
    (hjump : r.Jumps id op)
    (hop : ∀ e, entry = some e → op = .replayFrom id (some e) ∨ op = .stepTo id e) :
    Edits op r (r.readAt id entry replay).1 := by
  unfold readAt
  split
  · exact edits_same rfl
  next c₀ hc =>
    split
    · exact edits_same rfl
    · split
      · exact edits_same rfl
      next pos hpos =>
        refine edits_update id (f := fun c =>
          { c with cursor := pos, replaying := replay || c.replaying }) ?_ fun c hmem hid => ?_
        · dsimp only
          split
          · show (startHold _ id).channels = _
            rw [startHold_channels]
            rfl
          · show (startHold _ id).channels = _
            rw [startHold_channels]
            rfl
        · refine ⟨rfl, .jump (hid ▸ hjump) rfl rfl ⟨rfl, rfl⟩ ?_⟩
          have hcc : c₀ = c := by
            rw [← hid, channel_of_mem hn hmem] at hc
            exact (Option.some.inj hc).symm
          cases entry with
          | none => exact .inl (Option.some.inj hpos).symm
          | some e =>
            refine .inr ⟨e, hid ▸ hop e rfl, ?_⟩
            rw [← hcc]
            exact hpos

/-- Going to the next channel edits no channel. -/
theorem nextChannel_edits (r : Router) : Edits .nextChannel r r.nextChannel.1 := by
  have hjump : ∀ {t}, r.nextChannel.2 = some (t, true) → r.Jumps t .nextChannel := fun h => h
  unfold nextChannel at hjump ⊢
  dsimp only at hjump ⊢
  split
  · exact edits_same rfl
  next target ht =>
    rw [ht] at hjump
    dsimp only at hjump
    have hsup : ((r.suppressOld target).unsuppress target).channels = r.channels :=
      suppressOld_channels r target
    split
    · exact edits_same hsup
    next c₀ hc₀ =>
      rw [hc₀] at hjump
      dsimp only at hjump ⊢
      unfold land
      cases hreplay : c₀.caughtUp || (r.active.or r.lastActive) == some target || c₀.replaying with
      | true =>
        refine edits_update target (f := fun c => { c with cursor := 0, replaying := true }) ?_
          fun c _ hid => ⟨rfl, .jump ?_ rfl rfl ⟨rfl, rfl⟩ (.inl rfl)⟩
        · dsimp only
          rw [if_pos rfl, startHold_channels, endHold_channels]
          unfold update
          rw [← hsup]
          rfl
        · exact hjump (by rw [hreplay, hid])
      | false =>
        refine edits_same ?_
        dsimp only
        rw [if_neg Bool.false_ne_true, endHold_channels]
        exact hsup

/-- A feed takes at most the entry it feeds. -/
theorem fed_edits (hn : r.ids.Nodup) : Edits .nextFeed r r.nextFeed.1 := by
  have hpick : r.cleared.pick.1.channels = r.channels := r.cleared.pick_picked.channels
  have hfed := r.nextFeed_fed
  have hfeeds : r.feeds .nextFeed = r.nextFeed.2.toList := rfl
  generalize hp : r.nextFeed = p at hfed hfeeds ⊢
  obtain ⟨r', o⟩ := p
  cases hfed with
  | armed => exact edits_same rfl
  | idle => exact edits_same hpick
  | handoff => exact edits_same hpick
  | @entry a c₀ e es auth p unarmed picked isOpen unread reader auth_sub =>
    have hchan : p.channels = r.channels := by
      rcases reader with ⟨-, rfl⟩ | ⟨-, -, rfl⟩ <;> exact hpick
    refine edits_update a (f := fun c => c.take.1) ?_ fun c hmem hid => ?_
    · show (p.update a fun c => c.take.1).channels = (r.update a fun c => c.take.1).channels
      unfold update
      rw [hchan]
    · have hcc : c₀ = c := by
        rw [← hid, channel_of_mem hn hmem] at isOpen
        exact (Option.some.inj isOpen).symm
      obtain ⟨n, htake⟩ := c.take_eq
      refine ⟨by rw [htake], .take (e := e) ?_ (hcc ▸ unread) rfl⟩
      rw [hfeeds, hid]
      rfl

/-- **What an operation does to the batches**: it edits them, opens a channel with an
empty one, or closes a channel. -/
theorem apply_batches (hn : r.ids.Nodup) (hw : ∀ c ∈ r.channels, c.WellFormed) (op : Op) :
    Edits op r (r.apply op) ∨
      (∃ id label hostTab policy muted, r.isOpen id = false ∧ (r.apply op).channels =
        r.channels ++ [{ Channel.new id label hostTab policy with muted := muted }]) ∨
      ∃ id, op = .close id ∧ (r.apply op).channels = r.channels.filter (fun c => c.id != id) := by
  cases op with
  | openChannel id label hostTab policy =>
    cases hopen : r.isOpen id with
    | true =>
      refine .inl (edits_update id (f := fun c =>
        { c with label := label, hostTab := hostTab, policy := policy.getD c.policy }) ?_
        fun c _ _ => ⟨rfl, .keep rfl rfl ⟨rfl, rfl⟩⟩)
      show (r.openChannel id label hostTab policy).channels = _
      unfold openChannel
      rw [if_pos hopen]
    | false =>
      refine .inr (.inl ⟨id, label, hostTab, policy.getD .latest, id ∈ r.muted, hopen, ?_⟩)
      show (r.openChannel id label hostTab policy).channels = _
      unfold openChannel
      rw [if_neg (Bool.eq_false_iff.mp hopen)]
  | close id =>
    cases hc : r.channel id with
    | none =>
      refine .inl (edits_same ?_)
      show (r.close id).1.channels = _
      unfold close
      rw [hc]
    | some closed =>
      refine .inr (.inr ⟨id, rfl, ?_⟩)
      show (r.close id).1.channels = _
      unfold close
      rw [hc]
      dsimp only
      rw [endHold_channels]
      split <;> rfl
  | labelIfMissing id label =>
    refine .inl ?_
    show Edits _ r (r.labelIfMissing id label).1
    unfold labelIfMissing
    split
    · exact edits_same rfl
    · split
      · split
        · exact edits_update id rfl fun c _ _ => ⟨rfl, .keep rfl rfl ⟨rfl, rfl⟩⟩
        · exact edits_same rfl
      · exact edits_same rfl
  | setMuted id m =>
    refine .inl (edits_update id (f := fun c => { c with muted := m }) ?_
      fun c _ _ => ⟨rfl, .keep rfl rfl ⟨rfl, rfl⟩⟩)
    show (r.setMuted id m).channels = _
    unfold setMuted
    dsimp only
    split
    · exact endHold_channels _ _
    · rfl
  | push id text label =>
    refine .inl ?_
    show Edits _ r (r.push id text label).1
    unfold push
    cases hc : r.channel id with
    | none => exact edits_same rfl
    | some c₀ =>
      refine pushWith_edits id text label _ false hw rfl (fun c hmem hid => ?_) fun _ => rfl
      rw [← hid, channel_of_mem hn hmem] at hc
      rw [Option.some.inj hc]
      rfl
  | pushWith id text label replace front =>
    exact .inl (pushWith_edits id text label replace front hw rfl (fun _ _ _ => rfl) fun _ => rfl)
  | append id text decision heard => exact .inl (append_edits hn hw id text decision heard)
  | dropDecisions id which =>
    refine .inl (edits_update id rfl fun c _ hid => ⟨?_, .dropDecisions (hid ▸ rfl) rfl⟩)
    obtain ⟨es, n, d, a, h⟩ := c.dropDecisions_eq which
    rw [h]
  | endBatch id =>
    exact .inl (edits_update id rfl fun c _ _ => ⟨rfl, .keep rfl rfl ⟨rfl, rfl⟩⟩)
  | setAside id entry aside =>
    refine .inl ?_
    show Edits _ r (r.setAside id entry aside).1
    unfold setAside
    cases hc : r.channel id with
    | none => exact edits_same rfl
    | some c₀ =>
      dsimp only
      split
      next hany =>
        refine edits_update id rfl fun c hmem hid => ⟨rfl, .setAside (hid ▸ rfl) ?_ rfl⟩
        rw [← hid, channel_of_mem hn hmem] at hc
        obtain rfl := Option.some.inj hc
        obtain ⟨e, he, hide⟩ := List.any_eq_true.mp hany
        exact Channel.mem_entryIds.mpr ⟨e, he, by simpa using hide⟩
      · exact edits_same rfl
  | revise id entry text =>
    exact .inl (edits_update id rfl fun c _ hid => ⟨rfl, .revise (hid ▸ rfl) rfl⟩)
  | flush id =>
    refine .inl ?_
    cases id with
    | some id =>
      refine edits_update id (f := fun c => { c with growing := false }.skipToEnd) ?_
        fun c _ hid => ⟨rfl, .flush (.inl (congrArg some hid.symm)) rfl rfl ⟨rfl, rfl⟩⟩
      show (r.flush (some id)).1.channels = _
      unfold flush update
      dsimp only
      rw [endHold_channels]
      rfl
    | none =>
      refine ⟨Channel.skipToEnd, fun c _ => ⟨rfl, .flush (.inr rfl) rfl rfl ⟨rfl, rfl⟩⟩, ?_⟩
      show (r.flush none).1.channels = _
      unfold flush
      dsimp only
      rw [endHold_channels]
  | rewind id entry =>
    refine .inl (edits_update id rfl fun c _ hid => ⟨?_, .rewind (hid ▸ rfl) rfl⟩)
    obtain ⟨n, h⟩ := c.rewind_eq entry
    rw [h]
  | focus id =>
    refine .inl (edits_same ?_)
    show (r.setFocus id).1.channels = _
    unfold setFocus
    split
    · rfl
    · dsimp only
      split
      · split <;> rfl
      · rfl
  | setFocusOnly on => exact .inl (edits_same rfl)
  | authorize id =>
    refine .inl (edits_same ?_)
    show (r.authorize id).1.channels = _
    unfold authorize
    split <;> rfl
  | prioritize id =>
    refine .inl (edits_same ?_)
    show (r.prioritize id).1.channels = _
    unfold prioritize
    split
    · rfl
    · split <;> rfl
  | isSuppressed id => exact .inl (edits_same (r.isSuppressed_spec id).1.picked.channels)
  | pick => exact .inl (edits_same r.pick_picked.channels)
  | hasWork =>
    refine .inl (edits_same ?_)
    show r.hasWork.1.channels = _
    unfold hasWork
    split
    · rfl
    · exact r.pick_picked.channels
  | clearAnnounce => exact .inl (edits_same rfl)
  | done => exact .inl (edits_same rfl)
  | nextFeed => exact .inl (fed_edits hn)
  | nextChannel => exact .inl r.nextChannel_edits
  | takeFloor id => exact .inl (edits_same (r.takeFloor_channels id))
  | replay id => exact .inl (readAt_edits hn id none true rfl (fun _ h => nomatch h))
  | replayFrom id entry =>
    exact .inl (readAt_edits hn id entry true rfl fun e he => .inl (by rw [he]))
  | stepTo id entry =>
    exact .inl (readAt_edits hn id (some entry) false rfl fun e he =>
      .inr (by rw [Option.some.inj he]))

end Router

end Sonara.L2
