import Sonara.L2.Pick

/-!
# What one operation can do

Three inversions of `Router.apply`, from which the invariants of runs are derived:

* `apply_channels`: an operation maps the channels (`Touches` says how), opens a
  new one or closes one;
* `keepsFloor`: an operation that neither feeds, closes nor lands a user's move
  leaves the floor alone;
* `givesFloor`: a user's move that lands on `t` (`Router.landing`) gives it the
  floor. `Fed` (in `Pick`) and `close_floor` cover the other two.
-/

namespace Sonara.L2

open Sonara (Text)

/-- The operation pushes new content into `a`. -/
def Op.PushesInto (a : ChannelId) : Op → Prop
  | .push id _ _ | .pushWith id _ _ _ _ | .append id _ _ _ => id = a
  | _ => False

/-- What the operation sets the muting of `a` to. -/
def Op.mutes (a : ChannelId) : Op → Option Bool
  | .setMuted id m => if id = a then some m else none
  | _ => none

/-- How an operation changes a channel that stays open. -/
structure Touches (op : Op) (c c' : Channel) : Prop where
  id : c'.id = c.id
  gen : ¬op.PushesInto c.id → c'.gen = c.gen
  muted : c'.muted = (op.mutes c.id).getD c.muted

/-- The operation changes at most what a push, a mute and `id` do not read. -/
theorem Touches.of_eq {op : Op} {c c' : Channel} (hid : c'.id = c.id) (hgen : c'.gen = c.gen)
    (hmuted : c'.muted = c.muted) (hop : op.mutes c.id = none) : Touches op c c' :=
  ⟨hid, fun _ => hgen, by rw [hop]; exact hmuted⟩

namespace Router

variable {r r' : Router} {a t : ChannelId} {c : Channel} {op : Op}

/-! ## The channels -/

/-- The operation maps the channels. -/
def Maps (op : Op) (r r' : Router) : Prop :=
  ∃ f, (∀ c, Touches op c (f c)) ∧ r'.channels = r.channels.map f

theorem maps_same (hc : r'.channels = r.channels) (hop : ∀ a, op.mutes a = none) : Maps op r r' :=
  ⟨fun c => c, fun c => .of_eq rfl rfl rfl (hop _), by rw [hc, List.map_id']⟩

theorem maps_update (id : ChannelId) {f : Channel → Channel}
    (hc : r'.channels = (r.update id f).channels) (hf : ∀ c, c.id = id → Touches op c (f c))
    (hop : ∀ a, a ≠ id → op.mutes a = none) : Maps op r r' := by
  refine ⟨fun c => if c.id = id then f c else c, fun c => ?_, hc⟩
  show Touches op c (if c.id = id then f c else c)
  split
  next h => exact hf c h
  next h => exact .of_eq rfl rfl rfl (hop _ h)

theorem Maps.trans {r'' : Router} (h : Maps op r r') (h' : Maps op r' r'') : Maps op r r'' := by
  obtain ⟨f, hf, hc⟩ := h
  obtain ⟨g, hg, hc'⟩ := h'
  refine ⟨fun c => g (f c), fun c => ?_, by rw [hc', hc, List.map_map]; rfl⟩
  have h1 := hf c
  have h2 := hg (f c)
  refine ⟨h2.id.trans h1.id, fun hn => ?_, ?_⟩
  · exact (h2.gen (by rw [h1.id]; exact hn)).trans (h1.gen hn)
  · rw [h2.muted, h1.muted, h1.id]
    cases op.mutes c.id <;> rfl

/-- A mapped channel stays where it is. -/
theorem Maps.channel (hm : Maps op r r') (h : r.channel a = some c) :
    ∃ c', r'.channel a = some c' ∧ Touches op c c' := by
  obtain ⟨f, hf, hmap⟩ := hm
  have hp : (fun c : Channel => (f c).id == a) = fun c => c.id == a := by
    funext c
    rw [(hf c).id]
  refine ⟨f c, ?_, hf c⟩
  unfold Router.channel
  rw [hmap, List.find?_map]
  show Option.map f (r.channels.find? (fun c => (f c).id == a)) = _
  rw [hp]
  exact congrArg (Option.map f) h

theorem pushWith_maps (r : Router) (id : ChannelId) (text : Text) (label : Option String)
    (replace front : Bool) (hpush : op.PushesInto id) (hop : ∀ a, op.mutes a = none) :
    Maps op r (r.pushWith id text label replace front).1 := by
  unfold pushWith
  dsimp only
  split
  · exact maps_same rfl hop
  · refine maps_update _ rfl (fun c hid => ⟨Channel.push_id .., fun hn => ?_, ?_⟩)
      (fun a _ => hop a)
    · exact absurd (hid ▸ hpush) hn
    · rw [hop]
      exact Channel.push_muted ..

/-- An append maps the channels: it touches its own alone. -/
theorem append_maps (r : Router) (id : ChannelId) (text : Text) (decision heard : Bool) :
    Maps (.append id text decision heard) r (r.append id text decision heard).1 := by
  have hop : ∀ a, Op.mutes a (.append id text decision heard) = none := fun _ => rfl
  have hpush : Maps (.append id text decision heard) r (r.pushWith id text none false false).1 :=
    r.pushWith_maps id text none false false rfl hop
  unfold append
  split
  next => exact maps_same rfl hop
  next c hc =>
    dsimp only
    cases hp : r.pushWith id text none false false with
    | mk r₁ o =>
      rw [hp] at hpush
      cases o with
      | none => exact hpush
      | some entry =>
        exact hpush.trans (maps_update _ rfl (fun c _ => .of_eq rfl rfl rfl (hop _))
          (fun a _ => hop a))

@[simp] theorem endHold_channels (r : Router) (id : Option ChannelId) :
    (r.endHold id).channels = r.channels := by
  unfold endHold
  split <;> rfl

@[simp] theorem startHold_channels (r : Router) (id : ChannelId) :
    (r.startHold id).channels = r.channels := r.endHold_channels none

@[simp] theorem suppressOld_channels (r : Router) (target : ChannelId) :
    (r.suppressOld target).channels = r.channels := by
  unfold suppressOld
  split
  · rfl
  · split
    · rfl
    · split <;> rfl

@[simp] theorem endOtherHold_channels (r : Router) (id : ChannelId) :
    (r.endOtherHold id).channels = r.channels := by
  unfold endOtherHold
  split
  · exact endHold_channels r none
  · rfl

theorem takeFloor_channels (r : Router) (id : ChannelId) :
    (r.takeFloor id).1.channels = r.channels := by
  have h : (((r.setReader id).unsuppress id).endOtherHold id).channels = r.channels :=
    endOtherHold_channels _ _
  unfold takeFloor
  split
  · rfl
  · dsimp only
    split
    · exact h
    · split <;> exact h

/-- Reading at an entry maps the channels and mutes none. -/
theorem readAt_maps (r : Router) (id : ChannelId) (entry : Option Nat) (replay : Bool)
    (hop : ∀ a, op.mutes a = none) : Maps op r (r.readAt id entry replay).1 := by
  unfold readAt
  split
  · exact maps_same rfl hop
  · split
    · exact maps_same rfl hop
    · split
      · exact maps_same rfl hop
      next pos _ =>
        refine maps_update id (f := fun c =>
          { c with cursor := pos, replaying := replay || c.replaying }) ?_
          (fun c _ => .of_eq rfl rfl rfl (hop _)) (fun a _ => hop a)
        dsimp only
        split
        · show (startHold _ id).channels = _
          rw [startHold_channels]
          rfl
        · show (startHold _ id).channels = _
          rw [startHold_channels]
          rfl

theorem land_maps (r : Router) (target : ChannelId) (replay : Bool) (hop : ∀ a, op.mutes a = none) :
    Maps op r (r.land target replay) := by
  unfold land
  cases replay with
  | true =>
    refine maps_update target (f := fun c => { c with cursor := 0, replaying := true }) ?_
      (fun c _ => .of_eq rfl rfl rfl (hop _)) (fun a _ => hop a)
    exact (startHold_channels _ _).trans (endHold_channels _ _)
  | false =>
    refine maps_same ?_ hop
    exact endHold_channels ((r.setReader target).arm target false true) none

theorem nextChannel_maps (r : Router) : Maps .nextChannel r r.nextChannel.1 := by
  have hop : ∀ a, Op.mutes a .nextChannel = none := fun _ => rfl
  unfold nextChannel
  dsimp only
  split
  · exact maps_same rfl hop
  next target _ =>
    have hsup : Maps .nextChannel r ((r.suppressOld target).unsuppress target) :=
      maps_same (suppressOld_channels r target) hop
    split
    · exact hsup
    · exact hsup.trans (land_maps _ _ _ hop)

/-- A feed maps the channels. -/
theorem fed_maps {o : Option Feed} (h : Fed r r' o) : Maps .nextFeed r r' := by
  have hop : ∀ a, Op.mutes a .nextFeed = none := fun _ => rfl
  have hpick : r.cleared.pick.1.channels = r.channels := r.cleared.pick_picked.channels
  cases h with
  | armed => exact maps_same rfl hop
  | idle => exact maps_same hpick hop
  | handoff => exact maps_same hpick hop
  | @entry a c e es auth p unarmed picked isOpen unread reader auth_sub =>
    have hp : p.channels = r.channels := by
      rcases reader with ⟨-, rfl⟩ | ⟨-, -, rfl⟩ <;> exact hpick
    refine maps_update a (f := fun c => c.take.1) ?_ (fun c _ => ?_) (fun a _ => hop a)
    · show (p.update a fun c => c.take.1).channels = (r.update a fun c => c.take.1).channels
      unfold update
      rw [hp]
    · obtain ⟨n, hn⟩ := c.take_eq
      rw [hn]
      exact .of_eq rfl rfl rfl (hop _)

/-- **What an operation does to the channels**: it maps them, opens one or closes
one. -/
theorem apply_channels (r : Router) (op : Op) :
    Maps op r (r.apply op) ∨
      (∃ id c, (∀ a, op.mutes a = none) ∧ r.channel id = none ∧ c.id = id ∧
        c.muted = decide (id ∈ r.muted) ∧ (r.apply op).channels = r.channels ++ [c]) ∨
      ∃ id, op = .close id ∧ (r.apply op).channels = r.channels.filter (fun c => c.id != id) := by
  cases op with
  | openChannel id label hostTab policy =>
    show Maps _ r (r.openChannel id label hostTab policy) ∨ _
    unfold openChannel
    split
    next h =>
      exact .inl (maps_update _ rfl (fun c _ => .of_eq rfl rfl rfl rfl) (fun _ _ => rfl))
    next h =>
      refine .inr (.inl ⟨id, { Channel.new id label hostTab (policy.getD .latest) with
        muted := id ∈ r.muted }, fun _ => rfl, ?_, rfl, rfl, ?_⟩)
      · exact Option.not_isSome_iff_eq_none.mp h
      · show (r.openChannel id label hostTab policy).channels = _
        unfold openChannel
        rw [if_neg h]
  | close id =>
    cases hc : r.channel id with
    | none =>
      refine .inl (maps_same ?_ (fun _ => rfl))
      show (r.close id).1.channels = _
      unfold close
      rw [hc]
    | some closed =>
      refine .inr (.inr ⟨id, rfl, ?_⟩)
      show (r.close id).1.channels = _
      unfold close
      rw [hc]
      dsimp only
      rw [endHold_channels]
      split <;> rfl
  | labelIfMissing id label =>
    refine .inl ?_
    show Maps _ r (r.labelIfMissing id label).1
    unfold labelIfMissing
    split
    · exact maps_same rfl (fun _ => rfl)
    · split
      · split
        · exact maps_update _ rfl (fun c _ => .of_eq rfl rfl rfl rfl) (fun _ _ => rfl)
        · exact maps_same rfl (fun _ => rfl)
      · exact maps_same rfl (fun _ => rfl)
  | focus id =>
    refine .inl (maps_same ?_ (fun _ => rfl))
    show (r.setFocus id).1.channels = _
    unfold setFocus
    split
    · rfl
    · dsimp only
      split
      · split <;> rfl
      · rfl
  | setMuted id m =>
    refine .inl (maps_update id (f := fun c => { c with muted := m }) ?_
      (fun c hid => ⟨rfl, fun _ => rfl, ?_⟩) (fun a ha => if_neg (Ne.symm ha)))
    · show (r.setMuted id m).channels = _
      unfold setMuted
      dsimp only
      split
      · exact endHold_channels _ _
      · rfl
    · show m = (if id = c.id then some m else none).getD c.muted
      rw [if_pos hid.symm]
      rfl
  | setFocusOnly on => exact .inl (maps_same rfl (fun _ => rfl))
  | authorize id =>
    refine .inl (maps_same ?_ (fun _ => rfl))
    show (r.authorize id).1.channels = _
    unfold authorize
    split <;> rfl
  | prioritize id =>
    refine .inl (maps_same ?_ (fun _ => rfl))
    show (r.prioritize id).1.channels = _
    unfold prioritize
    split
    · rfl
    · split <;> rfl
  | push id text label =>
    refine .inl ?_
    show Maps _ r (r.push id text label).1
    unfold push
    split
    · exact maps_same rfl (fun _ => rfl)
    · exact r.pushWith_maps id text label _ _ rfl (fun _ => rfl)
  | pushWith id text label replace front =>
    exact .inl (r.pushWith_maps id text label replace front rfl (fun _ => rfl))
  | append id text decision heard => exact .inl (r.append_maps id text decision heard)
  | dropDecisions id which =>
    refine .inl (maps_update _ rfl (fun c _ => ?_) (fun _ _ => rfl))
    obtain ⟨es, n, d, a, h⟩ := c.dropDecisions_eq which
    rw [h]
    exact .of_eq rfl rfl rfl rfl
  | endBatch id =>
    exact .inl (maps_update _ rfl (fun c _ => .of_eq rfl rfl rfl rfl) (fun _ _ => rfl))
  | setAside id entry aside =>
    refine .inl ?_
    show Maps _ r (r.setAside id entry aside).1
    unfold setAside
    split
    · exact maps_same rfl (fun _ => rfl)
    · split
      · exact maps_update _ rfl (fun c _ => .of_eq rfl rfl rfl rfl) (fun _ _ => rfl)
      · exact maps_same rfl (fun _ => rfl)
  | revise id entry text =>
    exact .inl (maps_update _ rfl (fun c _ => .of_eq rfl rfl rfl rfl) (fun _ _ => rfl))
  | flush id =>
    refine .inl ?_
    cases id with
    | some id =>
      refine maps_update id (f := fun c => { c with growing := false }.skipToEnd) ?_
        (fun c _ => .of_eq rfl rfl rfl rfl) (fun _ _ => rfl)
      show (r.flush (some id)).1.channels = _
      unfold flush update
      dsimp only
      rw [endHold_channels]
      rfl
    | none =>
      refine ⟨Channel.skipToEnd, fun c => .of_eq rfl rfl rfl rfl, ?_⟩
      show (r.flush none).1.channels = _
      unfold flush
      dsimp only
      rw [endHold_channels]
  | rewind id entry =>
    refine .inl (maps_update _ rfl (fun c _ => ?_) (fun _ _ => rfl))
    obtain ⟨n, h⟩ := c.rewind_eq entry
    rw [h]
    exact .of_eq rfl rfl rfl rfl
  | isSuppressed id =>
    exact .inl (maps_same (r.isSuppressed_spec id).1.picked.channels (fun _ => rfl))
  | pick => exact .inl (maps_same r.pick_picked.channels (fun _ => rfl))
  | hasWork =>
    refine .inl (maps_same ?_ (fun _ => rfl))
    show r.hasWork.1.channels = _
    unfold hasWork
    split
    · rfl
    · exact r.pick_picked.channels
  | clearAnnounce => exact .inl (maps_same rfl (fun _ => rfl))
  | done => exact .inl (maps_same rfl (fun _ => rfl))
  | nextFeed => exact .inl (fed_maps r.nextFeed_fed)
  | nextChannel => exact .inl r.nextChannel_maps
  | takeFloor id => exact .inl (maps_same (r.takeFloor_channels id) (fun _ => rfl))
  | replay id => exact .inl (r.readAt_maps id none true (fun _ => rfl))
  | replayFrom id entry => exact .inl (r.readAt_maps id entry true (fun _ => rfl))
  | stepTo id entry => exact .inl (r.readAt_maps id (some entry) false (fun _ => rfl))

/-- A channel that is not closed stays open, touched by the operation. -/
theorem apply_channel (h : r.channel a = some c) (hop : op ≠ .close a) :
    ∃ c', (r.apply op).channel a = some c' ∧ Touches op c c' := by
  have hself : op.mutes a = none → Touches op c c := fun hm =>
    .of_eq rfl rfl rfl (by rw [channel_id h]; exact hm)
  rcases r.apply_channels op with hmap | ⟨id, c₁, hm, -, -, -, happ⟩ | ⟨id, rfl, hfil⟩
  · exact hmap.channel h
  · refine ⟨c, ?_, hself (hm a)⟩
    unfold channel at h ⊢
    rw [happ, List.find?_append, h]
    rfl
  · have hne : a ≠ id := fun he => hop (by rw [he])
    refine ⟨c, ?_, hself rfl⟩
    have hp : (fun c : Channel => decide ((c.id != id) = true ∧ (c.id == a) = true)) =
        fun c => c.id == a := by
      funext c
      by_cases hc : c.id = a
      · simp [hc, hne]
      · simp [hc]
    unfold channel at h ⊢
    rw [hfil, List.find?_filter, hp]
    exact h

/-! ## The floor -/

/-- The floor stays as it is; a hold or an armed announcement may be dropped and a
stale suppression lifted. -/
structure KeepsFloor (r r' : Router) : Prop where
  active : r'.active = r.active
  lastReader : r'.lastReader = r.lastReader
  closedReaderTab : r'.closedReaderTab = r.closedReaderTab
  hold : r'.hold = r.hold ∨ r'.hold = none
  announce : r'.announce = r.announce ∨ r'.announce = none
  suppressed : ∀ a, r'.suppressed a = r.suppressed a ∨
    r'.suppressed a = none ∧ r.suppresses a = false

/-- The user gave the floor to `t`. -/
structure GivesFloor (r r' : Router) (t : ChannelId) : Prop where
  isOpen : ∃ c, r.channel t = some c
  stays : ∃ c, r'.channel t = some c
  active : r'.active = some t
  lastReader : r'.lastReader = some t
  closedReaderTab : r'.closedReaderTab = none
  hold : ∀ h m, r'.hold = some (h, m) → h = t
  /-- Announced, unless it is no switch. -/
  announce : (∃ replay manual, r'.announce = some ⟨t, replay, manual⟩) ∨
    r.isHandoff t = false ∧ (r'.announce = r.announce ∨ r'.announce = none)
  suppressed : ∀ a, a ≠ t → r.active ≠ some a → r'.suppressed a = r.suppressed a

theorem KeepsFloor.refl (r : Router) : KeepsFloor r r :=
  ⟨rfl, rfl, rfl, .inl rfl, .inl rfl, fun _ => .inl rfl⟩

theorem Picked.keepsFloor (h : Picked r r') : KeepsFloor r r' :=
  ⟨h.active, h.lastReader, h.closedReaderTab, h.hold, .inl h.announce, h.suppressed⟩

/-- What an operation on other fields leaves. -/
theorem KeepsFloor.of_eq (ha : r'.active = r.active) (hl : r'.lastReader = r.lastReader)
    (ht : r'.closedReaderTab = r.closedReaderTab) (hh : r'.hold = r.hold)
    (hn : r'.announce = r.announce) (hs : r'.suppressed = r.suppressed) : KeepsFloor r r' :=
  ⟨ha, hl, ht, .inl hh, .inl hn, fun _ => .inl (by rw [hs])⟩

theorem pushWith_keepsFloor (r : Router) (id : ChannelId) (text : Text) (label : Option String)
    (replace front : Bool) : KeepsFloor r (r.pushWith id text label replace front).1 := by
  unfold pushWith
  dsimp only
  split
  · exact .refl r
  · exact .of_eq rfl rfl rfl rfl rfl rfl

/-- An append leaves the floor. -/
theorem append_keepsFloor (r : Router) (id : ChannelId) (text : Text) (decision heard : Bool) :
    KeepsFloor r (r.append id text decision heard).1 := by
  have hpush := r.pushWith_keepsFloor id text none false false
  unfold append
  split
  · exact .refl r
  · dsimp only
    cases hp : r.pushWith id text none false false with
    | mk r₁ o =>
      rw [hp] at hpush
      cases o with
      | none => exact hpush
      | some entry =>
        exact ⟨hpush.active, hpush.lastReader, hpush.closedReaderTab, hpush.hold, hpush.announce,
          hpush.suppressed⟩

theorem endHold_eq (r : Router) (id : Option ChannelId) :
    ∃ hold, r.endHold id = { r with hold := hold } ∧ (hold = r.hold ∨ hold = none) := by
  unfold endHold
  split
  · exact ⟨none, rfl, .inr rfl⟩
  · exact ⟨r.hold, rfl, .inl rfl⟩

/-- Where a user's move lands. -/
def landing (r : Router) : Op → Option ChannelId
  | .nextChannel => r.nextChannel.2.map Prod.fst
  | .takeFloor id => if (r.takeFloor id).2 then some id else none
  | .replay id => if (r.replay id).2 then some id else none
  | .replayFrom id entry => if (r.replayFrom id entry).2 then some id else none
  | .stepTo id entry => if (r.stepTo id entry).2 then some id else none
  | _ => none

theorem endHold_none (r : Router) : r.endHold none = { r with hold := none } := if_pos (.inl rfl)

theorem isHandoff_congr (hl : r'.lastReader = r.lastReader)
    (ht : r'.closedReaderTab = r.closedReaderTab)
    (hc : (r'.channel a).bind Channel.hostTab = (r.channel a).bind Channel.hostTab) :
    r'.isHandoff a = r.isHandoff a := by
  unfold isHandoff
  rw [hl, ht, hc]

/-- Reading at an entry does nothing, or gives its channel the floor. -/
theorem readAt_floor (r : Router) (id : ChannelId) (entry : Option Nat) (replay : Bool) :
    (r.readAt id entry replay).2 = false ∧ (r.readAt id entry replay).1 = r ∨
      (r.readAt id entry replay).2 = true ∧ GivesFloor r (r.readAt id entry replay).1 id := by
  unfold readAt
  split
  · exact .inl ⟨rfl, rfl⟩
  next c hc =>
    split
    · exact .inl ⟨rfl, rfl⟩
    · split
      · exact .inl ⟨rfl, rfl⟩
      next pos _ =>
        refine .inr ⟨rfl, ?_⟩
        -- Moving the cursor does not change whether `id` is a switch.
        have hchan := channel_update_self
          (f := fun c => { c with cursor := pos, replaying := replay || c.replaying })
          (fun _ => rfl) hc
        have hsame : (r.update id fun c =>
            { c with cursor := pos, replaying := replay || c.replaying }).isHandoff id =
              r.isHandoff id :=
          isHandoff_congr rfl rfl (by rw [hchan, hc]; rfl)
        dsimp only
        rw [hsame]
        unfold startHold
        rw [endHold_none]
        have hsup : ∀ b, b ≠ id → Function.update r.suppressed id none b = r.suppressed b :=
          fun b hb => Function.update_of_ne hb ..
        have hhold : ∀ h m, some (id, r.nextEntry) = some (h, m) → h = id := by
          rintro h m he
          exact (Prod.mk.inj (Option.some.inj he)).1.symm
        split
        next hh =>
          exact ⟨⟨c, hc⟩, ⟨_, hchan⟩, rfl, rfl, rfl, hhold, .inl ⟨replay, true, rfl⟩,
            fun b hb _ => hsup b hb⟩
        next hh =>
          exact ⟨⟨c, hc⟩, ⟨_, hchan⟩, rfl, rfl, rfl, hhold,
            .inr ⟨Bool.eq_false_iff.mpr hh, .inl rfl⟩,
            fun b hb _ => hsup b hb⟩

/-- Taking the floor does nothing, or gives it to the channel. -/
theorem takeFloor_floor (r : Router) (id : ChannelId) :
    (r.takeFloor id).2 = false ∧ (r.takeFloor id).1 = r ∨
      (r.takeFloor id).2 = true ∧ GivesFloor r (r.takeFloor id).1 id := by
  cases hopen : r.isOpen id with
  | false =>
    unfold takeFloor
    rw [hopen]
    exact .inl ⟨rfl, rfl⟩
  | true =>
    obtain ⟨c, hc⟩ := isOpen_iff.mp hopen
    have hsup : ∀ b, b ≠ id → Function.update r.suppressed id none b = r.suppressed b :=
      fun b hb => Function.update_of_ne hb ..
    -- A replay of another channel loses its hold.
    obtain ⟨hold, hq, hhold⟩ : ∃ hold, ((r.setReader id).unsuppress id).endOtherHold id =
        { (r.setReader id).unsuppress id with hold := hold } ∧
        ∀ h m, hold = some (h, m) → h = id := by
      unfold endOtherHold
      split
      · exact ⟨none, endHold_none _, fun h m he => (nomatch he)⟩
      next hne =>
        refine ⟨_, rfl, fun h m he => ?_⟩
        have hh := not_not.mp hne
        rw [show ((r.setReader id).unsuppress id).hold = some (h, m) from he] at hh
        exact Option.some.inj hh
    unfold takeFloor
    rw [if_neg (by simp [hopen])]
    dsimp only
    rw [hq]
    refine .inr ?_
    split
    next hh =>
      exact ⟨rfl, ⟨c, hc⟩, ⟨c, hc⟩, rfl, rfl, rfl, hhold, .inl ⟨false, false, rfl⟩,
        fun b hb _ => hsup b hb⟩
    next hh =>
      have hno : r.isHandoff id = false := Bool.eq_false_iff.mpr hh
      split
      · exact ⟨rfl, ⟨c, hc⟩, ⟨c, hc⟩, rfl, rfl, rfl, hhold, .inr ⟨hno, .inr rfl⟩,
          fun b hb _ => hsup b hb⟩
      · exact ⟨rfl, ⟨c, hc⟩, ⟨c, hc⟩, rfl, rfl, rfl, hhold, .inr ⟨hno, .inl rfl⟩,
          fun b hb _ => hsup b hb⟩

/-! ### `next_channel` -/

theorem isOpen_of_mem (h : a ∈ r.ids) : ∃ c, r.channel a = some c := by
  obtain ⟨c, hc, hid⟩ := List.mem_map.mp h
  exact Option.isSome_iff_exists.mp (List.find?_isSome.mpr ⟨c, hc, by simpa using hid⟩)

theorem mem_orAll {l all : List ChannelId} (h : a ∈ orAll l all) : a ∈ l ∨ a ∈ all := by
  unfold orAll at h
  split at h
  · exact .inr h
  · exact .inl h

theorem ring_subset (r : Router) (h : a ∈ r.ring) : a ∈ r.ids := by
  have haud : a ∈ orAll (r.ids.filter fun id => (r.channel id).any fun c => !c.muted) r.ids := by
    rcases mem_orAll h with h | h
    · exact (List.mem_filter.mp h).1
    · exact h
  rcases mem_orAll haud with h | h
  · exact (List.mem_filter.mp h).1
  · exact h

/-- A member that is found is in the ring. -/
theorem nextMember_mem {all ring : List ChannelId} {i n j : Nat}
    (h : nextMember all ring i n j = some a) : a ∈ ring := by
  induction n generalizing j with
  | zero => cases h
  | succ n ih =>
    unfold nextMember at h
    split at h
    next c _ =>
      split at h
      next hc =>
        obtain rfl := Option.some.inj h
        exact hc
      next => exact ih h
    next => cases h

theorem nextTarget_mem {all ring : List ChannelId} {cur : Option ChannelId}
    (h : nextTarget all ring cur = some a) : a ∈ ring := by
  unfold nextTarget at h
  split at h
  · exact List.mem_of_getElem? h
  · split at h
    · exact List.mem_of_getElem? h
    · split at h
      · rcases Option.or_eq_some_iff.mp h with h | ⟨-, h⟩
        · exact nextMember_mem h
        · exact List.mem_of_getElem? h
      · exact List.mem_of_getElem? h

/-- `suppressOld` and `unsuppress` change suppressions only. -/
theorem suppressOld_eq (r : Router) (t : ChannelId) :
    ∃ s, (r.suppressOld t).unsuppress t = { r with suppressed := s } ∧
      (∀ b, b ≠ t → r.active ≠ some b → s b = r.suppressed b) ∧
      ∀ b c, b ≠ t → r.active = some b → r.channel b = some c → s b = some c.gen := by
  have hno : ∀ b, b ≠ t → Function.update r.suppressed t none b = r.suppressed b :=
    fun b hb => Function.update_of_ne hb ..
  unfold suppressOld unsuppress
  split
  next ha =>
    refine ⟨_, rfl, fun b hb _ => hno b hb, fun b c _ hact => ?_⟩
    rw [ha] at hact
    cases hact
  next old ha =>
    split
    next heq =>
      refine ⟨_, rfl, fun b hb _ => hno b hb, fun b c hb hact => ?_⟩
      rw [ha] at hact
      exact absurd ((Option.some.inj hact).symm.trans heq) hb
    next hne =>
      split
      next c hc =>
        refine ⟨_, rfl, fun b hb hact => ?_, fun b c' hb hact hc' => ?_⟩
        · have hbo : b ≠ old := fun he => hact (by rw [ha, he])
          dsimp only
          rw [Function.update_of_ne hb, Function.update_of_ne hbo]
        · rw [ha] at hact
          obtain rfl := Option.some.inj hact
          obtain rfl := Option.some.inj (hc.symm.trans hc')
          dsimp only
          rw [Function.update_of_ne hb, Function.update_self]
      next hc =>
        refine ⟨_, rfl, fun b hb _ => hno b hb, fun b c' hb hact hc' => ?_⟩
        rw [ha] at hact
        obtain rfl := Option.some.inj hact
        rw [hc] at hc'
        cases hc'

/-- What landing on `t` leaves: the floor is `t`'s and the switch is armed. -/
theorem land_eq (r : Router) (t : ChannelId) (replay : Bool) :
    ∃ chs hold, r.land t replay =
        { (r.setReader t).arm t replay true with channels := chs, hold := hold } ∧
      ∀ h m, hold = some (h, m) → h = t := by
  unfold land
  cases replay with
  | true =>
    refine ⟨(r.update t fun c => { c with cursor := 0, replaying := true }).channels,
      some (t, r.nextEntry), ?_, fun h m he => (Prod.mk.inj (Option.some.inj he)).1.symm⟩
    dsimp only
    rw [if_pos rfl, if_pos rfl, endHold_none]
    rfl
  | false =>
    refine ⟨r.channels, none, ?_, fun h m he => (nomatch he)⟩
    dsimp only
    rw [if_neg Bool.false_ne_true, if_neg Bool.false_ne_true, endHold_none]
    rfl

/-- Going to the next channel does nothing, or gives it the floor and suppresses the old one. -/
theorem nextChannel_floor (r : Router) :
    r.nextChannel.2 = none ∧ r.nextChannel.1 = r ∨
      ∃ t b, r.nextChannel.2 = some (t, b) ∧ GivesFloor r r.nextChannel.1 t ∧
        ∀ a c, a ≠ t → r.active = some a → r.channel a = some c →
          r.nextChannel.1.suppressed a = some c.gen := by
  have hmaps := r.nextChannel_maps
  unfold nextChannel at hmaps ⊢
  dsimp only at hmaps ⊢
  cases ht : nextTarget r.ids r.ring (r.active.or r.lastActive) with
  | none => exact .inl ⟨rfl, rfl⟩
  | some t =>
    rw [ht] at hmaps
    dsimp only at hmaps ⊢
    obtain ⟨c, hc⟩ := isOpen_of_mem (ring_subset r (nextTarget_mem ht))
    obtain ⟨s, hs, hkeep, hold⟩ := r.suppressOld_eq t
    have hc' : ((r.suppressOld t).unsuppress t).channel t = some c := by
      rw [hs]
      exact hc
    rw [hc'] at hmaps ⊢
    dsimp only at hmaps ⊢
    refine .inr ⟨t, _, rfl, ?_, ?_⟩
    · obtain ⟨f, hf, hmap⟩ := hmaps
      have hstays : ∃ c', (((r.suppressOld t).unsuppress t).land t
          (c.caughtUp || (r.active.or r.lastActive) == some t || c.replaying)).channel t =
          some c' := by
        refine isOpen_of_mem ?_
        unfold ids
        rw [hmap, List.map_map]
        exact List.mem_map.mpr ⟨c, mem_of_channel hc, (hf c).id.trans (channel_id hc)⟩
      obtain ⟨chs, hold, hl, hh⟩ := land_eq ((r.suppressOld t).unsuppress t) t
        (c.caughtUp || (r.active.or r.lastActive) == some t || c.replaying)
      rw [hl] at hstays ⊢
      refine ⟨⟨c, hc⟩, hstays, rfl, rfl, rfl, hh, .inl ⟨_, _, rfl⟩, fun b hb hact => ?_⟩
      rw [hs]
      exact hkeep b hb hact
    · intro a c' hat hact hc'
      obtain ⟨chs, hold', hl, -⟩ := land_eq ((r.suppressOld t).unsuppress t) t
        (c.caughtUp || (r.active.or r.lastActive) == some t || c.replaying)
      rw [hl, hs]
      exact hold a c' hat hact hc'

/-- **A user's move that lands on `t` gives it the floor.** -/
theorem givesFloor (h : r.landing op = some t) : GivesFloor r (r.apply op) t := by
  have hread : ∀ id entry replay, (if (r.readAt id entry replay).2 then some id else none) =
    some t →
      GivesFloor r (r.readAt id entry replay).1 t := by
    intro id entry replay hl
    rcases r.readAt_floor id entry replay with ⟨hv, -⟩ | ⟨hv, hg⟩ <;> rw [hv] at hl
    · cases hl
    · obtain rfl := Option.some.inj hl
      exact hg
  cases op with
  | nextChannel =>
    rcases r.nextChannel_floor with ⟨hv, -⟩ | ⟨t', b, hv, hg, -⟩
    · rw [landing, hv] at h
      cases h
    · rw [landing, hv] at h
      obtain rfl := Option.some.inj h
      exact hg
  | takeFloor id =>
    rcases r.takeFloor_floor id with ⟨hv, -⟩ | ⟨hv, hg⟩ <;> rw [landing, hv] at h
    · cases h
    · obtain rfl := Option.some.inj h
      exact hg
  | replay id => exact hread id none true h
  | replayFrom id entry => exact hread id entry true h
  | stepTo id entry => exact hread id (some entry) false h
  | _ => cases h

/-- **Every other operation leaves the floor alone**, but for `next_feed` and a
close. -/
theorem keepsFloor (h : r.landing op = none) (hfeed : op ≠ .nextFeed)
    (hclose : ∀ id, op ≠ .close id) : KeepsFloor r (r.apply op) := by
  -- A read that lands nowhere changes nothing.
  have hread : ∀ id entry replay, (if (r.readAt id entry replay).2 then some id else none) = none →
      KeepsFloor r (r.readAt id entry replay).1 := by
    intro id entry replay hl
    rcases r.readAt_floor id entry replay with ⟨-, hr⟩ | ⟨hv, -⟩
    · rw [hr]
      exact .refl r
    · rw [hv] at hl
      cases hl
  cases op with
  | nextFeed => exact absurd rfl hfeed
  | close id => exact absurd rfl (hclose id)
  | nextChannel =>
    rcases r.nextChannel_floor with ⟨-, hr⟩ | ⟨t', b, hv, -⟩
    · show KeepsFloor r r.nextChannel.1
      rw [hr]
      exact .refl r
    · rw [landing, hv] at h
      cases h
  | takeFloor id =>
    rcases r.takeFloor_floor id with ⟨-, hr⟩ | ⟨hv, -⟩
    · show KeepsFloor r (r.takeFloor id).1
      rw [hr]
      exact .refl r
    · rw [landing, hv] at h
      cases h
  | replay id => exact hread id none true h
  | replayFrom id entry => exact hread id entry true h
  | stepTo id entry => exact hread id (some entry) false h
  | openChannel id label hostTab policy =>
    show KeepsFloor r (r.openChannel id label hostTab policy)
    unfold openChannel
    split <;> exact .of_eq rfl rfl rfl rfl rfl rfl
  | labelIfMissing id label =>
    show KeepsFloor r (r.labelIfMissing id label).1
    unfold labelIfMissing
    split
    · exact .refl r
    · split
      · split
        · exact .of_eq rfl rfl rfl rfl rfl rfl
        · exact .refl r
      · exact .refl r
  | focus id =>
    show KeepsFloor r (r.setFocus id).1
    unfold setFocus
    split
    · exact .refl r
    · dsimp only
      split
      · split <;> exact .of_eq rfl rfl rfl rfl rfl rfl
      · exact .of_eq rfl rfl rfl rfl rfl rfl
  | setMuted id m =>
    cases m with
    | false => exact .of_eq rfl rfl rfl rfl rfl rfl
    | true =>
      obtain ⟨hold, heq, hh⟩ := endHold_eq (r.markMuted id true) (some id)
      show KeepsFloor r ((r.markMuted id true).endHold (some id))
      rw [heq]
      exact ⟨rfl, rfl, rfl, hh, .inl rfl, fun _ => .inl rfl⟩
  | setFocusOnly on => exact .of_eq rfl rfl rfl rfl rfl rfl
  | authorize id =>
    show KeepsFloor r (r.authorize id).1
    unfold authorize
    split
    · exact .refl r
    · exact .of_eq rfl rfl rfl rfl rfl rfl
  | prioritize id =>
    show KeepsFloor r (r.prioritize id).1
    unfold prioritize
    split
    · exact .refl r
    · split
      · exact .refl r
      · exact .of_eq rfl rfl rfl rfl rfl rfl
  | push id text label =>
    show KeepsFloor r (r.push id text label).1
    unfold push
    split
    · exact .refl r
    · exact r.pushWith_keepsFloor ..
  | pushWith id text label replace front => exact r.pushWith_keepsFloor ..
  | append id text decision heard => exact r.append_keepsFloor ..
  | dropDecisions id which => exact .of_eq rfl rfl rfl rfl rfl rfl
  | endBatch id => exact .of_eq rfl rfl rfl rfl rfl rfl
  | setAside id entry aside =>
    show KeepsFloor r (r.setAside id entry aside).1
    unfold setAside
    split
    · exact .refl r
    · split
      · exact .of_eq rfl rfl rfl rfl rfl rfl
      · exact .refl r
  | revise id entry text => exact .of_eq rfl rfl rfl rfl rfl rfl
  | flush id =>
    cases id with
    | some id =>
      obtain ⟨hold, heq, hh⟩ := endHold_eq (r.dropAnnounce id) (some id)
      show KeepsFloor r (r.flush (some id)).1
      unfold flush
      dsimp only
      rw [heq]
      refine ⟨rfl, rfl, rfl, hh, ?_, fun _ => .inl rfl⟩
      show (r.dropAnnounce id).announce = r.announce ∨ (r.dropAnnounce id).announce = none
      unfold dropAnnounce
      dsimp only
      split
      · exact .inr rfl
      · exact .inl rfl
    | none =>
      show KeepsFloor r (r.flush none).1
      unfold flush
      dsimp only
      rw [endHold_none]
      exact ⟨rfl, rfl, rfl, .inr rfl, .inr rfl, fun _ => .inl rfl⟩
  | rewind id entry => exact .of_eq rfl rfl rfl rfl rfl rfl
  | isSuppressed id => exact (r.isSuppressed_spec id).1.picked.keepsFloor
  | pick => exact r.pick_picked.keepsFloor
  | hasWork =>
    show KeepsFloor r r.hasWork.1
    unfold hasWork
    split
    · exact .refl r
    · exact r.pick_picked.keepsFloor
  | clearAnnounce => exact ⟨rfl, rfl, rfl, .inl rfl, .inr rfl, fun _ => .inl rfl⟩
  | done => exact .of_eq rfl rfl rfl rfl rfl rfl

/-! ### Closing -/

/-- What closing `id` leaves of the floor. -/
structure ClosesFloor (r r' : Router) (id : ChannelId) : Prop where
  active : r'.active = if r.active = some id then none else r.active
  lastReader : r'.lastReader = r.lastReader
  hold : ∀ h m, r'.hold = some (h, m) → h ≠ id ∧ r.hold = some (h, m)
  announce : r'.announce = r.announce ∨ r'.announce = none
  /-- The last reader's host tab is kept once it closed. -/
  closedReaderTab : r'.closedReaderTab = r.closedReaderTab ∨ r.lastReader = some id ∧
    ∃ c, r.channel id = some c ∧ r'.closedReaderTab = c.hostTab.filter (· != "")
  suppressed : ∀ a, a ≠ id → r'.suppressed a = r.suppressed a

/-- Closing an open channel takes the floor from it. -/
theorem close_floor (r : Router) (id : ChannelId) :
    r.channel id = none ∧ (r.close id).1 = r ∨
      (∃ c, r.channel id = some c) ∧ ClosesFloor r (r.close id).1 id := by
  unfold close
  split
  next hc => exact .inl ⟨hc, rfl⟩
  next c hc =>
    refine .inr ⟨⟨c, hc⟩, ?_⟩
    dsimp only
    have hsup : ∀ a, a ≠ id → Function.update r.suppressed id none a = r.suppressed a :=
      fun a ha => Function.update_of_ne ha ..
    have hann : ∀ {x : Option Switch}, x =
      (if r.announce.map Switch.channel = some id then none else r.announce) →
        x = r.announce ∨ x = none := by
      intro x hx
      split at hx
      · exact .inr hx
      · exact .inl hx
    unfold endHold
    by_cases hl : r.lastReader = some id <;> by_cases hh : r.hold.map Prod.fst = some id
    · rw [if_pos hl]
      rw [if_pos (.inr hh)]
      exact ⟨rfl, rfl, fun h m he => (nomatch he), hann rfl, .inr ⟨hl, c, hc, rfl⟩, hsup⟩
    · rw [if_pos hl, if_neg (by simpa using hh)]
      refine ⟨rfl, rfl, fun h m he => ⟨fun heq => hh ?_, he⟩, hann rfl, .inr ⟨hl, c, hc, rfl⟩, hsup⟩
      rw [show r.hold = some (h, m) from he, heq]
      rfl
    · rw [if_neg hl, if_pos (.inr hh)]
      exact ⟨rfl, rfl, fun h m he => (nomatch he), hann rfl, .inl rfl, hsup⟩
    · rw [if_neg hl, if_neg (by simpa using hh)]
      refine ⟨rfl, rfl, fun h m he => ⟨fun heq => hh ?_, he⟩, hann rfl, .inl rfl, hsup⟩
      rw [show r.hold = some (h, m) from he, heq]
      rfl

end Router

end Sonara.L2
