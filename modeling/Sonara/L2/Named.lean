import Sonara.L2.Edits

/-!
# The router names only open channels

Nine fields of the router hold channel ids. `Naming` says that every name an operation
leaves was there before or is of a channel it looked up; a close takes its own out of
all nine.
-/

namespace Sonara.L2

open Sonara (Text)

namespace Router

variable {r r' : Router} {a id : ChannelId} {op : Op} {S : ChannelId → Prop}

/-- Every name in `r'` was in the same field of `r`, or is in `S`. -/
structure Naming (S : ChannelId → Prop) (r r' : Router) : Prop where
  active : ∀ a, r'.active = some a → r.active = some a ∨ S a := by exact fun _ h => .inl h
  lastActive : ∀ a, r'.lastActive = some a → r.lastActive = some a ∨ S a := by
    exact fun _ h => .inl h
  focus : ∀ a, r'.focus = some a → r.focus = some a ∨ S a := by exact fun _ h => .inl h
  announce : ∀ a, r'.announce.map Switch.channel = some a →
      r.announce.map Switch.channel = some a ∨ S a := by
    exact fun _ h => .inl h
  reading : ∀ a, r'.reading.map Prod.fst = some a → r.reading.map Prod.fst = some a ∨ S a := by
    exact fun _ h => .inl h
  hold : ∀ a, r'.hold.map Prod.fst = some a → r.hold.map Prod.fst = some a ∨ S a := by
    exact fun _ h => .inl h
  priority : ∀ a, a ∈ r'.priority → a ∈ r.priority ∨ S a := by exact fun _ h => .inl h
  authorized : ∀ a, a ∈ r'.authorized → a ∈ r.authorized ∨ S a := by exact fun _ h => .inl h
  suppressed : ∀ a, (r'.suppressed a).isSome → (r.suppressed a).isSome ∨ S a := by
    exact fun _ h => .inl h

/-- Every name is of an open channel. -/
structure Named (r : Router) : Prop where
  active : ∀ a, r.active = some a → a ∈ r.ids
  lastActive : ∀ a, r.lastActive = some a → a ∈ r.ids
  focus : ∀ a, r.focus = some a → a ∈ r.ids
  announce : ∀ a, r.announce.map Switch.channel = some a → a ∈ r.ids
  reading : ∀ a, r.reading.map Prod.fst = some a → a ∈ r.ids
  hold : ∀ a, r.hold.map Prod.fst = some a → a ∈ r.ids
  priority : ∀ a, a ∈ r.priority → a ∈ r.ids
  authorized : ∀ a, a ∈ r.authorized → a ∈ r.ids
  suppressed : ∀ a, (r.suppressed a).isSome → a ∈ r.ids

/-- Five fields hold no names, and the channels are not read. -/
theorem Naming.rest (S : ChannelId → Prop) (r : Router) (channels : List Channel) (nextEntry : Nat)
    (lastReader : Option ChannelId) (tab : Option String) (muted : Finset ChannelId) (on : Bool) :
    Naming S r { r with
      channels := channels, nextEntry := nextEntry, lastReader := lastReader,
      closedReaderTab := tab, muted := muted, focusOnly := on } where
  active _ h := .inl h
  lastActive _ h := .inl h
  focus _ h := .inl h
  announce _ h := .inl h
  reading _ h := .inl h
  hold _ h := .inl h
  priority _ h := .inl h
  authorized _ h := .inl h
  suppressed _ h := .inl h

theorem Naming.refl (S : ChannelId → Prop) (r : Router) : Naming S r r :=
  .rest S r r.channels r.nextEntry r.lastReader r.closedReaderTab r.muted r.focusOnly

theorem update_naming (r : Router) (id : ChannelId) (f : Channel → Channel) :
    Naming S r (r.update id f) :=
  .rest ..

theorem Naming.trans {r'' : Router} (h : Naming S r r') (h' : Naming S r' r'') :
    Naming S r r'' where
  active a ha := (h'.active a ha).elim (h.active a) .inr
  lastActive a ha := (h'.lastActive a ha).elim (h.lastActive a) .inr
  focus a ha := (h'.focus a ha).elim (h.focus a) .inr
  announce a ha := (h'.announce a ha).elim (h.announce a) .inr
  reading a ha := (h'.reading a ha).elim (h.reading a) .inr
  hold a ha := (h'.hold a ha).elim (h.hold a) .inr
  priority a ha := (h'.priority a ha).elim (h.priority a) .inr
  authorized a ha := (h'.authorized a ha).elim (h.authorized a) .inr
  suppressed a ha := (h'.suppressed a ha).elim (h.suppressed a) .inr

/-- The names of open channels stay names of open channels. -/
theorem Naming.named (h : Naming (· ∈ r.ids) r r') (hids : ∀ a ∈ r.ids, a ∈ r'.ids) (n : Named r) :
    Named r' where
  active a ha := hids a ((h.active a ha).elim (n.active a) fun h => h)
  lastActive a ha := hids a ((h.lastActive a ha).elim (n.lastActive a) fun h => h)
  focus a ha := hids a ((h.focus a ha).elim (n.focus a) fun h => h)
  announce a ha := hids a ((h.announce a ha).elim (n.announce a) fun h => h)
  reading a ha := hids a ((h.reading a ha).elim (n.reading a) fun h => h)
  hold a ha := hids a ((h.hold a ha).elim (n.hold a) fun h => h)
  priority a ha := hids a ((h.priority a ha).elim (n.priority a) fun h => h)
  authorized a ha := hids a ((h.authorized a ha).elim (n.authorized a) fun h => h)
  suppressed a ha := hids a ((h.suppressed a ha).elim (n.suppressed a) fun h => h)

/-! ## The parts of the operations -/

theorem mem_ids_of_channel {c : Channel} (h : r.channel a = some c) : a ∈ r.ids :=
  List.mem_map.mpr ⟨c, mem_of_channel h, channel_id h⟩

theorem mem_ids_iff : a ∈ r.ids ↔ r.isOpen a = true :=
  ⟨fun h => isOpen_iff.mpr (isOpen_of_mem h), fun h => by
    obtain ⟨c, hc⟩ := isOpen_iff.mp h
    exact mem_ids_of_channel hc⟩

theorem mem_ids_of_ready (h : r.ready a = true) : a ∈ r.ids := by
  unfold ready at h
  rw [Option.any_eq_true] at h
  obtain ⟨c, hc, -⟩ := h
  exact mem_ids_of_channel hc

theorem mem_or_of_mem_insert {s : Finset ChannelId} (hid : S id) (h : a ∈ insert id s) :
    a ∈ s ∨ S a := by
  rcases Finset.mem_insert.mp h with rfl | h
  · exact .inr hid
  · exact .inl h

theorem endHold_naming (r : Router) (id : Option ChannelId) : Naming S r (r.endHold id) := by
  unfold endHold
  split
  · exact { Naming.refl S r with hold := fun _ h => (nomatch h) }
  · exact .refl S r

theorem setReader_naming (r : Router) (h : S id) : Naming S r (r.setReader id) :=
  { Naming.refl S r with
    active := fun _ ha => .inr (Option.some.inj ha ▸ h)
    lastActive := fun _ ha => .inr (Option.some.inj ha ▸ h) }

theorem arm_naming (r : Router) (replay manual : Bool) (h : S id) :
    Naming S r (r.arm id replay manual) :=
  { Naming.refl S r with announce := fun _ ha => .inr (Option.some.inj ha ▸ h) }

theorem startHold_naming (r : Router) (h : S id) : Naming S r (r.startHold id) :=
  (endHold_naming r none).trans
    { Naming.refl S _ with hold := fun _ ha => .inr (Option.some.inj ha ▸ h) }

theorem unsuppress_naming (r : Router) (id : ChannelId) : Naming S r (r.unsuppress id) := by
  refine { Naming.refl S r with suppressed := fun a ha => ?_ }
  unfold unsuppress at ha
  dsimp only at ha
  by_cases h : a = id
  · rw [h, Function.update_self] at ha
    cases ha
  · rw [Function.update_of_ne h] at ha
    exact .inl ha

/-- Suppressing the old channel names open channels only. -/
theorem suppressOld_naming (r : Router) (target : ChannelId) :
    Naming (· ∈ r.ids) r (r.suppressOld target) := by
  unfold suppressOld
  split
  · exact .refl _ r
  next old _ =>
    split
    · exact .refl _ r
    · split
      next c hc =>
        refine { Naming.refl _ r with suppressed := fun a ha => ?_ }
        by_cases h : a = old
        · exact .inr (h ▸ mem_ids_of_channel hc)
        · dsimp only at ha
          rw [Function.update_of_ne h] at ha
          exact .inl ha
      · exact .refl _ r

/-- A pick names nothing new. -/
theorem Picked.naming (h : Picked r r') : Naming S r r' where
  active a ha := .inl (h.active ▸ ha)
  lastActive a ha := .inl (h.lastActive ▸ ha)
  focus a ha := .inl (h.focus ▸ ha)
  announce a ha := .inl (h.announce ▸ ha)
  reading a ha := .inl (h.reading ▸ ha)
  hold a ha := by
    rcases h.hold with hh | hh <;> rw [hh] at ha
    · exact .inl ha
    · cases ha
  priority a ha := .inl (h.priority a ha)
  authorized a ha := .inl (h.authorized ha)
  suppressed a ha := by
    rcases h.suppressed a with hs | ⟨hs, -⟩ <;> rw [hs] at ha
    · exact .inl ha
    · cases ha

theorem cleared_naming (r : Router) : Naming S r r.cleared :=
  { Naming.refl S r with
    announce := fun _ ha => (nomatch ha)
    reading := fun _ ha => (nomatch ha) }

/-- A feed names what was named, or open channels. -/
theorem fed_naming {o : Option Feed} (h : Fed r r' o) : Naming (· ∈ r.ids) r r' := by
  have hpick : Naming (· ∈ r.ids) r r.cleared.pick.1 :=
    r.cleared_naming.trans r.cleared.pick_picked.naming
  cases h with
  | armed => exact r.cleared_naming
  | idle unarmed picked =>
    exact hpick.trans { Naming.refl _ _ with active := fun _ ha => (nomatch ha) }
  | handoff unarmed picked isOpen waiting switch =>
    exact (hpick.trans (setReader_naming _ (mem_ids_of_channel isOpen))).trans (cleared_naming _)
  | @entry a c e es auth p unarmed picked isOpen unread reader auth_sub =>
    have hp : Naming (· ∈ r.ids) r p := by
      rcases reader with ⟨-, rfl⟩ | ⟨-, -, rfl⟩
      · exact hpick
      · exact hpick.trans (setReader_naming _ (mem_ids_of_channel isOpen))
    have hrec : Naming (· ∈ r.ids) r
        { p.update a (fun c => c.take.1) with reading := some (a, e.id) } :=
      hp.trans { Naming.refl _ _ with
        reading := fun _ ha => .inr (Option.some.inj ha ▸ mem_ids_of_channel isOpen) }
    exact { hrec with authorized := fun b hb => .inl (auth_sub hb) }

/-- Reading at an entry names open channels only. -/
theorem readAt_naming (r : Router) (id : ChannelId) (entry : Option Nat) (replay : Bool) :
    Naming (· ∈ r.ids) r (r.readAt id entry replay).1 := by
  unfold readAt
  split
  · exact .refl _ r
  next c hc =>
    split
    · exact .refl _ r
    · split
      · exact .refl _ r
      next pos _ =>
        have hid : id ∈ r.ids := mem_ids_of_channel hc
        have hread : ∀ f : Channel → Channel, Naming (· ∈ r.ids) r
            ({ ((r.update id f).setReader id).unsuppress id with
                authorized := insert id r.authorized }.startHold id) := by
          intro f
          have hset : Naming (· ∈ r.ids) r (((r.update id f).setReader id).unsuppress id) :=
            ((update_naming r id f).trans (setReader_naming _ hid)).trans
              (unsuppress_naming _ id)
          have hauth : Naming (· ∈ r.ids) r
              { ((r.update id f).setReader id).unsuppress id with
                authorized := insert id r.authorized } :=
            { hset with authorized := fun b hb => mem_or_of_mem_insert hid hb }
          exact hauth.trans (startHold_naming _ hid)
        dsimp only
        split
        · exact (hread _).trans (arm_naming _ _ _ hid)
        · exact hread _

/-- Going to the next channel names open channels only. -/
theorem nextChannel_naming (r : Router) : Naming (· ∈ r.ids) r r.nextChannel.1 := by
  unfold nextChannel
  dsimp only
  split
  · exact .refl _ r
  next target ht =>
    have hid : target ∈ r.ids := ring_subset r (nextTarget_mem ht)
    have hsup : Naming (· ∈ r.ids) r ((r.suppressOld target).unsuppress target) :=
      (r.suppressOld_naming target).trans (unsuppress_naming _ target)
    split
    · exact hsup
    · dsimp only
      unfold land
      dsimp only
      split
      · exact ((((hsup.trans (update_naming _ target _)).trans (setReader_naming _ hid)).trans
          (arm_naming _ _ _ hid)).trans (endHold_naming _ none)).trans (startHold_naming _ hid)
      · exact ((hsup.trans (setReader_naming _ hid)).trans
          (arm_naming _ _ _ hid)).trans (endHold_naming _ none)

/-- Taking the floor names open channels only. -/
theorem takeFloor_naming (r : Router) (id : ChannelId) :
    Naming (· ∈ r.ids) r (r.takeFloor id).1 := by
  unfold takeFloor
  split
  · exact .refl _ r
  next hopen =>
    have hid : id ∈ r.ids := mem_ids_iff.mpr (by simpa using hopen)
    have hset : Naming (· ∈ r.ids) r (((r.setReader id).unsuppress id).endOtherHold id) := by
      refine ((setReader_naming r hid).trans (unsuppress_naming _ id)).trans ?_
      unfold endOtherHold
      split
      · exact endHold_naming _ none
      · exact .refl _ _
    dsimp only
    split
    · exact hset.trans (arm_naming _ _ _ hid)
    · split
      · exact hset.trans { Naming.refl _ _ with announce := fun _ h => (nomatch h) }
      · exact hset

/-! ## The operations -/

/-- An operation other than a close names only what was named, or an open channel. -/
theorem apply_naming (hop : ∀ id, op ≠ .close id) : Naming (· ∈ r.ids) r (r.apply op) := by
  cases op with
  | close id => exact absurd rfl (hop id)
  | openChannel id label hostTab policy =>
    show Naming _ r (r.openChannel id label hostTab policy)
    unfold openChannel
    split <;> exact .rest ..
  | labelIfMissing id label =>
    show Naming _ r (r.labelIfMissing id label).1
    unfold labelIfMissing
    split
    · exact .rest ..
    · split
      · split <;> exact .rest ..
      · exact .rest ..
  | focus id =>
    show Naming _ r (r.setFocus id).1
    unfold setFocus
    split
    · exact .rest ..
    next hopen =>
      have hid : id ∈ r.ids := mem_ids_iff.mpr (by simpa using hopen)
      have hfocus : ∀ a, some id = some a → r.focus = some a ∨ a ∈ r.ids := fun _ ha =>
        .inr (Option.some.inj ha ▸ hid)
      dsimp only
      split
      next old hold =>
        split
        next hready =>
          exact { Naming.refl _ r with
                  focus := hfocus
                  authorized := fun a ha => mem_or_of_mem_insert (mem_ids_of_ready hready.2) ha }
        · exact { Naming.refl _ r with focus := hfocus }
      · exact { Naming.refl _ r with focus := hfocus }
  | setMuted id m =>
    show Naming _ r (r.setMuted id m)
    unfold setMuted
    dsimp only
    split
    · exact Naming.trans (.rest ..) (endHold_naming _ _)
    · exact .rest ..
  | setFocusOnly on => exact .rest ..
  | authorize id =>
    show Naming _ r (r.authorize id).1
    unfold authorize
    split
    · exact .rest ..
    next hopen =>
      have hid : id ∈ r.ids := mem_ids_iff.mpr (by simpa using hopen)
      exact { Naming.refl _ r with authorized := fun a ha => mem_or_of_mem_insert hid ha }
  | prioritize id =>
    show Naming _ r (r.prioritize id).1
    unfold prioritize
    split
    · exact .rest ..
    next hopen =>
      have hid : id ∈ r.ids := mem_ids_iff.mpr (by simpa using hopen)
      split
      · exact .rest ..
      · refine { Naming.refl _ r with priority := fun a ha => ?_ }
        rcases List.mem_append.mp ha with ha | ha
        · exact .inl ha
        · exact .inr (List.mem_singleton.mp ha ▸ hid)
  | push id text label =>
    show Naming _ r (r.push id text label).1
    unfold push pushWith
    split
    · exact .rest ..
    · dsimp only
      split <;> exact .rest ..
  | pushWith id text label replace front =>
    show Naming _ r (r.pushWith id text label replace front).1
    unfold pushWith
    dsimp only
    split <;> exact .rest ..
  | append id text decision heard =>
    show Naming _ r (r.append id text decision heard).1
    unfold append pushWith
    split
    · exact .rest ..
    · dsimp only
      split
      next hp => split at hp <;> cases hp; exact .rest ..
      next hp => split at hp <;> cases hp; exact .rest ..
  | dropDecisions id which => exact .rest ..
  | endBatch id => exact .rest ..
  | setAside id entry aside =>
    show Naming _ r (r.setAside id entry aside).1
    unfold setAside
    split
    · exact .rest ..
    · split <;> exact .rest ..
  | revise id entry text => exact .rest ..
  | flush id =>
    cases id with
    | some id =>
      have hann : Naming (· ∈ r.ids) r (r.dropAnnounce id) := by
        refine { Naming.refl _ _ with announce := fun a ha => ?_ }
        unfold dropAnnounce at ha
        dsimp only at ha
        split at ha
        · cases ha
        · exact .inl ha
      exact (hann.trans (endHold_naming _ (some id))).trans (.rest ..)
    | none =>
      have hann : Naming (· ∈ r.ids) r { r with announce := none } :=
        { Naming.refl _ _ with announce := fun _ h => (nomatch h) }
      exact (hann.trans (endHold_naming _ none)).trans (.rest ..)
  | rewind id entry => exact .rest ..
  | isSuppressed id => exact (r.isSuppressed_spec id).1.picked.naming
  | pick => exact r.pick_picked.naming
  | hasWork =>
    show Naming _ r r.hasWork.1
    unfold hasWork
    split
    · exact .rest ..
    · exact r.pick_picked.naming
  | clearAnnounce => exact { Naming.refl _ _ with announce := fun _ h => (nomatch h) }
  | done => exact { Naming.refl _ _ with reading := fun _ h => (nomatch h) }
  | nextFeed => exact fed_naming r.nextFeed_fed
  | nextChannel => exact r.nextChannel_naming
  | takeFloor id => exact r.takeFloor_naming id
  | replay id => exact r.readAt_naming id none true
  | replayFrom id entry => exact r.readAt_naming id entry true
  | stepTo id entry => exact r.readAt_naming id (some entry) false

end Router

end Sonara.L2
