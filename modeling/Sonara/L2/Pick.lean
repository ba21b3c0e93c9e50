import Sonara.L2.Router

/-!
# What the auto pick and `next_feed` do

`pick` threads the router through its search because `is_suppressed` lifts a stale
suppression on the way. `choose` is the same search without that bookkeeping, and
`pick_cases` says that `pick` is a held replay or else `choose`. `nextFeed_cases`
is the inversion of `next_feed` every invariant of a run is derived from.
-/

namespace Sonara.L2

open Sonara (Text)

namespace Router

variable {r r' : Router} {a id : ChannelId} {c : Channel}

/-! ## Looking a channel up -/

theorem channel_id (h : r.channel a = some c) : c.id = a := by
  have := List.find?_some h
  simpa using this

theorem mem_of_channel (h : r.channel a = some c) : c ∈ r.channels := List.mem_of_find?_eq_some h

theorem channel_update {f : Channel → Channel} (hf : ∀ c, (f c).id = c.id) (r : Router)
    (id a : ChannelId) :
    (r.update id f).channel a = (r.channel a).map fun c => if c.id = id then f c else c := by
  unfold channel update
  rw [List.find?_map]
  congr 1
  congr 1
  funext c
  show ((if c.id = id then f c else c).id == a) = (c.id == a)
  split
  · rw [hf]
  · rfl

theorem channel_update_self {f : Channel → Channel} (hf : ∀ c, (f c).id = c.id)
    (h : r.channel id = some c) : (r.update id f).channel id = some (f c) := by
  rw [channel_update hf, h]
  show some (if c.id = id then f c else c) = some (f c)
  rw [if_pos (channel_id h)]

theorem channel_update_ne {f : Channel → Channel} (hf : ∀ c, (f c).id = c.id) (h : a ≠ id) :
    (r.update id f).channel a = r.channel a := by
  rw [channel_update hf]
  cases hc : r.channel a with
  | none => rfl
  | some c =>
    show some (if c.id = id then f c else c) = some c
    rw [if_neg (by rw [channel_id hc]; exact h)]

theorem isOpen_iff : r.isOpen a = true ↔ ∃ c, r.channel a = some c := Option.isSome_iff_exists

theorem audible_iff :
    r.audible a = true ↔ ∃ c, r.channel a = some c ∧ 0 < c.pending ∧ c.muted = false := by
  unfold audible
  rw [Option.any_eq_true]
  constructor
  · rintro ⟨c, hc, h⟩
    exact ⟨c, hc, by simpa using h⟩
  · rintro ⟨c, hc, h1, h2⟩
    exact ⟨c, hc, by simp [h1, h2]⟩

/-! ## Suppression -/

/-- `id` was switched away from and has not changed since. -/
def suppresses (r : Router) (id : ChannelId) : Bool :=
  match r.suppressed id with
  | none => false
  | some gen => (r.channel id).any fun c => c.gen == gen

/-- Some stale suppressions were lifted, and nothing else changed. -/
def Lifted (r r' : Router) : Prop :=
  ∃ s, r' = { r with suppressed := s } ∧
    ∀ a, s a = r.suppressed a ∨ s a = none ∧ r.suppresses a = false

theorem Lifted.refl (r : Router) : Lifted r r := ⟨r.suppressed, rfl, fun _ => .inl rfl⟩

theorem Lifted.suppresses (h : Lifted r r') (a : ChannelId) : r'.suppresses a = r.suppresses a := by
  obtain ⟨s, rfl, hs⟩ := h
  rcases hs a with ha | ⟨ha, hno⟩
  · unfold Router.suppresses
    dsimp only
    rw [ha]
    rfl
  · rw [hno]
    unfold Router.suppresses
    dsimp only
    rw [ha]

theorem Lifted.trans {r'' : Router} (h : Lifted r r') (h' : Lifted r' r'') : Lifted r r'' := by
  have hsup := h.suppresses
  obtain ⟨s, rfl, hs⟩ := h
  obtain ⟨s', rfl, hs'⟩ := h'
  refine ⟨s', rfl, fun a => ?_⟩
  rcases hs' a with ha | ⟨ha, hno⟩
  · rw [ha]
    exact hs a
  · exact .inr ⟨ha, by rw [← hsup]; exact hno⟩

/-- Asking whether a channel is suppressed lifts a suppression that is over. -/
theorem isSuppressed_spec (r : Router) (id : ChannelId) :
    Lifted r (r.isSuppressed id).1 ∧ (r.isSuppressed id).2 = r.suppresses id := by
  have hlift : r.suppresses id = false →
      Lifted r { r with suppressed := Function.update r.suppressed id none } := by
    intro hno
    refine ⟨_, rfl, fun a => ?_⟩
    by_cases ha : a = id
    · rw [ha]
      exact .inr ⟨Function.update_self .., hno⟩
    · exact .inl (Function.update_of_ne ha ..)
  unfold isSuppressed
  split
  next hs =>
    refine ⟨.refl r, ?_⟩
    unfold suppresses
    rw [hs]
  next gen hs =>
    have hval : r.suppresses id = (r.channel id).any fun c => c.gen == gen := by
      unfold suppresses
      rw [hs]
    split
    next c hc =>
      rw [hc] at hval
      split
      next hg => exact ⟨.refl r, by rw [hval]; simp [hg]⟩
      next hg =>
        have hno : r.suppresses id = false := by rw [hval]; simpa using hg
        exact ⟨hlift hno, hno.symm⟩
    next hc =>
      have hno : r.suppresses id = false := by rw [hval, hc]; rfl
      exact ⟨hlift hno, hno.symm⟩

/-! ## The search -/

/-- The auto pick may choose `id`, other than the channel reading now. -/
def mayPick (r : Router) (id : ChannelId) : Bool :=
  r.audible id && !r.suppresses id && !r.gated id

/-- The choice among the channels that do not read: prioritized, focused, in
opening order. -/
def chooseWaiting (r : Router) : Option ChannelId :=
  (r.priority.find? r.mayPick).or
    ((r.focus.filter fun f => r.audible f && !r.suppresses f).or (r.ids.find? r.mayPick))

/-- The channel the auto rules choose when no replay is held. -/
def choose (r : Router) : Option ChannelId :=
  match r.active with
  | some a => if r.audible a then some a else r.chooseWaiting
  | none => r.chooseWaiting

theorem Lifted.mayPick (h : Lifted r r') : r'.mayPick = r.mayPick := by
  funext id
  have hsup := h.suppresses id
  obtain ⟨s, rfl, -⟩ := h
  unfold Router.mayPick
  rw [hsup]
  rfl

/-- `pickable` answers as `mayPick`, lifting what is over. -/
theorem pickable_spec (r : Router) (id : ChannelId) :
    Lifted r (r.pickable id).1 ∧ (r.pickable id).2 = r.mayPick id := by
  obtain ⟨hl, hv⟩ := r.isSuppressed_spec id
  unfold pickable Router.mayPick
  split
  next ha =>
    rw [ha, ← hv]
    cases hs : r.isSuppressed id with
    | mk r₁ b =>
      rw [hs] at hl
      cases b with
      | true => exact ⟨hl, rfl⟩
      | false =>
        obtain ⟨s, rfl, hcases⟩ := hl
        exact ⟨⟨s, rfl, hcases⟩, by rfl⟩
  next ha =>
    have hno : r.audible id = false := by simpa using ha
    exact ⟨.refl r, by rw [hno]; rfl⟩

/-- The first channel that may be picked. -/
theorem findPickable_spec (l : List ChannelId) (r : Router) :
    Lifted r (r.findPickable l).1 ∧ (r.findPickable l).2 = l.find? r.mayPick := by
  induction l generalizing r with
  | nil => exact ⟨.refl r, rfl⟩
  | cons id l ih =>
    obtain ⟨hl, hv⟩ := r.pickable_spec id
    unfold findPickable
    rw [List.find?_cons, ← hv]
    cases hp : r.pickable id with
    | mk r₁ b =>
      rw [hp] at hl
      cases b with
      | true => exact ⟨hl, rfl⟩
      | false =>
        obtain ⟨hl', hv'⟩ := ih r₁
        exact ⟨hl.trans hl', by rw [hl.mayPick] at hv'; exact hv'⟩

/-- In focus mode: the focused channel, or else the first that may be picked. -/
theorem pickFocus_spec (r : Router) :
    Lifted r r.pickFocus.1 ∧ r.pickFocus.2 =
      (r.focus.filter fun f => r.audible f && !r.suppresses f).or (r.ids.find? r.mayPick) := by
  have hring := findPickable_spec r.ids r
  unfold pickFocus pickRing
  split
  next hf =>
    rw [hf]
    exact hring
  next f hf =>
    rw [hf]
    split
    next ha =>
      obtain ⟨hl, hv⟩ := r.isSuppressed_spec f
      cases hs : r.isSuppressed f with
      | mk r₁ b =>
        rw [hs] at hl hv
        cases b with
        | true =>
          obtain ⟨hl', hv'⟩ := findPickable_spec r₁.ids r₁
          refine ⟨hl.trans hl', ?_⟩
          have hids : r₁.ids = r.ids := by
            obtain ⟨s, rfl, -⟩ := hl
            rfl
          rw [hl.mayPick, hids] at hv'
          have hsup : r.suppresses f = true := hv.symm
          have hno : (some f).filter (fun f => r.audible f && !r.suppresses f) = none := by
            simp [hsup]
          rw [hno]
          show (r₁.findPickable r₁.ids).2 = _
          rw [hids, hv']
          rfl
        | false =>
          refine ⟨hl, ?_⟩
          have hsup : r.suppresses f = false := hv.symm
          have hyes : (some f).filter (fun f => r.audible f && !r.suppresses f) = some f := by
            simp [ha, hsup]
          rw [hyes]
          rfl
    next ha =>
      have hno : (some f).filter (fun f => r.audible f && !r.suppresses f) = none := by
        simp [ha]
      rw [hno]
      exact hring

/-- By priority: the waiting channel that is chosen. -/
theorem pickPriority_spec (r : Router) :
    Lifted r r.pickPriority.1 ∧ r.pickPriority.2 = r.chooseWaiting := by
  obtain ⟨hl, hv⟩ := findPickable_spec r.priority r
  unfold pickPriority chooseWaiting
  rw [← hv]
  cases hf : r.findPickable r.priority with
  | mk r₁ o =>
    rw [hf] at hl
    cases o with
    | some p => exact ⟨hl, rfl⟩
    | none =>
      obtain ⟨hl', hv'⟩ := r₁.pickFocus_spec
      refine ⟨hl.trans hl', ?_⟩
      show r₁.pickFocus.2 = _
      rw [hv', hl.mayPick]
      have hsup : r₁.suppresses = r.suppresses := funext hl.suppresses
      obtain ⟨s, rfl, -⟩ := hl
      rw [hsup]
      rfl

theorem pickActive_spec (r : Router) : Lifted r r.pickActive.1 ∧ r.pickActive.2 = r.choose := by
  have hw := r.pickPriority_spec
  unfold pickActive choose
  cases r.active with
  | none => exact hw
  | some a =>
    dsimp only
    split
    · exact ⟨.refl r, rfl⟩
    · exact hw

/-- `pick` returns a held replay's channel, or else what the rules choose. -/
theorem pick_cases (r : Router) :
    (∃ h m, r.hold = some (h, m) ∧ r.holds h m = true ∧ r.pick = (r.prune, some h)) ∨
      ((∀ h m, r.hold = some (h, m) → r.holds h m = false) ∧
        ∃ r', Lifted { r.prune with hold := none } r' ∧ r.pick = (r', r.prune.choose)) := by
  unfold pick
  dsimp only
  split
  next h m hh =>
    have hold : r.hold = some (h, m) := hh
    split
    next hyes => exact .inl ⟨h, m, hold, hyes, rfl⟩
    next hno =>
      refine .inr ⟨fun h' m' heq => ?_, _, (pickActive_spec _).1,
        Prod.ext rfl (pickActive_spec _).2⟩
      obtain ⟨rfl, rfl⟩ := Prod.mk.inj (Option.some.inj (hold.symm.trans heq))
      exact Bool.eq_false_iff.mpr hno
  next hh =>
    have hold : r.hold = none := hh
    have hsame : ({ r.prune with hold := none } : Router) = r.prune := by
      unfold prune
      rw [← hold]
    refine .inr ⟨fun h' m' heq => ?_, _, ?_, Prod.ext rfl (pickActive_spec _).2⟩
    · rw [hold] at heq
      cases heq
    · rw [hsame]
      exact (pickActive_spec _).1

/-! ## What is chosen -/

/-- A channel the rules choose is audible, and unless it reads it passes the
suppression and, unless it is focused, the focus-only gate. -/
theorem choose_spec (h : r.choose = some a) :
    r.audible a = true ∧ (r.active = some a ∨
      r.suppresses a = false ∧ (r.focus = some a ∨ r.gated a = false)) := by
  have hmay : ∀ {id}, r.mayPick id = true →
      r.audible id = true ∧ r.suppresses id = false ∧ r.gated id = false := by
    intro id hm
    unfold mayPick at hm
    simpa [and_assoc] using hm
  have hwait : r.chooseWaiting = some a →
      r.audible a = true ∧ r.suppresses a = false ∧ (r.focus = some a ∨ r.gated a = false) := by
    intro hw
    unfold chooseWaiting at hw
    rcases Option.or_eq_some_iff.mp hw with hw | ⟨-, hw⟩
    · obtain ⟨h1, h2, h3⟩ := hmay (List.find?_some hw)
      exact ⟨h1, h2, .inr h3⟩
    · rcases Option.or_eq_some_iff.mp hw with hw | ⟨-, hw⟩
      · obtain ⟨hf, hp⟩ := Option.filter_eq_some_iff.mp hw
        have hp' : r.audible a = true ∧ r.suppresses a = false := by simpa using hp
        exact ⟨hp'.1, hp'.2, .inl hf⟩
      · obtain ⟨h1, h2, h3⟩ := hmay (List.find?_some hw)
        exact ⟨h1, h2, .inr h3⟩
  unfold choose at h
  split at h
  next b hb =>
    split at h
    next haud =>
      obtain rfl := Option.some.inj h
      exact ⟨haud, .inl hb⟩
    next => exact ⟨(hwait h).1, .inr (hwait h).2⟩
  next => exact ⟨(hwait h).1, .inr (hwait h).2⟩

/-- What `pick` leaves behind: pruned lists, lifted suppressions, perhaps no hold. -/
structure Picked (r r' : Router) : Prop where
  channels : r'.channels = r.channels
  nextEntry : r'.nextEntry = r.nextEntry
  active : r'.active = r.active
  lastActive : r'.lastActive = r.lastActive
  lastReader : r'.lastReader = r.lastReader
  closedReaderTab : r'.closedReaderTab = r.closedReaderTab
  focus : r'.focus = r.focus
  announce : r'.announce = r.announce
  reading : r'.reading = r.reading
  hold : r'.hold = r.hold ∨ r'.hold = none
  muted : r'.muted = r.muted
  focusOnly : r'.focusOnly = r.focusOnly
  authorized : r'.authorized ⊆ r.authorized
  priority : ∀ p ∈ r'.priority, p ∈ r.priority
  suppressed : ∀ a, r'.suppressed a = r.suppressed a ∨
    r'.suppressed a = none ∧ r.suppresses a = false

theorem Lifted.picked (h : Lifted r r') : Picked r r' := by
  obtain ⟨s, rfl, hs⟩ := h
  exact ⟨rfl, rfl, rfl, rfl, rfl, rfl, rfl, rfl, rfl, .inl rfl, rfl, rfl, Finset.Subset.refl _,
    fun _ hp => hp, hs⟩

theorem pick_picked (r : Router) : Picked r r.pick.1 := by
  rcases r.pick_cases with ⟨h, m, -, -, hp⟩ | ⟨-, r', hl, hp⟩ <;> rw [hp]
  · exact ⟨rfl, rfl, rfl, rfl, rfl, rfl, rfl, rfl, rfl, .inl rfl, rfl, rfl,
      Finset.filter_subset _ _, fun _ hp => (List.mem_filter.mp hp).1, fun _ => .inl rfl⟩
  · obtain ⟨s, rfl, hs⟩ := hl
    exact ⟨rfl, rfl, rfl, rfl, rfl, rfl, rfl, rfl, rfl, .inr rfl, rfl, rfl,
      Finset.filter_subset _ _, fun _ hp => (List.mem_filter.mp hp).1, hs⟩

/-- The picked channel is audible; it holds the floor by a replay, or it reads, or
it is neither suppressed nor, unless focused, gated. -/
theorem pick_spec (h : r.pick.2 = some a) :
    r.audible a = true ∧ (r.hold.map Prod.fst = some a ∨ r.active = some a ∨
      r.suppresses a = false ∧ (r.focus = some a ∨ r.prune.gated a = false)) := by
  rcases r.pick_cases with ⟨b, m, hold, hyes, hp⟩ | ⟨-, r', hl, hp⟩
  · rw [hp] at h
    obtain rfl := Option.some.inj h
    refine ⟨?_, .inl (by rw [hold]; rfl)⟩
    unfold holds at hyes
    exact (Bool.and_eq_true_iff.mp hyes).1
  · rw [hp] at h
    obtain ⟨haud, hcase⟩ := choose_spec (r := r.prune) h
    exact ⟨haud, .inr hcase⟩

/-- With nothing picked no replay is held any more. -/
theorem pick_none (h : r.pick.2 = none) : r.pick.1.hold = none := by
  rcases r.pick_cases with ⟨b, m, -, -, hp⟩ | ⟨-, r', ⟨s, rfl, -⟩, hp⟩ <;> rw [hp] at h ⊢
  cases h

/-- A picked channel other than the held one leaves no hold. -/
theorem pick_hold (h : r.pick.2 = some a) : r.pick.1.hold = none ∨
    ∃ m, r.hold = some (a, m) ∧ r.pick.1.hold = some (a, m) := by
  rcases r.pick_cases with ⟨b, m, hold, -, hp⟩ | ⟨-, r', ⟨s, rfl, -⟩, hp⟩ <;> rw [hp] at h ⊢
  · obtain rfl := Option.some.inj h
    exact .inr ⟨m, hold, hold⟩
  · exact .inl rfl

/-! ## `next_feed` -/

theorem picked_audible (h : Picked r r') (a : ChannelId) : r'.audible a = r.audible a := by
  unfold audible channel
  rw [h.channels]

/-- Feeding an audible channel takes its first unread entry. -/
theorem feedEntry_spec (h : r.audible a = true) :
    ∃ c e es auth, r.channel a = some c ∧ c.unread = e :: es ∧ auth ⊆ r.authorized ∧
      r.feedEntry a = ({ r.update a fun c => c.take.1 with
        authorized := auth, reading := some (a, e.id) }, some (.entry a e)) := by
  obtain ⟨c, hc, hpend, -⟩ := audible_iff.mp h
  obtain ⟨e, es, hun⟩ := Channel.unread_of_pending hpend
  unfold feedEntry
  rw [hc]
  dsimp only
  rw [Channel.take_unread hun]
  dsimp only
  split
  · exact ⟨c, e, es, r.authorized.erase a, rfl, hun, Finset.erase_subset _ _, rfl⟩
  · exact ⟨c, e, es, r.authorized, rfl, hun, Finset.Subset.refl _, rfl⟩

/-- The router as `next_feed` starts its pick: nothing read, nothing armed. -/
def cleared (r : Router) : Router := { r with reading := none, announce := none }

/-- What `next_feed` returns when it announces. -/
def announcement (sw : Switch) (c : Channel) : Feed :=
  .announce sw.channel (c.label.filter (· != "")) sw.replay sw.manual

theorem nextFeedWith_armed (again : Router → Router × Option Feed) {sw : Switch}
    (hs : r.announce = some sw) (hc : r.channel sw.channel = some c) :
    r.nextFeedWith again = (r.cleared, some (announcement sw c)) := by
  have harmed : r.armedFeed = some (announcement sw c) := by
    unfold armedFeed
    rw [hs, Option.bind_some, hc]
    rfl
  unfold nextFeedWith
  rw [harmed]
  rfl

/-- Without one, the channel picked is fed. -/
theorem nextFeedWith_unarmed (again : Router → Router × Option Feed)
    (h : ∀ sw, r.announce = some sw → r.channel sw.channel = none) :
    r.nextFeedWith again =
      match r.cleared.pick with
      | (p, none) => ({ p with active := none }, none)
      | (p, some target) => p.feedPicked again target := by
  have hunarmed : r.armedFeed = none := by
    unfold armedFeed
    cases hs : r.announce with
    | none => rfl
    | some sw => rw [Option.bind_some, h sw hs]; rfl
  unfold nextFeedWith
  rw [hunarmed]
  rfl

/-- The recursive call of `next_feed` feeds the announcement just armed. -/
theorem feedPicked_handoff (again : Router → Router × Option Feed) (p : Router)
    (hc : p.channel a = some c) (hne : p.active ≠ some a) (hh : p.isHandoff a = true) :
    p.feedPicked (nextFeedWith again) a =
      ((p.setReader a).cleared, some (announcement ⟨a, false, false⟩ c)) := by
  unfold feedPicked
  rw [if_pos hne]
  dsimp only
  rw [if_pos hh]
  exact nextFeedWith_armed again (r := (p.setReader a).arm a false false) rfl hc

/-- What one `next_feed` does. -/
inductive Fed (r : Router) : Router → Option Feed → Prop
  /-- The armed announcement. -/
  | armed {sw : Switch} {c : Channel} (armed : r.announce = some sw)
      (isOpen : r.channel sw.channel = some c) : Fed r r.cleared (some (announcement sw c))
  /-- Nothing to read: no channel reads. -/
  | idle (unarmed : ∀ sw, r.announce = some sw → r.channel sw.channel = none)
      (picked : r.cleared.pick.2 = none) :
      Fed r { r.cleared.pick.1 with active := none } none
  /-- The picked channel takes the floor from another one, which is announced. -/
  | handoff {a : ChannelId} {c : Channel}
      (unarmed : ∀ sw, r.announce = some sw → r.channel sw.channel = none)
      (picked : r.cleared.pick.2 = some a) (isOpen : r.channel a = some c)
      (waiting : r.active ≠ some a) (switch : r.isHandoff a = true) :
      Fed r (r.cleared.pick.1.setReader a).cleared (some (announcement ⟨a, false, false⟩ c))
  /-- The first unread entry of the picked channel. -/
  | entry {a : ChannelId} {c : Channel} {e : Entry} {es : List Entry} {auth : Finset ChannelId}
      {p : Router} (unarmed : ∀ sw, r.announce = some sw → r.channel sw.channel = none)
      (picked : r.cleared.pick.2 = some a) (isOpen : r.channel a = some c)
      (unread : c.unread = e :: es)
      (reader : r.active = some a ∧ p = r.cleared.pick.1 ∨
        r.active ≠ some a ∧ r.isHandoff a = false ∧ p = r.cleared.pick.1.setReader a)
      (auth_sub : auth ⊆ r.authorized) :
      Fed r { p.update a fun c => c.take.1 with authorized := auth, reading := some (a, e.id) }
        (some (.entry a e))

/-- A feed is one of the kinds of `Fed`. -/
theorem nextFeed_fed (r : Router) : Fed r r.nextFeed.1 r.nextFeed.2 := by
  unfold nextFeed
  by_cases harm : ∃ sw c, r.announce = some sw ∧ r.channel sw.channel = some c
  · obtain ⟨sw, c, hs, hc⟩ := harm
    rw [nextFeedWith_armed _ hs hc]
    exact .armed hs hc
  · have hun : ∀ sw, r.announce = some sw → r.channel sw.channel = none := by
      intro sw hs
      cases hc : r.channel sw.channel with
      | none => rfl
      | some c => exact absurd ⟨sw, c, hs, hc⟩ harm
    rw [nextFeedWith_unarmed _ hun]
    -- No announcement is armed: the picker decides.
    have hpk := r.cleared.pick_picked
    have haud := fun a => pick_spec (r := r.cleared) (a := a)
    cases hp : r.cleared.pick with
    | mk p o =>
      rw [hp] at hpk
      cases o with
      | none =>
        have hfed : Fed r { r.cleared.pick.1 with active := none } none :=
          .idle hun (by rw [hp])
        rw [hp] at hfed
        exact hfed
      | some a =>
        have hpicked : r.cleared.pick.2 = some a := by rw [hp]
        have hp1 : p = r.cleared.pick.1 := by rw [hp]
        have ha := (haud a hpicked).1
        obtain ⟨c, hc, -⟩ := audible_iff.mp ha
        have hchan : ∀ b, p.channel b = r.channel b := fun b => by
          unfold channel
          rw [hpk.channels]
          rfl
        have hact : p.active = r.active := hpk.active
        have hhand : p.isHandoff a = r.isHandoff a := by
          unfold isHandoff
          rw [hchan, hpk.lastReader, hpk.closedReaderTab]
          rfl
        have hsub : p.authorized ⊆ r.authorized := hpk.authorized
        dsimp only
        by_cases hreads : p.active = some a
        · have hfeed : p.feedPicked (nextFeedWith fun r => (r, none)) a = p.feedEntry a := by
            unfold feedPicked
            rw [if_neg (not_not.mpr hreads)]
          obtain ⟨c', e, es, auth, hc', hun', hauth, heq⟩ :=
            feedEntry_spec (r := p) (a := a) (by rw [picked_audible hpk]; exact ha)
          rw [hfeed, heq]
          exact .entry hun hpicked ((hchan a).symm.trans hc') hun' (.inl ⟨hact ▸ hreads, hp1⟩)
            (hauth.trans hsub)
        · by_cases hh : p.isHandoff a = true
          · rw [feedPicked_handoff _ p ((hchan a).trans hc) hreads hh, hp1]
            exact .handoff hun hpicked hc (hact ▸ hreads) (hhand ▸ hh)
          · have hno : p.isHandoff a = false := by simpa using hh
            have hfeed : p.feedPicked (nextFeedWith fun r => (r, none)) a
                = (p.setReader a).feedEntry a := by
              unfold feedPicked
              rw [if_pos hreads]
              dsimp only
              rw [if_neg hh]
            obtain ⟨c', e, es, auth, hc', hun', hauth, heq⟩ :=
              feedEntry_spec (r := p.setReader a) (a := a)
                (by
                  show p.audible a = true
                  rw [picked_audible hpk]; exact ha)
            rw [hfeed, heq]
            exact .entry hun hpicked ((hchan a).symm.trans hc') hun'
              (.inr ⟨hact ▸ hreads, hhand ▸ hno, by rw [hp1]⟩) (hauth.trans hsub)

/-- **`nextFeed` satisfies the equation of the source**: the recursive call after
a hand-off was armed is `next_feed` itself. -/
theorem nextFeed_eq (r : Router) : r.nextFeed = r.nextFeedWith nextFeed := by
  by_cases harm : ∃ sw c, r.announce = some sw ∧ r.channel sw.channel = some c
  · obtain ⟨sw, c, hs, hc⟩ := harm
    rw [nextFeed, nextFeedWith_armed _ hs hc, nextFeedWith_armed _ hs hc]
  · have hun : ∀ sw, r.announce = some sw → r.channel sw.channel = none := by
      intro sw hs
      cases hc : r.channel sw.channel with
      | none => rfl
      | some c => exact absurd ⟨sw, c, hs, hc⟩ harm
    rw [nextFeed, nextFeedWith_unarmed _ hun, nextFeedWith_unarmed _ hun]
    cases hp : r.cleared.pick with
    | mk p o =>
      cases o with
      | none => rfl
      | some a =>
        have hpk := r.cleared.pick_picked
        rw [hp] at hpk
        obtain ⟨c, hc, -⟩ := audible_iff.mp (pick_spec (r := r.cleared) (a := a) (by rw [hp])).1
        have hc' : p.channel a = some c := by
          unfold channel
          rw [hpk.channels]
          exact hc
        dsimp only
        by_cases hcase : p.active ≠ some a ∧ p.isHandoff a = true
        · have hagain : ∀ again, p.feedPicked again a = again
              ((p.setReader a).arm a false false) := by
            intro again
            unfold feedPicked
            rw [if_pos hcase.1]
            dsimp only
            rw [if_pos hcase.2]
          rw [hagain, hagain, nextFeed,
            nextFeedWith_armed _ (r := (p.setReader a).arm a false false) rfl hc',
            nextFeedWith_armed _ (r := (p.setReader a).arm a false false) rfl hc']
        · unfold feedPicked
          split
          next hne =>
            dsimp only
            have hno : ¬p.isHandoff a = true := fun hh => hcase ⟨hne, hh⟩
            rw [if_neg hno, if_neg hno]
          next => rfl

end Router

end Sonara.L2
