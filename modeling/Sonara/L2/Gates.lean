import Sonara.L2.Floor

/-!
# The gates: mute, focus-only, switched away

What `next_feed` may feed, over every run:

* the mute flag of a channel is the muted set's (`MutedAgree`), and a muted channel
  is never audible;
* a fed entry's channel passed the focus-only gate before the call, or read;
* `Away a` holds from the `next_channel` that leaves `a` until new content, a
  user's move to `a` or its close: the suppression stamp is `a`'s generation and
  `a` does not read. No operation in between lifts it (`Away.apply`).
-/

namespace Sonara.L2

open Sonara (Text)

namespace Router

variable {r r' : Router} {a : ChannelId} {op : Op} {o : Option Feed}

/-! ## The muted set -/

theorem endHold_muted (r : Router) (id : Option ChannelId) : (r.endHold id).muted = r.muted := by
  obtain ⟨hold, h, -⟩ := r.endHold_eq id
  rw [h]

theorem pushWith_muted (r : Router) (id : ChannelId) (text : Text) (label : Option String)
    (replace front : Bool) : (r.pushWith id text label replace front).1.muted = r.muted := by
  unfold pushWith
  dsimp only
  split <;> rfl

theorem readAt_muted (r : Router) (id : ChannelId) (entry : Option Nat) (replay : Bool) :
    (r.readAt id entry replay).1.muted = r.muted := by
  unfold readAt
  split
  · rfl
  · split
    · rfl
    · split
      · rfl
      · dsimp only
        split <;> exact endHold_muted _ none

/-- Going to the next channel mutes nothing. -/
theorem nextChannel_muted (r : Router) : r.nextChannel.1.muted = r.muted := by
  unfold nextChannel
  dsimp only
  split
  · rfl
  next t _ =>
    obtain ⟨s, hs, -⟩ := r.suppressOld_eq t
    rw [hs]
    split
    · rfl
    · obtain ⟨chs, hold, hl, -⟩ := land_eq { r with suppressed := s } t _
      rw [hl]
      rfl

/-- Taking the floor mutes nothing. -/
theorem takeFloor_muted (r : Router) (id : ChannelId) : (r.takeFloor id).1.muted = r.muted := by
  have h : (((r.setReader id).unsuppress id).endOtherHold id).muted = r.muted := by
    unfold endOtherHold
    split
    · exact endHold_muted _ none
    · rfl
  unfold takeFloor
  split
  · rfl
  · dsimp only
    split
    · exact h
    · split <;> exact h

theorem Fed.muted (f : Fed r r' o) : r'.muted = r.muted := by
  have hpk : r.cleared.pick.1.muted = r.muted := r.cleared.pick_picked.muted
  cases f with
  | armed => rfl
  | idle => exact hpk
  | handoff => exact hpk
  | entry unarmed picked isOpen unread reader =>
    rcases reader with ⟨-, rfl⟩ | ⟨-, -, rfl⟩ <;> exact hpk

/-- Only `set_muted` changes the muted set. -/
theorem apply_muted (h : ∀ a, op.mutes a = none) : (r.apply op).muted = r.muted := by
  cases op with
  | setMuted id m => exact absurd (h id) (by simp [Op.mutes])
  | openChannel id label hostTab policy =>
    show (r.openChannel id label hostTab policy).muted = _
    unfold openChannel
    split <;> rfl
  | labelIfMissing id label =>
    show (r.labelIfMissing id label).1.muted = _
    unfold labelIfMissing
    split
    · rfl
    · split
      · split <;> rfl
      · rfl
  | close id =>
    show (r.close id).1.muted = _
    unfold close
    split
    · rfl
    · refine (endHold_muted _ _).trans ?_
      dsimp only
      split <;> rfl
  | focus id =>
    show (r.setFocus id).1.muted = _
    unfold setFocus
    split
    · rfl
    · dsimp only
      split
      · split <;> rfl
      · rfl
  | authorize id =>
    show (r.authorize id).1.muted = _
    unfold authorize
    split <;> rfl
  | prioritize id =>
    show (r.prioritize id).1.muted = _
    unfold prioritize
    split
    · rfl
    · split <;> rfl
  | push id text label =>
    show (r.push id text label).1.muted = _
    unfold push
    split
    · rfl
    · exact r.pushWith_muted ..
  | pushWith id text label replace front => exact r.pushWith_muted ..
  | append id text decision heard =>
    have hpush := r.pushWith_muted id text none false false
    show (r.append id text decision heard).1.muted = _
    unfold append
    split
    · rfl
    · dsimp only
      cases hp : r.pushWith id text none false false with
      | mk r₁ o =>
        rw [hp] at hpush
        cases o <;> exact hpush
  | setAside id entry aside =>
    show (r.setAside id entry aside).1.muted = _
    unfold setAside
    split
    · rfl
    · split <;> rfl
  | flush id =>
    cases id with
    | some id => exact (r.dropAnnounce id).endHold_muted (some id)
    | none => exact endHold_muted { r with announce := none } none
  | isSuppressed id => exact (r.isSuppressed_spec id).1.picked.muted
  | pick => exact r.pick_picked.muted
  | hasWork =>
    show r.hasWork.1.muted = _
    unfold hasWork
    split
    · rfl
    · exact r.pick_picked.muted
  | nextFeed => exact r.nextFeed_fed.muted
  | nextChannel => exact r.nextChannel_muted
  | takeFloor id => exact r.takeFloor_muted id
  | replay id => exact r.readAt_muted id none true
  | replayFrom id entry => exact r.readAt_muted id entry true
  | stepTo id entry => exact r.readAt_muted id (some entry) false
  | _ => rfl

theorem setMuted_muted (r : Router) (id : ChannelId) (m : Bool) :
    (r.setMuted id m).muted = if m then insert id r.muted else r.muted.erase id := by
  unfold setMuted
  cases m with
  | true => exact (r.markMuted id true).endHold_muted (some id)
  | false => rfl

/-- The mute flags are the muted set's. -/
def MutedAgree (r : Router) : Prop := ∀ c ∈ r.channels, c.muted = decide (c.id ∈ r.muted)

/-- Whatever the operation, a channel's own mute is that of the router. -/
theorem MutedAgree.apply (M : MutedAgree r) (op : Op) : MutedAgree (r.apply op) := by
  have hset : ∀ c : Channel, decide (c.id ∈ (r.apply op).muted) =
      (op.mutes c.id).getD (decide (c.id ∈ r.muted)) := by
    intro c
    by_cases hop : ∀ a, op.mutes a = none
    · rw [apply_muted hop, hop]
      rfl
    · cases op with
      | setMuted id m =>
        show decide (c.id ∈ (r.setMuted id m).muted) = (if id = c.id then some m else none).getD _
        rw [setMuted_muted]
        by_cases hid : id = c.id
        · rw [if_pos hid]
          cases m <;> simp [hid]
        · rw [if_neg hid]
          cases m <;> simp [Ne.symm hid]
      | _ => exact absurd (fun _ => rfl) hop
  intro c' hc'
  rcases r.apply_channels op with ⟨f, hf, hmap⟩ | ⟨id, c₁, hop, -, hid, hm, happ⟩ | ⟨id, rfl, hfil⟩
  · rw [hmap] at hc'
    obtain ⟨c, hc, rfl⟩ := List.mem_map.mp hc'
    rw [hset, (hf c).id, (hf c).muted, M c hc]
  · rw [hset, hop]
    rw [happ] at hc'
    rcases List.mem_append.mp hc' with hc | hc
    · exact M c' hc
    · rw [List.mem_singleton.mp hc, hm, hid]
      rfl
  · rw [hset]
    rw [hfil] at hc'
    exact M c' (List.mem_filter.mp hc').1

theorem state_mutedAgree (ops : List Op) : MutedAgree (machine.state ops) :=
  machine.run_induction (P := fun _ r _ => MutedAgree r) (fun _ h => absurd h List.not_mem_nil)
    (fun _ op M => M.apply op) ops

/-! ## What is fed -/

/-- The channel of a fed entry is audible, and it read, or was not suppressed and
passed the focus-only gate. -/
theorem Fed.entry_gates {e : Entry} (f : Fed r r' (some (.entry a e))) (H : HoldActive r) :
    r.audible a = true ∧ (r.active = some a ∨
      r.suppresses a = false ∧ (r.focus = some a ∨ r.cleared.prune.gated a = false)) := by
  generalize ho : some (Feed.entry a e) = o at f
  cases f with
  | armed => cases ho
  | idle => cases ho
  | handoff => cases ho
  | entry unarmed picked =>
    obtain ⟨rfl, -⟩ := Feed.entry.inj (Option.some.inj ho)
    obtain ⟨haud, hcase⟩ := pick_spec picked
    refine ⟨haud, ?_⟩
    rcases hcase with hhold | hact | hrest
    · obtain ⟨⟨h, m⟩, hh, rfl⟩ := Option.map_eq_some_iff.mp hhold
      exact .inl (H h m hh)
    · exact .inl hact
    · exact .inr hrest

/-- With focus-only on, a channel that is not held back is the focused one or
authorized. -/
theorem authorized_of_not_gated {f : ChannelId} (hon : r.focusOnly = true)
    (hf : r.focus = some f) (hg : r.cleared.prune.gated a = false) : a = f ∨ a ∈ r.authorized := by
  by_cases ha : a = f
  · exact .inl ha
  · refine .inr ?_
    have hg' : (r.focusOnly && r.focus.any (· != a) &&
        decide (a ∉ r.cleared.prune.authorized)) = false := hg
    rw [hon, hf] at hg'
    have hmem : a ∈ r.cleared.prune.authorized := by
      simpa [Ne.symm ha] using hg'
    exact (Finset.mem_filter.mp hmem).1

/-! ## The reading channel is open -/

/-- A channel that reads is open. -/
def ActiveOpen (r : Router) : Prop := ∀ a, r.active = some a → ∃ c, r.channel a = some c

/-- A feed leaves an active channel open. -/
theorem Fed.activeOpen (f : Fed r r' o) (A : ActiveOpen r) : ActiveOpen r' := by
  have hmaps := fed_maps f
  have hstays : ∀ {b}, (∃ c, r.channel b = some c) → ∃ c, r'.channel b = some c := by
    rintro b ⟨c, hc⟩
    obtain ⟨c', hc', -⟩ := hmaps.channel hc
    exact ⟨c', hc'⟩
  intro b hb
  apply hstays
  cases f with
  | armed => exact A b hb
  | idle => cases hb
  | @handoff a c unarmed picked isOpen =>
    obtain rfl := Option.some.inj hb
    exact ⟨c, isOpen⟩
  | @entry a c e es auth p unarmed picked isOpen unread reader =>
    have hact : p.active = some b := hb
    rcases reader with ⟨ha, rfl⟩ | ⟨-, -, rfl⟩
    · rw [r.cleared.pick_picked.active] at hact
      exact A b hact
    · obtain rfl := Option.some.inj hact
      exact ⟨c, isOpen⟩

/-- Every operation leaves an active channel open. -/
theorem ActiveOpen.apply (A : ActiveOpen r) (op : Op) : ActiveOpen (r.apply op) := by
  cases hl : r.landing op with
  | some t =>
    have g := givesFloor hl
    intro b hb
    obtain rfl := Option.some.inj (g.active.symm.trans hb)
    exact g.stays
  | none =>
    by_cases hfeed : op = .nextFeed
    · rw [hfeed]
      exact r.nextFeed_fed.activeOpen A
    · intro b hb
      have hb' : r.active = some b ∧ op ≠ .close b := by
        by_cases hclose : ∃ id, op = .close id
        · obtain ⟨id, rfl⟩ := hclose
          rcases r.close_floor id with ⟨hnone, hr⟩ | ⟨-, k⟩
          · have hact : r.active = some b := by
              rw [show r.apply (.close id) = r from hr] at hb
              exact hb
            refine ⟨hact, fun he => ?_⟩
            obtain ⟨c, hc⟩ := A b hact
            obtain rfl := Op.close.inj he
            rw [hnone] at hc
            cases hc
          · rw [show (r.apply (.close id)).active = _ from k.active] at hb
            split at hb
            · cases hb
            next hne => exact ⟨hb, fun he => hne (by rw [hb, Op.close.inj he])⟩
        · have k := keepsFloor hl hfeed (fun id he => hclose ⟨id, he⟩)
          exact ⟨k.active ▸ hb, fun he => hclose ⟨b, he⟩⟩
      obtain ⟨c, hc⟩ := A b hb'.1
      obtain ⟨c', hc', -⟩ := apply_channel hc hb'.2
      exact ⟨c', hc'⟩

theorem state_activeOpen (ops : List Op) : ActiveOpen (machine.state ops) :=
  machine.run_induction (P := fun _ r _ => ActiveOpen r) (fun _ h => (nomatch h))
    (fun _ op A => A.apply op) ops

/-! ## Switched away -/

/-- `a` was switched away from and has not changed since; it does not read. -/
structure Away (r : Router) (a : ChannelId) : Prop where
  stamp : ∃ c, r.channel a = some c ∧ r.suppressed a = some c.gen
  silent : r.active ≠ some a

theorem Away.suppresses (A : Away r a) : r.suppresses a = true := by
  obtain ⟨c, hc, hs⟩ := A.stamp
  unfold Router.suppresses
  rw [hs, hc]
  simp

/-- A stamp that is not lifted stays. -/
theorem Away.stays (A : Away r a) (h : r'.suppressed a = r.suppressed a ∨
    r'.suppressed a = none ∧ r.suppresses a = false) : r'.suppressed a = r.suppressed a := by
  rcases h with h | ⟨-, hno⟩
  · exact h
  · rw [A.suppresses] at hno
    cases hno

/-- The auto pick passes a suppressed channel over. -/
theorem Away.not_picked (A : Away r a) (H : HoldActive r) : r.cleared.pick.2 ≠ some a := by
  intro hp
  rcases (pick_spec hp).2 with hhold | hact | ⟨hno, -⟩
  · obtain ⟨⟨h, m⟩, hh, rfl⟩ := Option.map_eq_some_iff.mp hhold
    exact A.silent (H h m hh)
  · exact A.silent hact
  · rw [show r.cleared.suppresses a = r.suppresses a from rfl, A.suppresses] at hno
    cases hno

/-- A channel that is away is not fed, and stays away. -/
theorem Away.fed (A : Away r a) (H : HoldActive r) (f : Fed r r' o) :
    r'.suppressed a = r.suppressed a ∧ r'.active ≠ some a ∧ ∀ e, o ≠ some (.entry a e) := by
  have hsup : r.cleared.pick.1.suppressed a = r.suppressed a :=
    A.stays (r.cleared.pick_picked.suppressed a)
  have hne : ∀ {b}, r.cleared.pick.2 = some b → b ≠ a := by
    intro b hb he
    exact A.not_picked H (he ▸ hb)
  cases f with
  | armed => exact ⟨rfl, A.silent, fun e he => by cases he⟩
  | idle => exact ⟨hsup, fun h => (nomatch h), fun e he => by cases he⟩
  | handoff unarmed picked =>
    exact ⟨hsup, fun h => hne picked (Option.some.inj h), fun e he => by cases he⟩
  | @entry b c e es auth p unarmed picked isOpen unread reader =>
    refine ⟨?_, ?_, fun e' he => hne picked (Feed.entry.inj (Option.some.inj he)).1⟩
    · rcases reader with ⟨-, rfl⟩ | ⟨-, -, rfl⟩ <;> exact hsup
    · intro hact
      have hp : p.active = some a := hact
      rcases reader with ⟨-, rfl⟩ | ⟨-, -, rfl⟩
      · rw [r.cleared.pick_picked.active] at hp
        exact A.silent hp
      · exact hne picked (Option.some.inj hp)

/-- **One operation while `a` is switched away from.** -/
theorem Away.apply (A : Away r a) (H : HoldActive r) (hpush : ¬op.PushesInto a)
    (hland : r.landing op ≠ some a) (hclose : op ≠ .close a) :
    Away (r.apply op) a ∧ ∀ e, .entry a e ∉ r.feeds op := by
  obtain ⟨c, hc, hs⟩ := A.stamp
  obtain ⟨c', hc', ht⟩ := apply_channel hc hclose
  have hgen : c'.gen = c.gen := ht.gen (by rw [channel_id hc]; exact hpush)
  have hstamp : (r.apply op).suppressed a = r.suppressed a →
      ∃ c, (r.apply op).channel a = some c ∧ (r.apply op).suppressed a = some c.gen := by
    intro hsame
    exact ⟨c', hc', by rw [hsame, hs, hgen]⟩
  have hnofeed : op ≠ .nextFeed → ∀ e, .entry a e ∉ r.feeds op := by
    intro hop e he
    cases op with
    | nextFeed => exact hop rfl
    | _ => exact absurd he List.not_mem_nil
  cases hl : r.landing op with
  | some t =>
    have g := givesFloor hl
    have hta : t ≠ a := fun he => hland (by rw [hl, he])
    refine ⟨⟨hstamp (g.suppressed a hta.symm A.silent), ?_⟩, hnofeed (fun he => ?_)⟩
    · rw [g.active]
      exact fun he => hta (Option.some.inj he)
    · rw [he] at hl
      cases hl
  | none =>
    by_cases hfeed : op = .nextFeed
    · obtain ⟨hsame, hact, hno⟩ := A.fed H r.nextFeed_fed
      rw [hfeed] at hstamp ⊢
      refine ⟨⟨hstamp hsame, hact⟩, fun e he => hno e ?_⟩
      exact Option.mem_toList.mp he
    · refine ⟨?_, hnofeed hfeed⟩
      by_cases hcl : ∃ id, op = .close id
      · obtain ⟨id, rfl⟩ := hcl
        have hne : a ≠ id := fun he => hclose (by rw [he])
        rcases r.close_floor id with ⟨-, hr⟩ | ⟨-, k⟩
        · show Away (r.close id).1 a
          rw [hr]
          exact A
        · refine ⟨hstamp (k.suppressed a hne), ?_⟩
          rw [show (r.apply (.close id)).active = _ from k.active]
          split
          · exact fun h => (nomatch h)
          · exact A.silent
      · have k := keepsFloor hl hfeed (fun id he => hcl ⟨id, he⟩)
        exact ⟨hstamp (A.stays (k.suppressed a)), by rw [k.active]; exact A.silent⟩

/-- The operations that end a suppression of `a`: new content, its close, and a
user's move that lands on it. -/
def Readmits (r : Router) (a : ChannelId) (op : Op) : Prop :=
  op.PushesInto a ∨ op = .close a ∨ r.landing op = some a

/-- A channel that is away is not fed until it is readmitted. -/
theorem Away.run {ops : List Op} (A : Away r a) (H : HoldActive r)
    (hops : ∀ pre op, pre ++ [op] <+: ops → ¬Readmits (machine.stateFrom r pre) a op) :
    ∀ e, .entry a e ∉ machine.outFrom r ops := by
  induction ops generalizing r with
  | nil => exact fun e he => absurd he List.not_mem_nil
  | cons op ops ih =>
    have hop := hops [] op ⟨ops, rfl⟩
    obtain ⟨A', hno⟩ := A.apply H (fun h : op.PushesInto a => hop (.inl h))
      (fun h => hop (.inr (.inr h))) (fun h => hop (.inr (.inl h)))
    intro e he
    rcases List.mem_append.mp he with he | he
    · exact hno e he
    · refine ih A' (H.apply op) (fun pre o hpre => ?_) e he
      exact hops (op :: pre) o ((List.prefix_cons_inj op).mpr hpre)

/-- The gates after a run. -/
structure GatesKept (ops : List Op) : Prop where
  /-- No entry of a muted channel is fed. -/
  muted : ∀ a e, machine.answer ops .nextFeed = [.entry a e] →
    a ∉ (machine.state ops).muted ∧
      ∃ c, (machine.state ops).channel a = some c ∧ c.muted = false
  /-- With focus-only on, only the focused, an authorized or the reading channel. -/
  focused : ∀ f a e, (machine.state ops).focusOnly = true → (machine.state ops).focus = some f →
    machine.answer ops .nextFeed = [.entry a e] →
    a = f ∨ a ∈ (machine.state ops).authorized ∨ (machine.state ops).active = some a
  /-- After `next_channel` switched away from `a`, no entry of `a` is fed until it is
  readmitted. -/
  away : ∀ a t b ops', (machine.state ops).active = some a →
    (machine.state ops).nextChannel.2 = some (t, b) → t ≠ a →
    (∀ pre op, pre ++ [op] <+: ops' →
      ¬Readmits (machine.state (ops ++ [.nextChannel] ++ pre)) a op) →
    ∀ e, .entry a e ∉ machine.outFrom (machine.state (ops ++ [.nextChannel])) ops'

theorem fed_of_answer {ops : List Op} {f : Feed} (h : machine.answer ops .nextFeed = [f]) :
    Fed (machine.state ops) (machine.state ops).nextFeed.1 (some f) := by
  have hfed := (machine.state ops).nextFeed_fed
  have hlist : (machine.state ops).nextFeed.2.toList = [f] := h
  cases hn : (machine.state ops).nextFeed.2 with
  | none => rw [hn] at hlist; cases hlist
  | some f' =>
    rw [hn] at hlist hfed
    rw [← (List.cons.inj hlist).1]
    exact hfed

/-- **The gates in every run.** -/
theorem gates_kept (ops : List Op) : GatesKept ops := by
  have H := state_holdActive ops
  refine ⟨fun a e hfed => ?_, fun f a e hon hf hfed => ?_, fun a t b ops' hact hnext hta hops => ?_⟩
  · obtain ⟨c, hc, -, hm⟩ := audible_iff.mp ((fed_of_answer hfed).entry_gates H).1
    refine ⟨?_, c, hc, hm⟩
    have hagree := state_mutedAgree ops c (mem_of_channel hc)
    rw [hm, channel_id hc] at hagree
    simpa using hagree.symm
  · rcases ((fed_of_answer hfed).entry_gates H).2 with h | ⟨-, h | h⟩
    · exact .inr (.inr h)
    · exact .inl (Option.some.inj (h.symm.trans hf))
    · exact (authorized_of_not_gated hon hf h).imp_right .inl
  · have hstate : machine.state (ops ++ [.nextChannel]) = (machine.state ops).nextChannel.1 :=
      Lib.Machine.state_snoc ..
    obtain ⟨c, hc⟩ := state_activeOpen ops a hact
    have hA : Away (machine.state (ops ++ [.nextChannel])) a := by
      rw [hstate]
      rcases (machine.state ops).nextChannel_floor with ⟨hno, -⟩ | ⟨t', b', hv, g, hold⟩
      · rw [hno] at hnext
        cases hnext
      · obtain ⟨rfl, -⟩ := Prod.mk.inj (Option.some.inj (hv.symm.trans hnext))
        obtain ⟨c', hc', ht⟩ := (machine.state ops).nextChannel_maps.channel hc
        refine ⟨⟨c', hc', ?_⟩, ?_⟩
        · rw [hold a c hta.symm hact hc, ht.gen (fun h => h)]
        · rw [g.active]
          exact fun he => hta (Option.some.inj he)
    refine hA.run (state_holdActive _) (fun pre op hpre => ?_)
    rw [← Lib.Machine.state_append]
    exact hops pre op hpre

end Router

end Sonara.L2
