import Sonara.L2.Steps

/-!
# The floor: a message is read to its end

`HoldActive` relates the two fields no single operation relates: the channel of a
replay hold is the channel that reads. With it the auto pick always returns the
reading channel while that is audible (`pick_active`), whatever focus, priority,
authorization, suppression and the focus-only gate say.

`Reads a` is the state between two entries of `a`'s batch; every operation but the
user's moves, a mute and a close keeps it (`Reads.apply`), and in it `next_feed`
feeds an entry of `a` and nothing else.
-/

namespace Sonara.L2

open Sonara (Text)

/-- The operations that may take the floor from `a`, or its voice: a user's move,
a mute and a close. -/
def Op.Interrupts (a : ChannelId) : Op → Prop
  | .nextChannel | .takeFloor _ | .replay _ | .replayFrom _ _ | .stepTo _ _ => True
  | .setMuted id m => id = a ∧ m = true
  | .close id => id = a
  | _ => False

namespace Router

variable {r r' : Router} {a : ChannelId} {op : Op} {o : Option Feed}

/-- A replay hold is on the channel that reads. -/
def HoldActive (r : Router) : Prop := ∀ h m, r.hold = some (h, m) → r.active = some h

theorem KeepsFloor.holdActive (k : KeepsFloor r r') (H : HoldActive r) : HoldActive r' := by
  intro h m hh
  rw [k.active]
  rcases k.hold with hs | hn
  · exact H h m (hs ▸ hh)
  · rw [hn] at hh
    cases hh

/-- A feed leaves a replay hold on the channel that reads. -/
theorem Fed.holdActive (f : Fed r r' o) (H : HoldActive r) : HoldActive r' := by
  -- After a pick of `a` only a hold on `a` is left.
  have hpicked : ∀ {a}, r.cleared.pick.2 = some a → ∀ h m, r.cleared.pick.1.hold = some (h, m) →
      a = h := by
    intro a hp h m hh
    rcases pick_hold hp with hn | ⟨m', -, hs⟩
    · rw [hn] at hh
      cases hh
    · rw [hs] at hh
      exact (Prod.mk.inj (Option.some.inj hh)).1
  cases f with
  | armed => exact H
  | idle unarmed picked =>
    intro h m hh
    have hnone := pick_none picked
    rw [show r.cleared.pick.1.hold = some (h, m) from hh] at hnone
    cases hnone
  | handoff unarmed picked =>
    intro h m hh
    exact congrArg some (hpicked picked h m hh)
  | @entry a c e es auth p unarmed picked isOpen unread reader =>
    intro h m hh
    have hact : p.active = some a := by
      rcases reader with ⟨ha, rfl⟩ | ⟨-, -, rfl⟩
      · rw [r.cleared.pick_picked.active]
        exact ha
      · rfl
    have hp : r.cleared.pick.1.hold = some (h, m) := by
      rcases reader with ⟨-, rfl⟩ | ⟨-, -, rfl⟩ <;> exact hh
    show p.active = some h
    rw [hact]
    exact congrArg some (hpicked picked h m hp)

theorem ClosesFloor.holdActive {id : ChannelId} (k : ClosesFloor r r' id) (H : HoldActive r) :
    HoldActive r' := by
  intro h m hh
  obtain ⟨hne, hold⟩ := k.hold h m hh
  have hact := H h m hold
  rw [k.active, hact, if_neg (fun he => hne (Option.some.inj he))]

/-- Every operation keeps the hold on the reading channel. -/
theorem HoldActive.apply (H : HoldActive r) (op : Op) : HoldActive (r.apply op) := by
  cases hl : r.landing op with
  | some t =>
    have g := givesFloor hl
    intro h m hh
    rw [g.active, g.hold h m hh]
  | none =>
    by_cases hfeed : op = .nextFeed
    · rw [hfeed]
      exact r.nextFeed_fed.holdActive H
    · by_cases hclose : ∃ id, op = .close id
      · obtain ⟨id, rfl⟩ := hclose
        rcases r.close_floor id with ⟨-, hr⟩ | ⟨-, k⟩
        · show HoldActive (r.close id).1
          rw [hr]
          exact H
        · exact k.holdActive H
      · exact (keepsFloor hl hfeed (fun id he => hclose ⟨id, he⟩)).holdActive H

theorem state_holdActive (ops : List Op) : HoldActive (machine.state ops) :=
  machine.run_induction (P := fun _ r _ => HoldActive r) (fun _ _ h => (nomatch h))
    (fun _ op H => H.apply op) ops

/-! ## The pick -/

/-- `pick` with the hold test deleted. -/
def pickWithoutHold (r : Router) : Router × Option ChannelId := r.prune.pickActive

/-- The hold test never changes what is picked. -/
theorem pick_eq_pickWithoutHold (H : HoldActive r) : r.pick.2 = r.pickWithoutHold.2 := by
  have hchoose : r.pickWithoutHold.2 = r.prune.choose := r.prune.pickActive_spec.2
  rcases r.pick_cases with ⟨h, m, hold, hyes, hp⟩ | ⟨-, r', -, hp⟩ <;> rw [hp, hchoose]
  unfold holds at hyes
  have haud : r.prune.audible h = true := (Bool.and_eq_true_iff.mp hyes).1
  have hact : r.prune.active = some h := H h m hold
  unfold choose
  rw [hact]
  dsimp only
  rw [if_pos haud]

/-- The channel that reads keeps the floor while it is audible. -/
theorem pick_active (H : HoldActive r) (ha : r.active = some a) (haud : r.audible a = true) :
    r.pick.2 = some a := by
  have haud' : r.prune.audible a = true := haud
  have ha' : r.prune.active = some a := ha
  rw [pick_eq_pickWithoutHold H, pickWithoutHold, (pickActive_spec _).2]
  unfold choose
  rw [ha']
  dsimp only
  rw [if_pos haud']

/-- The reading channel is fed its first unread entry. -/
theorem nextFeed_active (H : HoldActive r) (ha : r.active = some a) (haud : r.audible a = true)
    (hann : r.announce = none) :
    ∃ c e, r.channel a = some c ∧ c.unread.head? = some e ∧ r.nextFeed.2 = some (.entry a e) := by
  have hpick : r.cleared.pick.2 = some a := pick_active (r := r.cleared) H ha haud
  have hfed := r.nextFeed_fed
  generalize r.nextFeed.1 = r', r.nextFeed.2 = o at hfed ⊢
  cases hfed with
  | armed armed =>
    rw [hann] at armed
    cases armed
  | idle unarmed picked =>
    rw [hpick] at picked
    cases picked
  | handoff unarmed picked isOpen waiting =>
    obtain rfl := Option.some.inj (hpick.symm.trans picked)
    exact absurd ha waiting
  | @entry a' c e es auth p unarmed picked isOpen unread =>
    obtain rfl := Option.some.inj (hpick.symm.trans picked)
    exact ⟨c, e, isOpen, by rw [unread]; rfl, rfl⟩

/-! ## Between two entries of a batch -/

/-- `a` reads, with no announcement armed, and may be heard. -/
structure Reads (r : Router) (a : ChannelId) : Prop where
  active : r.active = some a
  announce : r.announce = none
  heard : ∃ c, r.channel a = some c ∧ c.muted = false

/-- `a` has an unread entry. -/
def HasUnread (r : Router) (a : ChannelId) : Prop := ∃ c, r.channel a = some c ∧ c.unread ≠ []

theorem landing_of_not_interrupts (h : ¬op.Interrupts a) : r.landing op = none := by
  cases op with
  | nextChannel => exact absurd trivial h
  | takeFloor id => exact absurd trivial h
  | replay id => exact absurd trivial h
  | replayFrom id entry => exact absurd trivial h
  | stepTo id entry => exact absurd trivial h
  | _ => rfl

/-- The channel of a fed entry reads. -/
theorem Fed.reads {e : Entry} (f : Fed r r' (some (.entry a e))) : Reads r' a := by
  have hmaps := fed_maps f
  generalize ho : some (Feed.entry a e) = o at f
  cases f with
  | armed => cases ho
  | idle => cases ho
  | handoff => cases ho
  | @entry a' c e' es auth p unarmed picked isOpen unread reader =>
    obtain ⟨rfl, rfl⟩ := Feed.entry.inj (Option.some.inj ho)
    have hpk := r.cleared.pick_picked
    refine ⟨?_, ?_, ?_⟩
    · rcases reader with ⟨ha, rfl⟩ | ⟨-, -, rfl⟩
      · exact hpk.active.trans ha
      · rfl
    · rcases reader with ⟨-, rfl⟩ | ⟨-, -, rfl⟩ <;> exact hpk.announce
    · obtain ⟨c₀, hc₀, -, hm⟩ := audible_iff.mp (pick_spec picked).1
      obtain ⟨c', hc', ht⟩ := hmaps.channel hc₀
      exact ⟨c', hc', ht.muted.trans hm⟩

/-- **One operation between two entries of a batch.** While entries are unread,
`next_feed` feeds one of them, and nothing but an interruption takes the floor. -/
theorem Reads.apply (R : Reads r a) (H : HoldActive r) (hop : ¬op.Interrupts a)
    (hun : op = .nextFeed → HasUnread r a) :
    Reads (r.apply op) a ∧ ∀ f ∈ r.feeds op, ∃ e, f = .entry a e := by
  have hlanding : r.landing op = none := landing_of_not_interrupts hop
  obtain ⟨c, hc, hm⟩ := R.heard
  by_cases hfeed : op = .nextFeed
  · obtain ⟨c', hc', hne⟩ := hun hfeed
    obtain rfl := Option.some.inj (hc.symm.trans hc')
    have haud : r.audible a = true :=
      audible_iff.mpr ⟨c, hc, List.length_pos_of_ne_nil hne, hm⟩
    obtain ⟨c'', e, -, -, hnext⟩ := nextFeed_active H R.active haud R.announce
    rw [hfeed]
    have hfed := r.nextFeed_fed
    rw [hnext] at hfed
    refine ⟨hfed.reads, fun f hf => ⟨e, ?_⟩⟩
    have hf' : f ∈ r.nextFeed.2.toList := hf
    rw [hnext] at hf'
    exact List.mem_singleton.mp hf'
  · have hnone : ∀ f ∈ r.feeds op, ∃ e, f = .entry a e := by
      intro f hf
      cases op with
      | nextFeed => exact absurd rfl hfeed
      | _ => exact absurd hf List.not_mem_nil
    refine ⟨?_, hnone⟩
    have hclosea : op ≠ .close a := fun he => hop (by rw [he]; rfl)
    have hheard : ∃ c, (r.apply op).channel a = some c ∧ c.muted = false := by
      obtain ⟨c', hc', ht⟩ := apply_channel hc hclosea
      refine ⟨c', hc', ?_⟩
      rw [ht.muted, channel_id hc]
      cases op with
      | setMuted id m =>
        show (if id = a then some m else none).getD c.muted = false
        split
        next hid =>
          have hmf : ¬m = true := fun hmt => hop ⟨hid, hmt⟩
          simpa using hmf
        next => exact hm
      | _ => exact hm
    by_cases hclose : ∃ id, op = .close id
    · obtain ⟨id, rfl⟩ := hclose
      have hne : a ≠ id := fun he => hclosea (by rw [he])
      rcases r.close_floor id with ⟨-, hr⟩ | ⟨-, k⟩
      · show Reads (r.close id).1 a
        rw [hr]
        exact R
      · refine ⟨?_, ?_, hheard⟩
        · show (r.close id).1.active = some a
          rw [k.active, R.active, if_neg (fun he => hne (Option.some.inj he))]
        · exact k.announce.elim (fun h => h.trans R.announce) (fun h => h)
    · have k := keepsFloor hlanding hfeed (fun id he => hclose ⟨id, he⟩)
      exact ⟨k.active.trans R.active, k.announce.elim (fun h => h.trans R.announce)
        (fun h => h), hheard⟩

/-- A run between two entries of a batch feeds only that batch. -/
theorem Reads.run {ops : List Op} (R : Reads r a) (H : HoldActive r)
    (hops : ∀ op ∈ ops, ¬op.Interrupts a)
    (hun : ∀ pre, pre <+: ops → pre ≠ ops → HasUnread (machine.stateFrom r pre) a) :
    ∀ f ∈ machine.outFrom r ops, ∃ e, f = .entry a e := by
  induction ops generalizing r with
  | nil => exact fun f hf => absurd hf List.not_mem_nil
  | cons op ops ih =>
    obtain ⟨R', hfeeds⟩ := R.apply H (hops op (List.mem_cons_self ..))
      (fun _ => hun [] List.nil_prefix (List.cons_ne_nil op ops).symm)
    intro f hf
    rcases List.mem_append.mp hf with hf | hf
    · exact hfeeds f hf
    · refine ih R' (H.apply op) (fun o ho => hops o (List.mem_cons_of_mem _ ho)) ?_ f hf
      intro pre hpre hne
      exact hun (op :: pre) ((List.prefix_cons_inj op).mpr hpre)
        (fun he => hne (List.cons.inj he).2)

/-- The floor after a run. -/
structure FloorKept (ops : List Op) : Prop where
  held : ∀ h m, (machine.state ops).hold = some (h, m) → (machine.state ops).active = some h
  pick : (machine.state ops).pick.2 = (machine.state ops).pickWithoutHold.2
  feed : ∀ a, (machine.state ops).active = some a → (machine.state ops).audible a = true →
    (machine.state ops).announce = none → ∃ c e, (machine.state ops).channel a = some c ∧
      c.unread.head? = some e ∧ (machine.state ops).nextFeed.2 = some (.entry a e)
  /-- After an entry of `a` was fed, and while `a` has unread entries and nothing
  interrupts it, only entries of `a` are fed. -/
  batch : ∀ a e ops', machine.answer ops .nextFeed = [.entry a e] →
    (∀ op ∈ ops', ¬op.Interrupts a) →
    (∀ pre, pre <+: ops' → pre ≠ ops' →
      HasUnread (machine.state (ops ++ [.nextFeed] ++ pre)) a) →
    ∀ f ∈ machine.outFrom (machine.state (ops ++ [.nextFeed])) ops', ∃ e', f = .entry a e'

/-- **The floor in every run.** -/
theorem floor_kept (ops : List Op) : FloorKept ops := by
  have H := state_holdActive ops
  refine ⟨H, pick_eq_pickWithoutHold H, fun a => nextFeed_active H, ?_⟩
  intro a e ops' hfed hops hun
  have hnext : (machine.state ops).nextFeed.2 = some (.entry a e) := by
    have hlist : (machine.state ops).nextFeed.2.toList = [.entry a e] := hfed
    cases hn : (machine.state ops).nextFeed.2 with
    | none => rw [hn] at hlist; cases hlist
    | some f => rw [hn] at hlist; rw [(List.cons.inj hlist).1]
  have hstep := (machine.state ops).nextFeed_fed
  rw [hnext] at hstep
  have hstate : machine.state (ops ++ [.nextFeed]) = (machine.state ops).nextFeed.1 :=
    Lib.Machine.state_snoc ..
  have R : Reads (machine.state (ops ++ [.nextFeed])) a := by
    rw [hstate]
    exact hstep.reads
  refine R.run (state_holdActive _) hops (fun pre hpre hne => ?_)
  rw [← Lib.Machine.state_append]
  exact hun pre hpre hne

end Router

end Sonara.L2
