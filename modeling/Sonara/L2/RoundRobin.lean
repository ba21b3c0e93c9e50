import Sonara.Lib.Ring
import Sonara.L2.Conserved

/-!
# The round robin of `next_channel`

The stops are the open channels that have entries and are not muted. With one stop or more
they are the whole ring, in opening order, and `next_channel` lands on the first one behind
the position (`nextTarget_ahead`), which becomes the position. A landing moves one cursor
and nothing that makes a stop one, so the walk is the one of `Lib.Ring`.
-/

namespace Sonara.L2

open Lib.Ring

namespace Router

variable {r : Router} {t : ChannelId} {c : Channel} {cur : Option ChannelId}

/-- `id` is open, has entries and is not muted. -/
def isStop (r : Router) (id : ChannelId) : Bool :=
  (r.channel id).any fun c => !c.muted && !c.entries.isEmpty

/-- The stops in opening order. -/
def stops (r : Router) : List ChannelId := r.ids.filter r.isStop

/-- The ring position: the channel reading, or else the one that read last. -/
def position (r : Router) : Option ChannelId := r.active.or r.lastActive

/-- The stops in the order the key visits them. -/
def ahead (r : Router) : List ChannelId := (around r.ids r.position).filter r.isStop

/-- The router after `n` presses of the key. -/
def pressed (r : Router) : Nat → Router
  | 0 => r
  | n + 1 => (r.pressed n).nextChannel.1

/-- The channel that is landed on is read from its cursor on: it has unread entries, is not
replaying and is not the position. -/
def resumes (r : Router) (t : ChannelId) (c : Channel) : Bool :=
  !(c.caughtUp || r.position == some t || c.replaying)

/-- A press landed on `t`. -/
structure Landed (r : Router) (t : ChannelId) (r' : Router) : Prop where
  stop : r.isStop t = true
  active : r'.active = some t
  heard : r'.suppressed t = none
  armed : ∀ c, r.channel t = some c → r'.announce = some ⟨t, !r.resumes t c, true⟩
  /-- Its batch goes on at the cursor, or starts again from the top. -/
  batch : ∀ c, r.channel t = some c →
    r'.channel t = some (if r.resumes t c then c else { c with cursor := 0, replaying := true })
  others : ∀ a, a ≠ t → r'.channel a = r.channel a

/-! ## The target -/

theorem stops_subset (h : t ∈ r.stops) : t ∈ r.ids := (List.mem_filter.mp h).1

/-- Where there is a stop, the ring is the stops. -/
theorem ring_eq (h : r.stops ≠ []) : r.ring = r.stops := by
  have hor : ∀ {l all : List ChannelId}, l ≠ [] → orAll l all = l := by
    intro l all hl
    unfold orAll
    rw [if_neg (by simpa using hl)]
  have hboth : (r.ids.filter fun id => (r.channel id).any fun c => !c.muted).filter
      (fun id => (r.channel id).any fun c => !c.entries.isEmpty) = r.stops := by
    rw [List.filter_filter]
    refine List.filter_congr fun id _ => ?_
    unfold isStop
    cases r.channel id with
    | none => rfl
    | some c => exact Bool.and_comm ..
  have haud : (r.ids.filter fun id => (r.channel id).any fun c => !c.muted) ≠ [] := by
    intro hnil
    rw [hnil] at hboth
    exact h hboth.symm
  unfold ring
  dsimp only
  rw [hor haud, hboth, hor h]

/-- The slots from `i + j` on, cyclically, are the ring turned. -/
theorem nextMember_eq {all ring : List ChannelId} {i : Nat} (n j : Nat) (hn : n ≤ all.length) :
    nextMember all ring i n j = ((all.rotate (i + j)).take n).find? (· ∈ ring) := by
  induction n generalizing j with
  | zero => rfl
  | succ n ih =>
    have hpos : 0 < all.length := by omega
    have hget := List.getElem?_rotate (n := i + j) hpos
    rw [Nat.zero_add] at hget
    unfold nextMember
    rw [← hget]
    cases hrot : all.rotate (i + j) with
    | nil =>
      have hlen := congrArg List.length hrot
      rw [List.length_rotate, List.length_nil] at hlen
      omega
    | cons a tl =>
      have hlen := congrArg List.length hrot
      rw [List.length_rotate, List.length_cons] at hlen
      have hnext : all.rotate (i + (j + 1)) = tl ++ [a] := by
        rw [← Nat.add_assoc, ← List.rotate_rotate, hrot, List.rotate_cons_succ, List.rotate_zero]
      have hle : n ≤ tl.length := by omega
      rw [ih (j + 1) (by omega), hnext, List.take_append_of_le_length hle]
      simp only [List.getElem?_cons_zero, List.take_succ_cons, List.find?_cons]
      by_cases hmem : a ∈ ring <;> simp [hmem]

/-- **The target is the first stop ahead.** -/
theorem nextTarget_ahead {all : List ChannelId} {p : ChannelId → Bool} (hn : all.Nodup)
    (hne : all.filter p ≠ []) :
    nextTarget all (all.filter p) cur = ((around all cur).filter p).head? := by
  cases cur with
  | none => exact List.head?_eq_getElem?.symm
  | some id =>
    unfold nextTarget
    dsimp only
    by_cases hall : id ∈ all
    · obtain ⟨a, b, rfl⟩ := List.append_of_mem hall
      rw [around_split hn]
      have hida : id ∉ a := fun h => (List.disjoint_of_nodup_append hn) h List.mem_cons_self
      by_cases hp : p id
      · have hring : (a ++ id :: b).filter p = a.filter p ++ id :: b.filter p := by
          rw [List.filter_append, List.filter_cons_of_pos hp]
        have hmem : id ∈ (a ++ id :: b).filter p := List.mem_filter.mpr ⟨hall, hp⟩
        have hidx : ((a ++ id :: b).filter p).idxOf id = (a.filter p).length := by
          rw [hring, List.idxOf_append_of_notMem fun h => hida (List.mem_filter.mp h).1,
            List.idxOf_cons_self, Nat.add_zero]
        rw [if_pos hmem, hidx, hring]
        have hfil : (b ++ a ++ [id]).filter p = b.filter p ++ a.filter p ++ [id] := by
          rw [List.filter_append, List.filter_append, List.filter_cons_of_pos hp, List.filter_nil]
        rw [hfil]
        cases hb : b.filter p with
        | nil =>
          have hmod : ((a.filter p).length + 1) % (a.filter p ++ [id]).length = 0 := by simp
          rw [hmod, List.nil_append]
          exact List.head?_eq_getElem?.symm
        | cons x xs =>
          have hmod : ((a.filter p).length + 1) % (a.filter p ++ id :: x :: xs).length =
              (a.filter p).length + 1 := by
            refine Nat.mod_eq_of_lt ?_
            simp
          rw [hmod, List.getElem?_append_right (Nat.le_succ _)]
          simp
      · have hmem : id ∉ (a ++ id :: b).filter p := fun h => hp (List.mem_filter.mp h).2
        have hidx : (a ++ id :: b).idxOf id = a.length := by
          rw [List.idxOf_append_of_notMem hida, List.idxOf_cons_self, Nat.add_zero]
        have hrot := List.rotate_append_length_eq (a ++ [id]) b
        rw [List.length_append, List.length_singleton, List.append_assoc, List.singleton_append]
          at hrot
        rw [if_neg hmem, if_pos hall, hidx, nextMember_eq _ _ (Nat.le_refl _), hrot,
          List.take_of_length_le (by simp; omega)]
        have hperm : (b ++ (a ++ [id])).Perm (a ++ id :: b) := by
          rw [← hrot]
          exact List.rotate_perm _ _
        have hfind : (b ++ (a ++ [id])).find? (· ∈ (a ++ id :: b).filter p) =
            ((b ++ (a ++ [id])).filter p).head? := by
          rw [← List.head?_filter]
          refine congrArg List.head? (List.filter_congr fun x hx => ?_)
          have hall : x ∈ a ++ id :: b := hperm.mem_iff.mp hx
          simp only [List.mem_filter, hall, true_and, Bool.decide_eq_true]
        rw [hfind, List.append_assoc]
        cases hhead : ((b ++ (a ++ [id])).filter p).head? with
        | some x => rfl
        | none =>
          have hnil := List.head?_eq_none_iff.mp hhead
          have := (hperm.filter p).symm.trans (by rw [hnil])
          exact absurd (List.perm_nil.mp this) hne
    · have hmem : id ∉ all.filter p := fun h => hall (List.mem_filter.mp h).1
      unfold around
      dsimp only
      rw [if_neg hmem, if_neg hall, if_neg hall]
      exact List.head?_eq_getElem?.symm

/-! ## One press -/

theorem land_fields (r : Router) (t : ChannelId) (replay : Bool) :
    (r.land t replay).active = some t ∧ (r.land t replay).suppressed = r.suppressed ∧
      (r.land t replay).announce = some ⟨t, replay, true⟩ := by
  obtain ⟨chs, hold, hl, -⟩ := r.land_eq t replay
  rw [hl]
  exact ⟨rfl, rfl, rfl⟩

/-- A landing changes the channel landed on, and only for a replay. -/
theorem land_channel (h : r.channel t = some c) (replay : Bool) :
    (r.land t replay).channel t =
        some (if replay then { c with cursor := 0, replaying := true } else c) ∧
      ∀ a, a ≠ t → (r.land t replay).channel a = r.channel a := by
  have hchs : (r.land t replay).channels =
      (if replay then r.update t fun c =>
        { c with cursor := 0, replaying := true } else r).channels := by
    unfold land
    cases replay with
    | true => exact (startHold_channels _ _).trans (endHold_channels _ _)
    | false => exact endHold_channels ((r.setReader t).arm t false true) none
  have hchan : ∀ a, (r.land t replay).channel a =
      (if replay then r.update t fun c => { c with cursor := 0, replaying := true } else r).channel
        a := by
    intro a
    unfold channel
    rw [hchs]
  cases replay with
  | true =>
    refine ⟨?_, fun a ha => ?_⟩
    · exact (hchan t).trans (channel_update_self (fun c => rfl) h)
    · exact (hchan a).trans (channel_update_ne (fun c => rfl) ha)
  | false => exact ⟨(hchan t).trans h, fun a _ => hchan a⟩

theorem mem_ahead : t ∈ r.ahead ↔ t ∈ r.stops :=
  ((around_perm r.ids r.position).filter r.isStop).mem_iff

/-- **One press** lands on the first stop ahead. -/
theorem nextChannel_landed (hn : r.ids.Nodup) {rest : List ChannelId} (h : r.ahead = t :: rest) :
    Landed r t r.nextChannel.1 ∧
      ∃ c, r.channel t = some c ∧ r.nextChannel.2 = some (t, !r.resumes t c) := by
  have hmem : t ∈ r.stops := mem_ahead.mp (h ▸ List.mem_cons_self)
  have hne : r.stops ≠ [] := List.ne_nil_of_mem hmem
  have htarget : nextTarget r.ids r.ring r.position = some t := by
    rw [ring_eq hne]
    refine (nextTarget_ahead hn hne).trans ?_
    show r.ahead.head? = some t
    rw [h]
    rfl
  obtain ⟨c, hc⟩ := isOpen_of_mem (stops_subset hmem)
  obtain ⟨s, hs, -, -⟩ := r.suppressOld_eq t
  have hst : s t = none := by
    have hfield : ((r.suppressOld t).unsuppress t).suppressed t = none := Function.update_self ..
    rwa [hs] at hfield
  -- the router that lands: `r`, with `t` no longer switched away from
  have hc' : ({ r with suppressed := s } : Router).channel t = some c := hc
  have hreplay : (c.caughtUp || r.position == some t || c.replaying) = !r.resumes t c :=
    (Bool.not_not _).symm
  have heq : r.nextChannel =
      (({ r with suppressed := s } : Router).land t (!r.resumes t c),
        some (t, !r.resumes t c)) := by
    unfold position at htarget
    unfold nextChannel
    dsimp only
    rw [htarget]
    dsimp only
    rw [hs, hc']
    dsimp only
    rw [← hreplay]
    rfl
  obtain ⟨hact, hsup, hann⟩ := land_fields ({ r with suppressed := s } : Router) t (!r.resumes t c)
  obtain ⟨hself, hother⟩ := land_channel hc' (!r.resumes t c)
  rw [heq]
  refine ⟨⟨(List.mem_filter.mp hmem).2, hact, ?_, fun c₁ h₁ => ?_, fun c₁ h₁ => ?_, hother⟩,
    c, hc, rfl⟩
  · rw [hsup]
    exact hst
  · obtain rfl : c = c₁ := Option.some.inj (hc.symm.trans h₁)
    exact hann
  · obtain rfl : c = c₁ := Option.some.inj (hc.symm.trans h₁)
    rw [hself]
    cases r.resumes t c <;> rfl

namespace Landed

variable {r' : Router}

/-- A landing makes no stop and takes none. -/
theorem isStop_eq (l : Landed r t r') : r'.isStop = r.isStop := by
  funext a
  unfold isStop
  by_cases ha : a = t
  · subst ha
    obtain ⟨c, hc, -⟩ := Option.any_eq_true .. |>.mp l.stop
    rw [hc, l.batch c hc]
    cases r.resumes a c <;> rfl
  · rw [l.others a ha]

theorem position_eq (l : Landed r t r') : r'.position = some t := by
  unfold position
  rw [l.active]
  rfl

end Landed

theorem nextChannel_ids (r : Router) : r.nextChannel.1.ids = r.ids := by
  obtain ⟨f, hf, hmap⟩ := r.nextChannel_maps
  unfold ids
  rw [hmap, List.map_map]
  exact List.map_congr_left fun c _ => (hf c).id

/-- After a press the stop it landed on is the last one ahead. -/
theorem ahead_next (hn : r.ids.Nodup) {rest : List ChannelId} (h : r.ahead = t :: rest) :
    r.nextChannel.1.ahead = rest ++ [t] := by
  obtain ⟨l, -⟩ := nextChannel_landed hn h
  unfold ahead
  rw [r.nextChannel_ids, l.isStop_eq, l.position_eq]
  exact around_next hn h

/-! ## Any number of presses -/

theorem pressed_ids (r : Router) (n : Nat) : (r.pressed n).ids = r.ids := by
  induction n with
  | zero => rfl
  | succ n ih => exact (nextChannel_ids _).trans ih

/-- `n` presses turn the stops ahead `n` times. -/
theorem pressed_ahead (hn : r.ids.Nodup) (hne : r.stops ≠ []) (n : Nat) :
    (r.pressed n).ahead = r.ahead.rotate n := by
  have hahead : r.ahead ≠ [] := by
    obtain ⟨t, ht⟩ := List.exists_mem_of_ne_nil _ hne
    exact List.ne_nil_of_mem (mem_ahead.mpr ht)
  induction n with
  | zero => exact (List.rotate_zero _).symm
  | succ n ih =>
    have hids : (r.pressed n).ids.Nodup := by
      rw [pressed_ids]
      exact hn
    cases hrot : r.ahead.rotate n with
    | nil => exact absurd (List.rotate_eq_nil_iff.mp hrot) hahead
    | cons t rest =>
      rw [← List.rotate_rotate, hrot, List.rotate_cons_succ, List.rotate_zero]
      exact ahead_next hids (ih.trans hrot)

/-- **The round robin**: from any state of a run, as many presses as there are stops visit
each stop once, in opening order from behind the position on, and each press lands. -/
theorem round_robin (ops : List Op) :
    (machine.state ops).ahead.Perm (machine.state ops).stops ∧ (machine.state ops).ahead.Nodup ∧
      ∀ (i : Nat) (t : ChannelId), (machine.state ops).ahead[i]? = some t →
        Landed ((machine.state ops).pressed i) t ((machine.state ops).pressed (i + 1)) ∧
          ∃ c, ((machine.state ops).pressed i).channel t = some c ∧
            ((machine.state ops).pressed i).nextChannel.2 =
              some (t, !((machine.state ops).pressed i).resumes t c) := by
  have hn : (machine.state ops).ids.Nodup := (state_sound ops).ids
  generalize machine.state ops = r at hn ⊢
  have hperm : r.ahead.Perm r.stops := (around_perm r.ids r.position).filter r.isStop
  refine ⟨hperm, hperm.nodup_iff.mpr (hn.filter _), fun i t hi => ?_⟩
  have hne : r.stops ≠ [] := List.ne_nil_of_mem (mem_ahead.mp (List.mem_of_getElem? hi))
  have hids : (r.pressed i).ids.Nodup := by
    rw [pressed_ids]
    exact hn
  obtain ⟨hlt, -⟩ := List.getElem?_eq_some_iff.mp hi
  have hrot : r.ahead.rotate i = t :: (r.ahead.drop (i + 1) ++ r.ahead.take i) := by
    rw [List.rotate_eq_drop_append_take (Nat.le_of_lt hlt), List.drop_eq_getElem?_toList_append, hi]
    rfl
  exact nextChannel_landed hids ((pressed_ahead hn hne i).trans hrot)

/-- The second of three channels is muted and the third has the position. -/
theorem round_robin_skips :
    ((machine.state [.openChannel "a" none none none, .openChannel "b" none none none,
        .openChannel "c" none none none, .push "a" [] none, .push "b" [] none, .push "c" [] none,
        .setMuted "b" true, .takeFloor "c"]).pressed 1).active = some "a" := by
  refine ((round_robin [.openChannel "a" none none none, .openChannel "b" none none none,
    .openChannel "c" none none none, .push "a" [] none, .push "b" [] none, .push "c" [] none,
    .setMuted "b" true, .takeFloor "c"]).2.2 0 "a" ?_).1.active
  decide

end Router

end Sonara.L2
