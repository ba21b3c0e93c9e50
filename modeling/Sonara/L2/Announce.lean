import Mathlib.Data.List.Chain
import Sonara.L2.Gates

/-!
# Switch announcements

A driven run is one as `Channels` drives it: a user's move is directly followed by
`next_feed`, and armed announcements are not cleared. Then an announcement is
armed only between a move and the `next_feed` behind it (`Disciplined`), and after
an entry of `a` the channel that read last is `a` itself, or was announced since,
or replaced a closed reader in its host tab (`Accounted`).
-/

namespace Sonara.L2

/-- A user's move. -/
def Op.Manual : Op → Prop
  | .nextChannel | .takeFloor _ | .replay _ | .replayFrom _ _ | .stepTo _ _ => True
  | _ => False

/-- Every user's move is directly followed by `next_feed`, and `clear_announce` is
not called. -/
structure Driven (ops : List Op) : Prop where
  followed : ops.IsChain fun op op' => op.Manual → op' = .nextFeed
  kept : .clearAnnounce ∉ ops

theorem Driven.left {ops ops' : List Op} (h : Driven (ops ++ ops')) : Driven ops :=
  ⟨(List.isChain_append.mp h.followed).1, fun hm => h.kept (List.mem_append_left _ hm)⟩

/-- What follows a user's move. -/
theorem Driven.after {ops : List Op} {op : Op} (h : Driven (ops ++ [op])) {m : Op}
    (hm : ops.getLast? = some m) (hman : m.Manual) : op = .nextFeed :=
  (List.isChain_append.mp h.followed).2.2 m hm op rfl hman

namespace Router

variable {r r' : Router} {a b : ChannelId} {op : Op} {o : Option Feed} {ops : List Op}

theorem manual_of_landing {t : ChannelId} (h : r.landing op = some t) : op.Manual := by
  cases op with
  | nextChannel => trivial
  | takeFloor id => trivial
  | replay id => trivial
  | replayFrom id entry => trivial
  | stepTo id entry => trivial
  | _ => cases h

/-- Taking the floor is no switch from the channel that read last, or a closed
reader in the same host tab is replaced. -/
theorem isHandoff_false {l : ChannelId} (hl : r.lastReader = some l) (h : r.isHandoff b = false) :
    l = b ∨ ∃ t c, r.closedReaderTab = some t ∧ r.channel b = some c ∧ c.hostTab = some t := by
  by_cases hlb : l = b
  · exact .inl hlb
  · refine .inr ?_
    unfold isHandoff at h
    rw [hl] at h
    have hany : (some l).any (fun x => x != b) = true := by simpa using hlb
    rw [if_pos hany] at h
    dsimp only at h
    cases hc : r.channel b with
    | none =>
      rw [hc] at h
      cases h
    | some c =>
      rw [hc] at h
      cases ht : c.hostTab with
      | none =>
        rw [show (some c).bind Channel.hostTab = c.hostTab from rfl, ht] at h
        cases h
      | some t =>
        rw [show (some c).bind Channel.hostTab = c.hostTab from rfl, ht] at h
        refine ⟨t, c, ?_, rfl, ht⟩
        have heq : (some t == r.closedReaderTab) = true := by simpa using h
        exact (eq_of_beq heq).symm

/-! ## The reader and the reader that read last -/

/-- The channel that reads is the one that read last. -/
def ActiveLast (r : Router) : Prop := ∀ b, r.active = some b → r.lastReader = some b

/-- How `next_feed` moves the floor. -/
theorem Fed.floor (f : Fed r r' o) :
    r'.announce = none ∧
      ((r'.active = none ∨ r'.active = r.active) ∧ r'.lastReader = r.lastReader ∧
          r'.closedReaderTab = r.closedReaderTab ∨
        ∃ t, r'.active = some t ∧ r'.lastReader = some t ∧ r'.closedReaderTab = none ∧
          r.active ≠ some t ∧
          (r.isHandoff t = false ∨ ∃ label, o = some (.announce t label false false))) := by
  have hpk := r.cleared.pick_picked
  cases f with
  | armed => exact ⟨rfl, .inl ⟨.inr rfl, rfl, rfl⟩⟩
  | idle => exact ⟨hpk.announce, .inl ⟨.inl rfl, hpk.lastReader, hpk.closedReaderTab⟩⟩
  | handoff unarmed picked isOpen waiting =>
    exact ⟨rfl, .inr ⟨_, rfl, rfl, rfl, waiting, .inr ⟨_, rfl⟩⟩⟩
  | entry unarmed picked isOpen unread reader =>
    rcases reader with ⟨-, rfl⟩ | ⟨hne, hno, rfl⟩
    · exact ⟨hpk.announce, .inl ⟨.inr hpk.active, hpk.lastReader, hpk.closedReaderTab⟩⟩
    · exact ⟨hpk.announce, .inr ⟨_, rfl, rfl, rfl, hne, .inl hno⟩⟩

/-- Whatever the operation, the channel that reads is the one that read last. -/
theorem ActiveLast.apply (A : ActiveLast r) (op : Op) : ActiveLast (r.apply op) := by
  intro b hb
  cases hl : r.landing op with
  | some t =>
    have g := givesFloor hl
    rw [g.lastReader, ← g.active, hb]
  | none =>
    by_cases hfeed : op = .nextFeed
    · rw [hfeed] at hb ⊢
      rcases r.nextFeed_fed.floor.2 with ⟨hact | hact, hlast, -⟩ | ⟨t, hact, hlast, -⟩
      · rw [show (r.apply .nextFeed).active = none from hact] at hb
        cases hb
      · exact hlast.trans (A b (hact ▸ hb))
      · exact hlast.trans (hact ▸ hb)
    · by_cases hclose : ∃ id, op = .close id
      · obtain ⟨id, rfl⟩ := hclose
        rcases r.close_floor id with ⟨-, hr⟩ | ⟨-, k⟩
        · rw [show r.apply (.close id) = r from hr] at hb ⊢
          exact A b hb
        · rw [show (r.apply (.close id)).active = _ from k.active] at hb
          split at hb
          · cases hb
          · exact k.lastReader.trans (A b hb)
      · have k := keepsFloor hl hfeed (fun id he => hclose ⟨id, he⟩)
        exact k.lastReader.trans (A b (k.active ▸ hb))

theorem state_activeLast (ops : List Op) : ActiveLast (machine.state ops) :=
  machine.run_induction (P := fun _ r _ => ActiveLast r) (fun _ h => (nomatch h))
    (fun _ op A => A.apply op) ops

/-! ## The closed reader's host tab -/

/-- After `ops` the channel that held the floor last is closed and had the
non-empty host tab `t`; no channel held the floor since. -/
def ClosedReader (ops : List Op) (t : String) : Prop :=
  ∃ p l q c, ops = p ++ .close l :: q ∧ (machine.state p).lastReader = some l ∧
    (machine.state p).channel l = some c ∧ c.hostTab = some t ∧ t ≠ "" ∧
    ∀ q', q' <+: q → (machine.state (p ++ .close l :: q')).active = none

theorem ClosedReader.snoc {t : String} (h : ClosedReader ops t)
    (hact : (machine.state (ops ++ [op])).active = none) : ClosedReader (ops ++ [op]) t := by
  obtain ⟨p, l, q, c, rfl, hl, hc, ht, hne, hq⟩ := h
  refine ⟨p, l, q ++ [op], c, by simp, hl, hc, ht, hne, fun q' hq' => ?_⟩
  rcases List.prefix_concat_iff.mp hq' with rfl | hq'
  · rw [List.append_assoc] at hact
    exact hact
  · exact hq q' hq'

theorem state_apply (ops : List Op) (op : Op) :
    machine.state (ops ++ [op]) = (machine.state ops).apply op :=
  Lib.Machine.state_snoc ..

/-- `closedReaderTab` is the host tab of the closed reader. -/
theorem closedReaderTab_closed (ops : List Op) {t : String}
    (h : (machine.state ops).closedReaderTab = some t) :
    ClosedReader ops t ∧ (machine.state ops).active = none := by
  induction ops using List.reverseRecOn generalizing t with
  | nil => cases h
  | append_singleton ops op ih =>
    have hkeep : ∀ {t}, (machine.state ops).closedReaderTab = some t →
        (machine.state (ops ++ [op])).active = none →
        ClosedReader (ops ++ [op]) t ∧ (machine.state (ops ++ [op])).active = none :=
      fun ht hact => ⟨(ih ht).1.snoc hact, hact⟩
    rw [state_apply] at h hkeep ⊢
    cases hl : (machine.state ops).landing op with
    | some u =>
      rw [(givesFloor hl).closedReaderTab] at h
      cases h
    | none =>
      by_cases hfeed : op = .nextFeed
      · rw [hfeed] at h hkeep ⊢
        rcases (machine.state ops).nextFeed_fed.floor.2 with ⟨hact, -, htab⟩ | ⟨u, -, -, htab, -⟩
        · have ht : (machine.state ops).closedReaderTab = some t := htab ▸ h
          refine hkeep ht ?_
          rcases hact with hn | hs
          · exact hn
          · exact hs.trans (ih ht).2
        · rw [show ((machine.state ops).apply .nextFeed).closedReaderTab = none from htab] at h
          cases h
      · by_cases hclose : ∃ id, op = .close id
        · obtain ⟨id, rfl⟩ := hclose
          rcases (machine.state ops).close_floor id with ⟨-, hr⟩ | ⟨-, k⟩
          · have hsame : (machine.state ops).apply (.close id) = machine.state ops := hr
            rw [hsame] at h hkeep ⊢
            exact hkeep h (ih h).2
          · have hactive : ((machine.state ops).apply (.close id)).active = _ := k.active
            rcases k.closedReaderTab with hs | ⟨hlast, c, hc, htab⟩
            · have ht : (machine.state ops).closedReaderTab = some t := hs ▸ h
              refine hkeep ht ?_
              rw [hactive, (ih ht).2]
              rfl
            · -- The reader itself closes: nobody reads.
              have hnone : ((machine.state ops).apply (.close id)).active = none := by
                rw [hactive]
                split
                · rfl
                next hne =>
                  cases hact : (machine.state ops).active with
                  | none => rfl
                  | some b =>
                    have hb := state_activeLast ops b hact
                    rw [hlast] at hb
                    exact absurd (hact.trans hb.symm) hne
              refine ⟨⟨ops, id, [], c, rfl, hlast, hc, ?_⟩, hnone⟩
              have hfil : c.hostTab.filter (· != "") = some t := htab ▸ h
              obtain ⟨ht, hne⟩ := Option.filter_eq_some_iff.mp hfil
              refine ⟨ht, by simpa using hne, fun q' hq' => ?_⟩
              rw [List.prefix_nil.mp hq', state_apply]
              exact hnone
        · have k := keepsFloor hl hfeed (fun id he => hclose ⟨id, he⟩)
          have ht : (machine.state ops).closedReaderTab = some t := k.closedReaderTab ▸ h
          exact hkeep ht (k.active.trans (ih ht).2)

/-! ## Armed announcements -/

/-- An announcement is armed for the channel that took the floor, by the move just
made. -/
def Disciplined (ops : List Op) : Prop :=
  ∀ sw, (machine.state ops).announce = some sw →
    (∃ op, ops.getLast? = some op ∧ op.Manual) ∧
      (machine.state ops).lastReader = some sw.channel ∧
      ∃ c, (machine.state ops).channel sw.channel = some c

/-- In a driven run an announcement is armed for the channel the last move gave the floor to. -/
theorem disciplined (ops : List Op) (hd : Driven ops) : Disciplined ops := by
  induction ops using List.reverseRecOn with
  | nil => exact fun sw h => (nomatch h)
  | append_singleton ops op ih =>
    have D := ih hd.left
    intro sw hsw
    rw [state_apply] at hsw ⊢
    -- An armed announcement is fed next.
    have hnone : op ≠ .nextFeed → (machine.state ops).announce = none := by
      intro hop
      cases ha : (machine.state ops).announce with
      | none => rfl
      | some sw' =>
        obtain ⟨⟨m, hm, hman⟩, -⟩ := D sw' ha
        exact absurd (hd.after hm hman) hop
    cases hl : (machine.state ops).landing op with
    | some t =>
      have g := givesFloor hl
      have hop : op ≠ .nextFeed := fun he => by rw [he] at hl; cases hl
      rcases g.announce with ⟨rp, mn, ha⟩ | ⟨-, ha | ha⟩
      · rw [ha] at hsw
        obtain rfl := Option.some.inj hsw
        exact ⟨⟨op, by simp, manual_of_landing hl⟩, g.lastReader, g.stays⟩
      · rw [ha, hnone hop] at hsw
        cases hsw
      · rw [ha] at hsw
        cases hsw
    | none =>
      by_cases hfeed : op = .nextFeed
      · rw [hfeed, show ((machine.state ops).apply .nextFeed).announce = none from
          (machine.state ops).nextFeed_fed.floor.1] at hsw
        cases hsw
      · by_cases hclose : ∃ id, op = .close id
        · obtain ⟨id, rfl⟩ := hclose
          rcases (machine.state ops).close_floor id with ⟨-, hr⟩ | ⟨-, k⟩
          · rw [show (machine.state ops).apply (.close id) = machine.state ops from hr,
              hnone hfeed] at hsw
            cases hsw
          · rcases k.announce with ha | ha
            · rw [show ((machine.state ops).apply (.close id)).announce = _ from ha,
                hnone hfeed] at hsw
              cases hsw
            · rw [show ((machine.state ops).apply (.close id)).announce = _ from ha] at hsw
              cases hsw
        · have k := keepsFloor hl hfeed (fun id he => hclose ⟨id, he⟩)
          rcases k.announce with ha | ha
          · rw [ha, hnone hfeed] at hsw
            cases hsw
          · rw [ha] at hsw
            cases hsw

/-! ## Since an entry was fed -/

/-- `op` after `ops` gave `b` the floor of a closed reader whose non-empty host tab
`b` has, and through `ops'` no other channel took it. -/
def Replaces (ops : List Op) (op : Op) (ops' : List Op) (b : ChannelId) : Prop :=
  (machine.state ops).lastReader ≠ some b ∧
    (∃ t c, ClosedReader ops t ∧ (machine.state ops).channel b = some c ∧ c.hostTab = some t) ∧
    ∀ q, q <+: ops' → (machine.state (ops ++ op :: q)).lastReader = some b

/-- An announcement for `b` was fed in the run `seg` after `base`. -/
def Announced (base seg : List Op) (b : ChannelId) : Prop :=
  ∃ label replay manual, .announce b label replay manual ∈ machine.outFrom (machine.state base) seg

/-- In the run `seg` after `base`, `b` took the floor in the tab of a closed reader
and kept it. -/
def Exempt (base seg : List Op) (b : ChannelId) : Prop :=
  ∃ u op v, seg = u ++ op :: v ∧ Replaces (base ++ u) op v b

/-- The channel that read last is `a`, or was announced since `base`, is exempt, or
is about to be announced. -/
def Accounted (a : ChannelId) (base seg : List Op) : Prop :=
  ∃ b, (machine.state (base ++ seg)).lastReader = some b ∧
    (b = a ∨ Announced base seg b ∨ Exempt base seg b ∨
      ∃ sw, (machine.state (base ++ seg)).announce = some sw ∧ sw.channel = b)

theorem Announced.snoc {base seg : List Op} (h : Announced base seg b) (op : Op) :
    Announced base (seg ++ [op]) b := by
  obtain ⟨label, replay, manual, hm⟩ := h
  refine ⟨label, replay, manual, ?_⟩
  rw [Lib.Machine.outFrom_append]
  exact List.mem_append_left _ hm

theorem Exempt.snoc {base seg : List Op} (h : Exempt base seg b)
    (hlast : (machine.state (base ++ (seg ++ [op]))).lastReader = some b) :
    Exempt base (seg ++ [op]) b := by
  obtain ⟨u, m, v, rfl, hne, htab, hv⟩ := h
  refine ⟨u, m, v ++ [op], by simp, hne, htab, fun q hq => ?_⟩
  rcases List.prefix_concat_iff.mp hq with rfl | hq
  · rw [show base ++ u ++ m :: (v ++ [op]) = base ++ (u ++ m :: v ++ [op]) by simp]
    exact hlast
  · exact hv q hq

/-- The floor stays: who was accounted for still is. -/
theorem Accounted.stay {base seg : List Op} (A : Accounted a base seg)
    (hnone : (machine.state (base ++ seg)).announce = none)
    (hlast : (machine.state (base ++ (seg ++ [op]))).lastReader
      = (machine.state (base ++ seg)).lastReader) : Accounted a base (seg ++ [op]) := by
  obtain ⟨b, hb, hcase⟩ := A
  refine ⟨b, hlast.trans hb, ?_⟩
  rcases hcase with rfl | h | h | ⟨sw, hsw, -⟩
  · exact .inl rfl
  · exact .inr (.inl (h.snoc op))
  · exact .inr (.inr (.inl (h.snoc (hlast.trans hb))))
  · rw [hnone] at hsw
    cases hsw

/-- `t` took the floor without an announcement. -/
theorem Accounted.unannounced {base seg : List Op} {t : ChannelId} (A : Accounted a base seg)
    (hnone : (machine.state (base ++ seg)).announce = none)
    (hlast : (machine.state (base ++ (seg ++ [op]))).lastReader = some t)
    (hno : (machine.state (base ++ seg)).isHandoff t = false) : Accounted a base (seg ++ [op]) := by
  obtain ⟨l, hl, -⟩ := id A
  rcases isHandoff_false hl hno with rfl | ⟨tab, c, htab, hc, hhost⟩
  · exact A.stay hnone (hlast.trans hl.symm)
  · by_cases hlt : l = t
    · exact A.stay hnone (by rw [hlast, hl, hlt])
    · refine ⟨t, hlast, .inr (.inr (.inl ⟨seg, op, [], rfl, ?_, ?_, fun q hq => ?_⟩))⟩
      · rw [hl]
        exact fun he => hlt (Option.some.inj he)
      · exact ⟨tab, c, (closedReaderTab_closed _ htab).1, hc, hhost⟩
      · rw [List.prefix_nil.mp hq, List.append_assoc]
        exact hlast

/-- **One operation of a driven run.** -/
theorem Accounted.apply {base seg : List Op} (A : Accounted a base seg)
    (hd : Driven (base ++ (seg ++ [op]))) : Accounted a base (seg ++ [op]) := by
  rw [← List.append_assoc] at hd
  have D := disciplined _ hd.left
  have hstate : machine.state (base ++ (seg ++ [op])) = (machine.state (base ++ seg)).apply op := by
    rw [← List.append_assoc, state_apply]
  have hnone : op ≠ .nextFeed → (machine.state (base ++ seg)).announce = none := by
    intro hop
    cases ha : (machine.state (base ++ seg)).announce with
    | none => rfl
    | some sw =>
      obtain ⟨⟨m, hm, hman⟩, -⟩ := D sw ha
      exact absurd (hd.after hm hman) hop
  cases hl : (machine.state (base ++ seg)).landing op with
  | some t =>
    have g := givesFloor hl
    have hop : op ≠ .nextFeed := fun he => by rw [he] at hl; cases hl
    rcases g.announce with ⟨rp, mn, ha⟩ | ⟨hno, -⟩
    · refine ⟨t, by rw [hstate]; exact g.lastReader, .inr (.inr (.inr ⟨⟨t, rp, mn⟩, ?_, rfl⟩))⟩
      rw [hstate]
      exact ha
    · exact A.unannounced (hnone hop) (by rw [hstate]; exact g.lastReader) hno
  | none =>
    by_cases hfeed : op = .nextFeed
    · have hfed := (machine.state (base ++ seg)).nextFeed_fed
      have hout : ∀ {t label rp mn}, (machine.state (base ++ seg)).nextFeed.2
          = some (.announce t label rp mn) → Announced base (seg ++ [op]) t := by
        intro t label rp mn he
        refine ⟨label, rp, mn, ?_⟩
        rw [Lib.Machine.outFrom_append, ← Lib.Machine.state_append, hfeed]
        refine List.mem_append_right _ (List.mem_append_left _ ?_)
        show _ ∈ (machine.state (base ++ seg)).nextFeed.2.toList
        rw [he]
        exact List.mem_singleton.mpr rfl
      rw [hfeed] at hstate
      cases hann : (machine.state (base ++ seg)).announce with
      | some sw =>
        -- The announcement armed by the move before is fed now.
        obtain ⟨-, hlast, c, hc⟩ := D sw hann
        have hcall : (machine.state (base ++ seg)).nextFeed
            = ((machine.state (base ++ seg)).cleared, some (announcement sw c)) :=
          nextFeedWith_armed _ hann hc
        refine ⟨sw.channel, ?_, .inr (.inl (hout (by rw [hcall]; rfl)))⟩
        rw [hfeed, hstate]
        show (machine.state (base ++ seg)).nextFeed.1.lastReader = _
        rw [hcall]
        exact hlast
      | none =>
        rcases hfed.floor.2 with ⟨-, hlast, -⟩ | ⟨t, -, hlast, -, -, hno | ⟨label, ho⟩⟩
        · exact A.stay hann (by rw [hfeed, hstate]; exact hlast)
        · exact A.unannounced hann (by rw [hfeed, hstate]; exact hlast) hno
        · exact ⟨t, by rw [hfeed, hstate]; exact hlast, .inr (.inl (hout ho))⟩
    · refine A.stay (hnone hfeed) ?_
      rw [hstate]
      by_cases hclose : ∃ id, op = .close id
      · obtain ⟨id, rfl⟩ := hclose
        rcases (machine.state (base ++ seg)).close_floor id with ⟨-, hr⟩ | ⟨-, k⟩
        · exact congrArg Router.lastReader hr
        · exact k.lastReader
      · exact (keepsFloor hl hfeed (fun id he => hclose ⟨id, he⟩)).lastReader

theorem accounted {base : List Op} (hbase : (machine.state base).lastReader = some a)
    (seg : List Op) (hd : Driven (base ++ seg)) : Accounted a base seg := by
  induction seg using List.reverseRecOn with
  | nil => exact ⟨a, by rw [List.append_nil]; exact hbase, .inl rfl⟩
  | append_singleton seg op ih =>
    refine (ih ?_).apply hd
    rw [← List.append_assoc] at hd
    exact hd.left

/-- **Every switch is announced.** Between an entry of `a` and a later one of
another channel `b`, in a driven run, an announcement for `b` is fed, unless `b`
took the floor in the host tab of a closed reader and kept it. -/
theorem switch_announced {ops seg : List Op} {x y : Entry}
    (hd : Driven (ops ++ .nextFeed :: (seg ++ [.nextFeed])))
    (hx : machine.answer ops .nextFeed = [.entry a x])
    (hy : machine.answer (ops ++ .nextFeed :: seg) .nextFeed = [.entry b y]) (hab : b ≠ a) :
    (∃ label replay manual, .announce b label replay manual ∈
        machine.outFrom (machine.state (ops ++ [.nextFeed])) seg) ∨
      ∃ u op v, seg ++ [.nextFeed] = u ++ op :: v ∧ Replaces (ops ++ .nextFeed :: u) op v b := by
  have hsplit : ∀ l, ops ++ Op.nextFeed :: l = (ops ++ [.nextFeed]) ++ l := by simp
  rw [hsplit] at hd hy
  have hbase : (machine.state (ops ++ [.nextFeed])).lastReader = some a := by
    refine state_activeLast _ a ?_
    rw [state_apply]
    exact (fed_of_answer hx).reads.active
  have R : Reads (machine.state (ops ++ [.nextFeed] ++ (seg ++ [.nextFeed]))) b := by
    rw [← List.append_assoc, state_apply]
    exact (fed_of_answer hy).reads
  obtain ⟨l, hl, hcase⟩ := accounted hbase _ hd
  obtain rfl : l = b := Option.some.inj (hl.symm.trans (state_activeLast _ b R.active))
  rcases hcase with rfl | ⟨label, rp, mn, hm⟩ | ⟨u, op, v, he, hrep⟩ | ⟨sw, hsw, -⟩
  · exact absurd rfl hab
  · refine .inl ⟨label, rp, mn, ?_⟩
    rw [Lib.Machine.outFrom_append, ← Lib.Machine.state_append] at hm
    rcases List.mem_append.mp hm with hm | hm
    · exact hm
    · have hone : machine.outFrom (machine.state (ops ++ [.nextFeed] ++ seg)) [.nextFeed]
          = [.entry l y] ++ [] := congrArg (· ++ []) hy
      rw [hone] at hm
      simp at hm
  · refine .inr ⟨u, op, v, he, ?_⟩
    rw [hsplit]
    exact hrep
  · rw [R.announce] at hsw
    cases hsw

/-- Two channels with one entry each. -/
def opened : List Op :=
  [.openChannel "a" none none none, .openChannel "b" none none none, .push "a" ['x'] none,
    .push "b" ['y'] none]

/-- The entry of `"a"`, the announcement of `"b"`, the entry of `"b"`. -/
theorem switch_announced_opened :
    (∃ label replay manual, .announce "b" label replay manual ∈
        machine.outFrom (machine.state (opened ++ [.nextFeed])) [.nextFeed]) ∨
      ∃ u op v, [.nextFeed] ++ [.nextFeed] = u ++ op :: v ∧
        Replaces (opened ++ .nextFeed :: u) op v "b" :=
  switch_announced (a := "a") (b := "b") (x := ⟨1, ['x'], none⟩) (y := ⟨2, ['y'], none⟩)
    ⟨by simp [opened, Op.Manual], by decide⟩ (by decide) (by decide) (by decide)

end Router

end Sonara.L2
