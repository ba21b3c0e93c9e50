import Sonara.L2.Taken

/-!
# What the driver owes

The driver owes every text it was given: it reads the text, or it tells `on_drop` that it did not.
An entry is `Covered` while it is unread, while it is the one in flight, and once it was reported.
`Keeps` says that a stretch of the driver covers what was covered, but for what `lost` names. Every
stage of an operation keeps that: what the router is told, what is cut, what is fed, what a move
comes back to.
-/

namespace Sonara.L2

open Sonara (Text)
open L1 (ItemId QueueMode Control endsOf)

namespace Channels

/-- The item in flight reads the entry `i` of `a`. -/
def InHand (s : Channels) (a : ChannelId) (i : Nat) : Prop :=
  ∃ f, s.inFlight = some f ∧ f.channel = a ∧ f.entry = some i

/-- The entry `i` of `a` was reported dropped. -/
def Reported (s : Channels) (a : ChannelId) (i : Nat) : Prop :=
  ∃ d ∈ s.dropped, d.channel = a ∧ d.entry = i

/-- The entry is to be read yet, is being read, or was reported dropped. -/
def Covered (s : Channels) (a : ChannelId) (i : Nat) : Prop :=
  s.router.Unread a i ∨ s.InHand a i ∨ s.Reported a i

/-- The entry left its batch or was set aside. -/
def Gone (s : Channels) (a : ChannelId) (i : Nat) : Prop :=
  ∀ c, s.router.channel a = some c → i ∈ c.entryIds → i ∈ c.aside

/-- What others do leaves what is in hand, and what is gone. -/
theorem Own.inHand {s s' : Channels} (O : Own s s') {a : ChannelId} {i : Nat} (h : s'.InHand a i) :
    s.InHand a i := by
  unfold InHand at h ⊢
  rwa [O.inFlight] at h

theorem Own.gone {s s' : Channels} (O : Own s s') {a : ChannelId} {i : Nat} (h : s'.Gone a i) :
    s.Gone a i := by
  unfold Gone at h ⊢
  rwa [O.router] at h

/-! ## Stages -/

/-- The router stands behind what is in flight. -/
structure Good (s : Channels) : Prop where
  router : s.router.Sound
  took : ∀ a i, s.InHand a i → s.router.Took a i

/-- What was covered stays covered, but for what is `lost`. -/
structure Keeps (lost : ChannelId → Nat → Prop) (s s' : Channels) : Prop where
  good : s'.Good
  covered : ∀ a i, s.Covered a i → s'.Covered a i ∨ lost a i

variable {split : L1.Chunking → Text → List Text} {lost : ChannelId → Nat → Prop}
  {s s' s'' : Channels}

theorem Keeps.refl (G : s.Good) : Keeps lost s s := ⟨G, fun _ _ h => .inl h⟩

theorem Keeps.trans (K : Keeps lost s s') (K' : Keeps lost s' s'') : Keeps lost s s'' :=
  ⟨K'.good, fun a i h => (K.covered a i h).elim (K'.covered a i) .inr⟩

/-- A state with the same router, the same item in flight and the same reports. -/
theorem Good.same (G : s.Good) (hr : s'.router = s.router) (hf : s'.inFlight = s.inFlight) :
    s'.Good := by
  refine ⟨hr ▸ G.router, fun a i h => ?_⟩
  rw [hr]
  exact G.took a i (by rwa [InHand, hf] at h)

/-- With nothing in flight the router stands anywhere. -/
theorem Good.none (h : s.router.Sound) (hf : s.inFlight = none) : s.Good := by
  refine ⟨h, fun a i hand => ?_⟩
  obtain ⟨f, hsome, -⟩ := hand
  rw [hf] at hsome
  cases hsome

/-- More may be reported. -/
theorem Keeps.noted (G : s.Good) (hr : s'.router = s.router) (hf : s'.inFlight = s.inFlight)
    (hd : s.dropped ⊆ s'.dropped) : Keeps lost s s' := by
  refine ⟨G.same hr hf, fun a i h => .inl ?_⟩
  rcases h with h | h | ⟨d, hd', h⟩
  · exact .inl (hr ▸ h)
  · exact .inr (.inl (by rwa [InHand, hf]))
  · exact .inr (.inr ⟨d, hd hd', h⟩)

theorem Keeps.call (G : s.Good) (c : L1.Call) : Keeps lost s (s.call c) :=
  .noted G rfl rfl (List.Subset.refl _)

/-- Others may call the reader. -/
theorem Keeps.meet (G : s.Good) : Keeps lost s (s.meet split) :=
  meet_induct (fun _ _ K => K.trans (.call K.good _))
    (fun _ _ K => K.trans (.noted K.good rfl rfl (List.Subset.refl _))) (.refl G)

theorem Keeps.tell (G : s.Good) (k : Control) : Keeps lost s (s.tell split k) := by
  have K : Keeps lost s (s.meet split) := .meet G
  exact K.trans (.call K.good _)

theorem Keeps.report (G : s.Good) (channel : ChannelId) (entries : List Entry) (reason : String)
    (item : Option ItemId) : Keeps lost s (s.report channel entries reason item) :=
  .noted G rfl rfl (List.subset_append_left _ _)

/-- What is reported is. -/
theorem report_reported {channel : ChannelId} {entries : List Entry} {reason : String}
    {item : Option ItemId}
    {e : Entry} (he : e ∈ entries) : (s.report channel entries reason item).Reported channel e.id :=
  ⟨_, List.mem_append_right _ (List.mem_map_of_mem he), rfl, rfl⟩

/-- The unread entries of a channel, when they are reported. -/
theorem unread_reported {channel : ChannelId} {c : Channel} {i : Nat}
    (hc : s.router.channel channel = some c)
    (hi : i ∈ c.unreadIds) (reason : String) (item : Option ItemId) :
    (s.report channel (s.unread channel) reason item).Reported channel i := by
  obtain ⟨e, he, rfl⟩ := List.mem_map.mp hi
  refine report_reported ?_
  unfold unread
  rw [hc]
  exact he

/-- The router went on. -/
theorem Keeps.rerouted (G : s.Good) {r : Router} (h : r.Sound)
    (htook : ∀ a i, s.InHand a i → s.router.Took a i → r.Took a i)
    (hun : ∀ a i, s.router.Unread a i → r.Unread a i ∨ s.Reported a i ∨ lost a i) :
    Keeps lost s { s with router := r } := by
  refine ⟨⟨h, fun a i hand => htook a i hand (G.took a i hand)⟩, fun a i hc => ?_⟩
  rcases hc with hc | hc | hc
  · exact (hun a i hc).elim (fun h => .inl (.inl h)) (.imp_left fun h => .inr (.inr h))
  · exact .inl (.inr (.inl hc))
  · exact .inl (.inr (.inr hc))

/-- What is in flight is not turned away from. -/
theorem Good.turns (G : s.Good) (op : Op) (hop : ∀ f, s.inFlight = some f → ¬op.Turns f.channel) :
    ∀ a i, s.InHand a i → s.router.Took a i → (s.router.apply op).Took a i := by
  rintro a i ⟨f, hf, rfl, -⟩ htook
  exact htook.apply G.router (hop f hf)

/-- The router is told something: what leaves was reported, or is lost. -/
theorem Keeps.route (G : s.Good) (op : Op) (hop : ∀ f, s.inFlight = some f → ¬op.Turns f.channel)
    (hleave : ∀ a c i, s.router.channel a = some c → i ∈ c.unreadIds →
      Router.Leaves s.router op c i →
      s.Reported a i ∨ lost a i) :
    Keeps lost s { s with router := s.router.apply op } := by
  refine .rerouted G (Router.apply_sound G.router op) (G.turns op hop) fun a i h => ?_
  refine (Router.apply_unread G.router op h).imp_right ?_
  rintro ⟨c, hc, hi, hleaves⟩
  exact hleave a c i hc hi hleaves

/-- Nothing leaves with a gentle operation. -/
theorem Keeps.gentle (G : s.Good) (op : Op) (hop : ∀ f, s.inFlight = some f → ¬op.Turns f.channel)
    (hgentle : op.Gentle) : Keeps lost s { s with router := s.router.apply op } :=
  .rerouted G (Router.apply_sound G.router op) (G.turns op hop) fun _ _ h =>
    .inl (Router.gentle_unread G.router op hgentle h)

/-- What is in flight is let go: it was reported, or is lost. -/
theorem Keeps.letGo (G : s.Good) (h : ∀ a i, s.InHand a i → s.Reported a i ∨ lost a i) :
    Keeps lost s { s with inFlight := none } := by
  refine ⟨.none G.router rfl, fun a i hc => ?_⟩
  rcases hc with hc | hc | hc
  · exact .inl (.inl hc)
  · exact (h a i hc).imp_left fun h => .inr (.inr h)
  · exact .inl (.inr (.inr hc))

/-! ## Feeding -/

variable (split) in
/-- What `hand_over` leaves alone. -/
theorem handOver_leaves (interrupt : Bool) (channel : ChannelId) (entry : Option Nat) (text : Text)
    (label : Option String) :
    (s.handOver split interrupt channel entry text label).1.router = s.router ∧
      (s.handOver split interrupt channel entry text label).1.dropped = s.dropped ∧
      ∃ f, (s.handOver split interrupt channel entry text label).1.inFlight = some f ∧
      f.channel = channel ∧
        f.entry = entry := by
  -- what the reader takes, and what others do meanwhile, is about the reader
  obtain ⟨hrouter, hdropped⟩ : (s.speakAs split text interrupt label).2.router = s.router ∧
      (s.speakAs split text interrupt label).2.dropped = s.dropped := by
    unfold speakAs
    cases interrupt with
    | true =>
      have O := meet_own split s
      exact ⟨O.router, O.dropped⟩
    | false =>
      have O := others_own split s s.meanwhile.atFeed
      exact ⟨O.router, O.dropped⟩
  unfold handOver
  dsimp only
  generalize s.speakAs split text interrupt label = out at hrouter hdropped ⊢
  have M := meet_own split out.2
  have T := tell_own split (out.2.meet split) .skip
  split
  · split
    · exact ⟨T.router.trans (M.router.trans hrouter), T.dropped.trans (M.dropped.trans hdropped),
        _, rfl, rfl, rfl⟩
    · exact ⟨M.router.trans hrouter, M.dropped.trans hdropped, _, rfl, rfl, rfl⟩
  · exact ⟨hrouter, hdropped, _, rfl, rfl, rfl⟩

/-- **A feed loses nothing**: what is not unread any more is in flight. -/
theorem Keeps.feedLoop (interrupt : Bool) (n : Nat) (h : s.router.Sound) (hf : s.inFlight = none) :
    Keeps lost s (s.feedLoop split interrupt n).1 := by
  induction n generalizing s with
  | zero => exact .refl (.none h hf)
  | succ n ih =>
    have hsound := Router.apply_sound h .nextFeed
    have htook := fun a e => Router.fed_took (a := a) (e := e) h
    -- An unread entry stays unread, or is the one fed.
    have hunread : ∀ a i, s.router.Unread a i →
        s.router.nextFeed.1.Unread a i ∨ ∃ e, s.router.nextFeed.2 = some (.entry a e) ∧
          e.id = i := by
      intro a i hun
      refine (Router.apply_unread h .nextFeed hun).imp_right ?_
      rintro ⟨c, hc, -, hleaves⟩
      rw [← Router.channel_id hc]
      exact Router.leaves_feed hleaves
    have hsound : s.router.nextFeed.1.Sound := hsound
    have hquiet : (∀ a e, s.router.nextFeed.2 ≠ some (.entry a e)) →
        Keeps lost s { s with router := s.router.nextFeed.1 } := by
      intro hno
      refine ⟨.none hsound hf, fun a i hc => .inl ?_⟩
      rcases hc with hc | hc | hc
      · refine .inl ((hunread a i hc).resolve_right ?_)
        rintro ⟨e, he, -⟩
        exact hno a e he
      · exact .inr (.inl hc)
      · exact .inr (.inr hc)
    unfold Channels.feedLoop
    cases hnext : s.router.nextFeed with
    | mk r o =>
      rw [hnext] at hsound hunread hquiet htook
      cases o with
      | none => exact hquiet (by intro a e hentry; cases hentry)
      | some feed =>
        cases feed with
        | announce channel label replay manual =>
          have K := hquiet (by intro a e hentry; cases hentry)
          dsimp only
          split
          · exact K.trans (ih hsound hf)
          next text _ =>
            obtain ⟨hrouter, hdropped, f, hflight, -, hentry⟩ := handOver_leaves split
              (s := { s with router := r }) interrupt channel none text label
            refine K.trans ⟨⟨hrouter ▸ hsound, fun a i hand => ?_⟩, fun a i hc => .inl ?_⟩
            · obtain ⟨g, hg, -, he⟩ := hand
              rw [hflight] at hg
              obtain rfl := Option.some.inj hg
              rw [hentry] at he
              cases he
            · rcases hc with hc | ⟨g, hg, -⟩ | ⟨d, hd, hc⟩
              · exact .inl (by rwa [hrouter])
              · cases hf.symm.trans hg
              · exact .inr (.inr ⟨d, by rwa [hdropped], hc⟩)
        | entry channel e =>
          dsimp only
          obtain ⟨hrouter, hdropped, f, hflight, hchannel, hentry⟩ := handOver_leaves split
            (s := { s with router := r }) interrupt channel (some e.id) e.text
            (e.label.or ((r.channel channel).bind Channel.label))
          refine ⟨⟨hrouter ▸ hsound, fun a i hand => ?_⟩, fun a i hc => .inl ?_⟩
          · obtain ⟨g, hg, ha, he⟩ := hand
            rw [hflight] at hg
            obtain rfl := Option.some.inj hg
            obtain rfl := hchannel.symm.trans ha
            obtain rfl := Option.some.inj (hentry.symm.trans he)
            rw [hrouter]
            exact htook channel e rfl
          · rcases hc with hc | ⟨g, hg, -⟩ | ⟨d, hd, hc⟩
            · rcases hunread a i hc with hc | ⟨e', he', rfl⟩
              · exact .inl (by rwa [hrouter])
              · obtain ⟨rfl, rfl⟩ := Feed.entry.inj (Option.some.inj he')
                exact .inr (.inl ⟨f, hflight, hchannel, hentry⟩)
            · cases hf.symm.trans hg
            · exact .inr (.inr ⟨d, by rwa [hdropped], hc⟩)

theorem Keeps.feed (interrupt : Bool) (h : s.router.Sound) (hf : s.inFlight = none) :
    Keeps lost s (s.feed split interrupt).1 := .feedLoop interrupt 3 h hf

theorem Keeps.pumpFed (G : s.Good) : Keeps lost s (s.pumpFed split).1 := by
  unfold Channels.pumpFed
  split
  · exact .refl G
  next hf =>
    have K : Keeps lost s (s.meet split) := .meet G
    have hf' : (s.meet split).inFlight = none :=
      (meet_own split s).inFlight.trans (Option.not_isSome_iff_eq_none.mp hf)
    dsimp only
    split
    · exact K
    · exact K.trans (.feed false K.good.router hf')

theorem Keeps.pump (G : s.Good) : Keeps lost s (s.pump split) := .pumpFed G

/-! ## Cutting -/

theorem reportCut_reported {channel : ChannelId} {i : Nat} (hand : s.InHand channel i)
    (reason : String) :
    (s.reportCut channel reason).Reported channel i := by
  obtain ⟨f, hf, hchannel, he⟩ := hand
  unfold reportCut cutEntry
  rw [hf, Option.filter_some, hchannel, beq_self_eq_true, if_pos rfl, Option.bind_some, he]
  exact ⟨_, List.mem_append_right _ (List.mem_singleton_self _), rfl, rfl⟩

theorem reportCut_route (r : Router) (channel : ChannelId) (reason : String) :
    { s with router := r }.reportCut channel reason =
    { s.reportCut channel reason with router := r } := by
  unfold reportCut
  rw [show ({ s with router := r } : Channels).cutEntry channel = s.cutEntry channel from rfl]
  split <;> rfl

theorem Keeps.reportCut (G : s.Good) (channel : ChannelId) (reason : String) :
    Keeps lost s (s.reportCut channel reason) := by
  unfold Channels.reportCut
  split
  · exact .report G _ _ _ _
  · exact .refl G

theorem reported_reportCut {a : ChannelId} {i : Nat} (h : s.Reported a i) (channel : ChannelId)
    (reason : String) :
    (s.reportCut channel reason).Reported a i := by
  obtain ⟨d, hd, h⟩ := h
  unfold reportCut
  split
  · exact ⟨d, List.mem_append_left _ hd, h⟩
  · exact ⟨d, hd, h⟩

variable (split) in
/-- `channel` is stopped: what of it was in flight was reported, and is cut. -/
theorem Keeps.stops (G : s.Good) (op : Op) (channel : ChannelId)
    (hop : ∀ a, op.Turns a → a = channel)
    (hleave : ∀ a c i, s.router.channel a = some c → i ∈ c.unreadIds →
      Router.Leaves s.router op c i →
      s.Reported a i ∨ lost a i)
    (hhand : ∀ i, s.InHand channel i → s.Reported channel i) :
    Keeps lost s ({ s with router := s.router.apply op }.cutIf split channel none) := by
  unfold cutIf
  dsimp only
  split
  next hany =>
    obtain ⟨f, hf, hchannel⟩ := (Option.any_eq_true _ _).mp hany
    have K : Keeps lost s { s with inFlight := none } := .letGo G fun a i hand => by
      obtain ⟨g, hg, ha, he⟩ := hand
      obtain rfl := Option.some.inj (hf.symm.trans hg)
      obtain rfl : channel = a := (eq_of_beq hchannel).symm.trans ha
      exact .inl (hhand i ⟨f, hf, ha, he⟩)
    have K' : Keeps lost { s with inFlight := none } _ :=
      .route K.good op (fun f hf => nomatch hf) hleave
    have K'' : Keeps lost { s with inFlight := none, router := s.router.apply op } _ :=
      .gentle K'.good .done (fun f hf => nomatch hf) trivial
    exact K.trans (K'.trans (K''.trans (.tell K''.good .skip)))
  next hno =>
    refine .route G op (fun f hf hturns => hno ?_) hleave
    rw [show s.inFlight = some f from hf, Option.any_some, hop f.channel hturns, beq_self_eq_true]

variable (split) in
/-- A flush of `channel`, with all it drops reported. -/
theorem Keeps.flushes (G : s.Good) (channel : ChannelId) (reason : String) :
    Keeps lost s ({ s.report channel (s.unread channel) reason none with
      router := s.router.apply (.flush (some channel)) }.cutIf split channel (some reason)) := by
  have K : Keeps lost s (s.report channel (s.unread channel) reason none) := .report G _ _ _ _
  have K' : Keeps lost (s.report channel (s.unread channel) reason none) _ :=
    .reportCut K.good channel reason
  have hroute := reportCut_route (s := s.report channel (s.unread channel) reason none)
    (s.router.apply (.flush (some channel))) channel reason
  refine K.trans (K'.trans ?_)
  show Keeps lost _ (({ s.report channel (s.unread channel) reason none with
      router := s.router.apply (.flush (some channel)) }.reportCut channel reason).cutIf
      split channel none)
  rw [hroute]
  have hrouter : ((s.report channel (s.unread channel) reason none).reportCut channel
      reason).router = s.router := by
    obtain ⟨d, hd⟩ := reportCut_eq (s.report channel (s.unread channel) reason none) channel reason
    rw [hd]
    rfl
  have hflight : ((s.report channel (s.unread channel) reason none).reportCut channel
      reason).inFlight = s.inFlight := by
    obtain ⟨d, hd⟩ := reportCut_eq (s.report channel (s.unread channel) reason none) channel reason
    rw [hd]
    rfl
  have K'' : Keeps lost _ _ := .stops split K'.good (.flush (some channel)) channel (fun a h => ?_)
    (fun a c i hc hi h => ?_)
    (fun i hand => ?_)
  · rwa [hrouter] at K''
  · rcases h with h | h
    · exact (Option.some.inj h).symm
    · cases h
  · rw [hrouter] at hc h
    obtain rfl : channel = a :=
      (Option.some.inj ((Router.leaves_flush h).resolve_right nofun)).trans (Router.channel_id hc)
    exact .inl (reported_reportCut (unread_reported hc hi reason none) channel reason)
  · refine reportCut_reported ?_ reason
    unfold InHand at hand ⊢
    rwa [hflight] at hand

/-! ## Moving on -/

/-- **What is cut for `t` is read again later**, unless it is `t`'s own or there is nothing to come
back to. -/
theorem Keeps.switches (G : s.Good) {r : Router} (t : ChannelId) (hsound : r.Sound)
    (hun : ∀ a i, s.router.Unread a i → r.Unread a i ∨ s.Reported a i ∨ lost a i)
    (hbatch : ∀ a c, a ≠ t → s.router.channel a = some c →
      ∃ c', r.channel a = some c' ∧ Router.SameBatch c c')
    (hlost : ∀ a i, s.InHand a i → a = t ∨ s.Gone a i → lost a i) :
    Keeps lost s ({ s with router := r, inFlight := none }.rewindOther s.inFlight t) := by
  -- Every case but that of the step back.
  have hplain : (∀ a i, s.InHand a i → lost a i) →
      Keeps lost s { s with router := r, inFlight := none } := by
    intro hhand
    refine ⟨.none hsound rfl, fun a i hc => ?_⟩
    rcases hc with hc | hc | hc
    · exact (hun a i hc).elim (fun h => .inl (.inl h)) (.imp_left fun h => .inr (.inr h))
    · exact .inr (hhand a i hc)
    · exact .inl (.inr (.inr hc))
  unfold rewindOther
  cases hf : s.inFlight with
  | none =>
    refine hplain fun a i hand => ?_
    obtain ⟨f, hsome, -⟩ := hand
    cases hf.symm.trans hsome
  | some f =>
    have hthis : ∀ {a i}, s.InHand a i → f.channel = a ∧ f.entry = some i := by
      rintro a i ⟨g, hg, h⟩
      obtain rfl := Option.some.inj (hf.symm.trans hg)
      exact h
    rw [Option.filter_some]
    split
    next hother =>
      split at hother
      next hne => cases hother
      next heq =>
        refine hplain fun a i hand => hlost a i hand (.inl ?_)
        rw [← (hthis hand).1]
        simpa using heq
    next g hg =>
      split at hg
      next hne =>
        obtain rfl := Option.some.inj hg
        have hne : f.channel ≠ t := by simpa using hne
        cases he : f.entry with
        | none =>
          refine hplain fun a i hand => ?_
          rw [he] at hthis
          exact nomatch (hthis hand).2
        | some e =>
          dsimp only
          have hrewound : (r.apply (.rewind f.channel e)).Sound := Router.apply_sound hsound _
          refine ⟨.none hrewound rfl, fun a i hc => ?_⟩
          rcases hc with hc | hc | hc
          · rcases hun a i hc with h | h | h
            · exact .inl (.inl (Router.gentle_unread hsound (.rewind f.channel e) trivial h))
            · exact .inl (.inr (.inr h))
            · exact .inr h
          · obtain ⟨rfl, hi⟩ := hthis hc
            obtain rfl := Option.some.inj (he.symm.trans hi)
            by_cases hgone : s.Gone f.channel e
            · exact .inr (hlost _ _ hc (.inr hgone))
            · unfold Gone at hgone
              push Not at hgone
              obtain ⟨c, hchan, hmem, haside⟩ := hgone
              obtain ⟨c₀, hc₀, hlast⟩ := (G.took _ _ hc).last
              obtain rfl := Option.some.inj (hchan.symm.trans hc₀)
              obtain ⟨c', hc', hsame⟩ := hbatch f.channel c hne hchan
              refine .inl (.inl ⟨(c'.rewind e).1, ?_, ?_⟩)
              · refine Router.channel_update_self (fun c => ?_) hc'
                obtain ⟨n, hn⟩ := c.rewind_eq e
                rw [hn]
              · refine Router.rewind_unread (hsound.batches c' (Router.mem_of_channel hc')) ?_ ?_
                · rw [hsame.readIds]
                  exact hlast hmem
                · rwa [hsame.aside]
          · exact .inl (.inr (.inr hc))
      next heq => cases hg

variable (split) in
/-- What is fed after a move; with nothing fed the reader may be skipped. -/
theorem Keeps.refed (K : Keeps lost s s') (hf : s'.inFlight = none) (skip : Bool) :
    Keeps lost s (if skip then (s'.feed split true).1.tell split .skip else
      (s'.feed split true).1) := by
  have K' : Keeps lost s' (s'.feed split true).1 := .feed true K.good.router hf
  cases skip with
  | true => exact K.trans (K'.trans (.tell K'.good .skip))
  | false => exact K.trans K'

variable (split) in
/-- The end of a move may skip what still plays. -/
theorem Keeps.moves (K : Keeps lost s s') (hf : s'.inFlight = none) :
    Keeps lost s (skipPlaying split (s'.feed split true)) := by
  have K' : Keeps lost s' (s'.feed split true).1 := .feed true K.good.router hf
  have K₂ := K.trans K'
  unfold skipPlaying
  generalize s'.feed split true = out at K₂ ⊢
  split
  · have K₃ : Keeps lost out.1 (out.1.meet split) := .meet K₂.good
    dsimp only
    split
    · exact (K₂.trans K₃).trans (.tell K₃.good .skip)
    · exact K₂.trans K₃
  · exact K₂

theorem rewindOther_inFlight (s : Channels) (cut : Option InFlight) (channel : ChannelId) :
    (s.rewindOther cut channel).inFlight = s.inFlight := by
  obtain ⟨r, -, h⟩ := rewindOther_eq s cut channel
  rw [h]

/-- `read_from` and the steps: the channel's cursor was set, and it is fed. -/
theorem Keeps.moved (G : s.Good) (op : Op) (t : ChannelId)
    (hspares : ∀ a, a ≠ t → s.router.Spares a op)
    (hleave : ∀ a c i, s.router.channel a = some c → i ∈ c.unreadIds →
      Router.Leaves s.router op c i →
      s.Reported a i ∨ lost a i)
    (hlost : ∀ a i, s.InHand a i → a = t ∨ s.Gone a i → lost a i) :
    Keeps lost s
      ({ s with router := s.router.apply op, inFlight := none }.rewindOther s.inFlight t) := by
  refine .switches G t (Router.apply_sound G.router op) (fun a i h => ?_)
    (fun a c hne hc => (hspares a hne).batch op G.router hc) hlost
  refine (Router.apply_unread G.router op h).imp_right ?_
  rintro ⟨c, hc, hi, hleaves⟩
  exact hleave a c i hc hi hleaves

theorem Keeps.cutAndFeed {t : ChannelId} {r : Router}
    (K : Keeps lost s ({ s with router := r, inFlight := none }.rewindOther s.inFlight t)) :
    Keeps lost s ({ s with router := r }.cutAndFeed split t) :=
  K.moves split (rewindOther_inFlight _ _ _)

/-- Reading from an entry keeps every text accounted for; what it passes over may be lost. -/
theorem readFrom_keeps (G : s.Good) (channel : ChannelId) (entry : Option Nat)
    (hpassed : ∀ c i e, entry = some e → s.router.channel channel = some c → c.Before i e →
      lost channel i) (hlost : ∀ a i, s.InHand a i → a = channel ∨ s.Gone a i → lost a i) :
    Keeps lost s (s.readFrom split channel entry).1 := by
  unfold readFrom
  cases h : s.router.replayFrom channel entry with
  | mk r ok =>
    cases ok with
    | false => exact .refl G
    | true =>
      have hr : s.router.apply (.replayFrom channel entry) = r := congrArg Prod.fst h
      dsimp only
      rw [← hr]
      refine .cutAndFeed (.moved G _ channel (fun a hne => Ne.symm hne)
    (fun a c i hc _ hleaves => ?_) hlost)
      cases entry with
      | none => exact absurd hleaves (Router.gentle_leaves rfl)
      | some e =>
        obtain ⟨hid, hbefore⟩ := Router.leaves_read hleaves (.inl rfl)
        obtain rfl := hid.trans (Router.channel_id hc)
        exact .inr (hpassed c i e rfl hc hbefore)

/-- Reading one entry keeps every text accounted for; it passes over none. -/
theorem stepTo_keeps (G : s.Good) (channel : ChannelId) (entry : Nat)
    (hpassed : ∀ c i, s.router.channel channel = some c → i ∈ c.unreadIds → ¬c.Before i entry)
    (hlost : ∀ a i, s.InHand a i → a = channel ∨ s.Gone a i → lost a i) :
    Keeps lost s (s.stepTo split channel entry).1 := by
  unfold stepTo
  cases h : s.router.stepTo channel entry with
  | mk r ok =>
    cases ok with
    | false => exact .refl G
    | true =>
      have hr : s.router.apply (.stepTo channel entry) = r := congrArg Prod.fst h
      dsimp only
      rw [← hr]
      refine .cutAndFeed (.moved G _ channel (fun a hne => Ne.symm hne)
    (fun a c i hc hi hleaves => ?_) hlost)
      obtain ⟨hid, hbefore⟩ := Router.leaves_read hleaves (.inr rfl)
      obtain rfl := hid.trans (Router.channel_id hc)
      exact absurd hbefore (hpassed c i hc hi)

/-- `next_channel` and an interrupt: another channel takes the floor, and is fed. -/
theorem Keeps.switchTo {t : ChannelId} {r : Router} {takes : Router → Router}
    (K : Keeps lost s ({ s with router := r, inFlight := none }.rewindOther s.inFlight t))
    (htakes : ∀ u : Channels, u.Good → u.inFlight = none →
      Keeps lost u { u with router := takes u.router }) :
    Keeps lost s ({ s with router := r }.switchTo split t takes).1 := by
  have hnone := rewindOther_inFlight { s with router := r, inFlight := none } s.inFlight t
  exact (K.trans (htakes _ K.good hnone)).refed split hnone _

end Channels

end Sonara.L2
