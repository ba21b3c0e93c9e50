import Sonara.L2.Covered
import Sonara.L2.Driven

/-!
# Dropped text is reported

Operation by operation, the driver covers what it covered (`step_keeps`), but for the entries that
`Goes` names: the reader ended their item, the user set them aside or read on past them, or a move
cut them. So of every text ever pushed a run can say where it is (`text_accounted`).
-/

namespace Sonara.L2

open Sonara (Text)
open L1 (ItemId QueueMode Control endsOf)

namespace Channels

/-- The channel a move or an interrupt cuts the item in flight for. -/
def movesTo (s : Channels) : DriverOp → Option ChannelId
  | .speak channel _ _ interrupt _ =>
    if interrupt && decide (channel ∉ s.router.muted) then some channel else none
  | .readFrom channel _ => some channel
  | .back | .forward | .control .restart none _ => s.inFlight.map InFlight.channel
  | .control .restart (some channel) _ => some channel
  | .nextChannel => s.router.nextChannel.2.map Prod.fst
  | _ => none

/-- How an entry that was not read to its end is left without a report. -/
inductive Goes (s : Channels) (op : DriverOp) (a : ChannelId) (i : Nat) : Prop
  /-- The reader ended the item that reads it. -/
  | ended {f : InFlight} (flight : s.inFlight = some f) (reads : f.channel = a ∧ f.entry = some i)
      (delivers : op = .deliver ∧ s.ended.head? = some f.id)
  | aside (sets : op = .setAside a i true)
  /-- The user read on from a later entry of its batch. -/
  | passed {c : Channel} {entry : Nat} (moves : op = .readFrom a (some entry))
      (isOpen : s.router.channel a = some c) (before : c.Before i entry)
  /-- It was cut by a move or an interrupt: of its own channel, or with nothing to come back to. -/
  | cut {t : ChannelId} (moves : s.movesTo op = some t) (hand : s.InHand a i)
    (why : a = t ∨ s.Gone a i)

variable {split : L1.Chunking → Text → List Text} {lost : ChannelId → Nat → Prop}
  {s s' s'' : Channels}

/-- What goes is about the driver's own state. -/
theorem Goes.meanwhile {m : Meanwhile} {op : DriverOp} {a : ChannelId} {i : Nat}
    (h : Goes { s with meanwhile := m } op a i) : s.Goes op a i := by
  cases h with
  | ended flight reads delivers => exact .ended flight reads delivers
  | aside sets => exact .aside sets
  | passed moves isOpen before => exact .passed moves isOpen before
  | cut moves hand why => exact .cut (by cases op <;> exact moves) hand why

/-! ## Restarts -/

/-- The router is told something while nothing is in flight, and what comes next is fed. -/
theorem Keeps.idle (G : s.Good) (hf : s.inFlight = none) (op : Op) (hop : op.Gentle) :
    Keeps lost s ({ s with router := s.router.apply op }.pump split) := by
  have K : Keeps lost s { s with router := s.router.apply op } :=
    .gentle G op (fun f h => nomatch hf.symm.trans h) hop
  exact K.trans (.pump K.good)

/-- A restart keeps every text accounted for. -/
theorem restart_keeps (G : s.Good)
    (hlost : ∀ f, s.inFlight = some f → ∀ a i, s.InHand a i → a = f.channel ∨ s.Gone a i →
      lost a i) :
    Keeps lost s (s.restart split) := by
  unfold restart
  split
  next f hf => exact readFrom_keeps G f.channel none nofun (hlost f hf)
  next hf =>
    have K : Keeps lost s (s.meet split) := .meet G
    have hf' : (s.meet split).inFlight = none := (meet_own split s).inFlight.trans hf
    generalize s.meet split = t at K hf' ⊢
    dsimp only
    split
    · exact K.trans (.tell K.good .restart)
    · split
      · exact K.trans (.tell K.good .restart)
      next e _ =>
        cases h : t.router.replay e with
        | mk r ok =>
          have hr : t.router.apply (.replay e) = r := congrArg Prod.fst h
          cases ok with
          | true =>
            dsimp only
            rw [← hr]
            exact K.trans (.idle K.good hf' (.replay e) trivial)
          | false =>
            dsimp only
            split
            · exact K
            · exact K.trans (.tell K.good .restart)

/-- Restarting another channel than the one in flight keeps every text accounted for. -/
theorem restartChannel_keeps (G : s.Good) (channel : ChannelId)
    (hother : ∀ f, s.inFlight = some f → f.channel ≠ channel)
    (hlost : ∀ a i, s.InHand a i → a = channel ∨ s.Gone a i → lost a i) :
    Keeps lost s (s.restartChannel split channel) := by
  unfold restartChannel
  cases h : s.router.replay channel with
  | mk r ok =>
    have hr : s.router.apply (.replay channel) = r := congrArg Prod.fst h
    cases ok with
    | false => exact .refl G
    | true =>
      have K : Keeps lost s ({ s with router := r, inFlight := none }.rewindOther s.inFlight
          channel) := by
        rw [← hr]
        exact .moved G _ channel (fun a hne => Ne.symm hne)
          (fun a c i _ _ hleaves => absurd hleaves (Router.gentle_leaves trivial)) hlost
      have K' := K.moves split (rewindOther_inFlight _ _ _)
      unfold rewindOther at K'
      dsimp only
      cases hf : s.inFlight with
      | none =>
        rw [hf] at K'
        exact K'
      | some f =>
        rw [hf, Option.filter_some, if_pos (by simpa using hother f hf)] at K'
        rw [Option.bind_some]
        dsimp only at K'
        cases he : f.entry with
        | none =>
          rw [he] at K'
          exact K'
        | some e =>
          rw [he] at K'
          exact K'

/-! ## Stops -/

/-- The unread entries of these channels are reported. -/
theorem reports_keeps (G : s.Good) (ids : List ChannelId) (reason : String) :
    Keeps lost s (ids.foldl (fun s id => s.report id (s.unread id) reason none) s) ∧
      (ids.foldl (fun s id => s.report id (s.unread id) reason none) s).router = s.router ∧
      (∀ a i, s.Reported a i →
        (ids.foldl (fun s id => s.report id (s.unread id) reason none) s).Reported a i) ∧
      ∀ a ∈ ids, ∀ i, s.router.Unread a i →
        (ids.foldl (fun s id => s.report id (s.unread id) reason none) s).Reported a i := by
  induction ids generalizing s with
  | nil => exact ⟨.refl G, rfl, fun a i h => h, fun a ha => nomatch ha⟩
  | cons id ids ih =>
    have K : Keeps lost s (s.report id (s.unread id) reason none) := .report G _ _ _ _
    obtain ⟨hkeeps, hrouter, hreported, hunread⟩ := ih K.good
    refine ⟨K.trans hkeeps, hrouter, fun a i h => hreported a i ?_, fun a ha i h => ?_⟩
    · obtain ⟨d, hd, h⟩ := h
      exact ⟨d, List.mem_append_left _ hd, h⟩
    · rcases List.mem_cons.mp ha with rfl | ha
      · obtain ⟨c, hc, hi⟩ := h
        exact hreported a i (unread_reported hc hi reason none)
      · exact hunread a ha i h

/-- **A stop of everything** reports everything. -/
theorem stopAll_keeps (G : s.Good) (reason : String) : Keeps lost s (s.stopAll split reason) := by
  unfold stopAll
  dsimp only
  obtain ⟨K, hrouter, -, hunread⟩ : Keeps lost s _ ∧ _ := reports_keeps G s.router.ids reason
  generalize s.router.ids.foldl (fun s id => s.report id (s.unread id) reason none) s = t
    at K hrouter hunread ⊢
  -- Everything unread is reported, and so is what is in flight.
  have hstop : ∀ u : Channels, u.Good → u.router = t.router →
      (∀ a i, t.Reported a i → u.Reported a i) →
      (∀ a i, u.InHand a i → u.Reported a i) →
      Keeps lost u
        ({ u with router := (u.router.flush none).1.done, inFlight := none }.tell split .stop) := by
    intro u hgood hrouter' hmore hhand
    have K₁ : Keeps lost u { u with inFlight := none } :=
      .letGo hgood fun a i hand => .inl (hhand a i hand)
    have K₂ : Keeps lost { u with inFlight := none }
        { u with inFlight := none, router := u.router.apply (.flush none) } := by
      refine .route K₁.good _ (fun f hf => nomatch hf) fun a c i hc hi _ => .inl ?_
      have hc : s.router.channel a = some c := by rwa [← hrouter, ← hrouter']
      exact hmore a i (hunread a (Router.mem_ids_of_channel hc) i ⟨c, hc, hi⟩)
    have K₃ : Keeps lost { u with inFlight := none, router := u.router.apply (.flush none) } _ :=
      .gentle K₂.good .done (fun f hf => nomatch hf) trivial
    exact K₁.trans (K₂.trans (K₃.trans (.tell K₃.good .stop)))
  cases hf : t.inFlight with
  | none =>
    refine K.trans (hstop t K.good rfl (fun a i h => h) fun a i hand => ?_)
    obtain ⟨f, hsome, -⟩ := hand
    cases hf.symm.trans hsome
  | some f =>
    have K' : Keeps lost t (t.reportCut f.channel reason) := .reportCut K.good _ _
    obtain ⟨d, hd⟩ := reportCut_eq t f.channel reason
    refine K.trans (K'.trans (hstop _ K'.good (by rw [hd]) (fun a i h => reported_reportCut h _ _)
      fun a i hand => ?_))
    have hand : t.InHand a i := by
      rw [hd] at hand
      exact hand
    obtain ⟨g, hg, rfl, he⟩ := hand
    obtain rfl := Option.some.inj (hf.symm.trans hg)
    exact reportCut_reported ⟨f, hf, rfl, he⟩ reason

/-- A cut of the channel's item keeps every text accounted for. -/
theorem cutIf_keeps (G : s.Good) (op : Op) (channel : ChannelId) (reason : String)
    (hop : ∀ a, op.Turns a → a = channel)
    (hleave : ∀ c i, ¬Router.Leaves s.router op c i) :
    Keeps lost s ({ s with router := s.router.apply op }.cutIf split channel (some reason)) := by
  have K : Keeps lost s (s.reportCut channel reason) := .reportCut G channel reason
  obtain ⟨d, hd⟩ := reportCut_eq s channel reason
  show Keeps lost s (({ s with router := s.router.apply op }.reportCut channel reason).cutIf
    split channel none)
  rw [reportCut_route]
  refine K.trans ?_
  have K' : Keeps lost _ _ := .stops split K.good op channel hop (fun a c i _ _ h => ?_)
    (fun i hand => ?_)
  · rw [hd] at K' ⊢
    exact K'
  · rw [hd] at h
    exact absurd h (hleave c i)
  · refine reportCut_reported ?_ reason
    rw [hd] at hand
    exact hand

/-- Every control keeps every text accounted for. -/
theorem control_keeps (G : s.Good) (k : Control) (channel : Option ChannelId) (reason : String)
    (hlost : ∀ t, s.movesTo (.control k channel reason) = some t → ∀ a i, s.InHand a i →
      a = t ∨ s.Gone a i → lost a i) :
    Keeps lost s (s.control split k channel reason).1 := by
  unfold control
  cases channel with
  | none =>
    cases k with
    | stop => exact stopAll_keeps G reason
    | restart =>
      exact restart_keeps G fun f hf => hlost f.channel (congrArg (Option.map InFlight.channel) hf)
    | _ => exact .tell G _
  | some ch =>
    dsimp only
    split
    · exact .refl G
    · cases k with
      | stop =>
        have K : Keeps lost s _ := .flushes split G ch reason
        exact K.trans (.pump K.good)
      | restart =>
        dsimp only
        split
        · exact .tell G _
        next hother =>
          refine restartChannel_keeps G ch (fun f hf heq => hother ?_) (hlost ch rfl)
          rw [hf, Option.any_some, heq, beq_self_eq_true]
      | _ =>
        dsimp only
        split
        · exact .tell G _
        · exact .refl G

/-- A cut of the item in flight leaves none. -/
theorem cutIf_none {f : InFlight} (hf : s.inFlight = some f) (reason : Option String) :
    (s.cutIf split f.channel reason).inFlight = none := by
  have hcut : ∀ d, (cutIf split { s with dropped := d } f.channel none).inFlight = none := by
    intro d
    have hany : s.inFlight.any (·.channel == f.channel) = true := by
      rw [hf, Option.any_some, beq_self_eq_true]
    unfold cutIf
    dsimp only
    rw [if_pos hany]
    exact (tell_own split _ .skip).inFlight
  cases reason with
  | none => exact hcut s.dropped
  | some reason =>
    obtain ⟨d, hd⟩ := reportCut_eq s f.channel reason
    show (cutIf split (s.reportCut f.channel reason) f.channel none).inFlight = none
    rw [hd]
    exact hcut d

/-- What is read is stopped, and nothing is in flight then. -/
theorem stopRead_keeps (G : s.Good) (reason : String) :
    Keeps lost s (s.stopRead split reason).1 ∧ (s.stopRead split reason).1.inFlight = none := by
  unfold stopRead
  cases hf : s.inFlight with
  | none =>
    have K : Keeps lost s (s.meet split) := .meet G
    have hf' : (s.meet split).inFlight = none := (meet_own split s).inFlight.trans hf
    generalize s.meet split = t at K hf' ⊢
    dsimp only
    split
    · exact ⟨K.trans (.tell K.good .skip), (tell_own split t .skip).inFlight.trans hf'⟩
    · exact ⟨K, hf'⟩
  | some f =>
    dsimp only
    split
    next hnone =>
      have K : Keeps lost s (s.report f.channel (s.unread f.channel) reason none) :=
        .report G _ _ _ _
      have K₁ : Keeps lost (s.report f.channel (s.unread f.channel) reason none)
          { s.report f.channel (s.unread f.channel) reason none with inFlight := none } := by
        refine .letGo K.good fun a i hand => ?_
        obtain ⟨g, hg, -, he⟩ := hand
        obtain rfl := Option.some.inj (hf.symm.trans hg)
        rw [he] at hnone
        cases hnone
      have K₂ : Keeps lost { s.report f.channel (s.unread f.channel) reason none with
        inFlight := none }
          { s.report f.channel (s.unread f.channel) reason none with
            inFlight := none, router := s.router.apply (.flush (some f.channel)) } := by
        refine .route K₁.good _ (fun f hf => nomatch hf) fun a c i hc hi hleaves => .inl ?_
        obtain rfl : f.channel = a :=
          (Option.some.inj ((Router.leaves_flush hleaves).resolve_right nofun)).trans
            (Router.channel_id hc)
        exact unread_reported (s := s) hc hi reason none
      have K₃ : Keeps lost _ _ := .gentle K₂.good .done (fun f hf => nomatch hf) trivial
      exact ⟨K.trans (K₁.trans (K₂.trans (K₃.trans (.tell K₃.good .skip)))),
        (tell_own split _ .skip).inFlight⟩
    next hsome => exact ⟨.flushes split G f.channel reason, cutIf_none (by exact hf) _⟩

/-- Flushing one channel reports what it had unread. -/
theorem flushOther_keeps (G : s.Good) (hf : s.inFlight = none) (reason : String)
    (ids : List ChannelId) (id : ChannelId) : Keeps lost s (flushOther reason (s, ids) id).1 ∧
      (flushOther reason (s, ids) id).1.inFlight = none := by
  unfold flushOther
  split
  · exact ⟨.refl G, hf⟩
  · have K : Keeps lost s (s.report id (s.unread id) reason none) := .report G _ _ _ _
    have K' : Keeps lost (s.report id (s.unread id) reason none)
        { s.report id (s.unread id) reason none with
          router := s.router.apply (.flush (some id)) } := by
      refine .route K.good _ (fun f h => nomatch hf.symm.trans h) fun a c i hc hi hleaves => .inl ?_
      obtain rfl : id = a :=
        (Option.some.inj ((Router.leaves_flush hleaves).resolve_right nofun)).trans
          (Router.channel_id hc)
      exact unread_reported (s := s) hc hi reason none
    exact ⟨K.trans K', hf⟩

theorem flushOthers_keeps (reason : String) (others : List ChannelId)
    (x : Channels × List ChannelId)
    (G : x.1.Good) (hf : x.1.inFlight = none) :
    Keeps lost x.1 (others.foldl (flushOther reason) x).1 := by
  induction others generalizing x with
  | nil => exact .refl G
  | cons id others ih =>
    obtain ⟨K, hnone⟩ : Keeps lost x.1 _ ∧ _ := flushOther_keeps G hf reason x.2 id
    exact K.trans (ih _ K.good hnone)

/-- Flushing many reports what they had unread. -/
theorem flushWith_keeps (G : s.Good) (reason : String) (also : ChannelId → Bool) :
    Keeps lost s (s.flushWith split reason also).1 := by
  unfold flushWith
  dsimp only
  generalize (s.stopRead split reason).1.router.ids.filter _ = ids
  obtain ⟨K, hnone⟩ : Keeps lost s _ ∧ _ := stopRead_keeps G reason
  have K' : Keeps lost (s.stopRead split reason).1 _ :=
    flushOthers_keeps reason ids ((s.stopRead split reason).1, []) K.good hnone
  have K'' := K.trans K'
  generalize ids.foldl (flushOther reason) ((s.stopRead split reason).1, []) = y at K''
  split
  · exact K''
  · have Km : Keeps lost s (y.1.meet split) := K''.trans (.meet K''.good)
    generalize y.1.meet split = t at Km ⊢
    split
    · have Kp : Keeps lost t (t.tell split .play) := .tell Km.good .play
      exact Km.trans (Kp.trans (.pump Kp.good))
    · exact Km.trans (.pump Km.good)

/-! ## Channels -/

/-- Closing a channel reports what it had unread. -/
theorem close_keeps (G : s.Good) (channel : ChannelId) :
    Keeps lost s (s.close split channel).1 := by
  unfold close
  dsimp only
  cases h : s.router.close channel with
  | mk r ok =>
    cases ok with
    | false => exact .refl G
    | true =>
      have hr : s.router.apply (.close channel) = r := congrArg Prod.fst h
      dsimp only
      rw [← hr]
      have K : Keeps lost s (s.report channel (s.unread channel) "closed" none) := .report G _ _ _ _
      -- `u` has the unread entries reported, and the one in flight too.
      have hcut : ∀ u : Channels, Keeps lost s u → u.router = s.router →
          (∀ c i, s.router.channel channel = some c → i ∈ c.unreadIds → u.Reported channel i) →
          (∀ i, u.InHand channel i → u.Reported channel i) →
          Keeps lost s (({ u with router := s.router.apply (.close channel) }.cutIf split channel
            none).pump split) := by
        intro u Ku hrouter hunread hhand
        have K' : Keeps lost u
            ({ u with router := u.router.apply (.close channel) }.cutIf split channel none) := by
          refine .stops split Ku.good (.close channel) channel (fun a ha => ha.symm)
            (fun a c i hc hi hleaves => .inl ?_) hhand
          obtain rfl : channel = a :=
            (Router.leaves_close hleaves).symm.trans (Router.channel_id hc)
          exact hunread c i (by rwa [← hrouter]) hi
        rw [hrouter] at K'
        exact Ku.trans (K'.trans (.pump K'.good))
      cases hcutEntry : s.cutEntry channel with
      | none =>
        refine hcut _ K rfl (fun c i hc hi => unread_reported hc hi _ _) fun i hand => ?_
        obtain ⟨f, hf, hchannel, he⟩ := hand
        have hf : s.inFlight = some f := hf
        unfold cutEntry at hcutEntry
        rw [hf, Option.filter_some, hchannel, beq_self_eq_true, if_pos rfl, Option.bind_some, he]
          at hcutEntry
        cases hcutEntry
      | some cut =>
        have K' : Keeps lost (s.report channel (s.unread channel) "closed" none)
            ((s.report channel (s.unread channel) "closed" none).report channel [cut.2] "closed"
              (some cut.1)) :=
          .report K.good _ _ _ _
        refine hcut _ (K.trans K') rfl (fun c i hc hi => ?_) fun i hand => ?_
        · obtain ⟨d, hd, h⟩ := unread_reported hc hi "closed" none
          exact ⟨d, List.mem_append_left _ hd, h⟩
        · obtain ⟨f, hf, hchannel, he⟩ := hand
          have hf : s.inFlight = some f := hf
          unfold cutEntry at hcutEntry
          rw [hf, Option.filter_some, hchannel, beq_self_eq_true, if_pos rfl, Option.bind_some, he]
            at hcutEntry
          obtain rfl := Option.some.inj hcutEntry
          exact report_reported (e := { id := i, text := f.text, label := none })
            (List.mem_singleton_self _)

/-- Muting reports the text in flight, and keeps the rest. -/
theorem setMuted_keeps (G : s.Good) (channel : ChannelId) (muted : Bool) :
    Keeps lost s (s.setMuted split channel muted).1 := by
  unfold setMuted
  split
  · exact .refl G
  · dsimp only
    cases muted with
    | false =>
      have K : Keeps lost s { s with router := s.router.apply (.setMuted channel false) } :=
        .gentle G _ (fun _ _ h => h) trivial
      exact K.trans (.pump K.good)
    | true =>
      have K : Keeps lost s ({ s with router := s.router.apply (.setMuted channel true) }.cutIf
          split channel (some "muted")) :=
        cutIf_keeps G _ channel "muted" (fun a h => h.elim) fun c i => Router.gentle_leaves trivial
      exact K.trans (.pump K.good)

/-- The router is told something gentle, and the next item is fed if none is in flight. -/
theorem Keeps.gentle_pump (G : s.Good) (op : Op) (hop : ∀ a, ¬op.Turns a) (hgentle : op.Gentle) :
    Keeps lost s ({ s with router := s.router.apply op }.pump split) := by
  have K : Keeps lost s { s with router := s.router.apply op } :=
    .gentle G op (fun f _ => hop f.channel) hgentle
  exact K.trans (.pump K.good)

theorem focus_keeps (G : s.Good) (channel : ChannelId) :
    Keeps lost s (s.focus split channel).1 := by
  unfold focus
  cases h : s.router.setFocus channel with
  | mk r ok =>
    have hr : s.router.apply (.focus channel) = r := congrArg Prod.fst h
    cases ok with
    | false => exact .refl G
    | true =>
      rw [← hr]
      exact .gentle_pump G (.focus channel) (fun _ => id) trivial

theorem prioritize_keeps (G : s.Good) (channel : ChannelId) :
    Keeps lost s (s.prioritize split channel).1 := by
  unfold prioritize
  cases h : s.router.prioritize channel with
  | mk r ok =>
    have hr : s.router.apply (.prioritize channel) = r := congrArg Prod.fst h
    cases ok with
    | false => exact .refl G
    | true =>
      rw [← hr]
      exact .gentle_pump G (.prioritize channel) (fun _ => id) trivial

theorem openChannel_keeps (G : s.Good) (channel : ChannelId) (label hostTab : Option String)
    (policy : Option Policy) :
    Keeps lost s (s.openChannel channel label hostTab policy).1 := by
  unfold openChannel
  split
  · exact .refl G
  · exact .gentle G (.openChannel channel label hostTab policy) (fun _ _ h => h) trivial

theorem labelIfMissing_keeps (G : s.Good) (channel : ChannelId) (label : String) :
    Keeps lost s (s.labelIfMissing channel label).1 := by
  unfold labelIfMissing
  split
  · exact .refl G
  · split
    · exact .refl G
    · exact .gentle G (.labelIfMissing channel label) (fun _ _ h => h) trivial

/-- The answered decisions that were unread are reported. -/
theorem dropDecisions_keeps (G : s.Good) (channel : ChannelId) (which : Resolved) :
    Keeps lost s (s.dropDecisions channel which).1 := by
  have K : Keeps lost s (s.report channel
    (s.router.dropDecisions channel which).2 "answered" none) := .report G _ _ _ _
  refine K.trans (.rerouted K.good (Router.apply_sound G.router (.dropDecisions channel which))
    (K.good.turns (.dropDecisions channel which) fun _ _ h => h) fun a i hun => ?_)
  refine (Router.dropDecisions_returns G.router which hun).imp_right ?_
  rintro ⟨rfl, e, he, rfl⟩
  exact .inl (report_reported he)

theorem setAside_keeps (G : s.Good) (channel : ChannelId) (entry : Nat) (aside : Bool)
    (hlost : aside = true → lost channel entry) :
    Keeps lost s (s.setAside channel entry aside).1 := by
  refine .route G (.setAside channel entry aside) (fun _ _ h => h) fun a c i hc _ hleaves => ?_
  obtain ⟨hid, rfl, haside⟩ := Router.leaves_aside hleaves
  obtain rfl := hid.trans (Router.channel_id hc)
  exact .inr (hlost haside)

theorem isIdle_keeps (G : s.Good) : Keeps lost s s.isIdle.1 := by
  unfold isIdle
  split
  · exact .refl G
  next hf =>
    exact .gentle G .hasWork (fun f h => absurd (congrArg Option.isSome h) hf) trivial

/-! ## Sections -/

/-- A step to an entry at most one past the one read passes nothing unread. -/
theorem took_before {r : Router} (h : r.Sound) {a : ChannelId} {e pos entry : Nat} {c : Channel}
    (htook : r.Took a e)
    (hc : r.channel a = some c) (he : c.entries.findIdx? (fun x => x.id == e) = some pos)
    (target : Nat) (hat : c.entryIds[target]? = some entry) (hle : target ≤ pos + 1) :
    ∀ i ∈ c.unreadIds, ¬c.Before i entry := by
  have hw := h.batches c (Router.mem_of_channel hc)
  obtain ⟨c', hc', hlast⟩ := htook.last
  obtain rfl := Option.some.inj (hc.symm.trans hc')
  have hpos := Router.findIdx?_at he
  obtain ⟨hcursor, hread⟩ := Router.last_at hw (hlast (List.mem_of_getElem? hpos))
  have heq := Router.at_unique hw hpos hread
  exact fun i => Router.unread_not_before hw target hat (by omega)

/-- Going forward keeps every text accounted for. -/
theorem forward_keeps (G : s.Good)
    (hlost : ∀ f, s.inFlight = some f → ∀ a i, s.InHand a i → a = f.channel ∨ s.Gone a i →
      lost a i) :
    Keeps lost s (s.forward split).1 := by
  unfold forward
  split
  · exact .refl G
  next f entry hreading =>
    obtain ⟨f', hf, hentry⟩ := Option.bind_eq_some_iff.mp hreading
    obtain ⟨e, he, heq⟩ := Option.map_eq_some_iff.mp hentry
    obtain ⟨rfl, rfl⟩ := Prod.mk.inj heq
    have O := meet_own split s
    have Km : Keeps lost s (s.meet split) := .meet G
    have hlost' : ∀ a i, (s.meet split).InHand a i →
        a = f'.channel ∨ (s.meet split).Gone a i → lost a i :=
      fun a i hand hwhy => hlost f' hf a i (O.inHand hand) (hwhy.imp_right O.gone)
    have htook := Km.good.took _ _ ⟨_, O.inFlight.trans hf, rfl, he⟩
    generalize s.meet split = t at Km hlost' htook ⊢
    have G := Km.good
    dsimp only
    split
    · exact Km.trans (.tell G .next)
    · split
      · exact Km
      next next hnext =>
        have K : Keeps lost t (t.stepTo split f'.channel next).1 := by
          refine stepTo_keeps G f'.channel next (fun c i hc hi => ?_) hlost'
          rw [hc, Option.bind_some] at hnext
          unfold nextEntry at hnext
          have hw := G.router.batches c (Router.mem_of_channel hc)
          cases hpos : c.entries.findIdx? (fun x => x.id == e) with
          | none =>
            rw [hpos] at hnext
            refine Router.unread_not_before hw c.cursor ?_ (Nat.le_refl _) hi
            unfold Channel.entryIds
            rw [List.getElem?_map]
            exact hnext
          | some pos =>
            rw [hpos] at hnext
            refine took_before G.router htook hc hpos (pos + 1) ?_ (Nat.le_refl _) i hi
            unfold Channel.entryIds
            rw [List.getElem?_map]
            exact hnext
        split
        next u heq =>
          rw [heq] at K
          exact Km.trans K
        next u heq =>
          rw [heq] at K
          exact Km.trans K

/-- Going back keeps every text accounted for. -/
theorem back_keeps (G : s.Good)
    (hlost : ∀ f, s.inFlight = some f → ∀ a i, s.InHand a i → a = f.channel ∨ s.Gone a i →
      lost a i) :
    Keeps lost s (s.back split).1 := by
  unfold back
  split
  · exact control_keeps G .restart none "stop" fun t ht a i hand => by
      obtain ⟨f, hf, rfl⟩ := Option.map_eq_some_iff.mp ht
      exact hlost f hf a i hand
  next f entry hreading =>
    obtain ⟨f', hf, hentry⟩ := Option.bind_eq_some_iff.mp hreading
    obtain ⟨e, he, heq⟩ := Option.map_eq_some_iff.mp hentry
    obtain ⟨rfl, rfl⟩ := Prod.mk.inj heq
    have O := meet_own split s
    have Km : Keeps lost s (s.meet split) := .meet G
    have hlost' : ∀ a i, (s.meet split).InHand a i →
        a = f'.channel ∨ (s.meet split).Gone a i → lost a i :=
      fun a i hand hwhy => hlost f' hf a i (O.inHand hand) (hwhy.imp_right O.gone)
    have htook := Km.good.took _ _ ⟨_, O.inFlight.trans hf, rfl, he⟩
    generalize s.meet split = t at Km hlost' htook ⊢
    have G := Km.good
    dsimp only
    split
    · exact Km.trans (.tell G .previous)
    · split
      · have K : Keeps lost t (t.readFrom split f'.channel none).1 :=
          readFrom_keeps G f'.channel none nofun hlost'
        split
        next u heq =>
          rw [heq] at K
          exact Km.trans K
        next u heq =>
          rw [heq] at K
          exact (Km.trans K).trans (.tell K.good .restart)
      next previous hprevious =>
        have K : Keeps lost t (t.stepTo split f'.channel (previous.getD e)).1 := by
          refine stepTo_keeps G f'.channel _ (fun c i hc hi => ?_) hlost'
          rw [hc, Option.bind_some] at hprevious
          unfold previousEntry at hprevious
          obtain ⟨pos, hpos, hthis⟩ := Option.map_eq_some_iff.mp hprevious
          have hat := Router.findIdx?_at hpos
          have hlt : pos < c.entries.length := by
            have := (List.getElem?_eq_some_iff.mp hat).1
            rwa [Channel.entryIds, List.length_map] at this
          by_cases hzero : pos = 0
          · rw [if_pos hzero] at hthis
            subst hthis
            exact took_before G.router htook hc hpos pos hat (by omega) i hi
          · rw [if_neg hzero, List.getElem?_eq_getElem (show pos - 1 < c.entries.length by omega)]
              at hthis
            subst hthis
            refine took_before G.router htook hc hpos (pos - 1) ?_ (by omega) i hi
            unfold Channel.entryIds
            rw [List.getElem?_map, List.getElem?_eq_getElem
              (show pos - 1 < c.entries.length by omega)]
            rfl
        split
        next u heq =>
          rw [heq] at K
          exact (Km.trans K).trans (.tell K.good .restart)
        next u heq =>
          rw [heq] at K
          exact Km.trans K

/-- Going to the next channel keeps every text accounted for. -/
theorem nextChannel_keeps (G : s.Good)
    (hlost : ∀ t, s.router.nextChannel.2.map Prod.fst = some t → ∀ a i, s.InHand a i →
      a = t ∨ s.Gone a i → lost a i) :
    Keeps lost s (s.nextChannel split).1 := by
  unfold nextChannel
  cases h : s.router.nextChannel with
  | mk r o =>
    have hr : s.router.apply .nextChannel = r := congrArg Prod.fst h
    rw [h] at hlost
    cases o with
    | none => exact .refl G
    | some target =>
      dsimp only
      rw [← hr]
      refine .switchTo (.moved G .nextChannel target.1 (fun a hne => ?_)
        (fun a c i _ _ hleaves => absurd hleaves (Router.gentle_leaves trivial))
        (hlost target.1 rfl))
        fun u Gu _ => .refl Gu
      show s.router.nextChannel.2 ≠ some (a, true)
      rw [h]
      exact fun heq => hne (congrArg Prod.fst (Option.some.inj heq)).symm

/-! ## Text -/

/-- What the router does with a text pushed into `channel`. -/
structure Pushed (r r' : Router) (channel : ChannelId) (replace : Bool) : Prop where
  sound : r'.Sound
  took : ∀ a i, r.Took a i → r'.Took a i
  unread : ∀ a i, r.Unread a i → r'.Unread a i ∨ a = channel ∧ replace = true
  spares : ∀ a c, a ≠ channel → r.channel a = some c →
    ∃ c', r'.channel a = some c' ∧ Router.SameBatch c c'

theorem pushWith_pushed {r : Router} (h : r.Sound) (channel : ChannelId) (text : Text)
    (label : Option String)
    (replace front : Bool) : Pushed r (r.apply (.pushWith channel text label replace front)) channel
    replace := by
  refine ⟨Router.apply_sound h _, fun _ _ htook => htook.apply h (fun h => h), fun _ _ hun => ?_,
    fun _ _ hne hc => Router.Spares.batch _ (Ne.symm hne) h hc⟩
  refine (Router.apply_unread h _ hun).imp_right ?_
  rintro ⟨c, hc, -, hleaves⟩
  obtain ⟨hid, hreplace⟩ := Router.leaves_push hleaves
  exact ⟨(hid.trans (Router.channel_id hc)).symm, hreplace⟩

theorem append_pushed {r : Router} (h : r.Sound) (channel : ChannelId) (text : Text)
    (decision heard replace : Bool) :
    Pushed r (r.apply (.append channel text decision heard)) channel replace :=
  ⟨Router.apply_sound h _, fun _ _ htook => htook.apply h (fun h => h),
    fun _ _ hun => .inl (Router.gentle_unread h (.append channel text decision heard) trivial hun),
    fun _ _ hne hc => Router.Spares.batch _ (Ne.symm hne) h hc⟩

theorem Pushed.authorized {r r' : Router} {channel : ChannelId} {replace : Bool}
    (P : Pushed r r' channel replace) :
    Pushed r (r'.apply (.authorize channel)) channel replace := by
  refine ⟨Router.apply_sound P.sound _, fun a i h => (P.took a i h).apply P.sound (fun h => h),
    fun a i hun => ?_,
    fun a c hne hc => ?_⟩
  · exact (P.unread a i hun).imp_left (Router.gentle_unread P.sound (.authorize channel) trivial)
  · obtain ⟨c', hc', hsame⟩ := P.spares a c hne hc
    obtain ⟨c'', hc'', hsame'⟩ := Router.Spares.batch (.authorize channel) trivial P.sound hc'
    exact ⟨c'', hc'', hsame.trans hsame'⟩

/-- The text is in. -/
theorem Pushed.keeps {r : Router} {channel : ChannelId} {replace : Bool}
    (P : Pushed s.router r channel replace)
    (G : s.Good) (hreported : replace = true → ∀ i, s.router.Unread channel i →
      s.Reported channel i) :
    Keeps lost s { s with router := r } := by
  refine .rerouted G P.sound (fun a i _ => P.took a i) fun a i h => (P.unread a i h).imp_right ?_
  rintro ⟨rfl, hreplace⟩
  exact .inl (hreported hreplace i h)

variable (split) in
/-- The channel is switched to, or fed in its turn. -/
theorem Keeps.turn (G : s.Good) (channel : ChannelId) (now : Bool)
    (hlost : now = true → ∀ a i, s.InHand a i → a = channel ∨ s.Gone a i → lost a i) :
    Keeps lost s (if now = true then s.switchTo split channel fun r => (r.takeFloor channel).1
      else s.pumpFed split).1 := by
  cases now with
  | true =>
    rw [if_pos rfl]
    refine .switchTo (.switches G channel G.router (fun a i h => .inl h)
      (fun a c _ hc => ⟨c, hc, rfl, rfl, rfl⟩) (hlost rfl)) fun u Gu hf => ?_
    exact .gentle Gu (.takeFloor channel) (fun f h => nomatch hf.symm.trans h) trivial
  | false =>
    rw [if_neg Bool.false_ne_true]
    exact .pumpFed G

theorem opened_keeps (G : s.Good) (channel : ChannelId) : Keeps lost s (s.opened channel) := by
  unfold opened
  split
  · exact .refl G
  · exact .gentle G (.openChannel channel none none none) (fun _ _ h => h) trivial

theorem opened_gone {a : ChannelId} {i : Nat} (G : s.Good) (channel : ChannelId)
    (h : (s.opened channel).Gone a i) :
    s.Gone a i := by
  unfold opened at h
  split at h
  · exact h
  · intro c hc hmem
    obtain ⟨c', hc', hsame⟩ := Router.Spares.batch
      (.openChannel channel none none none) trivial G.router hc
    have := h c' hc'
    rw [hsame.entryIds, hsame.aside] at this
    exact this hmem

theorem pushWith_muted (r : Router) (channel : ChannelId) (text : Text) (label : Option String)
    (replace front : Bool) :
    (r.pushWith channel text label replace front).1.muted = r.muted := by
  unfold Router.pushWith
  dsimp only
  split <;> rfl

theorem append_muted (r : Router) (channel : ChannelId) (text : Text) (decision heard : Bool) :
    (r.append channel text decision heard).1.muted = r.muted := by
  have hpush := pushWith_muted r channel text none false false
  unfold Router.append
  cases r.channel channel with
  | none => rfl
  | some c =>
    dsimp only
    generalize r.pushWith channel text none false false = p at hpush
    obtain ⟨r₁, _ | entry⟩ := p
    · exact hpush
    · exact hpush

theorem authorize_muted (r : Router) (channel : ChannelId) :
    (r.authorize channel).1.muted = r.muted := by
  unfold Router.authorize
  split <;> rfl

theorem opened_muted (s : Channels) (channel : ChannelId) :
    (s.opened channel).router.muted = s.router.muted := by
  unfold opened
  split
  · rfl
  · dsimp only
    unfold Router.openChannel
    split <;> rfl

theorem opened_inFlight (s : Channels) (channel : ChannelId) :
    (s.opened channel).inFlight = s.inFlight := by
  unfold opened
  split <;> rfl

variable (split) in
/-- The text is in, and its channel has its turn: what was covered is, and so is the new entry. -/
theorem Pushed.turn {r : Router} {channel : ChannelId} {replace : Bool}
    (P : Pushed s.router r channel replace)
    (G : s.Good) (hreported : replace = true → ∀ i, s.router.Unread channel i →
      s.Reported channel i) (now : Bool)
    (hlost : now = true → ∀ a i, s.InHand a i → a = channel ∨ s.Gone a i → lost a i) :
    Keeps lost s (if now = true then { s with router := r }.switchTo split channel fun r =>
      (r.takeFloor channel).1
        else { s with router := r }.pumpFed split).1 ∧
      ∀ i, s.router.nextEntry < i → r.Unread channel i →
        (if now = true then { s with router := r }.switchTo split channel fun r =>
          (r.takeFloor channel).1
          else { s with router := r }.pumpFed split).1.Covered channel i := by
  have K : Keeps lost s { s with router := r } := P.keeps G hreported
  constructor
  · refine K.trans (.turn split K.good channel now fun hnow a i hand hwhy => hlost hnow a i hand ?_)
    by_cases hid : a = channel
    · exact .inl hid
    · refine hwhy.imp_right fun hgone c hc hmem => ?_
      obtain ⟨c', hc', hsame⟩ := P.spares a c hid hc
      have := hgone c' hc'
      rw [hsame.entryIds, hsame.aside] at this
      exact this hmem
  · intro i hnew hun
    have K' : Keeps (InHand { s with router := r }) { s with router := r } _ :=
      .turn split K.good channel now fun _ a i hand _ => hand
    refine (K'.covered channel i (.inl hun)).resolve_right fun hand => ?_
    -- What is in flight is older.
    have := (G.took channel i hand).known
    omega

/-- **What `push` does**: it covers what was covered, and the new entry, unless that is stored. -/
theorem push_spec (lost : ChannelId → Nat → Prop) (G : s.Good) (channel : ChannelId) (text : Text)
    (mode : Option QueueMode) (interrupt : Bool) (label : Option String) (agent : Option Agent)
    (hlost : (interrupt && decide (channel ∉ s.router.muted)) = true →
      ∀ a i, s.InHand a i → a = channel ∨ s.Gone a i → lost a i) :
    Keeps lost s (s.push split channel text mode interrupt label agent).1 ∧
      ∀ out, (s.push split channel text mode interrupt label agent).2 = .ok out →
        (s.push split channel text mode interrupt label agent).1.Covered channel out.entry ∨
          agent.any Agent.heard = true ∧ ∀ j, ¬s.router.Unread channel j ∧ ¬s.InHand channel j := by
  unfold push
  split
  · exact ⟨.refl G, nofun⟩
  · dsimp only
    have hopen := s.opened_isOpen channel
    have K : Keeps lost s (s.opened channel) := opened_keeps G channel
    have hflight := opened_inFlight s channel
    have hmuted := opened_muted s channel
    have hgone := fun a i => opened_gone (a := a) (i := i) G channel
    have hunread : ∀ j, s.router.Unread channel j → (s.opened channel).router.Unread channel j := by
      intro j h
      unfold opened
      split
      · exact h
      · exact Router.gentle_unread G.router (.openChannel channel none none none) trivial h
    rw [← hmuted] at hlost
    generalize s.opened channel = t at hopen K hflight hgone hunread hlost ⊢
    -- The reports of what the text replaces.
    obtain ⟨d, hd, hsub, hreported⟩ : ∃ d, (if t.replaces channel mode = true then
        t.report channel (t.unread channel) (replacedBy mode) none else t) =
        { t with dropped := d } ∧
        t.dropped ⊆ d ∧ (t.replaces channel mode = true →
          ∀ i, t.router.Unread channel i → Reported { t with dropped := d } channel i) := by
      split
      · refine ⟨_, rfl, List.subset_append_left _ _, fun _ i h => ?_⟩
        obtain ⟨c, hc, hi⟩ := h
        exact unread_reported hc hi _ _
      next hno => exact ⟨t.dropped, rfl, List.Subset.refl _, fun h => absurd h hno⟩
    have K' : Keeps lost t { t with dropped := d } := .noted K.good rfl rfl hsub
    have hlost' : (interrupt && decide (channel ∉ t.router.muted)) = true →
      ∀ a i, InHand { t with dropped := d } a i →
        a = channel ∨ Gone { t with dropped := d } a i → lost a i := by
      intro hnow a i hand hwhy
      refine hlost hnow a i ?_ (hwhy.imp_right (hgone a i))
      rwa [InHand, ← hflight]
    rw [hd]
    dsimp only
    cases agent with
    | some a =>
      have P : Pushed (Channels.router { t with dropped := d }) _ channel _ :=
        append_pushed K.good.router channel text a.decision a.heard (t.replaces channel mode)
      have hsome := appended_some hopen text a.decision a.heard
      dsimp only
      split
      next hnone => exact absurd hnone hsome
      next entry hentry =>
        have hsame : (t.router.append channel text a.decision a.heard).1.muted = t.router.muted :=
          append_muted ..
        obtain ⟨hkeeps, hcovers⟩ :=
          P.turn split K'.good hreported (interrupt && decide (channel ∉ t.router.muted)) hlost'
        rw [show (if (some a).isNone = true then _ else _ : Router) =
          (t.router.append channel text a.decision a.heard).1
          from rfl, hsame]
        refine ⟨K.trans (K'.trans hkeeps), fun out hout => ?_⟩
        obtain rfl := Except.ok.inj hout
        obtain ⟨hfresh, hun | ⟨hheard, hnone, hreading⟩⟩ :=
          Router.append_new K.good.router channel text a.decision a.heard hentry
        · exact .inl (hcovers entry hfresh hun)
        · refine .inr ⟨hheard, fun j => ⟨fun h => hnone j (hunread j h), fun hand => hreading ?_⟩⟩
          have hand : t.InHand channel j := by rwa [InHand, hflight]
          rw [(K.good.took channel j hand).reads]
          rfl
    | none =>
      have P : Pushed (Channels.router { t with dropped := d }) _ channel _ :=
        (pushWith_pushed K.good.router channel text label
          (t.replaces channel mode) interrupt).authorized
      have hsome := pushed_some hopen text label (t.replaces channel mode) interrupt
      have hsound := (pushWith_pushed K.good.router channel text label
        (t.replaces channel mode) interrupt).sound
      dsimp only
      split
      next hnone => exact absurd hnone hsome
      next entry hentry =>
        have hsame : ((t.router.pushWith channel text label
          (t.replaces channel mode) interrupt).1.authorize channel).1.muted =
            t.router.muted := (authorize_muted ..).trans (pushWith_muted ..)
        obtain ⟨hkeeps, hcovers⟩ :=
          P.turn split K'.good hreported (interrupt && decide (channel ∉ t.router.muted)) hlost'
        rw [show (if (none : Option Agent).isNone = true then _ else _ : Router) =
          ((t.router.pushWith channel text label (t.replaces channel mode) interrupt).1.authorize
            channel).1 from rfl, hsame]
        refine ⟨K.trans (K'.trans hkeeps), fun out hout => ?_⟩
        obtain rfl := Except.ok.inj hout
        obtain ⟨hfresh, hun⟩ :=
          Router.pushWith_new K.good.router channel text label
            (t.replaces channel mode) interrupt hentry
        exact .inl (hcovers entry hfresh
          (Router.gentle_unread hsound (.authorize channel) trivial hun))

/-! ## Every operation -/

/-- The reader ended an item; if it was in flight, its entry was read to the end. -/
theorem deliver_keeps (G : s.Good)
    (hlost : ∀ f i, s.inFlight = some f → f.entry = some i → s.ended.head? = some f.id →
      lost f.channel i) :
    Keeps lost s (s.step split .deliver) := by
  unfold step
  dsimp only
  cases h : s.ended with
  | nil => exact .refl G
  | cons id rest =>
    dsimp only
    unfold itemEnded
    have K : Keeps lost s { s with ended := rest } := .noted G rfl rfl (List.Subset.refl _)
    dsimp only
    split
    next hours =>
      obtain ⟨f, hf, hid⟩ := (Option.any_eq_true _ _).mp hours
      have K₁ : Keeps lost { s with ended := rest } { s with ended := rest, inFlight := none } := by
        refine .letGo K.good fun a i hand => .inr ?_
        obtain ⟨g, hg, rfl, he⟩ := hand
        obtain rfl := Option.some.inj (hf.symm.trans hg)
        refine hlost f i hf he ?_
        rw [h, List.head?_cons, eq_of_beq hid]
      have K₂ : Keeps lost { s with ended := rest, inFlight := none } _ :=
        .gentle K₁.good .done (fun f hf => nomatch hf) trivial
      exact K.trans (K₁.trans (K₂.trans (.pump K₂.good)))
    · exact K.trans (.pump K.good)

variable (split) in
/-- **Every operation covers what was covered**, but for what goes. -/
theorem step_keeps (G : s.Good) (op : DriverOp) : Keeps (s.Goes op) s (s.step split op) := by
  have hcut : ∀ t, s.movesTo op = some t → ∀ a i, s.InHand a i → a = t ∨ s.Gone a i →
      s.Goes op a i :=
    fun t ht a i hand hwhy => .cut ht hand hwhy
  cases op with
  | openChannel channel label hostTab policy =>
    exact openChannel_keeps G channel label hostTab policy
  | close channel => exact close_keeps G channel
  | labelIfMissing channel label => exact labelIfMissing_keeps G channel label
  | focus channel => exact focus_keeps G channel
  | prioritize channel => exact prioritize_keeps G channel
  | speak channel text mode interrupt label =>
    exact (push_spec _ G channel text mode interrupt label none fun h => hcut channel (if_pos h)).1
  | add channel text decision => exact (push_spec _ G channel text _ false none _ nofun).1
  | store channel text decision => exact (push_spec _ G channel text _ false none _ nofun).1
  | endBatch channel => exact .gentle G (.endBatch channel) (fun _ _ h => h) trivial
  | dropDecisions channel which => exact dropDecisions_keeps G channel which
  | setMuted channel muted => exact setMuted_keeps G channel muted
  | setFocusOnly on => exact .gentle_pump G (.setFocusOnly on) (fun _ => id) trivial
  | authorize channel => exact .gentle_pump G (.authorize channel) (fun _ => id) trivial
  | control k channel reason => exact control_keeps G k channel reason hcut
  | revise channel entry text =>
    exact .gentle G (.revise channel entry text) (fun _ _ h => h) trivial
  | setAside channel entry aside =>
    exact setAside_keeps G channel entry aside fun h => .aside (by rw [h])
  | readFrom channel entry =>
    exact readFrom_keeps G channel entry
      (fun c i e he hc hbefore => .passed (by rw [he]) hc hbefore) (hcut channel rfl)
  | back =>
    exact back_keeps G fun f hf => hcut f.channel (congrArg (Option.map InFlight.channel) hf)
  | forward =>
    exact forward_keeps G fun f hf => hcut f.channel (congrArg (Option.map InFlight.channel) hf)
  | flushWith reason also => exact flushWith_keeps G reason also
  | nextChannel => exact nextChannel_keeps G hcut
  | isIdle => exact isIdle_keeps G
  | configure config => exact .noted G rfl rfl (List.Subset.refl _)
  | reader i => exact .call G _
  | deliver => exact deliver_keeps G fun f i hf he hhead => .ended hf ⟨rfl, he⟩ ⟨rfl, hhead⟩

/-! ## Runs -/

theorem new_good (config : Config) : (new config).Good := .none Router.new_sound rfl

/-- What others do while an operation is carried out changes nothing of what is covered. -/
theorem Keeps.meanwhile (G : s.Good) (m : Meanwhile) : Keeps lost s { s with meanwhile := m } :=
  .noted G rfl rfl (List.Subset.refl _)

/-- **A turn covers what was covered**, but for what goes with its operation. -/
theorem turn_keeps (G : s.Good) (t : DriverTurn) : Keeps (s.Goes t.op) s (s.turn split t) := by
  have K : Keeps (s.Goes t.op) s { s with meanwhile := t.meanwhile } := .meanwhile G _
  have K' : Keeps (s.Goes t.op) { s with meanwhile := t.meanwhile }
      ({ s with meanwhile := t.meanwhile }.step split t.op) := by
    have K' := step_keeps split K.good t.op
    exact ⟨K'.good, fun a i h => (K'.covered a i h).imp_right (·.meanwhile)⟩
  exact (K.trans K').trans (.meanwhile K'.good .none)

theorem run_good (G : s.Good) (ts : List DriverTurn) : (s.run split ts).Good := by
  induction ts generalizing s with
  | nil => exact G
  | cons t ts ih => exact ih (turn_keeps G t).good

/-- **In every run** what was covered is covered, or some operation of the run lets it go. -/
theorem run_covers (G : s.Good) (ts : List DriverTurn) {a : ChannelId} {i : Nat}
    (h : s.Covered a i) :
    (s.run split ts).Covered a i ∨
      ∃ before t after, ts = before ++ t :: after ∧ (s.run split before).Goes t.op a i := by
  induction ts generalizing s with
  | nil => exact .inl h
  | cons t ts ih =>
    have K : Keeps (s.Goes t.op) s (s.turn split t) := turn_keeps G t
    rcases K.covered a i h with h | h
    · refine (ih K.good h).imp_right ?_
      rintro ⟨before, t', after, rfl, hgoes⟩
      exact ⟨t :: before, t', after, rfl, hgoes⟩
    · exact .inr ⟨[], t, ts, rfl, h⟩

theorem run_append (split : L1.Chunking → Text → List Text) (s : Channels)
    (ts ts' : List DriverTurn) : s.run split (ts ++ ts') = (s.run split ts).run split ts' :=
  List.foldl_append

variable (split) in
/-- The entry an operation pushes, when it does. -/
def gives (s : Channels) (t : DriverTurn) : Option (ChannelId × Nat) :=
  let s := { s with meanwhile := t.meanwhile }
  match t.op with
  | .speak channel text mode interrupt label =>
    (s.speak split channel text mode interrupt label).2.toOption.map fun out =>
      (channel, out.entry)
  | .add channel text decision =>
    (s.add split channel text decision).2.toOption.map fun out => (channel, out.entry)
  | .store channel text decision =>
    (s.store split channel text decision).2.toOption.map fun out => (channel, out.entry)
  | _ => none

theorem given_ok {out : Except Error Spoken} {channel a : ChannelId} {i : Nat}
    (h : (out.toOption.map fun out => (channel, out.entry)) = some (a, i)) :
    a = channel ∧ ∃ spoken, out = .ok spoken ∧ spoken.entry = i := by
  cases out with
  | error e => cases h
  | ok spoken =>
    obtain ⟨rfl, rfl⟩ := Prod.mk.inj (Option.some.inj h)
    exact ⟨rfl, spoken, rfl, rfl⟩

/-- An entry is covered once it is pushed, unless it is stored while Sonara is muted. -/
theorem gives_covered (G : s.Good) {t : DriverTurn} {a : ChannelId} {i : Nat}
    (h : s.gives split t = some (a, i)) :
    (s.turn split t).Covered a i ∨
      (∃ text decision, t.op = .store a text decision) ∧
        ∀ j, ¬s.router.Unread a j ∧ ¬s.InHand a j := by
  obtain ⟨op, m⟩ := t
  have G' : Channels.Good { s with meanwhile := m } := G.same rfl rfl
  unfold gives at h
  dsimp only at h
  cases op with
  | speak channel text mode interrupt label =>
    obtain ⟨rfl, spoken, hok, rfl⟩ := given_ok h
    exact .inl (((push_spec (fun _ _ => True) G' _ text mode interrupt label none
      fun _ _ _ _ _ => trivial).2 spoken hok).resolve_right fun h => Bool.false_ne_true h.1)
  | add channel text decision =>
    obtain ⟨rfl, spoken, hok, rfl⟩ := given_ok h
    exact .inl (((push_spec (fun _ _ => True) G' _ text (some .append) false none _ nofun).2 spoken
      hok).resolve_right fun h => Bool.false_ne_true h.1)
  | store channel text decision =>
    obtain ⟨rfl, spoken, hok, rfl⟩ := given_ok h
    exact ((push_spec (fun _ _ => True) G' _ text (some .append) false none _ nofun).2 spoken
      hok).imp_right fun h => ⟨⟨text, decision, rfl⟩, h.2⟩
  | _ => cases h

/-- **Every text is accounted for.** Of a text pushed at any time of a run: it was stored read, at a
time when nothing of its channel waited; or at the end of the run it is unread, being read or
reported to `on_drop`; or an operation in between let it go as `Goes` says: its item ended, it was
set aside, or a move passed or cut it. -/
theorem text_accounted (split : L1.Chunking → Text → List Text) (config : Config)
    (before after : List DriverTurn) (t : DriverTurn) {a : ChannelId} {i : Nat}
    (h : ((new config).run split before).gives split t = some (a, i)) :
    ((∃ text decision, t.op = .store a text decision) ∧
        ∀ j, ¬((new config).run split before).router.Unread a j ∧
          ¬((new config).run split before).InHand a j) ∨
      ((new config).run split (before ++ t :: after)).Covered a i ∨
      ∃ between t' rest, after = between ++ t' :: rest ∧
        ((new config).run split (before ++ t :: between)).Goes t'.op a i := by
  have G : ((new config).run split before).Good := run_good (new_good config) before
  rcases gives_covered G h with hcovered | hstored
  · right
    have hafter : ∀ ts, (new config).run split (before ++ t :: ts) =
        (((new config).run split before).turn split t).run split ts :=
      fun ts => run_append split _ before (t :: ts)
    rw [hafter]
    refine (run_covers (turn_keeps G t).good after hcovered).imp_right ?_
    rintro ⟨between, t', rest, rfl, hgoes⟩
    refine ⟨between, t', rest, rfl, ?_⟩
    rw [hafter]
    exact hgoes
  · exact .inl hstored

/-- The first text of `a` is read when the second one comes, and somebody speaks to the reader
meanwhile. -/
def secondComes : DriverTurn where
  op := .add "a" "Two.".toList false
  meanwhile := { calls := [[.speak "Direct.".toList .append false none]], atFeed := [] }

/-- The second text of `a` waits behind the first one when everything is stopped. -/
theorem stopped_accounted :
    ((∃ text decision, secondComes.op = .store "a" text decision) ∧
        ∀ j, ¬((new Config.default).run oneChunk
            [(DriverOp.add "a" "One.".toList false).alone]).router.Unread "a" j ∧
          ¬((new Config.default).run oneChunk
            [(DriverOp.add "a" "One.".toList false).alone]).InHand "a" j) ∨
      ((new Config.default).run oneChunk [(DriverOp.add "a" "One.".toList false).alone, secondComes,
        (DriverOp.control .stop none "stop").alone]).Covered "a" 2 ∨
      ∃ between t' rest,
        [(DriverOp.control .stop none "stop").alone] = between ++ t' :: rest ∧
        ((new Config.default).run oneChunk
          ((DriverOp.add "a" "One.".toList false).alone :: secondComes :: between)).Goes
            t'.op "a" 2 :=
  text_accounted oneChunk Config.default [(DriverOp.add "a" "One.".toList false).alone]
    [(DriverOp.control .stop none "stop").alone] secondComes rfl

end Channels

end Sonara.L2
