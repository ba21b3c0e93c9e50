import Sonara.L2.Conserved
import Sonara.L2.Floor

/-!
# When there is something to feed

`Due a` says that the auto rules would feed `a` now. `pick` finds nothing exactly when nothing is
due (`pick_none_iff`), so `has_work` is false exactly when nothing is due and no announcement is
armed. A calm operation makes nothing due (`calm_due`), and nothing is due once `next_feed`
found nothing (`nextFeed_rest`).
-/

namespace Sonara.L2

open Sonara (Text)

/-- The operations that add no work: no new text, no wider gate, no other floor. -/
def Op.Calm : Op → Prop
  | .openChannel _ _ _ _ | .labelIfMissing _ _ | .dropDecisions _ _ | .endBatch _ => True
  | .revise _ _ _ | .flush _ | .hasWork => True
  | .setAside _ _ aside => aside = true
  | _ => False

namespace Router

variable {r r' : Router} {a : ChannelId} {op : Op} {o : Option Feed}

/-- The auto rules would feed `a`. -/
structure Due (r : Router) (a : ChannelId) : Prop where
  audible : r.audible a = true
  reads : r.active = some a ∨ r.suppresses a = false ∧ (r.focus = some a ∨ r.gated a = false)

theorem ready_of_audible (h : r.audible a = true) : r.ready a = true := by
  obtain ⟨c, hc, hp, -⟩ := audible_iff.mp h
  unfold ready
  rw [hc]
  exact decide_eq_true hp

/-- Pruning takes no authorization from a channel with unread entries. -/
theorem prune_gated (h : r.audible a = true) : r.prune.gated a = r.gated a := by
  have hmem : a ∈ r.prune.authorized ↔ a ∈ r.authorized :=
    Finset.mem_filter.trans (and_iff_left (ready_of_audible h))
  unfold gated
  rw [decide_eq_decide.mpr (not_congr hmem)]
  rfl

theorem mem_ids_of_audible (h : r.audible a = true) : a ∈ r.ids := by
  obtain ⟨c, hc, -⟩ := audible_iff.mp h
  exact List.mem_map.mpr ⟨c, mem_of_channel hc, channel_id hc⟩

/-- **Nothing is picked exactly when nothing is due.** -/
theorem pick_none_iff (H : HoldActive r) : r.pick.2 = none ↔ ∀ a, ¬r.Due a := by
  have hchoose : r.pick.2 = r.prune.choose :=
    (pick_eq_pickWithoutHold H).trans (pickActive_spec _).2
  rw [hchoose]
  constructor
  · intro hnone a hdue
    have hwait : r.prune.chooseWaiting = none ∧ r.active ≠ some a := by
      unfold choose at hnone
      split at hnone
      next b hb =>
        have hb' : r.active = some b := hb
        split at hnone
        · cases hnone
        next haud =>
          refine ⟨hnone, fun ha => haud ?_⟩
          obtain rfl := Option.some.inj (hb'.symm.trans ha)
          exact hdue.audible
      next hb =>
        have hb' : r.active = none := hb
        exact ⟨hnone, by rw [hb']; nofun⟩
    obtain ⟨hsup, hgate⟩ := hdue.reads.resolve_left hwait.2
    obtain ⟨-, hrest⟩ := Option.or_eq_none_iff.mp hwait.1
    obtain ⟨hfocus, hring⟩ := Option.or_eq_none_iff.mp hrest
    rcases hgate with hf | hg
    · have hyes : r.prune.focus.filter (fun f => r.prune.audible f && !r.prune.suppresses f) =
          some a := by
        rw [show r.prune.focus = some a from hf]
        refine Option.filter_eq_some_iff.mpr ⟨rfl, ?_⟩
        rw [show r.prune.audible a = true from hdue.audible,
          show r.prune.suppresses a = false from hsup]
        rfl
      rw [hyes] at hfocus
      cases hfocus
    · have hmay : r.prune.mayPick a = true := by
        unfold mayPick
        rw [show r.prune.audible a = true from hdue.audible,
          show r.prune.suppresses a = false from hsup,
          prune_gated hdue.audible, hg]
        rfl
      exact List.find?_eq_none.mp hring a (mem_ids_of_audible (r := r.prune) hdue.audible) hmay
  · intro hno
    cases hc : r.prune.choose with
    | none => rfl
    | some a =>
      obtain ⟨haud, hreads⟩ := choose_spec hc
      have haud' : r.audible a = true := haud
      refine absurd ⟨haud', hreads.imp_right fun ⟨hsup, hgate⟩ =>
        ⟨hsup, hgate.imp_right fun hg => ?_⟩⟩ (hno a)
      rwa [prune_gated haud'] at hg

/-- Nothing to announce, and nothing due. -/
structure Rests (r : Router) : Prop where
  announce : r.announce = none
  due : ∀ a, ¬r.Due a

/-- **`has_work` is false exactly at rest.** -/
theorem hasWork_false_iff (H : HoldActive r) : r.hasWork.2 = false ↔ r.Rests := by
  unfold hasWork
  cases hann : r.announce with
  | some sw =>
    refine ⟨fun h => (nomatch h), fun h => ?_⟩
    rw [h.announce] at hann
    cases hann
  | none =>
    have hpick : r.pick.2.isSome = false ↔ ∀ a, ¬r.Due a := by
      rw [← pick_none_iff H, Option.isSome_eq_false_iff, Option.isNone_iff_eq_none]
    exact hpick.trans ⟨fun h => ⟨hann, h⟩, fun h => h.due⟩

theorem new_rests : Router.new.Rests := ⟨rfl, fun _ h => nomatch h.audible⟩

/-! ## Calm operations -/

theorem calm_quiet (h : op.Calm) : r.landing op = none ∧ op ≠ .nextFeed ∧
    (∀ id, op ≠ .close id) ∧ (∀ a, op.mutes a = none) ∧ ∀ a, ¬op.PushesInto a := by
  cases op <;> first
    | exact h.elim
    | exact ⟨rfl, nofun, nofun, fun _ => rfl, fun _ => id⟩

/-- The gates of `r'` let nothing more through. -/
structure NoWider (r r' : Router) : Prop where
  focus : r'.focus = r.focus
  focusOnly : r'.focusOnly = r.focusOnly
  authorized : r'.authorized ⊆ r.authorized

theorem NoWider.of_eq (hf : r'.focus = r.focus) (ho : r'.focusOnly = r.focusOnly)
    (ha : r'.authorized = r.authorized) : NoWider r r' := ⟨hf, ho, ha ▸ Finset.Subset.refl _⟩

theorem Picked.noWider (h : Picked r r') : NoWider r r' := ⟨h.focus, h.focusOnly, h.authorized⟩

theorem NoWider.gated (h : NoWider r r') (hg : r'.gated a = false) : r.gated a = false := by
  unfold Router.gated at hg ⊢
  rw [h.focus, h.focusOnly] at hg
  rcases Bool.and_eq_false_iff.mp hg with hg | hg
  · rw [hg, Bool.false_and]
  · have hmem : a ∈ r.authorized := h.authorized (by simpa using hg)
    rw [decide_eq_false (not_not.mpr hmem), Bool.and_false]

/-- A calm operation lets nothing more through. -/
theorem calm_noWider (h : op.Calm) : NoWider r (r.apply op) := by
  cases op with
  | openChannel id label hostTab policy =>
    show NoWider r (r.openChannel id label hostTab policy)
    unfold openChannel
    split <;> exact .of_eq rfl rfl rfl
  | labelIfMissing id label =>
    show NoWider r (r.labelIfMissing id label).1
    unfold labelIfMissing
    split
    · exact .of_eq rfl rfl rfl
    · split
      · split <;> exact .of_eq rfl rfl rfl
      · exact .of_eq rfl rfl rfl
  | dropDecisions id which => exact .of_eq rfl rfl rfl
  | endBatch id => exact .of_eq rfl rfl rfl
  | setAside id entry aside =>
    show NoWider r (r.setAside id entry aside).1
    unfold setAside
    split
    · exact .of_eq rfl rfl rfl
    · split <;> exact .of_eq rfl rfl rfl
  | revise id entry text => exact .of_eq rfl rfl rfl
  | flush id =>
    cases id with
    | some id =>
      obtain ⟨hold, heq, -⟩ := endHold_eq (r.dropAnnounce id) (some id)
      show NoWider r (r.flush (some id)).1
      unfold flush
      dsimp only
      rw [heq]
      exact .of_eq rfl rfl rfl
    | none =>
      show NoWider r (r.flush none).1
      unfold flush
      dsimp only
      rw [endHold_none]
      exact .of_eq rfl rfl rfl
  | hasWork =>
    show NoWider r r.hasWork.1
    unfold hasWork
    split
    · exact .of_eq rfl rfl rfl
    · exact r.pick_picked.noWider
  | _ => exact h.elim

/-- What `dropDecisions` leaves unread was unread. -/
theorem dropDecisions_unread {c : Channel} (hw : c.WellFormed) (which : Resolved) {i : Nat}
    (hi : i ∈ (c.dropDecisions which).1.unreadIds) : i ∈ c.unreadIds := by
  obtain ⟨hahead, haside⟩ := mem_unreadIds.mp hi
  rw [hw.dropDecisions which, aheadIds_eq] at hahead
  obtain ⟨e, he, rfl⟩ : ∃ e ∈ c.aheadLeft which, e.id = i := by
    have hdrop : i ∈ ((c.readLeft which ++ c.aheadLeft which).drop (c.readLeft which).length).map
        Entry.id := by
      rw [List.map_drop]
      exact hahead
    rwa [List.drop_left, List.mem_map] at hdrop
  obtain ⟨hin, hstays⟩ := List.mem_filter.mp he
  refine mem_unreadIds.mpr ⟨List.mem_map_of_mem hin, fun hwas => haside ?_⟩
  rw [hw.dropDecisions which]
  refine Finset.mem_filter.mpr ⟨hwas, fun hgone => ?_⟩
  rcases List.mem_append.mp hgone with hgone | hgone
  · obtain ⟨e', he', hid⟩ := List.mem_map.mp hgone
    exact hw.not_both (List.mem_filter.mp he').1 hin hid
  · obtain ⟨e', he', hid⟩ := List.mem_map.mp hgone
    have hyes := (List.mem_filter.mp he').2
    unfold Channel.gone at hyes hstays
    rw [← hid, hyes] at hstays
    cases hstays

/-- A calm operation leaves no entry unread that was not. -/
theorem calm_unread {c c' : Channel} (h : op.Calm) (hed : Edit r op c c')
    (hw : c.WellFormed) {i : Nat} (hi : i ∈ c'.unreadIds) : i ∈ c.unreadIds := by
  have hpush : ¬op.PushesInto c.id := (calm_quiet (r := r) h).2.2.2.2 c.id
  obtain ⟨hahead, haside⟩ := mem_unreadIds.mp hi
  rw [aheadIds_eq] at hahead
  refine mem_unreadIds.mpr ?_
  rw [aheadIds_eq]
  cases hed with
  | keep entries cursor marks =>
    unfold Channel.entryIds at hahead
    rw [entries, cursor] at hahead
    exact ⟨hahead, marks.2 ▸ haside⟩
  | restart pushes => exact absurd pushes hpush
  | insert pushes => exact absurd pushes hpush
  | take feeds =>
    cases op <;> first
      | exact h.elim
      | exact nomatch feeds
  | @dropDecisions which drops left =>
    rw [← aheadIds_eq, ← mem_unreadIds]
    exact dropDecisions_unread hw which (left ▸ hi)
  | @setAside entry aside sets mem set =>
    rw [sets] at h
    obtain rfl : aside = true := h
    rw [set] at hahead haside
    exact ⟨hahead, fun hin => haside (Finset.mem_insert_of_mem hin)⟩
  | revise revises revised =>
    unfold Channel.entryIds at hahead
    rw [revised, reviseEntries_ids] at hahead
    rw [revised] at haside
    exact ⟨hahead, haside⟩
  | flush flushes entries cursor marks =>
    unfold Channel.entryIds at hahead
    rw [entries, cursor, ← List.map_drop, List.drop_length] at hahead
    cases hahead
  | rewind rewinds => exact absurd h (by rw [rewinds]; exact id)
  | jump jumps =>
    cases op <;> first
      | exact h.elim
      | exact jumps.elim

/-- An open channel was open, or has an empty batch. -/
theorem calm_channel {c' : Channel} (h : op.Calm) (s : Sound r)
    (hc' : (r.apply op).channel a = some c') :
    (∃ c, r.channel a = some c ∧ Edit r op c c' ∧ Touches op c c') ∨ c'.entries = [] := by
  cases hc : r.channel a with
  | some c =>
    obtain ⟨-, -, hclose, -⟩ := calm_quiet (r := r) h
    obtain ⟨c₁, hc₁, hed⟩ := channel_edit s hc (hclose a)
    obtain ⟨c₂, hc₂, ht⟩ := apply_channel hc (hclose a)
    obtain rfl := Option.some.inj (hc₁.symm.trans hc')
    obtain rfl := Option.some.inj (hc₂.symm.trans hc')
    exact .inl ⟨c, rfl, hed, ht⟩
  | none =>
    right
    have hmem := mem_of_channel hc'
    have hnew : ∀ c ∈ r.channels, c.id ≠ a := fun c hmem hid => by
      have := channel_of_mem s.ids hmem
      rw [hid, hc] at this
      cases this
    rcases r.apply_batches s.ids s.batches op with
      ⟨f, hf, hmap⟩ | ⟨id, label, hostTab, policy, muted, -, happ⟩ | ⟨id, rfl, -⟩
    · rw [hmap] at hmem
      obtain ⟨c, hin, rfl⟩ := List.mem_map.mp hmem
      exact absurd ((hf c hin).1.symm.trans (channel_id hc')) (hnew c hin)
    · rw [happ] at hmem
      rcases List.mem_append.mp hmem with hin | hin
      · exact absurd (channel_id hc') (hnew c' hin)
      · rw [List.mem_singleton.mp hin]
        rfl
    · exact h.elim

/-- **A calm operation makes nothing due.** -/
theorem calm_due (h : op.Calm) (s : Sound r) (hdue : (r.apply op).Due a) : r.Due a := by
  obtain ⟨hl, hfeed, hclose, hmute, hpush⟩ := calm_quiet (r := r) h
  obtain ⟨c', hc', hp', hm'⟩ := audible_iff.mp hdue.audible
  obtain ⟨e, es, hun⟩ := Channel.unread_of_pending hp'
  rcases calm_channel h s hc' with ⟨c, hc, hed, ht⟩ | hempty
  · have hi : e.id ∈ c.unreadIds := calm_unread h hed (s.batches c (mem_of_channel hc)) (by
      unfold Channel.unreadIds
      rw [hun]
      exact List.mem_cons_self)
    obtain ⟨x, hx, -⟩ := List.mem_map.mp hi
    have hgen : c'.gen = c.gen := ht.gen (hpush c.id)
    have hmuted : c'.muted = c.muted := by
      rw [ht.muted, hmute]
      rfl
    refine ⟨audible_iff.mpr ⟨c, hc, List.length_pos_of_mem hx, hmuted ▸ hm'⟩, ?_⟩
    have k := keepsFloor hl hfeed hclose
    have hno : (r.apply op).suppresses a = false → r.suppresses a = false := by
      intro hno
      rcases k.suppressed a with hs | ⟨-, hs⟩
      · unfold suppresses at hno ⊢
        rw [hs, hc'] at hno
        rw [hc]
        cases hgiven : r.suppressed a with
        | none => rfl
        | some g =>
          rw [hgiven] at hno
          dsimp only [Option.any_some] at hno ⊢
          rwa [hgen] at hno
      · exact hs
    have g := calm_noWider (r := r) h
    exact hdue.reads.imp (fun hact => k.active ▸ hact) fun ⟨hsup, hgate⟩ =>
      ⟨hno hsup, hgate.imp (fun hf => g.focus ▸ hf) g.gated⟩
  · unfold Channel.unread at hun
    rw [hempty, List.drop_nil] at hun
    cases hun

/-- Calm operations leave a router at rest. -/
theorem calm_rests (h : op.Calm) (s : Sound r) (hr : r.Rests) : (r.apply op).Rests := by
  obtain ⟨hl, hfeed, hclose, -, -⟩ := calm_quiet (r := r) h
  exact ⟨(keepsFloor hl hfeed hclose).announce.elim (fun ha => ha.trans hr.announce) id,
    fun a hdue => hr.due a (calm_due h s hdue)⟩

/-! ## What `next_feed` leaves -/

/-- **Nothing is due once `next_feed` found nothing.** -/
theorem nextFeed_rests (H : HoldActive r) (h : r.nextFeed.2 = none) : r.nextFeed.1.Rests := by
  have hfed := r.nextFeed_fed
  rw [h] at hfed
  generalize r.nextFeed.1 = r' at hfed
  generalize ho : (none : Option Feed) = o at hfed
  cases hfed with
  | armed => cases ho
  | handoff => cases ho
  | entry => cases ho
  | idle unarmed picked =>
    have hpk := r.cleared.pick_picked
    have hnone := (pick_none_iff (r := r.cleared) H).mp picked
    refine ⟨hpk.announce, fun a hdue => hnone a
      ⟨(picked_audible hpk a).symm.trans hdue.audible, .inr ?_⟩⟩
    obtain ⟨hsup, hgate⟩ := hdue.reads.resolve_left nofun
    refine ⟨?_, hgate.imp (fun hf => hpk.focus ▸ hf) hpk.noWider.gated⟩
    rcases hpk.suppressed a with hs | ⟨-, hs⟩
    · have hsup' : r.cleared.pick.1.suppresses a = false := hsup
      have hchan : r.cleared.pick.1.channel a = r.cleared.channel a := by
        unfold Router.channel
        rw [hpk.channels]
      unfold suppresses at hsup' ⊢
      rwa [hs, hchan] at hsup'
    · exact hs

/-- **An announcement comes once, or twice in a row**: after an armed one the next feed is not
armed, and after the hand-off of `next_feed` itself an entry is fed. -/
theorem handoff_entry (H : HoldActive r) (hann : r.announce = none) {f : Feed}
    (h : r.nextFeed.2 = some f)
    (hno : ∀ a e, f ≠ .entry a e) : ∃ a e, r.nextFeed.1.nextFeed.2 = some (.entry a e) := by
  have hfed := r.nextFeed_fed
  have H' := hfed.holdActive H
  rw [h] at hfed
  generalize r.nextFeed.1 = r' at hfed H'
  generalize ho : some f = o at hfed
  cases hfed with
  | armed armed =>
    rw [hann] at armed
    cases armed
  | idle => cases ho
  | entry => exact absurd (Option.some.inj ho) (hno _ _)
  | @handoff a c unarmed picked isOpen =>
    have haud : r.cleared.audible a = true := (pick_spec picked).1
    have haud' : (r.cleared.pick.1.setReader a).cleared.audible a = true :=
      (picked_audible r.cleared.pick_picked a).trans haud
    obtain ⟨c', e, -, -, hnext⟩ := nextFeed_active H' rfl haud' rfl
    exact ⟨a, e, hnext⟩

end Router

end Sonara.L2
