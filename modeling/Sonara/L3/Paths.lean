import Sonara.L3.Moves

/-!
# Every input is a path of moves

`call_moves`, `fire_moves` and `digestDone_moves`: a call, a timer and a summarizer's
answer are paths of moves under their `Licence`. The lemmas follow the methods. What
writes one channel's wait is a `Writes`; decisions that leave their wait, one after the
other, are one `Spilled`.
-/

namespace Sonara.L3

open Sonara Text
open Sonara.L2 (ChannelId)
open Sonara.Prose (Speech)

variable {L : Licence} {ch : ChannelId} {out o : List Action} {w w' : Waiting}

theorem NoJob.append (h : NoJob out) (h' : NoJob o) : NoJob (out ++ o) := by
  refine ⟨by rw [dispatched_append, h.1, h'.1]; rfl, fun seq hm => ?_⟩
  rw [asked_append] at hm
  rcases List.mem_append.mp hm with hm | hm
  · exact h.2 seq hm
  · exact h'.2 seq hm

/-- A job that went out is not changed by what is emitted after it. -/
theorem Slots.append {b b' : Lib.Reorder Release} (h : Slots L out b b') (ho : NoJob o) :
    Slots L (out ++ o) b b' := by
  have hsent : dispatched (out ++ o) = dispatched out := by
    rw [dispatched_append, ho.1, List.append_nil]
  have hdogs : ∀ seq, .watchdog seq ∈ asked (out ++ o) ↔ .watchdog seq ∈ asked out := by
    intro seq
    rw [asked_append, List.mem_append]
    exact or_iff_left (ho.2 seq)
  cases h with
  | same none => exact .same (none.append ho)
  | short none rel => exact .short (none.append ho) rel
  | leadIn sent slot dogs =>
    exact .leadIn (hsent.trans sent) slot fun seq h => dogs seq ((hdogs seq).mp h)
  | turnEnd sent slot dogs rel =>
    exact .turnEnd (hsent.trans sent) slot (fun seq => (hdogs seq).trans (dogs seq)) rel
  | land lands none rel => exact .land lands (none.append ho) rel
  | expire none seq => exact .expire (none.append ho) seq

/-- Decisions leave their wait, not the settle window or the wait for a lead-in. -/
theorem Spill.frame {ds : List Decision} (h : Spill ch out ds w w') :
    w'.settle = w.settle ∧ w'.lead = w.lead := by
  cases h with
  | held busy mute capped => exact ⟨rfl, rfl⟩
  | spoken free voiced => exact ⟨rfl, rfl⟩

namespace Rules

variable {r r' r'' : Rules}

/-! ## Writing one channel -/

/-- The wait of `ch` becomes `w`, and nothing else that matters changes. -/
structure Writes (ch : ChannelId) (w : Waiting) (r r' : Rules) : Prop where
  others : ∀ a, a ≠ ch → r'.waiting a = r.waiting a
  self : r'.waiting ch = w
  buffer : r'.buffer = r.buffer
  nextDecision : r'.nextDecision = r.nextDecision
  settings : r'.settings = r.settings

theorem Calm.writes (c : Calm r r' out) (ch : ChannelId) : Writes ch (r.waiting ch) r r' :=
  ⟨fun a _ => c.waiting a, c.waiting ch, c.buffer, c.nextDecision, c.settings⟩

theorem Writes.trans (h : Writes ch w r r') (h' : Writes ch w' r' r'') : Writes ch w' r r'' where
  others _ ha := (h'.others _ ha).trans (h.others _ ha)
  self := h'.self
  buffer := h'.buffer.trans h.buffer
  nextDecision := h'.nextDecision.trans h.nextDecision
  settings := h'.settings.trans h.settings

theorem set_writes (ch : ChannelId) (c : Turn) : Writes ch c.waiting r (r.set ch c) :=
  ⟨fun _ ha => waiting_set_ne ha c, waiting_set_self ch c, rfl, rfl, rfl⟩

theorem modify_writes (ch : ChannelId) (f : Turn → Turn) :
    Writes ch (f ((r.touch ch).get ch)).waiting r (r.modify ch f) :=
  ((touch_calm ch).writes ch).trans (set_writes ch _)

/-- The wait a modification leaves, read off the wait before it. -/
theorem modify_writes_of (ch : ChannelId) {f : Turn → Turn} {g : Waiting → Waiting}
    (h : ∀ c, (f c).waiting = g c.waiting) : Writes ch (g (r.waiting ch)) r (r.modify ch f) := by
  have hw := modify_writes (r := r) ch f
  rw [h] at hw
  rw [← waiting_touch ch ch]
  exact hw

/-- One move that writes a channel and sends no job. -/
theorem Writes.move (h : Writes ch w r r')
    (hc : Change L ch out r.nextDecision (r.waiting ch) r.nextDecision w) (ho : NoJob out) :
    Move L r r' out := by
  refine ⟨⟨ch, h.others, ?_⟩, ?_⟩
  · rw [h.nextDecision, h.self]
    exact hc
  · rw [h.buffer]
    exact .same ho

theorem armSettle_writes (ch : ChannelId) :
    Writes ch { r.waiting ch with settle := some r.gen.2 } r (r.armSettle ch).1 := by
  have hw := modify_writes_of (r := r.gen.1) ch
    (f := fun c => { c with settleGen := r.gen.2, settleArmed := true })
    (g := fun w => { w with settle := some r.gen.2 }) fun c => rfl
  exact (gen_calm.writes ch).trans hw

theorem armSettle_noJob (ch : ChannelId) : NoJob (r.armSettle ch).2 :=
  ⟨rfl, fun _ h => nomatch List.mem_singleton.mp h⟩

/-! ## Decisions that leave their wait -/

theorem speakDecision_voices (ch : ChannelId) (d : Decision) :
    voiced (r.speakDecision ch d) = [(ch, d.id)] ∧ NoJob (r.speakDecision ch d) := by
  unfold speakDecision speak say
  rw [if_neg d.spoken.trim_ne_nil]
  split
  · exact ⟨rfl, rfl, fun seq => List.not_mem_nil⟩
  · exact ⟨rfl, rfl, fun seq => List.not_mem_nil⟩

theorem speakDecisions_voices (ch : ChannelId) (ds : List Decision) :
    voiced (ds.flatMap (r.speakDecision ch)) = named ch ds ∧
      NoJob (ds.flatMap (r.speakDecision ch)) := by
  induction ds with
  | nil => exact ⟨rfl, rfl, fun seq => List.not_mem_nil⟩
  | cons d ds ih =>
    obtain ⟨hv, hj⟩ := speakDecision_voices (r := r) ch d
    rw [List.flatMap_cons]
    refine ⟨?_, hj.append ih.2⟩
    rw [voiced_append, hv, ih.1]
    rfl

/-- The decisions `ds` of `ch` leave their wait. -/
structure Spilled (ch : ChannelId) (ds : List Decision) (r r' : Rules) (out : List Action) :
    Prop where
  others : ∀ a, a ≠ ch → r'.waiting a = r.waiting a
  buffer : r'.buffer = r.buffer
  nextDecision : r'.nextDecision = r.nextDecision
  noJob : NoJob out
  spill : Spill ch out ds (r.waiting ch) (r'.waiting ch)

theorem Spilled.before {ds : List Decision} (c : Calm r r' []) (h : Spilled ch ds r' r'' out) :
    Spilled ch ds r r'' out where
  others a ha := (h.others a ha).trans (c.waiting a)
  buffer := h.buffer.trans c.buffer
  nextDecision := h.nextDecision.trans c.nextDecision
  noJob := h.noJob
  spill := c.waiting ch ▸ h.spill

theorem Spilled.after {ds : List Decision} (h : Spilled ch ds r r' out) (c : Calm r' r'' []) :
    Spilled ch ds r r'' out where
  others a ha := (c.waiting a).trans (h.others a ha)
  buffer := c.buffer.trans h.buffer
  nextDecision := c.nextDecision.trans h.nextDecision
  noJob := h.noJob
  spill := (c.waiting ch).symm ▸ h.spill

/-- A decision is held behind the summary in flight. -/
theorem hold_spilled (d : Decision) (after : Nat) (h : 0 < (r.waiting ch).inflight) :
    Spilled ch [d] r (r.set ch { r.get ch with
        held := some ((r.get ch).lastToken, ((r.get ch).held.map Prod.snd).getD [] ++ [d]) })
      [.timer after (.holdCap ch d.id)] := by
  have hw := set_writes (r := r) ch { r.get ch with
    held := some ((r.get ch).lastToken, ((r.get ch).held.map Prod.snd).getD [] ++ [d]) }
  refine ⟨hw.others, rfl, rfl, ⟨rfl, fun seq h => nomatch List.mem_singleton.mp h⟩, ?_⟩
  rw [hw.self]
  refine .held h rfl fun d' hd' => ?_
  rw [List.mem_singleton.mp hd']
  exact List.mem_singleton.mpr rfl

/-- A decision that is held or spoken leaves its wait. -/
theorem enqueueOrHold_spilled (ch : ChannelId) (d : Decision) (digesting : Bool)
    (h : digesting = true → 0 < (r.waiting ch).inflight) :
    Spilled ch [d] r (r.enqueueOrHold ch d digesting).1 (r.enqueueOrHold ch d digesting).2 := by
  have htouch := touch_calm (r := r) ch
  have hbusy : ((r.touch ch).get ch).inflight = (r.waiting ch).inflight :=
    congrArg Waiting.inflight (waiting_touch ch ch)
  unfold enqueueOrHold
  dsimp only
  split
  next hc =>
    have hpos : 0 < (r.waiting ch).inflight := by
      rcases hc with hc | hc
      · exact h hc
      · exact hbusy ▸ hc
    exact (hold_spilled d _ ((waiting_touch ch ch).symm ▸ hpos)).before htouch
  next hc =>
    obtain ⟨hv, hj⟩ := speakDecision_voices (r := r.touch ch) ch d
    have hflush := htouch.andThen (flushProse_calm ch)
    have hidle : (r.waiting ch).inflight = 0 := by
      rw [not_or, hbusy] at hc
      omega
    refine ⟨fun a _ => hflush.waiting a, hflush.buffer, hflush.nextDecision,
      hflush.plain.noJob.append hj, ?_⟩
    rw [hflush.waiting ch]
    refine .spoken (.inl hidle) ?_
    rw [voiced_append, hflush.plain.mute, hv]
    rfl

/-- Decisions that are held or spoken one after the other leave their wait in order. -/
theorem enqueueAll_spilled (ch : ChannelId) (digesting : Bool) (ds : List Decision)
    (h : digesting = true → 0 < (r.waiting ch).inflight) :
    Spilled ch ds r (enqueueAll ch digesting ds r).1 (enqueueAll ch digesting ds r).2 := by
  induction ds generalizing r with
  | nil => exact ⟨fun _ _ => rfl, rfl, rfl, Plain.nil.noJob, .spoken (.inr rfl) rfl⟩
  | cons d ds ih =>
    have h1 := enqueueOrHold_spilled ch d digesting h
    unfold enqueueAll
    dsimp only
    generalize hp : r.enqueueOrHold ch d digesting = p at h1 ⊢
    obtain ⟨r1, o1⟩ := p
    have hsame : (r1.waiting ch).inflight = (r.waiting ch).inflight := by
      have hs := h1.spill
      generalize hw1 : r1.waiting ch = w1 at hs
      cases hs with
      | held busy mute capped => rfl
      | spoken free voiced => rfl
    have h2 := ih (r := r1) fun hd => by rw [hsame]; exact h hd
    refine ⟨fun a ha => (h2.others a ha).trans (h1.others a ha), h2.buffer.trans h1.buffer,
      h2.nextDecision.trans h1.nextDecision, h1.noJob.append h2.noJob, ?_⟩
    have hs1 := h1.spill
    have hs2 := h2.spill
    generalize r1.waiting ch = w1 at hs1 hs2 hsame
    generalize (enqueueAll ch digesting ds r1).1.waiting ch = w2 at hs2
    cases hs1 with
    | held busy mute capped =>
      cases hs2 with
      | held busy' mute' capped' =>
        rw [List.append_assoc]
        refine .held busy (by rw [voiced_append, mute, mute']; rfl) fun d' hd' => ?_
        rw [asked_append]
        rcases List.mem_cons.mp hd' with rfl | hd'
        · exact List.mem_append_left _ (capped _ (List.mem_singleton.mpr rfl))
        · exact List.mem_append_right _ (capped' _ hd')
      | spoken free voiced' =>
        rcases free with hidle | rfl
        · exact absurd busy
            (by rw [show (r.waiting ch).inflight = 0 from hidle]; exact Nat.lt_irrefl 0)
        · refine .held busy (by rw [voiced_append, mute, voiced']; rfl) fun d' hd' => ?_
          rw [asked_append]
          exact List.mem_append_left _ (capped d' hd')
    | spoken free hv =>
      have hidle : (r.waiting ch).inflight = 0 := by
        rcases free with hidle | hnil
        · exact hidle
        · exact absurd hnil (List.cons_ne_nil d [])
      cases hs2 with
      | held busy' mute' capped' => rw [hidle] at busy'; exact absurd busy' (Nat.lt_irrefl 0)
      | spoken free' voiced' =>
        refine .spoken (.inl hidle) ?_
        rw [voiced_append, hv, voiced']
        rfl

/-! ## Waiting for a lead-in -/

/-- The lead-in is no longer waited for. -/
theorem releaseLeadInWait_move (ch : ChannelId) :
    Move L r (r.releaseLeadInWait ch).1 (r.releaseLeadInWait ch).2 ∧
      ((r.releaseLeadInWait ch).1.waiting ch).lead = none := by
  have hlead := modify_writes_of (r := r) ch (f := fun c => { c with leadInWait := none })
    (g := fun w => { w with lead := none }) fun c => rfl
  unfold releaseLeadInWait
  dsimp only
  generalize hr : r.modify ch (fun c => { c with leadInWait := none }) = r1 at hlead ⊢
  split
  · have hw := hlead.trans (armSettle_writes (r := r1) ch)
    rw [hlead.self] at hw
    refine ⟨hw.move (.leadSettles rfl (List.mem_singleton.mpr rfl)) (armSettle_noJob ch), ?_⟩
    rw [hw.self]
  · have hset := hlead.trans (set_writes ch { r1.get ch with pending := [] })
    have hpend : (r1.get ch).pending = (r.waiting ch).pending := congrArg Waiting.pending hlead.self
    have hself : Turn.waiting { r1.get ch with pending := [] } =
        { r.waiting ch with lead := none, pending := [] } := by
      show { r1.waiting ch with pending := [] } = _
      rw [hlead.self]
    have hs := enqueueAll_spilled (r := r1.set ch { r1.get ch with pending := [] }) ch false
      (r1.get ch).pending (fun h => nomatch h)
    have hspill := hs.spill
    rw [hset.self, hself, hpend] at hspill
    refine ⟨⟨⟨ch, fun a ha => (hs.others a ha).trans (hset.others a ha), ?_⟩, ?_⟩, ?_⟩
    · rw [hs.nextDecision, hset.nextDecision]
      exact .leadGone (hpend ▸ hspill)
    · rw [hs.buffer, hset.buffer]
      exact .same hs.noJob
    · rw [hpend]
      exact hspill.frame.2

/-- The wait for a lead-in is set, and its timer asked for if it is new. -/
theorem waitLeadIn_writes (ch : ChannelId) (a : Ask) :
    ∃ lead, Writes ch { r.waiting ch with lead := lead } r (r.waitLeadIn ch a).1 ∧ lead.isSome ∧
      (lead = (r.waiting ch).lead ∨
        ∃ g, lead = some g ∧ .leadIn ch g ∈ asked (r.waitLeadIn ch a).2) ∧
      voiced (r.waitLeadIn ch a).2 = [] ∧ NoJob (r.waitLeadIn ch a).2 := by
  have htouch := touch_calm (r := r) ch
  have hself : ((r.touch ch).get ch).waiting = r.waiting ch := waiting_touch ch ch
  unfold waitLeadIn
  dsimp only
  split
  next hsome =>
    refine ⟨(r.waiting ch).lead, htouch.writes ch, ?_, .inl rfl, rfl, Plain.nil.noJob⟩
    rw [← hself]
    show (((r.touch ch).get ch).leadInWait.map LeadInWait.gen).isSome = true
    rw [Option.isSome_map]
    exact hsome
  next hnone =>
    have hw := modify_writes_of (r := (r.touch ch).gen.1) ch
      (f := fun c => { c with leadInWait := some { gen := (r.touch ch).gen.2, id := a.leadInId } })
      (g := fun w => { w with lead := some (r.touch ch).gen.2 }) fun c => rfl
    have hcalm := htouch.andThen gen_calm
    refine ⟨some (r.touch ch).gen.2, ?_, rfl, .inr ⟨_, rfl, List.mem_singleton.mpr rfl⟩, rfl,
      rfl, fun seq h => nomatch List.mem_singleton.mp h⟩
    rw [hcalm.waiting ch] at hw
    exact (hcalm.writes ch).trans hw

/-! ## Asking -/

/-- Nothing the channel waits for goes after a decision asked now. -/
def AsksLast (r : Rules) (ch : ChannelId) (a : Ask) : Prop :=
  r.summaries = true ∨ a.leadInPending = true ∨ (r.waiting ch).lead.isSome ∨
    (r.waiting ch).pending = []

/-- The decision `item` of `ch` was accepted. -/
structure Accepted (L : Licence) (ch : ChannelId) (item : Decision) (r r' : Rules)
    (out : List Action) : Prop where
  others : ∀ a, a ≠ ch → r'.waiting a = r.waiting a
  buffer : r'.buffer = r.buffer
  nextDecision : r'.nextDecision = r.nextDecision
  noJob : NoJob out
  change : ∀ n, item.id = n + 1 → Change L ch out n (r.waiting ch) (n + 1) (r'.waiting ch)

theorem Spilled.accepted {item : Decision} (h : Spilled ch [item] r r' out) (hask : L.asks ch)
    (hok : L.orderly → (r.waiting ch).pending = []) : Accepted L ch item r r' out :=
  ⟨h.others, h.buffer, h.nextDecision, h.noJob, fun _ hid => .atOnce hask hid hok h.spill⟩

/-- With summaries on, a decision is accepted into the settle window. -/
theorem acceptSettle_accepted (hask : L.asks ch) (a : Ask) (item : Decision) (r : Rules)
    (hsum : r.summaries = true) :
    Accepted L ch item r (r.accept ch a item).1 (r.accept ch a item).2 := by
  have hpush := set_writes (r := r) ch
    { r.get ch with pending := (r.get ch).pending ++ [item] }
  unfold accept
  dsimp only
  rw [if_pos hsum]
  generalize r.set ch { r.get ch with pending := (r.get ch).pending ++ [item] } = r1 at hpush ⊢
  have hself : r1.waiting ch = { r.waiting ch with pending := (r.waiting ch).pending ++ [item] } :=
    hpush.self
  -- With or without a wait for the lead-in, the settle window is armed.
  have hwait : ∃ lead, Writes ch { r1.waiting ch with lead := lead } r1
      (if a.leadInPending then r1.waitLeadIn ch a else (r1, [])).1 ∧
      (lead = (r1.waiting ch).lead ∨ ∃ g, lead = some g ∧
        .leadIn ch g ∈ asked (if a.leadInPending then r1.waitLeadIn ch a else (r1, [])).2) ∧
      voiced (if a.leadInPending then r1.waitLeadIn ch a else (r1, [])).2 = [] ∧
      NoJob (if a.leadInPending then r1.waitLeadIn ch a else (r1, [])).2 := by
    split
    · obtain ⟨lead, hw, -, hl, hv, hj⟩ := waitLeadIn_writes (r := r1) ch a
      exact ⟨lead, hw, hl, hv, hj⟩
    · exact ⟨_, (Calm.refl r1).writes ch, .inl rfl, rfl, Plain.nil.noJob⟩
  generalize (if a.leadInPending then r1.waitLeadIn ch a else (r1, [])) = p at hwait ⊢
  obtain ⟨lead, hw, hl, hv, hj⟩ := hwait
  have harm := (hpush.trans hw).trans (armSettle_writes (r := p.1) ch)
  refine ⟨harm.others, harm.buffer, harm.nextDecision, hj.append (armSettle_noJob ch), ?_⟩
  intro n hid
  rw [harm.self, hw.self, hself]
  rw [hself] at hl
  refine .asked hask ?_ hid (.inr ⟨_, rfl, ?_⟩) ?_ (.inl rfl)
  · rw [voiced_append, hv]
    rfl
  · rw [asked_append]
    exact List.mem_append_right _ (List.mem_singleton.mpr rfl)
  · rcases hl with hl | ⟨g, hg, hm⟩
    · exact .inl hl
    · exact .inr ⟨g, hg, asked_append p.2 _ ▸ List.mem_append_left _ hm⟩

/-- A decision is accepted into its wait for a lead-in. -/
theorem acceptLead_accepted (hask : L.asks ch) (a : Ask) (item : Decision) (r : Rules) :
    Accepted L ch item r
      ((r.set ch { r.get ch with pending := (r.get ch).pending ++ [item] }).waitLeadIn ch a).1
      ((r.set ch { r.get ch with pending := (r.get ch).pending ++ [item] }).waitLeadIn ch a).2 := by
  have hpush := set_writes (r := r) ch
    { r.get ch with pending := (r.get ch).pending ++ [item] }
  generalize r.set ch { r.get ch with pending := (r.get ch).pending ++ [item] } = r1 at hpush ⊢
  have hself : r1.waiting ch = { r.waiting ch with pending := (r.waiting ch).pending ++ [item] } :=
    hpush.self
  obtain ⟨lead, hw, hsome, hl, hv, hj⟩ := waitLeadIn_writes (r := r1) ch a
  have hall := hpush.trans hw
  refine ⟨hall.others, hall.buffer, hall.nextDecision, hj, fun n hid => ?_⟩
  rw [hall.self, hself]
  rw [hself] at hl
  exact .asked hask hv hid (.inl rfl) hl (.inr hsome)

/-- A decision is accepted: it waits, or is spoken behind those that waited. -/
theorem accept_accepted (hask : L.asks ch) (a : Ask) (item : Decision) (r : Rules)
    (hok : L.orderly → r.AsksLast ch a) :
    Accepted L ch item r (r.accept ch a item).1 (r.accept ch a item).2 := by
  by_cases hsum : r.summaries = true
  · exact acceptSettle_accepted hask a item r hsum
  · unfold accept
    dsimp only
    rw [if_neg hsum]
    split
    · exact acceptLead_accepted hask a item r
    next hlead =>
      rw [Bool.or_eq_true, not_or] at hlead
      have hnone : (r.waiting ch).lead.isSome ≠ true := by
        show ((r.get ch).leadInWait.map LeadInWait.gen).isSome ≠ true
        rw [Option.isSome_map]
        exact hlead.2
      have hfree : L.orderly → (r.waiting ch).pending = [] := by
        intro ho
        rcases hok ho with h | h | h | h
        · exact absurd h hsum
        · exact absurd h hlead.1
        · exact absurd h hnone
        · exact h
      split
      · have hbefore : Calm r (r.set ch { r.get ch with heldProse := [] }) [] := set_calm rfl .nil
        have hs := enqueueOrHold_spilled (r := r.set ch { r.get ch with heldProse := [] }) ch item
          false (fun h => nomatch h)
        have hafter : ∀ (r : Rules) (held : List (Text × Bool)),
            Calm r (r.modify ch fun c => { c with heldProse := held }) [] :=
          fun r held => modify_calm fun c => rfl
        exact Spilled.accepted (Spilled.after (hs.before hbefore) (hafter _ _)) hask hfree
      · exact (enqueueOrHold_spilled ch item false (fun h => nomatch h)).accepted hask hfree

theorem dropBefore_calm (ch : ChannelId) (kind : Kind) : Calm r (r.dropBefore ch kind) [] := by
  unfold dropBefore
  split
  · exact dropHeld_calm ch
  · exact .refl r

theorem extras_calm (ch : ChannelId) (a : Ask) : Calm r (r.extras ch a).1 [] := by
  unfold extras
  dsimp only
  split
  · exact .refl r
  · split
    · exact set_calm rfl .nil
    · exact .refl r

/-- A decision with the next id is accepted. -/
theorem number_move {e : Rules} (hask : L.asks ch) (hcalm : Calm r e []) (a : Ask) {item : Decision}
    (hid : item.id = e.nextDecision + 1) (hok : L.orderly → r.AsksLast ch a) :
    Move L r ({ e with nextDecision := e.nextDecision + 1 }.accept ch a item).1
      ({ e with nextDecision := e.nextDecision + 1 }.accept ch a item).2 := by
  have hlast : L.orderly → { e with nextDecision := e.nextDecision + 1 }.AsksLast ch a := by
    intro ho
    have hlast := hok ho
    unfold AsksLast summaries at hlast ⊢
    rw [← hcalm.waiting ch, ← hcalm.settings] at hlast
    exact hlast
  have hacc := accept_accepted hask a item _ hlast
  refine ⟨⟨ch, fun x hx => (hacc.others x hx).trans (hcalm.waiting x), ?_⟩, ?_⟩
  · have hchange := hacc.change e.nextDecision hid
    rw [hacc.nextDecision, ← hcalm.nextDecision, ← hcalm.waiting ch]
    exact hchange
  · rw [hacc.buffer, ← hcalm.buffer]
    exact .same hacc.noJob

/-- The prose of an ask is dealt with, and its decision is accepted. -/
theorem pose_move (hask : L.asks ch) (a : Ask) {text : Text} (h : Spoken text) (kind : Kind)
    (hok : L.orderly → r.AsksLast ch a) :
    Move L r (r.pose ch a text h kind).1 (r.pose ch a text h kind).2 :=
  number_move hask ((dropBefore_calm ch kind).andThen (extras_calm ch a)) a rfl hok

theorem keepLater_calm {ch : ChannelId} {a : Ask} (h : r.keepLater ch a = some r') :
    Calm r r' [] := by
  unfold keepLater at h
  split at h
  · split at h
    · dsimp only at h
      split at h
      · split at h
        · cases h
          exact set_calm rfl .nil
        · cases h
      · cases h
    · cases h
  · cases h

theorem question_calm (ch : ChannelId) (a : Ask) :
    Calm r (r.question ch a).1 (r.question ch a).2 := by
  unfold question
  dsimp only
  refine set_calm rfl ?_
  split
  · exact .nil
  · exact earcon_plain .choice

/-- An ask accepts no decision that goes before one that waits. -/
def AsksInOrder (s : Speech) (r : Rules) (ch : ChannelId) (a : Ask) : Prop :=
  r.AsksLast ch a ∨ ((r.releaseGap s ch).1.keepLater ch a).isSome ∨
    a.kind = .permission ∧ ((r.releaseGap s ch).1.get ch).awaiting = true

/-- `ask` is a path of moves. -/
theorem ask_moves (s : Speech) (hask : L.asks ch) (a : Ask)
    (hok : L.orderly → r.AsksInOrder s ch a) : Moves L r (r.ask s ch a).1 (r.ask s ch a).2 := by
  have hgap := releaseGap_arms (r := r) s ch
  unfold AsksInOrder at hok
  unfold ask
  dsimp only
  generalize r.releaseGap s ch = g at hgap hok ⊢
  split
  next r' hr' => exact hgap.moves.thenSilent (keepLater_calm hr').moves
  next hkeep =>
    -- Neither the gap nor what comes before the decision changes what waits.
    have hlast : ∀ {r' : Rules} {o : List Action}, Calm g.1 r' o →
        ¬(a.kind = .permission ∧ (g.1.get ch).awaiting = true) → L.orderly → r'.AsksLast ch a := by
      intro r' o hc hkind ho
      obtain ⟨settle, hw, -⟩ := hgap.self
      rcases hok ho with hlast | hkept | hmark
      · unfold AsksLast summaries at hlast ⊢
        rw [hc.settings, hgap.settings, hc.waiting ch, hw]
        exact hlast
      · rw [hkeep] at hkept
        cases hkept
      · exact absurd hmark hkind
    split
    next hq =>
      have hcalm := question_calm (r := g.1) ch a
      refine (hgap.moves.trans hcalm.moves).snoc (pose_move hask a _ _ (hlast hcalm ?_))
      rw [hq]
      intro h
      cases h.1
    next hp =>
      split
      · refine hgap.moves.thenSilent (Calm.moves (set_calm ?_ .nil))
        rfl
      next hmark =>
        have hcalm : Calm g.1 g.1 (g.1.earcon .permission) := .emit (earcon_plain .permission)
        exact (hgap.moves.trans hcalm.moves).snoc
          (pose_move hask a _ _ (hlast hcalm fun h => hmark h.2))
    next hp =>
      refine hgap.moves.snoc (pose_move hask a _ _ (hlast (.refl g.1) ?_))
      rw [hp]
      intro h
      cases h.1

end Rules

end Sonara.L3
