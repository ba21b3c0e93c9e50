import Sonara.L3.Arrivals
import Sonara.L3.Modes
import Sonara.Prose.Fed

/-!
# Every delta of a block is read

A block's deltas come in any order, timers fire between them, and the turn ends. By
`modes_agree`'s simulation it is enough to follow the rules that read at once: they feed
the assembler what `DeltaOrder` hands on and speak its chunks (`Feeds`), so at the turn
end every delta was fed once. The assembler's pieces rebuild what it is fed
(`Assembler.Fed`) as long as the block's final finds index 0 read, which is the one thing
the order of arrival can spoil (`Timely`).
-/

namespace Sonara.L3

open Sonara Text
open Sonara.L2 (ChannelId)
open Sonara.Prose (Speech Chunk Assembler Piece voice)

/-! ## Feeding the assembler -/

/-- The deltas fed in order, and their chunks. -/
def feedAll (s : Speech) (a : Assembler) : List Delta → Assembler × List Chunk
  | [] => (a, [])
  | d :: ds =>
    let f := a.feed s d.text d.index d.fin
    let r := feedAll s f.1 ds
    (r.1, f.2 ++ r.2)

theorem feedAll_cons (s : Speech) (a : Assembler) (d : Delta) (ds : List Delta) :
    feedAll s a (d :: ds) = ((feedAll s (a.feed s d.text d.index d.fin).1 ds).1,
      (a.feed s d.text d.index d.fin).2 ++
      (feedAll s (a.feed s d.text d.index d.fin).1 ds).2) := rfl

theorem feedAll_append (s : Speech) (a : Assembler) (ds es : List Delta) :
    feedAll s a (ds ++ es) =
      ((feedAll s (feedAll s a ds).1 es).1,
        (feedAll s a ds).2 ++ (feedAll s (feedAll s a ds).1 es).2) := by
  induction ds generalizing a with
  | nil => rfl
  | cons d ds ih =>
    rw [List.cons_append, feedAll_cons, feedAll_cons, ih, List.append_assoc]

/-- What a chunk is spoken as; at `skip_code` a code block is not spoken. -/
def saidChunk (skipCode : Bool) : Chunk → Option Item
  | .text t => some (.chunk t)
  | .code summary lines stop =>
    if skipCode then none else some (.chunk (codeBlock summary lines stop))
  | .paragraphBreak => none

/-- The chunks as they are spoken. -/
def said (skipCode : Bool) (cs : List Chunk) : List Item := cs.filterMap (saidChunk skipCode)

@[simp] theorem said_append (skipCode : Bool) (cs ds : List Chunk) :
    said skipCode (cs ++ ds) = said skipCode cs ++ said skipCode ds := List.filterMap_append

/-- A second break in a row is not spoken anyway. -/
theorem keepBreaks_said (skipCode last : Bool) (cs : List Chunk) :
    said skipCode (Assembler.keepBreaks last cs).1 = said skipCode cs := by
  induction cs generalizing last with
  | nil => rfl
  | cons c cs ih =>
    unfold Assembler.keepBreaks
    dsimp only
    split
    next h =>
      rw [Bool.and_eq_true, decide_eq_true_eq] at h
      rw [ih, h.1]
      rfl
    next =>
      show (c :: (Assembler.keepBreaks _ cs).1).filterMap _ = (c :: cs).filterMap _
      rw [List.filterMap_cons, List.filterMap_cons]
      have := ih (decide (c = .paragraphBreak))
      unfold said at this
      rw [this]

/-- The deltas of one block, whose final is index `n`. -/
structure Block (n : Nat) (ds : List Delta) : Prop where
  indices : (ds.map Delta.index).Perm (List.range (n + 1))
  final : ∀ d ∈ ds, d.fin = decide (d.index = n)

/-- What is fed of a block, the final behind index 0, is rebuilt or still held. -/
theorem feedAll_fed (s : Speech) {n : Nat} (fed : List Delta) (hnodup : (fed.map Delta.index).Nodup)
    (hle : ∀ d ∈ fed, d.index ≤ n) (hfin : ∀ d ∈ fed, d.fin = decide (d.index = n))
    (hled : Led fed) :
    ∃ ps, Assembler.Fed s.toUnicode n (fed.map Delta.index) (fed.map Delta.text).flatten
        (feedAll s {} fed).1 ps ∧
      ∀ skipCode, said skipCode (feedAll s {} fed).2 = said skipCode (ps.flatMap (voice s)) := by
  induction fed using List.reverseRecOn with
  | nil => exact ⟨[], .start _ _, fun _ => rfl⟩
  | append_singleton ds d ih =>
    have hmem : d ∈ ds ++ [d] := List.mem_append_right ds List.mem_cons_self
    rw [List.map_append, List.nodup_append] at hnodup
    have hled' : Led ds := fun pre e post he =>
      hled pre e (post ++ [d]) (by rw [he, List.append_assoc]; rfl)
    obtain ⟨ps, hfed, hsaid⟩ := ih hnodup.1 (fun e he => hle e (List.mem_append_left _ he))
      (fun e he => hfin e (List.mem_append_left _ he)) hled'
    have hfresh : d.index ∉ ds.map Delta.index := fun h => hnodup.2.2 _ h _ List.mem_cons_self rfl
    have hzero : d.index = n → 0 ∈ ds.map Delta.index ++ [d.index] := by
      intro hn
      rcases Nat.eq_zero_or_pos d.index with h0 | hpos
      · exact List.mem_append_right _ (by rw [h0]; exact List.mem_cons_self)
      · obtain ⟨z, hz, h0⟩ := hled ds d [] rfl (by rw [hfin d hmem, hn]; simp) hpos
        exact List.mem_append_left _ (List.mem_map.mpr ⟨z, hz, h0⟩)
    have hstep := @Assembler.Fed.feedBlock _ _ _ _ _ _ hfed d.text _ hfresh (hle d hmem) hzero
    rw [feedAll_append]
    generalize feedAll s {} ds = r at hstep hsaid ⊢
    have hd : d.fin = decide (d.index = n) := hfin d hmem
    refine ⟨ps ++ (r.1.feedBlock s.toUnicode d.text d.index d.fin).2, ?_, fun skipCode => ?_⟩
    · rw [← hd] at hstep
      rw [List.map_append, List.map_append, List.flatten_append, feedAll_cons]
      have hmarked := hstep.marked (r.1.feed s d.text d.index d.fin).1.lastBreak
      simp only [List.map_cons, List.map_nil, List.flatten_cons, List.flatten_nil, List.append_nil]
      exact hmarked
    · rw [feedAll_cons]
      show said skipCode (r.2 ++ ((r.1.feed s d.text d.index d.fin).2 ++ [])) = _
      rw [List.append_nil, said_append, hsaid, List.flatMap_append, said_append]
      congr 1
      unfold Assembler.feed
      exact keepBreaks_said skipCode _ _

/-! ## The rules that read at once -/

namespace Rules

variable {s : Speech} {ch : ChannelId} {r : Rules} {p : Rules × List Action}

/-- The rules read at once, and nothing of the channel waits but deltas for their order. -/
structure Quiet (ch : ChannelId) (r : Rules) : Prop where
  raw : r.settings.summaries.enabled = false
  loud : r.settings.muteLevel = 0
  mode : r.settings.readMode = .immediate
  whole : r.whole = false
  leadIn : (r.get ch).leadIn = none
  wait : (r.get ch).leadInWait = none
  writing : (r.get ch).ended = false
  heard : (r.get ch).skipReply = false
  reply : (r.get ch).reply = none
  held : (r.get ch).heldProse = []
  kept : (r.get ch).voiced = (r.get ch).prose.length

/-- The deltas `ds` are fed and their chunks spoken; `o` is the order after it. -/
structure Feeds (s : Speech) (ch : ChannelId) (r : Rules) (ds : List Delta) (o : DeltaOrder)
    (p : Rules × List Action) : Prop where
  quiet : Quiet ch p.1
  settings : p.1.settings = r.settings
  order : (p.1.get ch).order = o
  assembler : (p.1.get ch).assembler = (feedAll s (r.get ch).assembler ds).1
  items : itemsOf p.2 =
    said (r.settings.verbosity = .skipCode) (feedAll s (r.get ch).assembler ds).2
  timers : ∀ t ∈ asked p.2, ∃ g, t = .gap ch g

/-- The cut leaves the turn but for the assembler, the prose and where paragraphs start. -/
theorem cutDelta_feeds (skipCode : Bool) (k : Cut) (d : Delta) :
    (∃ prose newPara lastIndex, (cutDelta s skipCode k d).turn =
      { k.turn with prose := prose, newPara := newPara, lastIndex := lastIndex,
                    assembler := (k.turn.assembler.feed s d.text d.index d.fin).1 }) ∧
    chunks (cutDelta s skipCode k d).texts =
      chunks k.texts ++ said skipCode (k.turn.assembler.feed s d.text d.index d.fin).2 := by
  have hfold : ∀ (cs : List Chunk) (k : Cut),
      (∃ prose newPara, (cs.foldl (cutChunk skipCode) k).turn =
        { k.turn with prose := prose, newPara := newPara }) ∧
      chunks (cs.foldl (cutChunk skipCode) k).texts = chunks k.texts ++ said skipCode cs := by
    intro cs
    induction cs with
    | nil => exact fun k => ⟨⟨_, _, rfl⟩, (List.append_nil _).symm⟩
    | cons c cs ih =>
      intro k
      obtain ⟨⟨prose, newPara, hturn⟩, htexts⟩ := ih (cutChunk skipCode k c)
      rw [List.foldl_cons]
      have hone : (∃ prose newPara, (cutChunk skipCode k c).turn =
          { k.turn with prose := prose, newPara := newPara }) ∧
          chunks (cutChunk skipCode k c).texts = chunks k.texts ++ said skipCode [c] := by
        cases c with
        | text t => exact ⟨⟨_, _, rfl⟩, chunks_append _ _⟩
        | code summary lines stop =>
          cases skipCode
          · exact ⟨⟨_, _, rfl⟩, chunks_append _ _⟩
          · exact ⟨⟨_, _, rfl⟩, (List.append_nil _).symm⟩
        | paragraphBreak => exact ⟨⟨_, _, rfl⟩, (List.append_nil _).symm⟩
      obtain ⟨⟨p', b', hturn'⟩, htexts'⟩ := hone
      refine ⟨⟨prose, newPara, ?_⟩, ?_⟩
      · rw [hturn, hturn']
      · rw [htexts, htexts', List.append_assoc, ← said_append]
        rfl
  obtain ⟨⟨prose, newPara, hturn⟩, htexts⟩ := hfold (k.turn.assembler.feed s d.text d.index d.fin).2
    { k with turn := { k.turn with
        newPara := k.turn.newPara || (d.index = 0 && k.turn.lastIndex.any (· ≠ 0))
        lastIndex := some d.index, assembler := (k.turn.assembler.feed s d.text d.index d.fin).1 } }
  unfold cutDelta
  dsimp only
  split
  · exact ⟨⟨prose, true, some d.index, by rw [hturn]⟩, htexts⟩
  · exact ⟨⟨prose, newPara, some d.index, hturn⟩, htexts⟩

/-- Cutting deltas changes the prose only. -/
theorem cut_feeds (skipCode : Bool) (ds : List Delta) (k : Cut) :
    (∃ prose newPara lastIndex, (ds.foldl (cutDelta s skipCode) k).turn =
      { k.turn with prose := prose, newPara := newPara, lastIndex := lastIndex,
                    assembler := (feedAll s k.turn.assembler ds).1 }) ∧
    chunks (ds.foldl (cutDelta s skipCode) k).texts =
      chunks k.texts ++ said skipCode (feedAll s k.turn.assembler ds).2 := by
  induction ds generalizing k with
  | nil => exact ⟨⟨_, _, _, rfl⟩, (List.append_nil _).symm⟩
  | cons d ds ih =>
    obtain ⟨⟨p, b, i, hturn⟩, htexts⟩ := cutDelta_feeds (s := s) skipCode k d
    obtain ⟨⟨p', b', i', hturn'⟩, htexts'⟩ := ih (cutDelta s skipCode k d)
    rw [hturn] at hturn' htexts'
    rw [List.foldl_cons, feedAll_cons]
    refine ⟨⟨p', b', i', hturn'⟩, ?_⟩
    rw [htexts', htexts, said_append, List.append_assoc]

theorem touch_turn (r : Rules) (ch : ChannelId) :
    ∃ g, (r.touch ch).get ch = { r.get ch with gen := g } := by
  by_cases h : ch ∈ r.turns
  · rw [touch_of_mem h]
    exact ⟨(r.get ch).gen, rfl⟩
  · have hget : (r.touch ch).get ch = { gen := r.gen.2 } := by
      unfold touch
      rw [if_neg h]
      exact get_set_self (r := r.gen.1) ch { gen := r.gen.2 }
    rw [hget, get_of_not_mem h]
    exact ⟨r.gen.2, rfl⟩

theorem touch_same : (r.touch ch).settings = r.settings ∧ (r.touch ch).whole = r.whole := by
  unfold touch
  split <;> exact ⟨rfl, rfl⟩

/-- A turn with the same fields waits for nothing either. -/
theorem Quiet.turn (h : Quiet ch r) {c : Turn} (hl : c.leadIn = none) (hw : c.leadInWait = none)
    (he : c.ended = false) (hs : c.skipReply = false) (hr : c.reply = none) (hh : c.heldProse = [])
    (hk : c.voiced = c.prose.length) : Quiet ch (r.set ch c) where
  raw := h.raw
  loud := h.loud
  mode := h.mode
  whole := h.whole
  leadIn := by rw [get_set_self, hl]
  wait := by rw [get_set_self, hw]
  writing := by rw [get_set_self, he]
  heard := by rw [get_set_self, hs]
  reply := by rw [get_set_self, hr]
  held := by rw [get_set_self, hh]
  kept := by rw [get_set_self, hk]

/-- The channel's turn and the settings are all that matters. -/
theorem Quiet.congr {r' : Rules} (h : Quiet ch r) (hs : r'.settings = r.settings)
    (hw : r'.whole = r.whole) (hc : ∃ g, r'.get ch = { r.get ch with gen := g }) : Quiet ch r' := by
  obtain ⟨g, hc⟩ := hc
  refine ⟨hs ▸ h.raw, hs ▸ h.loud, hs ▸ h.mode, hw.trans h.whole, ?_, ?_, ?_, ?_, ?_, ?_, ?_⟩
  · rw [hc]; exact h.leadIn
  · rw [hc]; exact h.wait
  · rw [hc]; exact h.writing
  · rw [hc]; exact h.heard
  · rw [hc]; exact h.reply
  · rw [hc]; exact h.held
  · rw [hc]; exact h.kept

theorem Quiet.touch (h : Quiet ch r) : Quiet ch (r.touch ch) :=
  h.congr touch_same.1 touch_same.2 (touch_turn r ch)

/-- What is to be held is spoken at once. -/
theorem Quiet.holdTexts (h : Quiet ch r) (texts : List (Text × Bool)) (breaks : Option Nat) :
    ∃ r', r.holdTexts ch texts breaks = (r', r.sayProse ch texts) ∧ r'.get ch = r.get ch ∧
      r'.settings = r.settings ∧ r'.whole = r.whole := by
  have hpara : (r.whole && r.settings.readMode = .immediate && breaks.isSome) = false := by
    rw [h.whole]
    rfl
  unfold Rules.holdTexts
  dsimp only
  rw [hpara]
  split
  next hnil =>
    rw [hnil.1]
    exact ⟨r, rfl, rfl, rfl, rfl⟩
  next =>
    have hready : (r.set ch { r.get ch with heldProse := (r.get ch).heldProse ++ texts }).isReady
        ((r.set ch { r.get ch with heldProse := (r.get ch).heldProse ++ texts }).get ch) =
          true := by
      have hmode : (r.set ch { r.get ch with
          heldProse := (r.get ch).heldProse ++ texts }).settings.readMode = .immediate := h.mode
      have hwhole : (r.set ch { r.get ch with
          heldProse := (r.get ch).heldProse ++ texts }).whole = false := h.whole
      unfold isReady
      rw [hmode, hwhole]
      exact Bool.or_true _
    unfold speakReady
    rw [if_pos hready, flushProse_eq (mem_set_self _), get_set_self]
    unfold sayUpto
    dsimp only
    rw [get_set_self, h.held, List.nil_append, List.take_length, List.drop_length]
    refine ⟨_, rfl, ?_, rfl, rfl⟩
    rw [get_set_self, ← h.held]

/-- Deltas are assembled, and what they complete is spoken. -/
theorem assemble_feeds (h : Quiet ch r) (ds : List Delta) :
    Feeds s ch r ds (r.get ch).order (r.assemble s ch ds) := by
  unfold assemble
  split
  next hnil =>
    rw [hnil]
    exact ⟨h, rfl, rfl, rfl, rfl, fun t ht => absurd ht List.not_mem_nil⟩
  next =>
    obtain ⟨g, hturn⟩ := touch_turn r ch
    obtain ⟨hset, hwhole⟩ : (r.touch ch).settings = r.settings ∧ (r.touch ch).whole = r.whole :=
    touch_same
    have hq := h.touch
    dsimp only
    have hraw : (r.touch ch).summaries = false := hq.raw
    have hcut : (r.touch ch).cut s ch ds = ds.foldl
        (cutDelta s ((r.touch ch).settings.verbosity = .skipCode))
        ⟨((r.touch ch).get ch).takeKept.1, ((r.touch ch).get ch).takeKept.2, none⟩ := by
      unfold cut
      dsimp only
      rw [hraw]
      rfl
    -- Nothing is kept for a summary.
    have hkept : ((r.touch ch).get ch).takeKept = ((r.touch ch).get ch, []) := by
      have hdrop : ((r.touch ch).get ch).prose.drop ((r.touch ch).get ch).voiced = [] := by
        rw [hq.kept, List.drop_length]
      unfold Turn.takeKept
      rw [hdrop, ← hq.kept]
      rfl
    rw [hraw, hcut, hkept]
    obtain ⟨⟨prose, newPara, lastIndex, hk⟩, htexts⟩ := cut_feeds (s := s)
      ((r.touch ch).settings.verbosity = .skipCode) ds ⟨(r.touch ch).get ch, [], none⟩
    generalize ds.foldl (cutDelta s ((r.touch ch).settings.verbosity = .skipCode))
      ⟨(r.touch ch).get ch, [], none⟩ = k at hk htexts ⊢
    have hspoken : Quiet ch ((r.touch ch).set ch { k.turn with voiced := k.turn.prose.length }) :=
      hq.turn (by rw [hk]; exact hq.leadIn) (by rw [hk]; exact hq.wait)
        (by rw [hk]; exact hq.writing)
        (by rw [hk]; exact hq.heard) (by rw [hk]; exact hq.reply) (by rw [hk]; exact hq.held) rfl
    obtain ⟨r', hr', hget, hset', hwhole'⟩ := hspoken.holdTexts k.texts k.breaks
    simp only [Bool.false_eq_true, if_false]
    rw [hr']
    rw [get_set_self] at hget
    refine ⟨hspoken.congr hset' hwhole' ⟨(r'.get ch).gen, ?_⟩, hset'.trans hset, ?_, ?_, ?_, ?_⟩
    · rw [get_set_self, hget]
    · rw [hget, hk, hturn]
    · rw [hget, hk, hturn]
    · rw [sayProse_items hspoken.loud hspoken.whole, htexts, hset, hturn]
      rfl
    · rw [(sayProse_idle _).asked]
      exact fun t ht => absurd ht List.not_mem_nil

theorem Feeds.trans {ds es : List Delta} {o o' : DeltaOrder} {q : Rules × List Action}
    (h : Feeds s ch r ds o p) (h' : Feeds s ch p.1 es o' q) :
    Feeds s ch r (ds ++ es) o' (q.1, p.2 ++ q.2) where
  quiet := h'.quiet
  settings := h'.settings.trans h.settings
  order := h'.order
  assembler := by rw [h'.assembler, h.assembler, feedAll_append]
  items := by
    rw [itemsOf_append, h.items, h'.items, h.assembler, h.settings, feedAll_append, said_append]
  timers := fun t ht => by
    rw [asked_append] at ht
    exact (List.mem_append.mp ht).elim (h.timers t) (h'.timers t)

/-- The deltas an order hands on are assembled. -/
theorem reorder_feeds (h : Quiet ch r) {q : Rules} {o : DeltaOrder} (hs : q.settings = r.settings)
    (hw : q.whole = r.whole) (hc : ∃ g, q.get ch = { r.get ch with gen := g, order := o })
    (ds : List Delta) : Feeds s ch r ds o (q.assemble s ch ds) := by
  obtain ⟨g, hc⟩ := hc
  have hq : Quiet ch q := by
    refine ⟨hs ▸ h.raw, hs ▸ h.loud, hs ▸ h.mode, hw.trans h.whole, ?_, ?_, ?_, ?_, ?_, ?_, ?_⟩
    · rw [hc]; exact h.leadIn
    · rw [hc]; exact h.wait
    · rw [hc]; exact h.writing
    · rw [hc]; exact h.heard
    · rw [hc]; exact h.reply
    · rw [hc]; exact h.held
    · rw [hc]; exact h.kept
  have m := assemble_feeds (s := s) hq ds
  have horder : (q.get ch).order = o := by rw [hc]
  have hassembler : (q.get ch).assembler = (r.get ch).assembler := by rw [hc]
  rw [horder] at m
  exact ⟨m.quiet, m.settings.trans hs, m.order, hassembler ▸ m.assembler,
    hs ▸ hassembler ▸ m.items, m.timers⟩

/-- Releasing a gap feeds what was held. -/
theorem releaseGap_feeds (h : Quiet ch r) :
    Feeds s ch r (r.get ch).order.release.2 (r.get ch).order.release.1 (r.releaseGap s ch) := by
  obtain ⟨g, hturn⟩ := touch_turn r ch
  obtain ⟨hset, hwhole⟩ : (r.touch ch).settings = r.settings ∧ (r.touch ch).whole = r.whole :=
    touch_same
  have horder : ((r.touch ch).get ch).order = (r.get ch).order := by rw [hturn]
  unfold releaseGap
  dsimp only
  rw [horder]
  generalize (r.get ch).order.release = o
  have m := reorder_feeds (s := s) h (o := o.1) (q := (r.touch ch).set ch
    { (r.touch ch).get ch with order := o.1 }) hset hwhole ⟨g, by rw [get_set_self, hturn]⟩ o.2
  exact m

/-- A delta that is accepted feeds what it releases. -/
theorem acceptDelta_feeds (h : Quiet ch r) (d : Delta) :
    ∃ g, Feeds s ch r ((r.get ch).order.accept d).2.1
      { ((r.get ch).order.accept d).1 with gen := g } (r.acceptDelta s ch d) := by
  obtain ⟨g, hturn⟩ := touch_turn r ch
  obtain ⟨hset, hwhole⟩ : (r.touch ch).settings = r.settings ∧ (r.touch ch).whole = r.whole :=
    touch_same
  have horder : ((r.touch ch).get ch).order = (r.get ch).order := by rw [hturn]
  unfold acceptDelta
  dsimp only
  rw [horder]
  generalize (r.get ch).order.accept d = a
  split
  · -- A gap begins: its timer is asked for.
    have m := reorder_feeds (s := s) h (o := { a.1 with gen := (r.touch ch).gen.2 })
      (q := (r.touch ch).gen.1.set ch { (r.touch ch).get ch with
        order := { a.1 with gen := (r.touch ch).gen.2 } })
      hset hwhole ⟨g, by rw [get_set_self, hturn]⟩ a.2.1
    refine ⟨_, m.quiet, m.settings, m.order, m.assembler, m.items, fun t ht => ?_⟩
    rcases List.mem_cons.mp ht with rfl | ht
    · exact ⟨_, rfl⟩
    · exact m.timers t ht
  · have m := reorder_feeds (s := s) h (o := a.1) (q := (r.touch ch).set ch
      { (r.touch ch).get ch with order := a.1 }) hset hwhole ⟨g, by rw [get_set_self, hturn]⟩ a.2.1
    exact ⟨a.1.gen, m⟩

/-- Noting a delta changes the generation alone. -/
theorem noteSeen_turn (h : Quiet ch r) (d : Delta) :
    ∃ g, (r.noteSeen s ch d).get ch = { r.get ch with gen := g } := by
  obtain ⟨g, hturn⟩ := touch_turn r ch
  have hsame : ∀ c : Turn, c.leadInWait = none →
      (if d.index = 0 ∧ d.fin then { c with leadInWait := c.leadInWait.map fun w =>
        { w with seen := w.seen ++ [fold s d.text] } } else c) = c := by
    intro c hc
    split
    · rw [hc]
      show { c with leadInWait := none } = c
      rw [← hc]
    · rfl
  refine ⟨g, ?_⟩
  unfold noteSeen modify
  rw [get_set_self]
  have hwait : ((r.touch ch).get ch).leadInWait = none := h.touch.wait
  exact (hsame _ hwait).trans hturn

/-- A delta that comes: what it lets go is fed. -/
theorem streamDelta_feeds (h : Quiet ch r) (d : Delta) :
    ∃ g, Feeds s ch r ((r.get ch).order.arrive d).2
      { ((r.get ch).order.arrive d).1 with gen := g } (r.streamDelta s ch d) := by
  obtain ⟨g, hseen⟩ := noteSeen_turn (s := s) h d
  obtain ⟨hset, hwhole⟩ : (r.touch ch).settings = r.settings ∧ (r.touch ch).whole = r.whole :=
    touch_same
  have hq : Quiet ch (r.noteSeen s ch d) := h.congr hset hwhole ⟨g, hseen⟩
  have horder : ((r.noteSeen s ch d).get ch).order = (r.get ch).order := by rw [hseen]
  have hassembler : ((r.noteSeen s ch d).get ch).assembler = (r.get ch).assembler := by rw [hseen]
  have hsettings : (r.noteSeen s ch d).settings = r.settings := hset
  unfold streamDelta
  dsimp only
  generalize r.noteSeen s ch d = r₁ at hq horder hassembler hsettings ⊢
  rw [if_neg (by rw [hq.leadIn]; simp), if_neg (by rw [hq.writing]; simp),
    if_neg (by rw [hq.heard]; simp), ← horder]
  have hback : ∀ {ds : List Delta} {o : DeltaOrder} {p : Rules × List Action},
      Feeds s ch r₁ ds o p → Feeds s ch r ds o p := fun m =>
    ⟨m.quiet, m.settings.trans hsettings, m.order, hassembler ▸ m.assembler,
      hsettings ▸ hassembler ▸ m.items, m.timers⟩
  unfold DeltaOrder.arrive
  dsimp only
  split
  · have mgap := releaseGap_feeds (s := s) hq
    obtain ⟨g', macc⟩ := acceptDelta_feeds (s := s) mgap.quiet d
    rw [mgap.order] at macc
    exact ⟨g', hback (mgap.trans macc)⟩
  · obtain ⟨g', macc⟩ := acceptDelta_feeds (s := s) hq d
    exact ⟨g', hback macc⟩

theorem flushProse_none (h : (r.get ch).heldProse = []) : (r.flushProse ch).2 = [] := by
  rw [flushProse_touch]
  unfold sayUpto
  dsimp only
  rw [touch_held, h]
  rfl

/-- Nothing was held, and nothing kept for a summary. -/
theorem holdKept_none (hh : (r.get ch).heldProse = [])
    (hk : (r.get ch).voiced = (r.get ch).prose.length) :
    ((r.holdKept ch).1.get ch).heldProse = [] := by
  obtain ⟨g, hturn⟩ := touch_turn r ch
  unfold holdKept Turn.takeKept
  dsimp only
  rw [get_set_self, hturn]
  dsimp only
  rw [hh, hk, List.drop_length]
  rfl

/-- The turn ends: what is held goes, and nothing else was waiting. -/
theorem turnEnd_feeds (h : Quiet ch r) (turn : Option String) (t : Option Rat)
    (hfresh : r.stale ch turn t = false) :
    itemsOf ((r.turnEnd s ch turn t).getD (r, [])).2 = said (r.settings.verbosity = .skipCode)
      (feedAll s (r.get ch).assembler (r.get ch).order.held).2 := by
  have mgap := releaseGap_feeds (s := s) h
  have hitems := mgap.items
  unfold turnEnd
  rw [if_neg (by rw [hfresh]; exact Bool.false_ne_true), Option.getD_some]
  dsimp only
  generalize r.releaseGap s ch = p at mgap hitems ⊢
  -- No reply waits to be read in place of the text.
  have hreply : p.1.takeReply s ch =
      ((p.1.touch ch).set ch { (p.1.touch ch).get ch with reply := none }, []) := by
    unfold takeReply
    dsimp only
    rw [mgap.quiet.touch.reply]
  rw [hreply]
  dsimp only
  generalize hr₁ : ((p.1.touch ch).set ch { (p.1.touch ch).get ch with reply := none }).modify ch
    (fun c => { c with released := true, ended := true, batchCut := false }) = r₁
  obtain ⟨g, hturn⟩ := touch_turn
    ((p.1.touch ch).set ch { (p.1.touch ch).get ch with reply := none }) ch
  have hq := mgap.quiet.touch
  have hheld : (r₁.get ch).heldProse = [] := by
    rw [← hr₁, modify, get_set_self, hturn, get_set_self]
    exact hq.held
  have hkept : (r₁.get ch).voiced = (r₁.get ch).prose.length := by
    rw [← hr₁, modify, get_set_self, hturn, get_set_self]
    exact hq.kept
  have hraw : r₁.summaries = false := by
    have hset : r₁.settings = p.1.settings := by
      rw [← hr₁, modify]
      exact touch_same.1.trans touch_same.1
    unfold summaries
    rw [hset]
    exact mgap.quiet.raw
  have hraw' : (r₁.holdKept ch).1.summaries = false := by
    have hset : (r₁.holdKept ch).1.settings = r₁.settings := touch_same.1
    unfold summaries at hraw ⊢
    rw [hset]
    exact hraw
  simp only [hraw, hraw', Bool.false_eq_true, if_false]
  rw [flushProse_none (holdKept_none hheld hkept), itemsOf_append, itemsOf_append, itemsOf_append,
    itemsOf_append, itemsOf_mute (earcon_silent .turnDone), hitems]
  simp only [itemsOf_nil, List.append_nil, List.nil_append]
  rfl

/-- A timer of the channel's order lets go what is held, or nothing. -/
theorem fire_feeds (h : Quiet ch r) (g : Nat) (focused : Option ChannelId) :
    ∃ ds o, Feeds s ch r ds o (r.fire s (.gap ch g) focused) ∧
      ((ds, o) = ((r.get ch).order.release.2, (r.get ch).order.release.1) ∨
        (ds, o) = ([], (r.get ch).order)) := by
  unfold fire
  dsimp only
  split
  · exact ⟨_, _, releaseGap_feeds h, .inl rfl⟩
  · exact ⟨[], _, ⟨h, rfl, rfl, rfl, rfl, fun t ht => absurd ht List.not_mem_nil⟩, .inr rfl⟩

end Rules

/-! ## Runs -/

/-- The delta that an input streams. -/
def Input.delta? : Input → Option Delta
  | .call (.stream _ _ delta index fin _) => some ⟨delta, index, fin⟩
  | _ => none

/-- The deltas that come, in the order they come. -/
def arrivals (is : List Input) : List Delta := is.filterMap Input.delta?

/-- A timer fires. -/
def Input.fires : Input → Bool
  | .fire _ _ => true
  | _ => false

/-- The input streams a delta of the channel, or a timer fires. -/
def Input.Arrives (ch : ChannelId) : Input → Prop
  | .call (.stream c _ _ _ _ _) => c = ch
  | .fire _ _ => True
  | _ => False

theorem Input.Arrives.streams {ch : ChannelId} {i : Input} (h : i.Arrives ch) (v : Verbosity) :
    i.Streams ch v := by
  cases i with
  | call c => cases c <;> first | exact h | exact h.elim
  | fire => trivial
  | answer => exact h.elim

/-- As long as index 0 has not come, no timer has fired, or the final of the block has not
come either. -/
def Timely (is : List Input) : Prop :=
  ∀ pre, pre <+: is → (∀ d ∈ arrivals pre, d.index ≠ 0) →
    (∀ i ∈ pre, i.fires = false) ∨ ∀ d ∈ arrivals pre, d.fin = true → d.index = 0

theorem arrivals_snoc (is : List Input) (i : Input) :
    arrivals (is ++ [i]) = arrivals is ++ i.delta?.toList := by
  unfold arrivals
  rw [List.filterMap_append]
  cases h : i.delta? <;> simp [h]

theorem Timely.init {is : List Input} {i : Input} (h : Timely (is ++ [i])) : Timely is :=
  fun pre hpre => h pre (hpre.trans (List.prefix_append is [i]))

variable {s : Speech} {settings : Settings} {ch : ChannelId} {n : Nat}

/-- The rules that read at once, after some of a block came: `fed` went to the assembler,
and its chunks were spoken. -/
structure Delivered (s : Speech) (settings : Settings) (ch : ChannelId) (is : List Input)
    (fed : List Delta) (w : World) (out : List Action) : Prop where
  quiet : Rules.Quiet ch w.rules
  same : w.rules.settings = settings
  timers : ∀ t ∈ w.timers, ∃ g, t = .gap ch g
  assembler : (w.rules.get ch).assembler = (feedAll s {} fed).1
  items : itemsOf out = said (settings.verbosity = .skipCode) (feedAll s {} fed).2
  perm : (fed ++ (w.rules.get ch).order.held).Perm (arrivals is)
  led : Led fed
  /-- Index 0 is fed when it comes. -/
  zero : (∃ z ∈ arrivals is, z.index = 0) → ∃ z ∈ fed, z.index = 0
  /-- Before it, and before a timer fires, all that came is held. -/
  calm : (∀ z ∈ arrivals is, z.index ≠ 0) → (∀ i ∈ is, i.fires = false) →
    fed = [] ∧ (w.rules.get ch).order.Untouched

/-- More is fed. -/
theorem Delivered.feed {is : List Input} {fed : List Delta} {w : World} {out : List Action}
    (h : Delivered s settings ch is fed w out) {ds : List Delta} {o : DeltaOrder}
    {p : Rules × List Action} (m : Rules.Feeds s ch w.rules ds o p) {ts : List Timer}
    (hts : ts ⊆ w.timers) {i : Input}
    (hperm : (ds ++ o.held).Perm (i.delta?.toList ++ (w.rules.get ch).order.held))
    (hled : Led (fed ++ ds))
    (hzero : (∃ z ∈ arrivals (is ++ [i]), z.index = 0) → ∃ z ∈ fed ++ ds, z.index = 0)
    (hcalm : (∀ z ∈ arrivals (is ++ [i]), z.index ≠ 0) → (∀ j ∈ is ++ [i], j.fires = false) →
      fed ++ ds = [] ∧ o.Untouched) :
    Delivered s settings ch (is ++ [i]) (fed ++ ds) (World.took { w with timers := ts } p).1
      (out ++ p.2) where
  quiet := m.quiet
  same := m.settings.trans h.same
  timers := fun t ht => (List.mem_append.mp ht).elim (fun ht => h.timers t (hts ht)) (m.timers t)
  assembler := by
    show (p.1.get ch).assembler = _
    rw [m.assembler, h.assembler, feedAll_append]
  items := by
    rw [itemsOf_append, h.items, m.items, h.assembler, h.same, feedAll_append, said_append]
  perm := by
    show (fed ++ ds ++ (p.1.get ch).order.held).Perm _
    rw [m.order, arrivals_snoc, List.append_assoc]
    refine (hperm.append_left fed).trans ?_
    rw [← List.append_assoc]
    refine (List.perm_append_comm.append_right _).trans ?_
    rw [List.append_assoc]
    exact (h.perm.append_left _).trans List.perm_append_comm
  led := hled
  zero := hzero
  calm := fun hz hf => by
    show _ ∧ (p.1.get ch).order.Untouched
    rw [m.order]
    exact hcalm hz hf

/-- All that was fed or is held came. -/
theorem Delivered.came {is : List Input} {fed : List Delta} {w : World} {out : List Action}
    (h : Delivered s settings ch is fed w out) {d : Delta}
    (hd : d ∈ fed ∨ d ∈ (w.rules.get ch).order.held) : d ∈ arrivals is :=
  h.perm.mem_iff.mp (List.mem_append.mpr hd)

/-- Before index 0 comes, what was fed has no final of a longer block if none came. -/
theorem Delivered.feedLed {is : List Input} {fed : List Delta} {w : World} {out : List Action}
    (h : Delivered s settings ch is fed w out) {ds : List Delta}
    (hlate : (∀ z ∈ fed, z.index ≠ 0) → Led (fed ++ ds)) : Led (fed ++ ds) := by
  by_cases hz : ∃ z ∈ fed, z.index = 0
  · exact h.led.append hz
  · exact hlate fun z hz' h0 => hz ⟨z, hz', h0⟩

/-- A delta comes. -/
theorem Delivered.stream {is : List Input} {fed : List Delta} {w : World} {out : List Action}
    (h : Delivered s settings ch is fed w out) (turn : Option String) (d : Delta) (t : Option Rat)
    (hfresh : w.rules.stale ch turn t = false)
    (htimely : Timely (is ++ [.call (.stream ch turn d.text d.index d.fin t)]))
    (hnew : d.index ∉ (arrivals is).map Delta.index) :
    ∃ fed', Delivered s settings ch (is ++ [.call (.stream ch turn d.text d.index d.fin t)]) fed'
      (w.step s (.call (.stream ch turn d.text d.index d.fin t))).1
      (out ++ (w.step s (.call (.stream ch turn d.text d.index d.fin t))).2) := by
  obtain ⟨g, m⟩ := Rules.streamDelta_feeds (s := s) h.quiet d
  have hcall : w.rules.call s (.stream ch turn d.text d.index d.fin t) =
      w.rules.streamDelta s ch d := by
    show (w.rules.stream s ch turn d.text d.index d.fin t).getD (w.rules, []) = _
    unfold Rules.stream
    rw [if_neg (by rw [hfresh]; exact Bool.false_ne_true)]
    rfl
  have hperm := DeltaOrder.arrive_perm (w.rules.get ch).order d
  have hcame : arrivals (is ++ [.call (.stream ch turn d.text d.index d.fin t)]) =
      arrivals is ++ [d] :=
    arrivals_snoc _ _
  have hahead : d.index ∉ (w.rules.get ch).order.ahead := by
    intro hmem
    obtain ⟨v, hv⟩ := Option.isSome_iff_exists.mp (Std.ExtTreeMap.mem_iff_isSome_getElem?.mp hmem)
    have hheld : (⟨v.1, d.index, v.2⟩ : Delta) ∈ (w.rules.get ch).order.held :=
      DeltaOrder.mem_held.mpr hv
    exact hnew (List.mem_map.mpr ⟨_, h.came (.inr hheld), rfl⟩)
  -- What is fed came before or is `d`.
  have hsub : ∀ e ∈ fed ++ ((w.rules.get ch).order.arrive d).2, e ∈ arrivals is ++ [d] := by
    intro e he
    rcases List.mem_append.mp he with he | he
    · exact List.mem_append_left _ (h.came (.inl he))
    · rcases List.mem_cons.mp (hperm.mem_iff.mp (List.mem_append_left _ he)) with rfl | he
      · exact List.mem_append_right _ List.mem_cons_self
      · exact List.mem_append_left _ (h.came (.inr he))
  refine ⟨fed ++ ((w.rules.get ch).order.arrive d).2, ?_⟩
  show Delivered s settings ch _ _ (World.took w (w.rules.call s _)).1 (out ++ (w.rules.call s _).2)
  rw [hcall]
  refine h.feed m (fun t ht => ht) hperm (h.feedLed fun hnone => ?_) ?_ ?_
  · have hnone' : ∀ z ∈ arrivals is, z.index ≠ 0 := fun z hz h0 =>
      (h.zero ⟨z, hz, h0⟩).elim fun z' hz' => hnone z' hz'.1 hz'.2
    by_cases hd : d.index = 0
    · rcases htimely is (List.prefix_append is _) hnone' with hquiet | hopen
      · obtain ⟨hfed, huntouched⟩ := h.calm hnone' hquiet
        obtain ⟨rest, hrest⟩ := huntouched.first hd hahead
        rw [hfed, hrest]
        exact Led.first hd rest
      · refine Led.open fun e he hfin => ?_
        rcases List.mem_append.mp (hsub e he) with he | he
        · exact hopen e he hfin
        · rw [List.mem_singleton.mp he]
          exact hd
    · have hnone'' : ∀ z ∈ arrivals (is ++ [.call (.stream ch turn d.text d.index d.fin t)]),
          z.index ≠ 0 := by
        rw [hcame]
        intro z hz
        rcases List.mem_append.mp hz with hz | hz
        · exact hnone' z hz
        · rw [List.mem_singleton.mp hz]
          exact hd
      rcases htimely _ (List.prefix_refl _) hnone'' with hquiet | hopen
      · obtain ⟨hfed, huntouched⟩ := h.calm hnone' fun i hi => hquiet i (List.mem_append_left _ hi)
        rw [hfed, (huntouched.hold (Nat.pos_iff_ne_zero.mpr hd) hahead).2]
        exact Led.open fun e he => absurd he List.not_mem_nil
      · rw [hcame] at hopen
        exact Led.open fun e he => hopen e (hsub e he)
  · rw [hcame]
    rintro ⟨z, hz, h0⟩
    rcases List.mem_append.mp hz with hz | hz
    · obtain ⟨z', hz', h0'⟩ := h.zero ⟨z, hz, h0⟩
      exact ⟨z', List.mem_append_left _ hz', h0'⟩
    · rw [List.mem_singleton.mp hz] at h0
      exact ⟨d, List.mem_append_right _ (DeltaOrder.mem_arrive_zero _ h0), h0⟩
  · rw [hcame]
    intro hnone hquiet
    have hd : 0 < d.index :=
      Nat.pos_iff_ne_zero.mpr (hnone d (List.mem_append_right _ List.mem_cons_self))
    obtain ⟨hfed, huntouched⟩ := h.calm (fun z hz => hnone z (List.mem_append_left _ hz))
      fun i hi => hquiet i (List.mem_append_left _ hi)
    obtain ⟨hstill, hout⟩ := huntouched.hold hd hahead
    rw [hfed, hout]
    exact ⟨rfl, ⟨hstill.next, hstill.skipped⟩⟩

/-- A timer fires. -/
theorem Delivered.fire {is : List Input} {fed : List Delta} {w : World} {out : List Action}
    (h : Delivered s settings ch is fed w out) (k : Nat) (focused : Option ChannelId)
    (htimely : Timely (is ++ [.fire k focused])) :
    ∃ fed', Delivered s settings ch (is ++ [.fire k focused]) fed' (w.step s (.fire k focused)).1
      (out ++ (w.step s (.fire k focused)).2) := by
  have hcame : arrivals (is ++ [.fire k focused]) = arrivals is := by
    rw [arrivals_snoc]
    exact List.append_nil _
  have hfires : ¬ ∀ j ∈ is ++ [.fire k focused], j.fires = false := fun hq =>
    Bool.false_ne_true (hq (.fire k focused) (List.mem_append_right _ List.mem_cons_self)).symm
  unfold World.step
  dsimp only
  split
  next t ht =>
    obtain ⟨g, rfl⟩ := h.timers t (List.mem_of_getElem? ht)
    obtain ⟨ds, o, m, hrel⟩ := Rules.fire_feeds (s := s) h.quiet g focused
    have hperm : (ds ++ o.held).Perm (w.rules.get ch).order.held := by
      rcases hrel with hrel | hrel
      · obtain ⟨rfl, rfl⟩ := Prod.mk.inj hrel
        rw [DeltaOrder.release_held, List.append_nil]
        exact .refl _
      · obtain ⟨rfl, rfl⟩ := Prod.mk.inj hrel
        exact .refl _
    refine ⟨fed ++ ds, h.feed m (fun t ht => List.mem_of_mem_eraseIdx ht) hperm
      (h.feedLed fun hnone => ?_) ?_ fun _ hq => absurd hq hfires⟩
    · have hnone' : ∀ z ∈ arrivals (is ++ [.fire k focused]), z.index ≠ 0 := by
        rw [hcame]
        exact fun z hz h0 => (h.zero ⟨z, hz, h0⟩).elim fun z' hz' => hnone z' hz'.1 hz'.2
      rcases htimely _ (List.prefix_refl _) hnone' with hquiet | hopen
      · exact absurd hquiet hfires
      · rw [hcame] at hopen
        refine Led.open fun e he => hopen e ?_
        rcases List.mem_append.mp he with he | he
        · exact h.came (.inl he)
        · exact h.came (.inr (hperm.mem_iff.mp (List.mem_append_left _ he)))
    · rw [hcame]
      intro hz
      obtain ⟨z, hz, h0⟩ := h.zero hz
      exact ⟨z, List.mem_append_left _ hz, h0⟩
  · refine ⟨fed, h.quiet, h.same, h.timers, h.assembler, ?_, ?_, h.led, ?_,
      fun _ hq => absurd hq hfires⟩
    · rw [List.append_nil]
      exact h.items
    · rw [hcame]
      exact h.perm
    · rw [hcame]
      exact h.zero

/-- Nothing is delivered at first. -/
theorem delivered_init (s : Speech) {settings : Settings} (hreads : settings.Reads)
    (ch : ChannelId) :
    Delivered s settings.plain ch [] [] (machine s settings.plain).init [] := by
  have hget : (machine s settings.plain).init.rules.get ch = { gen := 0 } :=
    Rules.get_of_not_mem Std.ExtTreeMap.not_mem_empty
  have hquiet : Rules.Quiet ch (machine s settings.plain).init.rules :=
    ⟨hreads.raw, hreads.loud, rfl, rfl, by rw [hget], by rw [hget], by rw [hget], by rw [hget],
      by rw [hget], by rw [hget], by rw [hget]; rfl⟩
  refine ⟨hquiet, rfl, fun t ht => absurd ht List.not_mem_nil, by rw [hget]; rfl, rfl, ?_,
    Led.open fun d hd => absurd hd List.not_mem_nil, fun ⟨z, hz, _⟩ => absurd hz List.not_mem_nil,
    fun _ _ => ⟨rfl, by rw [hget]; exact ⟨rfl, rfl⟩⟩⟩
  rw [hget]
  exact .refl _

/-- Until the turn ends, the deltas that came are fed or held. -/
theorem run_delivered (s : Speech) {settings : Settings} (hreads : settings.Reads) (ch : ChannelId)
    (is : List Input) (his : ∀ i ∈ is, i.Arrives ch)
    (hnodup : ((arrivals is).map Delta.index).Nodup) (htimely : Timely is) :
    ∃ fed, Delivered s settings.plain ch is fed ((machine s settings.plain).state is)
      ((machine s settings.plain).out is) := by
  induction is using List.reverseRecOn with
  | nil => exact ⟨[], delivered_init s hreads ch⟩
  | append_singleton is i ih =>
    rw [arrivals_snoc, List.map_append, List.nodup_append] at hnodup
    obtain ⟨fed, h⟩ := ih (fun j hj => his j (List.mem_append_left _ hj)) hnodup.1 htimely.init
    have hi := his i (List.mem_append_right _ List.mem_cons_self)
    rw [Lib.Machine.state_snoc, Lib.Machine.out_snoc]
    cases i with
    | call c =>
      cases c with
      | stream a turn delta index fin t =>
        obtain rfl : a = ch := hi
        have hfresh : ((machine s settings.plain).state is).rules.stale a turn t = false :=
          streams_fresh (v := settings.verbosity) false is
            (fun j hj => (his j (List.mem_append_left _ hj)).streams _) turn t
        refine h.stream turn ⟨delta, index, fin⟩ t hfresh htimely fun hmem => ?_
        exact hnodup.2.2 _ hmem _ List.mem_cons_self rfl
      | _ => exact hi.elim
    | fire k focused => exact h.fire k focused htimely
    | answer => exact hi.elim

/-- **No delta of a block is lost for its order.** The deltas `0..n` of a block come in any
order, timers fire between them, and the turn ends, in any read mode but `final`, with
summaries off and nothing muted. If index 0 came before the final, or before a timer
fired, then each delta was fed to the assembler once, and what is spoken is, once each and
in order, the chunks of pieces that rebuild the deltas' texts as they were fed. -/
theorem block_delivered (s : Speech) (settings : Settings) (hreads : settings.Reads) (whole : Bool)
    (ch : ChannelId) (n : Nat) (is : List Input) (his : ∀ i ∈ is, i.Arrives ch)
    (hblock : Block n (arrivals is)) (htimely : Timely is) (turn : Option String) (t : Option Rat) :
    ∃ (fed : List Delta) (ps : List Piece), fed.Perm (arrivals is) ∧
      Assembler.Rebuilds s.toUnicode ps (fed.map Delta.text).flatten ∧
      Renders ch ((machine s settings).out (turnRun whole is ch turn t))
        (said (settings.verbosity = .skipCode) (ps.flatMap (voice s))) := by
  have hstreams : ∀ i ∈ is, i.Streams ch settings.verbosity := fun i hi => (his i hi).streams _
  have hnodup : ((arrivals is).map Delta.index).Nodup :=
    hblock.indices.nodup_iff.mpr List.nodup_range
  obtain ⟨fed, h⟩ := run_delivered s hreads ch is his hnodup htimely
  have hfresh : ((machine s settings.plain).state is).rules.stale ch turn t = false :=
    streams_fresh (v := settings.verbosity) false is hstreams turn t
  have hend := Rules.turnEnd_feeds (s := s) h.quiet turn t hfresh
  have hverb : ((machine s settings.plain).state is).rules.settings.verbosity =
      settings.verbosity := by
    rw [h.same]
    rfl
  rw [hverb, h.assembler] at hend
  have hout : itemsOf ((machine s settings.plain).out is) =
      said (settings.verbosity = .skipCode) (feedAll s {} fed).2 := h.items
  have hrenders := turnRun_renders s hreads whole ch is hstreams turn t
  have hperm := h.perm
  generalize (((machine s settings.plain).state is).rules.get ch).order.held = held at hend hperm
  -- All of the block was fed by now, index 0 before the final.
  have hled : Led (fed ++ held) := by
    refine h.led.append (h.zero ?_)
    have hzero : 0 ∈ (arrivals is).map Delta.index :=
      hblock.indices.mem_iff.mpr (List.mem_range.mpr (Nat.succ_pos n))
    obtain ⟨z, hz, h0⟩ := List.mem_map.mp hzero
    exact ⟨z, hz, h0⟩
  have hindices := (hperm.map Delta.index).trans hblock.indices
  have hle : ∀ d ∈ fed ++ held, d.index ≤ n := fun d hd =>
    Nat.lt_succ_iff.mp (List.mem_range.mp (hindices.mem_iff.mp (List.mem_map.mpr ⟨d, hd, rfl⟩)))
  obtain ⟨ps, hfed, hsaid⟩ := feedAll_fed s (fed ++ held)
    ((hperm.map Delta.index).nodup_iff.mpr hnodup) hle
    (fun d hd => hblock.final d (hperm.mem_iff.mp hd)) hled
  have hlast : n ∈ (fed ++ held).map Delta.index :=
    hindices.mem_iff.mpr (List.mem_range.mpr (Nat.lt_succ_self n))
  refine ⟨fed ++ held, ps, hperm, hfed.accounts.rebuilds (hfed.late hlast).1, ?_⟩
  have hitems : itemsOf ((machine s settings.plain).out (turnRun false is ch turn t)) =
      said (settings.verbosity = .skipCode) (ps.flatMap (voice s)) := by
    rw [← hsaid, feedAll_append, said_append, ← hout, ← hend, turnRun_out, itemsOf_append]
    rfl
  rw [hitems] at hrenders
  exact hrenders

/-- The final of a block of two, then a timer, then index 0. -/
def lateFirst : List Input :=
  [.call (.stream "c" none "two.".toList 1 true none), .fire 0 none,
    .call (.stream "c" none "one".toList 0 false none)]

/-- A block that is code. -/
def codeOnly : List Input :=
  [.call (.stream "c" none "```rust\nlet one\n```\n".toList 0 true none)]

/-- The first run's timer lets the final go without index 0, and the word of index 0 is not
spoken by the turn end. At `skip_code` no word of the second is. -/
theorem late_first_lost :
    (Block 1 (arrivals lateFirst) ∧
      Token.word "one".toList ∉ transcript ((machine .ascii { readMode := .immediate }).out
        (turnRun false lateFirst "c" none none))) ∧
    Block 0 (arrivals codeOnly) ∧
      transcript ((machine .ascii { readMode := .immediate, verbosity := .skipCode }).out
        (turnRun false codeOnly "c" none none)) = [] := by
  refine ⟨⟨⟨by decide, by decide⟩, by decide +kernel⟩, ⟨by decide, by decide⟩, by decide +kernel⟩

/-- Three deltas, the last first, and no timer. -/
def lastFirst : List Input :=
  [.call (.stream "c" none "three.".toList 2 true none),
    .call (.stream "c" none "one ".toList 0 false none),
    .call (.stream "c" none "two ".toList 1 false none)]

/-- The deltas arrive last one first, and all of the block is spoken. -/
theorem block_delivered_lastFirst :
    ∃ (fed : List Delta) (ps : List Piece), fed.Perm (arrivals lastFirst) ∧
      Assembler.Rebuilds Speech.ascii.toUnicode ps (fed.map Delta.text).flatten ∧
      Renders "c" ((machine .ascii {}).out (turnRun false lastFirst "c" none none))
        (said false (ps.flatMap (voice .ascii))) := by
  refine block_delivered .ascii {} ⟨rfl, rfl, nofun⟩ false "c" 2 lastFirst ?_
    ⟨by decide, by decide⟩ ?_ none none
  · unfold lastFirst
    simp only [List.mem_cons, List.not_mem_nil, or_false]
    rintro i (rfl | rfl | rfl) <;> rfl
  · -- No timer fires.
    refine fun pre hpre _ => .inl fun i hi => ?_
    have hmem := hpre.subset hi
    unfold lastFirst at hmem
    simp only [List.mem_cons, List.not_mem_nil, or_false] at hmem
    rcases hmem with rfl | rfl | rfl <;> rfl

end Sonara.L3
