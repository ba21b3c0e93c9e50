import Sonara.L3.Gens
import Sonara.L3.Heard

/-!
# The read mode changes when prose is heard

`Sim` relates rules in some read mode to rules that read at once: they are the same but
for the prose the first still hold. One method in both says the same items, those still
held aside (`Plays`): what was held and what the plain rules say now is what the others
say now and what they hold after.
-/

namespace Sonara.L3

open Sonara Text
open Sonara.L2 (ChannelId)
open Sonara.Prose (Speech Chunk)

/-- The settings, read at once. -/
def Settings.plain (st : Settings) : Settings := { st with readMode := .immediate, minqueue := 0 }

/-- Summaries are off, nothing is muted, and the text streamed is read. -/
structure Settings.Reads (st : Settings) : Prop where
  raw : st.summaries.enabled = false
  loud : st.muteLevel = 0
  streamed : st.readMode ≠ .final

/-- The turn, nothing held. -/
def Turn.plain (c : Turn) : Turn := { c with heldProse := [] }

/-- A timer of the channel's prose. -/
def Timer.Own (ch : ChannelId) (t : Timer) : Prop := ∃ g, t = .gap ch g ∨ t = .leadIn ch g

namespace Rules

variable {r r₀ r' r₀' : Rules} {s : Speech} {ch : ChannelId} {p p₀ : Rules × List Action}

/-- `r₀` are the rules `r`, but read at once. -/
structure Sim (ch : ChannelId) (r r₀ : Rules) : Prop where
  settings : r₀.settings = r.settings.plain
  whole : r₀.whole = false
  reads : r.settings.Reads
  nextGen : r₀.nextGen = r.nextGen
  nextDecision : r₀.nextDecision = r.nextDecision
  tracks : ch ∈ r₀.turns ↔ ch ∈ r.turns
  turn : r₀.get ch = (r.get ch).plain
  /-- No summary is in flight. -/
  idle : (r.get ch).inflight = 0
  /-- No prose is kept for one. -/
  kept : (r.get ch).voiced = (r.get ch).prose.length

/-- Two steps of the same method: what is heard is the same but for what is held. -/
structure Plays (ch : ChannelId) (held : List (Text × Bool)) (p p₀ : Rules × List Action) :
    Prop where
  sim : Sim ch p.1 p₀.1
  asked : asked p.2 = asked p₀.2
  own : ∀ t ∈ L3.asked p₀.2, t.Own ch
  heard : ∃ now, Renders ch p.2 now ∧ chunks held ++ itemsOf p₀.2 = now ++ chunks
    (p.1.get ch).heldProse

/-- Nothing is said. -/
theorem Plays.silent {held : List (Text × Bool)} (h : Sim ch r r₀)
    (hheld : (r.get ch).heldProse = held) :
    Plays ch held (r, []) (r₀, []) where
  sim := h
  asked := rfl
  own t ht := absurd ht List.not_mem_nil
  heard := ⟨[], .nil, by rw [hheld, itemsOf_nil, List.append_nil]; rfl⟩

theorem Plays.refl (h : Sim ch r r₀) : Plays ch (r.get ch).heldProse (r, []) (r₀, []) :=
  .silent h rfl

/-- Steps one after the other. -/
theorem Plays.trans {held : List (Text × Bool)} {q q₀ : Rules × List Action}
    (m : Plays ch held p p₀) (m' : Plays ch (p.1.get ch).heldProse q q₀) :
    Plays ch held (q.1, p.2 ++ q.2) (q₀.1, p₀.2 ++ q₀.2) := by
  obtain ⟨now, hr, he⟩ := m.heard
  obtain ⟨now', hr', he'⟩ := m'.heard
  refine ⟨m'.sim, ?_, fun t ht => ?_, now ++ now', hr.append hr', ?_⟩
  · rw [asked_append, asked_append, m.asked, m'.asked]
  · rw [asked_append] at ht
    rcases List.mem_append.mp ht with ht | ht
    · exact m.own t ht
    · exact m'.own t ht
  · rw [itemsOf_append, ← List.append_assoc, he, List.append_assoc, he', List.append_assoc]

/-- A method behind a step. -/
theorem Plays.seq {held : List (Text × Bool)} (m : Plays ch held p p₀)
    {g : Rules → Rules × List Action}
    (hg : ∀ {r r₀}, Sim ch r r₀ → Plays ch (r.get ch).heldProse (g r) (g r₀)) :
    Plays ch held ((g p.1).1, p.2 ++ (g p.1).2) ((g p₀.1).1, p₀.2 ++ (g p₀.1).2) :=
  m.trans (hg m.sim)

/-- A step, then a silent one. -/
theorem Plays.thenSilent {held : List (Text × Bool)} (m : Plays ch held p p₀)
    (m' : Plays ch (p.1.get ch).heldProse (r', []) (r₀', [])) :
    Plays ch held (r', p.2) (r₀', p₀.2) := by
  have m'' := m.trans m'
  rwa [List.append_nil, List.append_nil] at m''

/-- Silent actions of its own, which ask for the channel's timers at most. -/
theorem Plays.emit {held : List (Text × Bool)} {o : List Action} (m : Plays ch held p p₀)
    (hmute : ∀ a ∈ o, a.Silent) (hown : ∀ t ∈ L3.asked o, t.Own ch) :
    Plays ch held (p.1, o ++ p.2) (p₀.1, o ++ p₀.2) := by
  obtain ⟨now, hr, he⟩ := m.heard
  refine ⟨m.sim, ?_, fun t ht => ?_, now, ?_, ?_⟩
  · rw [asked_append, asked_append, m.asked]
  · rw [asked_append] at ht
    rcases List.mem_append.mp ht with ht | ht
    · exact hown t ht
    · exact m.own t ht
  · exact (Renders.mute hmute).append hr
  · rw [itemsOf_append, itemsOf_mute hmute]
    exact he

/-! ## The state -/

theorem Sim.summaries (h : Sim ch r r₀) : r.summaries = false := h.reads.raw

theorem Sim.plainSummaries (h : Sim ch r r₀) : r₀.summaries = false := by
  unfold Rules.summaries
  rw [h.settings]
  exact h.reads.raw

/-- Making sure of a channel in both keeps them alike. -/
theorem Sim.touch (h : Sim ch r r₀) : Sim ch (r.touch ch) (r₀.touch ch) := by
  by_cases hmem : ch ∈ r.turns
  · have hmem₀ := h.tracks.mpr hmem
    unfold Rules.touch
    rw [if_pos hmem, if_pos hmem₀]
    exact h
  · have hmem₀ : ch ∉ r₀.turns := fun hm => hmem (h.tracks.mp hm)
    have hnew : ∀ r : Rules, ch ∉ r.turns → r.touch ch = r.gen.1.set ch { gen := r.gen.2 } := by
      intro r hno
      unfold Rules.touch
      rw [if_neg hno]
      rfl
    rw [hnew r hmem, hnew r₀ hmem₀]
    have hgen : r₀.gen.2 = r.gen.2 := congrArg (· + 1) h.nextGen
    refine ⟨h.settings, h.whole, h.reads, hgen, h.nextDecision, ?_, ?_, ?_, ?_⟩
    · exact ⟨fun _ => Std.ExtTreeMap.mem_insert_self, fun _ => Std.ExtTreeMap.mem_insert_self⟩
    · rw [get_set_self, get_set_self, hgen]
      rfl
    · rw [get_set_self]
    · rw [get_set_self]
      rfl

theorem touch_held : ((r.touch ch).get ch).heldProse = (r.get ch).heldProse := by
  unfold Rules.touch
  split
  · rfl
  next hno =>
    have hnew := get_set_self (r := r.gen.1) ch { gen := r.gen.2 }
    have hold : r.get ch = { gen := 0 } := by
      unfold get
      rw [Std.ExtTreeMap.getElem?_eq_none hno]
      rfl
    show ((r.gen.1.set ch { gen := r.gen.2 }).get ch).heldProse = _
    rw [hnew, hold]

theorem Sim.set (h : Sim ch r r₀) {c d : Turn} (hc : d = c.plain) (hi : c.inflight = 0)
    (hk : c.voiced = c.prose.length) : Sim ch (r.set ch c) (r₀.set ch d) where
  settings := h.settings
  whole := h.whole
  reads := h.reads
  nextGen := h.nextGen
  nextDecision := h.nextDecision
  tracks := ⟨fun _ => Std.ExtTreeMap.mem_insert_self, fun _ => Std.ExtTreeMap.mem_insert_self⟩
  turn := by rw [get_set_self, get_set_self, hc]
  idle := by rw [get_set_self, hi]
  kept := by rw [get_set_self, hk]

/-- A turn is written, what is held aside. -/
theorem Plays.set (h : Sim ch r r₀) {c d : Turn} (hc : d = c.plain) (hi : c.inflight = 0)
    (hk : c.voiced = c.prose.length) (hheld : c.heldProse = (r.get ch).heldProse) :
    Plays ch (r.get ch).heldProse (r.set ch c, []) (r₀.set ch d, []) :=
  .silent (h.set hc hi hk) (by rw [get_set_self, hheld])

theorem Plays.touch (h : Sim ch r r₀) : Plays ch (r.get ch).heldProse (r.touch ch, [])
    (r₀.touch ch, []) :=
  .silent h.touch touch_held

/-- What a change of a turn's fields may not touch. -/
structure Aside (f : Turn → Turn) : Prop where
  plain : ∀ c : Turn, f c.plain = (f c).plain
  held : ∀ c : Turn, (f c).heldProse = c.heldProse
  idle : ∀ c : Turn, (f c).inflight = c.inflight
  kept : ∀ c : Turn, c.voiced = c.prose.length → (f c).voiced = (f c).prose.length

theorem Plays.modify (h : Sim ch r r₀) {f : Turn → Turn} (hf : Aside f) :
    Plays ch (r.get ch).heldProse (r.modify ch f, []) (r₀.modify ch f, []) := by
  refine .silent (h.touch.set ?_ ?_ (hf.kept _ h.touch.kept)) ?_
  · rw [h.touch.turn, hf.plain]
  · rw [hf.idle, h.touch.idle]
  · unfold Rules.modify
    rw [get_set_self, hf.held, touch_held]

theorem Sim.gen (h : Sim ch r r₀) : Sim ch r.gen.1 r₀.gen.1 ∧ r₀.gen.2 = r.gen.2 := by
  have hgen : r₀.gen.2 = r.gen.2 := congrArg (· + 1) h.nextGen
  exact ⟨⟨h.settings, h.whole, h.reads, hgen, h.nextDecision, h.tracks, h.turn, h.idle, h.kept⟩,
    hgen⟩

/-! ## Prose -/

theorem say_marked (hl : r.settings.muteLevel = 0) (t : Text) :
    r.speak ch (CodeSpeech.spoken :: t) none .prose =
    [.speak ch (CodeSpeech.spoken :: t) none false .prose] := by
  have hspoken : Spoken (CodeSpeech.spoken :: t) := ⟨_, List.mem_cons_self, by decide⟩
  unfold speak say
  rw [if_neg hspoken.trim_ne_nil, if_pos hl]

/-- Saying held prose speaks its chunks. -/
theorem sayProse_renders (hl : r.settings.muteLevel = 0) (held : List (Text × Bool)) :
    Renders ch (r.sayProse ch held) (chunks held) := by
  unfold sayProse
  split
  next hnil =>
    rw [hnil]
    exact .nil
  · split
    · have hone := @Renders.prose ch _ _ held .nil
      rw [List.append_nil] at hone
      unfold joinProse at hone ⊢
      rw [say_marked hl]
      exact hone
    · clear * - hl
      induction held with
      | nil => exact .nil
      | cons p held ih =>
        rw [List.flatMap_cons, say_marked hl]
        exact Renders.prose [p] ih

/-- Without whole messages prose is spoken chunk by chunk. -/
theorem sayProse_items (hl : r.settings.muteLevel = 0) (hw : r.whole = false)
    (held : List (Text × Bool)) :
    itemsOf (r.sayProse ch held) = chunks held := by
  unfold sayProse
  rw [hw]
  split
  next hnil =>
    rw [hnil]
    rfl
  · simp only [Bool.false_eq_true, if_false]
    clear * - hl
    induction held with
    | nil => rfl
    | cons p held ih =>
      rw [List.flatMap_cons, say_marked hl, itemsOf_append, ih]
      rfl

/-- Some of what is held is spoken, from the start. -/
def sayUpto (r : Rules) (ch : ChannelId) (n : Nat) : Rules × List Action :=
  (r.set ch { r.get ch with heldProse := (r.get ch).heldProse.drop n },
    r.sayProse ch ((r.get ch).heldProse.take n))

theorem flushProseUpto_eq (h : ch ∈ r.turns) (n : Nat) :
    r.flushProseUpto ch n = r.sayUpto ch n := by
  unfold flushProseUpto
  rw [touch_of_mem h]
  rfl

theorem flushProse_eq (h : ch ∈ r.turns) :
    r.flushProse ch = r.sayUpto ch (r.get ch).heldProse.length := by
  unfold flushProse
  rw [touch_of_mem h]
  exact flushProseUpto_eq h _

/-- What `speak_ready` speaks is some of what is held. -/
theorem speakReady_cases (h : ch ∈ r.turns) (paraEnd : Bool) (upto : Nat) :
    r.speakReady ch paraEnd upto = (r, []) ∨
    ∃ n, r.speakReady ch paraEnd upto = r.sayUpto ch n := by
  unfold speakReady
  split
  · exact .inr ⟨_, flushProse_eq h⟩
  · split
    · exact .inr ⟨upto, flushProseUpto_eq h upto⟩
    · exact .inl rfl

/-- Holding prose is nothing to the rules that read at once. -/
theorem Sim.hold (h : Sim ch r r₀) (hmem : ch ∈ r.turns) (held : List (Text × Bool)) :
    Sim ch (r.set ch { r.get ch with heldProse := held }) r₀ where
  settings := h.settings
  whole := h.whole
  reads := h.reads
  nextGen := h.nextGen
  nextDecision := h.nextDecision
  tracks := ⟨fun _ => Std.ExtTreeMap.mem_insert_self, fun _ => h.tracks.mpr hmem⟩
  turn := by
    rw [get_set_self, h.turn]
    rfl
  idle := by
    rw [get_set_self]
    exact h.idle
  kept := by
    rw [get_set_self]
    exact h.kept

/-- What is held is spoken, from the start; the rules that read at once did before. -/
theorem Plays.upto (h : Sim ch r r₀) (hmem : ch ∈ r.turns) (n : Nat) :
    Plays ch (r.get ch).heldProse (r.sayUpto ch n) (r₀, []) where
  sim := h.hold hmem _
  asked := (sayProse_idle _).asked
  own t ht := absurd ht List.not_mem_nil
  heard := by
    refine ⟨_, sayProse_renders h.reads.loud _, ?_⟩
    unfold sayUpto
    dsimp only
    rw [get_set_self, itemsOf_nil, List.append_nil, ← chunks_append, List.take_append_drop]

/-- Nothing is held by rules that read at once. -/
theorem Sim.plainHeld (h : Sim ch r r₀) : (r₀.get ch).heldProse = [] := by
  rw [h.turn]
  rfl

/-- The rules that read at once speak what they are to hold. -/
theorem Sim.plainHoldTexts (h : Sim ch r r₀) (hmem : ch ∈ r.turns) {texts : List (Text × Bool)}
    (hne : texts ≠ []) (breaks : Option Nat) :
    ∃ r₀', r₀.holdTexts ch texts breaks = (r₀', r₀.sayProse ch texts) ∧ ∀ r', Sim ch r' r₀ →
    Sim ch r' r₀' := by
  have hmode : r₀.settings.readMode = .immediate := by
    rw [h.settings]
    rfl
  have hready : ∀ c c' : Turn, (r₀.set ch c').isReady c = true := by
    intro c c'
    have hmode : (r₀.set ch c').settings.readMode = .immediate := hmode
    have hwhole : (r₀.set ch c').whole = false := h.whole
    unfold isReady
    rw [hmode, hwhole]
    exact Bool.or_true _
  refine ⟨((r₀.set ch { r₀.get ch with heldProse := texts }).sayUpto ch texts.length).1, ?_,
    fun r' h' => ?_⟩
  · unfold holdTexts
    dsimp only
    rw [if_neg fun hh => hne hh.1, h.plainHeld, List.nil_append]
    unfold speakReady
    rw [if_pos (hready _ _), flushProse_eq (mem_set_self _), get_set_self]
    unfold sayUpto
    dsimp only
    rw [get_set_self, List.take_length]
    rfl
  · have hget : ((((r₀.set ch { r₀.get ch with heldProse := texts }).sayUpto ch texts.length).1).get
      ch) =
        r₀.get ch := by
      unfold sayUpto
      dsimp only
      rw [get_set_self, get_set_self, List.drop_length]
      show { r₀.get ch with heldProse := [] } = r₀.get ch
      rw [h.turn]
      rfl
    refine ⟨h'.settings, h'.whole, h'.reads, h'.nextGen, h'.nextDecision, ?_, hget.trans h'.turn,
      h'.idle, h'.kept⟩
    exact ⟨fun _ => h'.tracks.mp (h.tracks.mpr hmem), fun _ => mem_set_self _⟩

/-- Texts that the one holds, the other speaks at once. -/
theorem holdTexts_plays (h : Sim ch r r₀) (hmem : ch ∈ r.turns) (texts : List (Text × Bool))
    (breaks : Option Nat) :
    Plays ch (r.get ch).heldProse (r.holdTexts ch texts breaks) (r₀.holdTexts ch texts breaks) := by
  -- What these rules hold now, and then speak of it, the plain rules speaking nothing.
  have hheld : ∀ texts, (r.set ch { r.get ch with heldProse := (r.get ch).heldProse ++ texts }).get
    ch =
      { r.get ch with heldProse := (r.get ch).heldProse ++ texts } := fun texts => get_set_self ch _
  have hsaid : ∀ texts paraEnd upto, Plays ch ((r.get ch).heldProse ++ texts)
      ((r.set ch { r.get ch with heldProse := (r.get ch).heldProse ++ texts }).speakReady ch
        paraEnd upto)
      (r₀, []) := by
    intro texts paraEnd upto
    have hsim := h.hold hmem ((r.get ch).heldProse ++ texts)
    have hself : ch ∈ (r.set ch { r.get ch with heldProse := (r.get ch).heldProse ++
        texts }).turns :=
      mem_set_self _
    rcases speakReady_cases hself paraEnd upto with he | ⟨n, he⟩
    · rw [he]
      exact .silent hsim (by rw [hheld])
    · rw [he]
      have m := Plays.upto hsim (mem_set_self _) n
      rw [hheld] at m
      exact m
  by_cases htexts : texts = []
  · subst htexts
    have hplain : r₀.holdTexts ch [] breaks = (r₀, []) := by
      unfold holdTexts
      dsimp only
      rw [if_pos]
      rw [h.whole]
      exact ⟨rfl, rfl⟩
    rw [hplain]
    unfold holdTexts
    dsimp only
    split
    · exact .refl h
    · have m := hsaid [] (r.whole && r.settings.readMode = .immediate && breaks.isSome)
        ((r.get ch).heldProse.length + breaks.getD 0)
      rw [List.append_nil] at m
      rw [List.append_nil]
      exact m
  · obtain ⟨r₀', hplain, hsim⟩ := h.plainHoldTexts hmem htexts breaks
    rw [hplain]
    unfold holdTexts
    dsimp only
    rw [if_neg fun hh => htexts hh.1]
    have m := hsaid texts (r.whole && r.settings.readMode = .immediate && breaks.isSome)
      ((r.get ch).heldProse.length + breaks.getD 0)
    obtain ⟨now, hr, he⟩ := m.heard
    have hloud : r₀.settings.muteLevel = 0 := by
      rw [h.settings]
      exact h.reads.loud
    refine ⟨hsim _ m.sim, ?_, fun t ht => ?_, now, hr, ?_⟩
    · rw [(sayProse_idle texts).asked]
      exact m.asked
    · rw [(sayProse_idle texts).asked] at ht
      exact absurd ht List.not_mem_nil
    · rw [sayProse_items hloud h.whole]
      rw [itemsOf_nil, List.append_nil, chunks_append] at he
      exact he

/-! ### Deltas -/

def Cut.plain (k : Cut) : Cut := { k with turn := k.turn.plain }

theorem cutChunk_plain (skipCode : Bool) (k : Cut) (c : Chunk) :
    cutChunk skipCode k.plain c = (cutChunk skipCode k c).plain := by
  cases c with
  | text t => rfl
  | code summary lines stop => cases skipCode <;> rfl
  | paragraphBreak => rfl

/-- A delta is cut alike in both. -/
theorem cutDelta_plain (skipCode : Bool) (k : Cut) (d : Delta) :
    cutDelta s skipCode k.plain d = (cutDelta s skipCode k d).plain := by
  have hfold : ∀ (cs : List Chunk) (k : Cut),
      cs.foldl (cutChunk skipCode) k.plain = (cs.foldl (cutChunk skipCode) k).plain := by
    intro cs
    induction cs with
    | nil => exact fun k => rfl
    | cons c cs ih =>
      intro k
      rw [List.foldl_cons, cutChunk_plain]
      exact ih _
  have h := hfold (k.turn.assembler.feed s d.text d.index d.fin).2
    { k with turn := { k.turn with
        newPara := k.turn.newPara || (d.index = 0 && k.turn.lastIndex.any (· ≠ 0))
        lastIndex := some d.index, assembler := (k.turn.assembler.feed s d.text d.index d.fin).1 } }
  unfold cutDelta
  dsimp only
  split
  · exact congrArg (fun k : Cut => Cut.mk { k.turn with newPara := true } k.texts
      (some k.texts.length)) h
  · exact h

/-- The deltas are cut alike, whatever is held. -/
theorem Sim.cut (h : Sim ch r r₀) (ds : List Delta) : r₀.cut s ch ds = (r.cut s ch ds).plain := by
  have hfold : ∀ (ds : List Delta) (skipCode : Bool) (k : Cut),
      ds.foldl (cutDelta s skipCode) k.plain = (ds.foldl (cutDelta s skipCode) k).plain := by
    intro ds skipCode
    induction ds with
    | nil => exact fun k => rfl
    | cons d ds ih =>
      intro k
      rw [List.foldl_cons, cutDelta_plain]
      exact ih _
  have hverb : r₀.settings.verbosity = r.settings.verbosity := by
    rw [h.settings]
    rfl
  unfold Rules.cut
  dsimp only
  rw [h.summaries, h.plainSummaries, h.turn, hverb]
  exact hfold ds _ ⟨(r.get ch).takeKept.1, (r.get ch).takeKept.2, none⟩

/-- Cutting leaves what is held and the summary in flight. -/
structure Holds (c c' : Turn) : Prop where
  held : c'.heldProse = c.heldProse
  idle : c'.inflight = c.inflight

theorem cut_holds (ds : List Delta) : Holds (r.get ch) (r.cut s ch ds).turn :=
  ⟨(cut_reads s r ch ds).same Turn.heldProse rfl, (cut_reads s r ch ds).same Turn.inflight rfl⟩

/-- Assembling deltas plays alike. -/
theorem assemble_plays (h : Sim ch r r₀) (ds : List Delta) :
    Plays ch (r.get ch).heldProse (r.assemble s ch ds) (r₀.assemble s ch ds) := by
  unfold assemble
  by_cases hds : ds = []
  · rw [if_pos hds, if_pos hds]
    exact .refl h
  · have hcut := h.touch.cut (s := s) ds
    have hholds : Holds ((r.touch ch).get ch) ((r.touch ch).cut s ch ds).turn := cut_holds ds
    rw [if_neg hds, if_neg hds]
    dsimp only
    rw [h.touch.summaries, h.touch.plainSummaries, hcut]
    generalize (r.touch ch).cut s ch ds = k at hholds ⊢
    have hset : Sim ch ((r.touch ch).set ch { k.turn with voiced := k.turn.prose.length })
        ((r₀.touch ch).set ch { k.plain.turn with voiced := k.plain.turn.prose.length }) :=
      h.touch.set rfl (hholds.idle.trans h.touch.idle) rfl
    have m := holdTexts_plays hset (mem_set_self _) k.texts k.breaks
    rw [get_set_self] at m
    have hheld : k.turn.heldProse = (r.get ch).heldProse := hholds.held.trans touch_held
    rw [← hheld]
    exact m

/-- Releasing a gap plays alike. -/
theorem releaseGap_plays (h : Sim ch r r₀) :
    Plays ch (r.get ch).heldProse (r.releaseGap s ch) (r₀.releaseGap s ch) := by
  have m := Plays.set h.touch
    (c := { (r.touch ch).get ch with order := ((r.touch ch).get ch).order.release.1 })
    (d := { (r₀.touch ch).get ch with order := ((r₀.touch ch).get ch).order.release.1 })
    (by rw [h.touch.turn]; rfl) h.touch.idle h.touch.kept rfl
  have ho : ((r₀.touch ch).get ch).order = ((r.touch ch).get ch).order := by
    rw [h.touch.turn]
    rfl
  have m' := m.seq (g := fun r' => r'.assemble s ch ((r.touch ch).get ch).order.release.2)
    fun h' => assemble_plays h' _
  rw [touch_held] at m'
  unfold releaseGap
  dsimp only
  rw [ho] at m' ⊢
  exact m'

/-- Accepting a delta plays alike. -/
theorem acceptDelta_plays (h : Sim ch r r₀) (d : Delta) :
    Plays ch (r.get ch).heldProse (r.acceptDelta s ch d) (r₀.acceptDelta s ch d) := by
  have ho : ((r₀.touch ch).get ch).order = ((r.touch ch).get ch).order := by
    rw [h.touch.turn]
    rfl
  obtain ⟨hgen, hnew⟩ := h.touch.gen
  unfold acceptDelta
  dsimp only
  rw [ho]
  generalize ((r.touch ch).get ch).order.accept d = a
  rw [hnew, h.touch.turn]
  split
  · have hset :=
      hgen.set (c := { (r.touch ch).get ch with order := { a.1 with gen := (r.touch ch).gen.2 } })
      (d := { ((r.touch ch).get ch).plain with order := { a.1 with gen := (r.touch ch).gen.2 } })
      rfl h.touch.idle h.touch.kept
    have m := assemble_plays (s := s) hset a.2.1
    rw [get_set_self] at m
    have m' := m.emit (o := [.timer deltaGap (.gap ch (r.touch ch).gen.2)])
      (fun a ha => by rw [List.mem_singleton.mp ha]; trivial)
      (fun t ht => ⟨_, .inl (List.mem_singleton.mp ht)⟩)
    rw [← touch_held]
    exact m'
  · have hset := h.touch.set (c := { (r.touch ch).get ch with order := a.1 })
      (d := { ((r.touch ch).get ch).plain with order := a.1 }) rfl h.touch.idle h.touch.kept
    have m := assemble_plays (s := s) hset a.2.1
    rw [get_set_self] at m
    rw [← touch_held]
    exact m

theorem noteSeen_plays (h : Sim ch r r₀) (d : Delta) :
    Plays ch (r.get ch).heldProse (r.noteSeen s ch d, []) (r₀.noteSeen s ch d, []) := by
  refine .modify h ⟨fun c => ?_, fun c => ?_, fun c => ?_, fun c hk => ?_⟩
  · split <;> rfl
  · split <;> rfl
  · split <;> rfl
  · split
    · exact hk
    · exact hk

/-- A streamed delta plays alike. -/
theorem streamDelta_plays (h : Sim ch r r₀) (d : Delta) :
    Plays ch (r.get ch).heldProse (r.streamDelta s ch d) (r₀.streamDelta s ch d) := by
  have mseen := noteSeen_plays (s := s) h d
  have hheld : ((r.noteSeen s ch d).get ch).heldProse = (r.get ch).heldProse := by
    unfold noteSeen modify
    rw [get_set_self, ← touch_held]
    split <;> rfl
  unfold streamDelta
  dsimp only
  have hsim : Sim ch (r.noteSeen s ch d) (r₀.noteSeen s ch d) := mseen.sim
  generalize r.noteSeen s ch d = r₁ at hsim hheld ⊢
  generalize r₀.noteSeen s ch d = r₁₀ at hsim ⊢
  rw [hsim.turn, ← hheld]
  unfold Turn.plain
  dsimp only
  split
  · exact .set hsim rfl hsim.idle hsim.kept rfl
  · split
    · exact .refl hsim
    · split
      · exact .set hsim rfl hsim.idle hsim.kept rfl
      · refine Plays.seq (g := fun r => r.acceptDelta s ch d) ?_ fun h' => acceptDelta_plays h' d
        split
        · exact releaseGap_plays hsim
        · exact .refl hsim

/-- A message that is stale for both, or taken by both alike. -/
def PlaysOr (ch : ChannelId) (held : List (Text × Bool))
    (p p₀ : Option (Rules × List Action)) : Prop :=
  (p = none ∧ p₀ = none) ∨ ∃ q q₀, p = some q ∧ p₀ = some q₀ ∧ Plays ch held q q₀

theorem PlaysOr.getD {p p₀ : Option (Rules × List Action)}
    (m : PlaysOr ch (r.get ch).heldProse p p₀)
    (h : Sim ch r r₀) : Plays ch (r.get ch).heldProse (p.getD (r, [])) (p₀.getD (r₀, [])) := by
  rcases m with ⟨rfl, rfl⟩ | ⟨q, q₀, rfl, rfl, m⟩
  · exact .refl h
  · exact m

theorem Sim.get? (h : Sim ch r r₀) : r₀.turns[ch]? = r.turns[ch]?.map Turn.plain := by
  by_cases hmem : ch ∈ r.turns
  · rw [get?_of_mem hmem, get?_of_mem (h.tracks.mpr hmem), h.turn]
    rfl
  · rw [Std.ExtTreeMap.getElem?_eq_none hmem,
      Std.ExtTreeMap.getElem?_eq_none fun hm => hmem (h.tracks.mp hm)]
    rfl

theorem Sim.stale (h : Sim ch r r₀) (turn : Option String) (t : Option Rat) :
    r₀.stale ch turn t = r.stale ch turn t := by
  unfold Rules.stale
  rw [h.get?]
  cases r.turns[ch]? <;> rfl

theorem stream_plays (h : Sim ch r r₀) (turn : Option String) (delta : Text) (index : Nat)
    (fin : Bool) (t : Option Rat) :
    PlaysOr ch (r.get ch).heldProse (r.stream s ch turn delta index fin t)
      (r₀.stream s ch turn delta index fin t) := by
  unfold stream
  rw [h.stale]
  split
  · exact .inl ⟨rfl, rfl⟩
  · exact .inr ⟨_, _, rfl, rfl, streamDelta_plays h _⟩

/-! ## Decisions and lead-ins -/

theorem flushProse_touch : r.flushProse ch = (r.touch ch).sayUpto ch
    ((r.touch ch).get ch).heldProse.length := by
  rw [← flushProse_eq mem_touch]
  unfold flushProse
  rw [touch_of_mem (r := r.touch ch) mem_touch]

/-- What is held is spoken, and nothing is held any more. -/
theorem flushProse_plays (h : Sim ch r r₀) :
    Plays ch (r.get ch).heldProse (r.flushProse ch) (r₀.flushProse ch) ∧
      ((r.flushProse ch).1.get ch).heldProse = [] := by
  have hempty : ((r.flushProse ch).1.get ch).heldProse = [] := by
    rw [flushProse_touch]
    unfold sayUpto
    dsimp only
    rw [get_set_self, List.drop_length]
  refine ⟨⟨?_, ?_, fun t ht => ?_, ?_⟩, hempty⟩
  · rw [flushProse_touch, flushProse_touch]
    refine h.touch.set ?_ h.touch.idle h.touch.kept
    rw [h.touch.turn]
    rfl
  · rw [flushProse_touch, flushProse_touch]
    exact (sayProse_idle _).asked.trans (sayProse_idle _).asked.symm
  · rw [flushProse_touch] at ht
    have hnone : asked ((r₀.touch ch).sayUpto ch ((r₀.touch ch).get ch).heldProse.length).2 = [] :=
      (sayProse_idle _).asked
    rw [hnone] at ht
    exact absurd ht List.not_mem_nil
  · refine ⟨chunks (r.get ch).heldProse, ?_, ?_⟩
    · rw [flushProse_touch]
      unfold sayUpto
      dsimp only
      rw [List.take_length, touch_held]
      exact sayProse_renders h.touch.reads.loud _
    · have hnone : itemsOf (r₀.flushProse ch).2 = [] := by
        rw [flushProse_touch]
        unfold sayUpto
        dsimp only
        rw [h.touch.plainHeld]
        rfl
      rw [hempty, hnone]
      rfl

theorem speakDecision_eq (hl : r.settings.muteLevel = 0) (d : Decision) :
    r.speakDecision ch d = [.speak ch d.text (some d.id) false d.kind] := by
  unfold speakDecision speak say
  rw [if_neg d.spoken.trim_ne_nil, if_pos hl]

/-- A decision is spoken at once, behind all the prose before it. -/
theorem enqueueOrHold_plays (h : Sim ch r r₀) (d : Decision) :
    Plays ch (r.get ch).heldProse (r.enqueueOrHold ch d false) (r₀.enqueueOrHold ch d false) := by
  have hloud : (r₀.touch ch).settings.muteLevel = 0 := by
    rw [h.touch.settings]
    exact h.touch.reads.loud
  obtain ⟨m, hempty⟩ := flushProse_plays h.touch
  rw [touch_held] at m
  unfold enqueueOrHold
  dsimp only
  rw [h.touch.turn]
  unfold Turn.plain
  dsimp only
  rw [h.touch.idle, if_neg (by simp), if_neg (by simp), speakDecision_eq h.touch.reads.loud,
    speakDecision_eq hloud]
  obtain ⟨now, hr, he⟩ := m.heard
  have hone : Renders ch [.speak ch d.text (some d.id) false d.kind] [.decision d.id d.text] :=
    .decision d.id d.text d.kind .nil
  refine ⟨m.sim, ?_, fun t ht => ?_, now ++ [.decision d.id d.text], hr.append hone, ?_⟩
  · rw [asked_append, asked_append, m.asked]
  · rw [asked_append] at ht
    rcases List.mem_append.mp ht with ht | ht
    · exact m.own t ht
    · exact absurd ht List.not_mem_nil
  · -- The prose is all spoken before the decision.
    rw [itemsOf_append, ← List.append_assoc, he, hempty, chunks_nil, List.append_nil,
      List.append_nil]
    rfl

theorem enqueueAll_plays (h : Sim ch r r₀) (ds : List Decision) :
    Plays ch (r.get ch).heldProse (enqueueAll ch false ds r) (enqueueAll ch false ds r₀) := by
  induction ds generalizing r r₀ with
  | nil => exact .refl h
  | cons d ds ih =>
    exact (enqueueOrHold_plays h d).seq (g := enqueueAll ch false ds) fun h' => ih h'

/-- Releasing the wait for a lead-in plays alike. -/
theorem releaseLeadInWait_plays (h : Sim ch r r₀) :
    Plays ch (r.get ch).heldProse (r.releaseLeadInWait ch) (r₀.releaseLeadInWait ch) := by
  have mgone : Plays ch (r.get ch).heldProse
    (r.modify ch fun c => { c with leadInWait := none }, [])
      (r₀.modify ch fun c => { c with leadInWait := none }, []) :=
    .modify h ⟨fun _ => rfl, fun _ => rfl, fun _ => rfl, fun _ hk => hk⟩
  have hsim := mgone.sim
  unfold releaseLeadInWait
  dsimp only at hsim ⊢
  rw [hsim.summaries, hsim.plainSummaries]
  refine mgone.seq (g := fun r => enqueueAll ch false (r.get ch).pending
    (r.set ch { r.get ch with pending := [] })) fun {r r₀} h' => ?_
  have hset := h'.set (c := { r.get ch with pending := [] }) (d := { r₀.get ch with pending := [] })
    (by rw [h'.turn]; rfl) h'.idle h'.kept
  have m := enqueueAll_plays hset (r.get ch).pending
  rw [get_set_self] at m
  rw [h'.turn] at m ⊢
  exact m

/-- A wait for a lead-in plays alike. -/
theorem waitLeadIn_plays (h : Sim ch r r₀) (a : Ask) :
    Plays ch (r.get ch).heldProse (r.waitLeadIn ch a) (r₀.waitLeadIn ch a) := by
  obtain ⟨hgen, hnew⟩ := h.touch.gen
  have hw : ((r₀.touch ch).get ch).leadInWait = ((r.touch ch).get ch).leadInWait := by
    rw [h.touch.turn]
    rfl
  unfold waitLeadIn
  dsimp only
  rw [hw]
  split
  · exact .touch h
  · rw [hnew]
    have m := Plays.modify hgen (f := fun c =>
      { c with leadInWait := some { gen := (r.touch ch).gen.2, id := a.leadInId } })
      ⟨fun _ => rfl, fun _ => rfl, fun _ => rfl, fun _ hk => hk⟩
    have m' := m.emit (o := [.timer leadInWaitMs (.leadIn ch (r.touch ch).gen.2)])
      (fun a ha => by rw [List.mem_singleton.mp ha]; trivial)
      (fun t ht => ⟨_, .inr (List.mem_singleton.mp ht)⟩)
    rw [← touch_held]
    exact m'

/-- Both rules are then changed alike, in silence. -/
theorem Plays.after {held : List (Text × Bool)} (m : Plays ch held p p₀) {f : Turn → Turn}
    (hf : Aside f) :
    Plays ch held (p.1.modify ch f, p.2) (p₀.1.modify ch f, p₀.2) := by
  have m' := m.seq (g := fun r => (r.modify ch f, [])) fun h' => Plays.modify h' hf
  rwa [List.append_nil, List.append_nil] at m'

/-- A streamed lead-in plays alike, or is stale in both. -/
theorem streamLeadIn_plays (h : Sim ch r r₀) (turn : Option String) (delta : Text)
    (t : Option Rat) :
    PlaysOr ch (r.get ch).heldProse (r.streamLeadIn s ch turn delta t)
    (r₀.streamLeadIn s ch turn delta t) := by
  have hmode : r₀.settings.readMode ≠ .final := by
    rw [h.settings]
    exact nofun
  unfold streamLeadIn
  rw [if_neg h.reads.streamed, if_neg hmode]
  dsimp only
  rw [h.touch.turn]
  unfold Turn.plain
  dsimp only
  have m := Plays.set h.touch (c := { (r.touch ch).get ch with skipReply := false })
    (d := { (r.touch ch).get ch with skipReply := false, heldProse := [] }) rfl h.touch.idle
      h.touch.kept rfl
  have m' := stream_plays (s := s) m.sim turn delta 0 true t
  have hheld : (((r.touch ch).set ch { (r.touch ch).get ch with skipReply := false }).get
    ch).heldProse =
      (r.get ch).heldProse := by
    rw [get_set_self]
    exact touch_held
  rw [hheld] at m'
  rcases m' with ⟨hp, hp₀⟩ | ⟨q, q₀, hp, hp₀, m'⟩
  · rw [hp, hp₀]
    exact .inl ⟨rfl, rfl⟩
  · rw [hp, hp₀]
    exact .inr ⟨_, _, rfl, rfl, m'.after ⟨fun _ => rfl, fun _ => rfl, fun _ => rfl, fun _ hk => hk⟩⟩

/-- A lead-in plays alike, or is stale in both. -/
theorem takeLeadIn_plays (h : Sim ch r r₀) (turn : Option String) (delta : Text)
    (id : Option String) (t : Option Rat) :
    PlaysOr ch (r.get ch).heldProse (r.takeLeadIn s ch turn delta id t)
    (r₀.takeLeadIn s ch turn delta id t) := by
  have hwait : r₀.turns[ch]?.bind Turn.leadInWait = r.turns[ch]?.bind Turn.leadInWait := by
    rw [h.get?]
    cases r.turns[ch]? <;> rfl
  unfold takeLeadIn
  rw [h.stale]
  dsimp only
  rw [hwait]
  split
  · exact .inl ⟨rfl, rfl⟩
  · split
    · exact .inr ⟨_, _, rfl, rfl, .refl h⟩
    · -- What is read, and then the decisions that waited for it.
      have hthen : ∀ {p p₀ : Option (Rules × List Action)} (b : Bool), PlaysOr ch
        (r.get ch).heldProse p p₀ →
          PlaysOr ch (r.get ch).heldProse
            (p.map fun p => if b then ((p.1.releaseLeadInWait ch).1,
              p.2 ++ (p.1.releaseLeadInWait ch).2) else p)
            (p₀.map fun p => if b then ((p.1.releaseLeadInWait ch).1,
              p.2 ++ (p.1.releaseLeadInWait ch).2) else p) := by
        rintro p p₀ b (⟨rfl, rfl⟩ | ⟨q, q₀, rfl, rfl, m⟩)
        · exact .inl ⟨rfl, rfl⟩
        · refine .inr ⟨_, _, rfl, rfl, ?_⟩
          cases b with
          | true =>
            exact m.seq (g := fun r => r.releaseLeadInWait ch) fun h' => releaseLeadInWait_plays h'
          | false => exact m
      refine hthen _ ?_
      split
      · exact .inr ⟨_, _, rfl, rfl, .refl h⟩
      · split
        · exact streamLeadIn_plays h turn delta t
        · exact .inr ⟨_, _, rfl, rfl, .refl h⟩

theorem Sim.step (h : Sim ch r r₀) : r₀.settings.questionStep = r.settings.questionStep := by
  rw [h.settings]
  rfl

/-- What is kept for later is kept in both. -/
theorem keepLater_plays (h : Sim ch r r₀) (a : Ask) :
    (r.keepLater ch a = none ∧ r₀.keepLater ch a = none) ∨
      ∃ r' r₀', r.keepLater ch a = some r' ∧ r₀.keepLater ch a = some r₀' ∧
        Plays ch (r.get ch).heldProse (r', []) (r₀', []) := by
  unfold keepLater
  rw [h.step, h.turn]
  unfold Turn.plain
  dsimp only
  split
  · split
    · split
      · split
        · exact .inr ⟨_, _, rfl, rfl, .set h rfl h.idle h.kept rfl⟩
        · exact .inl ⟨rfl, rfl⟩
      · exact .inl ⟨rfl, rfl⟩
    · exact .inl ⟨rfl, rfl⟩
  · exact .inl ⟨rfl, rfl⟩

/-- The extras of a question are the same in both. -/
theorem extras_plays (h : Sim ch r r₀) (a : Ask) :
    (r₀.extras ch a).2 = (r.extras ch a).2 ∧
      Plays ch (r.get ch).heldProse ((r.extras ch a).1, []) ((r₀.extras ch a).1, []) := by
  have hverb : r₀.settings.verbosity = r.settings.verbosity := by
    rw [h.settings]
    rfl
  unfold extras
  dsimp only
  rw [h.step, hverb, h.turn]
  unfold Turn.plain
  dsimp only
  split
  · exact ⟨rfl, .refl h⟩
  · split
    · exact ⟨rfl, .set h rfl h.idle h.kept rfl⟩
    · exact ⟨rfl, .refl h⟩

/-- Without summaries an accepted decision waits for its lead-in, or goes. -/
theorem accept_eq (hraw : r.summaries = false) (hmode : r.settings.readMode ≠ .final) (a : Ask)
    (item : Decision) :
    r.accept ch a item =
      if a.leadInPending || (r.get ch).leadInWait.isSome then
        (r.set ch { r.get ch with pending := (r.get ch).pending ++ [item] }).waitLeadIn ch a
      else r.enqueueOrHold ch item false := by
  unfold accept
  dsimp only
  rw [hraw, if_neg Bool.false_ne_true]
  split
  · rfl
  · rw [if_neg fun hf => hmode hf.2]

theorem accept_plays (h : Sim ch r r₀) (a : Ask) (item : Decision) :
    Plays ch (r.get ch).heldProse (r.accept ch a item) (r₀.accept ch a item) := by
  have hmode : r₀.settings.readMode ≠ .final := by
    rw [h.settings]
    exact nofun
  rw [accept_eq h.summaries h.reads.streamed, accept_eq h.plainSummaries hmode, h.turn]
  unfold Turn.plain
  dsimp only
  split
  · have hset := h.set (c := { r.get ch with pending := (r.get ch).pending ++ [item] }) rfl
      h.idle h.kept
    have m := waitLeadIn_plays hset a
    rw [get_set_self] at m
    exact m
  · exact enqueueOrHold_plays h item

/-- A decision that is posed plays alike, behind the prose held. -/
theorem pose_plays (h : Sim ch r r₀) (a : Ask) {text : Text} (ht : Spoken text) (kind : Kind) :
    Plays ch (r.get ch).heldProse (r.pose ch a text ht kind) (r₀.pose ch a text ht kind) := by
  have hdrop : r.dropBefore ch kind = r := if_neg fun hf => h.reads.streamed hf.1
  have hdrop₀ : r₀.dropBefore ch kind = r₀ := by
    refine if_neg fun hf => ?_
    rw [h.settings] at hf
    exact nomatch hf.1
  obtain ⟨htexts, m⟩ := extras_plays h a
  have hsim := m.sim
  have hcount : Sim ch { (r.extras ch a).1 with nextDecision := (r.extras ch a).1.nextDecision + 1 }
      { (r₀.extras ch a).1 with nextDecision := (r₀.extras ch a).1.nextDecision + 1 } :=
    ⟨hsim.settings, hsim.whole, hsim.reads, hsim.nextGen, congrArg (· + 1) hsim.nextDecision,
      hsim.tracks,
      hsim.turn, hsim.idle, hsim.kept⟩
  have hheld : ((r.extras ch a).1.get ch).heldProse = (r.get ch).heldProse := by
    unfold extras
    dsimp only
    split
    · rfl
    · split
      · rw [get_set_self]
      · rfl
  have hid : (r₀.extras ch a).1.nextDecision = (r.extras ch a).1.nextDecision := hsim.nextDecision
  have m' := fun item => accept_plays hcount a item
  have hget : ({ (r.extras ch a).1 with nextDecision := (r.extras ch a).1.nextDecision + 1 } :
    Rules).get ch =
      (r.extras ch a).1.get ch := rfl
  rw [hget, hheld] at m'
  unfold pose
  dsimp only
  simp only [hdrop, hdrop₀, hid, htexts] at m' ⊢
  exact m' _

/-- Earcons behind a silent step. -/
theorem Plays.sound {held : List (Text × Bool)} {o o₀ : List Action}
    (m : Plays ch held (r, []) (r₀, []))
    (hsame : o₀ = o) (hmute : ∀ a ∈ o, a.Silent) (hidle : L3.asked o = []) :
    Plays ch held (r, o) (r₀, o₀) := by
  subst hsame
  have m' := m.emit hmute fun t ht => by rw [hidle] at ht; exact absurd ht List.not_mem_nil
  rwa [List.append_nil] at m'

theorem earcon_silent (e : Earcon) : ∀ a ∈ r.earcon e, a.Silent := by
  intro a ha
  unfold earcon at ha
  split at ha
  · rw [List.mem_singleton.mp ha]
    trivial
  · exact absurd ha List.not_mem_nil

theorem Sim.earcon (h : Sim ch r r₀) (e : Earcon) : r₀.earcon e = r.earcon e := by
  have hlevel : r₀.settings.muteLevel = r.settings.muteLevel := by
    rw [h.settings]
    rfl
  unfold Rules.earcon
  rw [hlevel]

theorem earcon_plays (h : Sim ch r r₀) (e : Earcon) :
    Plays ch (r.get ch).heldProse (r, r.earcon e) (r₀, r₀.earcon e) :=
  (Plays.refl h).sound (h.earcon e) (earcon_silent e) (earcon_idle e).asked

/-- A question plays alike. -/
theorem question_plays (h : Sim ch r r₀) (a : Ask) :
    Plays ch (r.get ch).heldProse (r.question ch a) (r₀.question ch a) := by
  unfold question
  dsimp only
  rw [h.step, h.turn, h.earcon]
  unfold Turn.plain
  dsimp only
  refine Plays.sound (.set h ?_ ?_ ?_ ?_) rfl ?_ ?_
  · rfl
  · exact h.idle
  · exact h.kept
  · rfl
  · intro b hb
    split at hb
    · exact absurd hb List.not_mem_nil
    · exact earcon_silent _ b hb
  · split
    · rfl
    · exact (earcon_idle _).asked

/-- `ask` plays alike. -/
theorem ask_plays (h : Sim ch r r₀) (a : Ask) :
    Plays ch (r.get ch).heldProse (r.ask s ch a) (r₀.ask s ch a) := by
  have mgap := releaseGap_plays (s := s) h
  unfold ask
  dsimp only
  generalize r.releaseGap s ch = g at mgap ⊢
  generalize r₀.releaseGap s ch = g₀ at mgap ⊢
  have hsim : Sim ch g.1 g₀.1 := mgap.sim
  have haw : (g₀.1.get ch).awaiting = (g.1.get ch).awaiting := by
    rw [hsim.turn]
    rfl
  rcases keepLater_plays hsim a with ⟨hk, hk₀⟩ | ⟨r', r₀', hk, hk₀, m⟩
  · rw [hk, hk₀]
    dsimp only
    cases hkind : a.kind with
    | question =>
      dsimp only
      rw [hsim.step]
      refine (mgap.seq (g := fun r => r.question ch a) fun h' => question_plays h' a).seq
        (g := fun r => r.pose ch a _ (questionLine_spoken _ a) .question) fun h' =>
          pose_plays h' a _ _
    | permission =>
      dsimp only
      rw [haw]
      split
      · exact mgap.thenSilent (.set hsim (by rw [hsim.turn]; rfl) hsim.idle hsim.kept rfl)
      · exact (mgap.seq (g := fun r => (r, r.earcon .permission)) fun h' => earcon_plays h' _).seq
          (g := fun r => r.pose ch a _ (Decision.permissionText_spoken a.text) .permission)
          fun h' => pose_plays h' a _ _
    | plan =>
      exact mgap.seq (g := fun r => r.pose ch a _ (Decision.planText_spoken a.text) .plan)
        fun h' => pose_plays h' a _ _
  · rw [hk, hk₀]
    exact mgap.thenSilent m

/-! ## Turn ends, tools and timers -/

/-- Taking a reply plays alike. -/
theorem takeReply_plays (h : Sim ch r r₀) :
    Plays ch (r.get ch).heldProse (r.takeReply s ch) (r₀.takeReply s ch) := by
  have hmode : r₀.settings.readMode ≠ .final := by
    rw [h.settings]
    exact nofun
  have hset₀ : (r₀.touch ch).settings.readMode ≠ .final := by rwa [(touch_config ch).settings]
  have hset : (r.touch ch).settings.readMode ≠ .final := by
    rw [(touch_config ch).settings]
    exact h.reads.streamed
  have m : Plays ch (r.get ch).heldProse
      ((r.touch ch).set ch { (r.touch ch).get ch with reply := none }, [])
      ((r₀.touch ch).set ch { (r₀.touch ch).get ch with reply := none }, []) := by
    rw [← touch_held]
    exact .set h.touch (by rw [h.touch.turn]; rfl) h.touch.idle h.touch.kept rfl
  have htaken : ∀ {r : Rules}, (r.touch ch).settings.readMode ≠ .final →
      r.takeReply s ch = ((r.touch ch).set ch { (r.touch ch).get ch with reply := none }, []) := by
    intro r hne
    unfold takeReply
    dsimp only
    split
    · rw [if_pos (.inl hne)]
    · rfl
  rw [htaken hset, htaken hset₀]
  exact m

/-- No prose is kept for a summary: `hold_kept` changes nothing. -/
theorem holdKept_plays (h : Sim ch r r₀) :
    Plays ch (r.get ch).heldProse ((r.holdKept ch).1, []) ((r₀.holdKept ch).1, []) := by
  have hnone : ((r.touch ch).get ch).takeKept.2 = [] := by
    show (((r.touch ch).get ch).prose.drop ((r.touch ch).get ch).voiced).map _ = []
    rw [h.touch.kept, List.drop_length]
    rfl
  have hnone₀ : ((r₀.touch ch).get ch).takeKept.2 = [] := by
    rw [h.touch.turn]
    exact hnone
  unfold holdKept
  dsimp only
  rw [hnone, hnone₀, ← touch_held, List.nil_append, List.nil_append]
  exact .set h.touch (by rw [h.touch.turn]; rfl) h.touch.idle rfl rfl

/-- A turn's end plays alike, and nothing is held after it. -/
theorem turnEnd_plays (h : Sim ch r r₀) (turn : Option String) (t : Option Rat) :
    (r.turnEnd s ch turn t = none ∧ r₀.turnEnd s ch turn t = none) ∨
      ∃ q q₀, r.turnEnd s ch turn t = some q ∧ r₀.turnEnd s ch turn t = some q₀ ∧
        Plays ch (r.get ch).heldProse q q₀ ∧ (q.1.get ch).heldProse = [] := by
  unfold turnEnd
  rw [h.stale]
  split
  · exact .inl ⟨rfl, rfl⟩
  · have mgap := releaseGap_plays (s := s) h
    dsimp only
    generalize r.releaseGap s ch = g at mgap ⊢
    generalize r₀.releaseGap s ch = g₀ at mgap ⊢
    have mreply := mgap.seq (g := fun r => r.takeReply s ch) fun h' => takeReply_plays h'
    generalize g.1.takeReply s ch = p at mreply ⊢
    generalize g₀.1.takeReply s ch = p₀ at mreply ⊢
    have mended := mreply.after (f := fun c =>
      { c with released := true, ended := true, batchCut := false })
      ⟨fun _ => rfl, fun _ => rfl, fun _ => rfl, fun _ hk => hk⟩
    dsimp only at mended
    generalize (p.1.modify ch fun c => { c with
        released := true, ended := true, batchCut := false }) = r₁ at mended ⊢
    generalize (p₀.1.modify ch fun c => { c with
        released := true, ended := true, batchCut := false }) = r₁₀
      at mended ⊢
    have hsim : Sim ch r₁ r₁₀ := mended.sim
    simp only [hsim.summaries, hsim.plainSummaries, Bool.false_eq_true, if_false]
    have mkept := mended.thenSilent (holdKept_plays hsim)
    dsimp only at mkept
    generalize (r₁.holdKept ch).1 = r₂ at mkept ⊢
    generalize (r₁₀.holdKept ch).1 = r₂₀ at mkept ⊢
    have hsim₂ : Sim ch r₂ r₂₀ := mkept.sim
    obtain ⟨mflush, hempty⟩ := flushProse_plays hsim₂
    have mall := mkept.trans mflush
    simp only [hsim₂.summaries, hsim₂.plainSummaries, Bool.false_eq_true, if_false, List.append_nil]
    refine .inr ⟨_, _, rfl, rfl, ?_, hempty⟩
    rw [hsim₂.earcon]
    have m := mall.emit (earcon_silent (r := r₂) .turnDone) fun t ht => by
      rw [(earcon_idle _).asked] at ht
      exact absurd ht List.not_mem_nil
    simp only [List.append_assoc] at m ⊢
    exact m

/-- At a verbosity below `everything` a tool says nothing. -/
theorem tool_plays (h : Sim ch r r₀) (hv : r.settings.verbosity ≠ .everything)
    (name summary : Text) :
    Plays ch (r.get ch).heldProse (r.tool s ch name summary) (r₀.tool s ch name summary) := by
  have hv₀ : r₀.settings.verbosity ≠ .everything := by
    rw [h.settings]
    exact hv
  have hterse : ∀ {r : Rules}, r.settings.verbosity ≠ .everything →
      r.tool s ch name summary = (r.resolve ch, []) := by
    intro r hv
    unfold tool
    dsimp only
    rw [if_pos]
    refine .inr ?_
    rw [show (r.resolve ch).settings = r.settings from (modify_config ch _).settings]
    exact hv
  rw [hterse hv, hterse hv₀]
  exact .modify h ⟨fun _ => rfl, fun _ => rfl, fun _ => rfl, fun _ hk => hk⟩

/-- The channel's timers play alike. -/
theorem fire_plays (h : Sim ch r r₀) {t : Timer} (ht : t.Own ch) (focused : Option ChannelId) :
    Plays ch (r.get ch).heldProse (r.fire s t focused) (r₀.fire s t focused) := by
  obtain ⟨g, rfl | rfl⟩ := ht
  · have hgap : r₀.turns[ch]?.any (·.order.gen == g) = r.turns[ch]?.any (·.order.gen == g) := by
      rw [h.get?]
      cases r.turns[ch]? <;> rfl
    unfold fire
    dsimp only
    rw [hgap]
    split
    · exact releaseGap_plays h
    · exact .refl h
  · have hwait : r₀.turns[ch]?.any (fun c => c.leadInWait.any (·.gen == g)) =
        r.turns[ch]?.any (fun c => c.leadInWait.any (·.gen == g)) := by
      rw [h.get?]
      cases r.turns[ch]? <;> rfl
    unfold fire
    dsimp only
    rw [hwait]
    split
    · exact releaseLeadInWait_plays h
    · exact .refl h

end Rules

end Sonara.L3
