import Sonara.L2.Driven

/-!
# One section back, one section on

While an entry is read and its item is on its last chunk, `forward` steps to the next entry of the
batch, and `back` from the first chunk to the one before. Both move the cursor to the *neighbour* of
the entry and cut the item in flight before `feed` is asked what comes next, and `feed` passes over
entries set aside. So they step as they should exactly when that is right for the neighbour
(`stepping`): `forward` when the batch ends there or some later entry is not set aside, `back` when
the neighbour is not set aside. Otherwise `forward` cuts the item and feeds another channel or
nothing, where it says that nothing changes at the end.
-/

namespace Sonara.L2

open Sonara (Text)
open L1 (ItemId Control)

/-- An entry with the id of one of a batch without doubles is found where it stands. -/
theorem findIdx?_batch {c : Channel} {front rest : List Entry} {x : Entry} (hn : c.entryIds.Nodup)
    (hb : c.entries = front ++ x :: rest) :
    c.entries.findIdx? (fun e => e.id == x.id) = some front.length := by
  have hnodup : (front.map Entry.id ++ x.id :: rest.map Entry.id).Nodup := by
    unfold Channel.entryIds at hn
    rwa [hb, List.map_append, List.map_cons] at hn
  have hfront : ∀ e ∈ front, (e.id == x.id) = false := by
    intro e he
    refine beq_eq_false_iff_ne.mpr fun hid => ?_
    exact List.disjoint_of_nodup_append hnodup (List.mem_map_of_mem he) (hid ▸ List.mem_cons_self)
  rw [hb, List.findIdx?_append, List.findIdx?_eq_none_iff.mpr hfront, List.findIdx?_cons,
    beq_self_eq_true]
  simp

namespace Router

/-- What `read_at` leaves of a channel that read last: its cursor is set, and nothing is announced.
-/
theorem readAt_set {r : Router} {a : ChannelId} {c : Channel} {entry pos : Nat}
    (hc : r.channel a = some c) (hlast : r.lastReader = some a)
    (hpos : c.entries.findIdx? (fun e => e.id == entry) = some pos) (replay : Bool) :
    (r.readAt a (some entry) replay).2 = true ∧
      (r.readAt a (some entry) replay).1.channel a =
        some { c with cursor := pos, replaying := replay || c.replaying } ∧
      (r.readAt a (some entry) replay).1.active = some a ∧
      (r.readAt a (some entry) replay).1.announce = r.announce := by
  have hne : c.entries.isEmpty = false := by
    cases he : c.entries with
    | nil => rw [he] at hpos; cases hpos
    | cons => rfl
  have hchan := channel_update_self
    (f := fun c => { c with cursor := pos, replaying := replay || c.replaying }) (fun _ => rfl) hc
  have hno : (r.update a fun c => { c with
      cursor := pos, replaying := replay || c.replaying }).isHandoff a = false := by
    unfold isHandoff
    rw [show (r.update a _).lastReader = some a from hlast, Option.any_some, bne_self_eq_false]
    rfl
  unfold readAt
  rw [hc]
  dsimp only
  rw [if_neg (by rw [hne]; nofun), show readIndex c (some entry) = some pos from hpos]
  dsimp only
  rw [hno, if_neg Bool.false_ne_true]
  refine ⟨rfl, ?_, ?_, ?_⟩
  · unfold Router.channel
    rw [startHold_channels]
    exact hchan
  · unfold startHold
    rw [endHold_none]
    rfl
  · unfold startHold
    rw [endHold_none]
    rfl

end Router

namespace Channels

variable (split : L1.Chunking → Text → List Text)

/-- The next item of the reader reads `x` of `channel`, and is in flight. -/
def Feeds (s s' : Channels) (channel : ChannelId) (x : Entry) : Prop :=
  s'.inFlight = some { id := s.reader.nextId, channel := channel, entry := some x.id, text := x.text }

/-- The entry is not set aside. -/
def Kept (c : Channel) (x : Entry) : Bool := decide (x.id ∉ c.aside)

variable {split} {clean : Prop} {b : Bool} {s : Channels}

/-- **A step to an entry** feeds the first one from there on that is not set aside, and nothing else
of the channel. -/
theorem stepTo_feeds (F : Fit split clean b s) (alone : s.meanwhile = .none) {f : InFlight}
    {i : Nat} (hf : s.inFlight = some f)
    (hi : f.entry = some i) {c : Channel} (hc : s.router.channel f.channel = some c)
    {front rest : List Entry} {x : Entry} (hb : c.entries = front ++ x :: rest) :
    (s.stepTo split f.channel x.id).2 = true ∧
      (∀ y, (x :: rest).find? (Kept c) = some y →
        Feeds s (s.stepTo split f.channel x.id).1 f.channel y) ∧
      ∀ g j, (s.stepTo split f.channel x.id).1.inFlight = some g → g.channel = f.channel →
      g.entry = some j →
        ∃ y, (x :: rest).find? (Kept c) = some y ∧ y.id = j := by
  have R := F.reads f i hf hi
  have hw := F.router.sound.batches c (Router.mem_of_channel hc)
  obtain ⟨hok, hchan, hact, hann⟩ := Router.readAt_set hc
    (F.router.activeLast f.channel R.active) (findIdx?_batch hw.nodup hb) false
  have hreach : s.router.Reaches (s.router.stepTo f.channel x.id).1 :=
    (Router.Reaches.refl _).apply (.stepTo f.channel x.id)
  have hun : ∀ p, Channel.unread { c with cursor := front.length, replaying := p } =
      (x :: rest).filter (Kept c) := by
    intro p
    show (c.entries.drop front.length).filter _ = _
    rw [hb, List.drop_left]
    rfl
  -- The channel's own entry is not stepped back over.
  have hsame : { s with router := (s.router.stepTo f.channel x.id).1, inFlight := none }.rewindOther s.inFlight
      f.channel = { s with router := (s.router.stepTo f.channel x.id).1, inFlight := none } := by
    unfold rewindOther
    rw [hf, Option.filter_some, bne_self_eq_false, if_neg Bool.false_ne_true]
  have hstep : s.stepTo split f.channel x.id =
      ({ s with router := (s.router.stepTo f.channel x.id).1 }.cutAndFeed split f.channel,
        true) := by
    unfold stepTo
    cases h : s.router.stepTo f.channel x.id with
    | mk r ok =>
      have hok : ok = true := by
        rw [show s.router.readAt f.channel (some x.id) false = (r, ok) from h] at hok
        exact hok
      rw [hok]
  rw [hstep]
  unfold cutAndFeed
  dsimp only
  rw [hsame]
  have L := F.loose hreach
  generalize hr : (s.router.stepTo f.channel x.id).1 = r at hreach hsame hstep L ⊢
  rw [show (s.router.readAt f.channel (some x.id) false).1 = r from hr] at hchan hact hann
  have hann : r.announce = none := hann.trans R.announce
  refine ⟨rfl, fun y hy => ?_, fun g j hg hchannel hj => ?_⟩
  · have hhead : ((x :: rest).filter (Kept c)).head? = some y := by
      rw [List.head?_filter]
      exact hy
    have haud : r.audible f.channel = true := by
      obtain ⟨c', hc', hm⟩ := R.heard
      obtain rfl := Option.some.inj (hc.symm.trans hc')
      refine Router.audible_iff.mpr ⟨_, hchan, ?_, hm⟩
      unfold Channel.pending
      rw [hun]
      exact List.length_pos_of_mem (List.mem_of_mem_head? hhead)
    obtain ⟨c', e, hc', he, hnext⟩ := Router.nextFeed_active L.router.holdActive hact haud hann
    obtain rfl := Option.some.inj (hchan.symm.trans hc')
    rw [hun, hhead] at he
    obtain rfl := Option.some.inj he
    obtain ⟨label, hfeed⟩ : ∃ label, feed split { s with router := r, inFlight := none } true =
        { s with router := r.nextFeed.1, inFlight := none }.handOver split true f.channel
          (some y.id) y.text label := by
      unfold feed feedLoop
      dsimp only
      generalize r.nextFeed = o at hnext
      cases o with
      | mk r' feed =>
        obtain rfl : feed = some (.entry f.channel y) := hnext
        exact ⟨_, rfl⟩
    have hid := (L.reader.speak_id split y.text .append true label).1
    have hmeet : meet split { s with router := r.nextFeed.1, inFlight := none } =
        { s with router := r.nextFeed.1, inFlight := none } := meet_alone alone
    have hfirst : (speakAs split { s with router := r.nextFeed.1, inFlight := none } y.text true
        label).1 = s.reader.nextId := by
      unfold speakAs
      rw [if_pos rfl, hmeet]
      exact hid
    unfold skipPlaying Feeds
    rw [hfeed]
    unfold handOver
    generalize speakAs split { s with router := r.nextFeed.1, inFlight := none } y.text true
      label = out at hfirst
    obtain ⟨id, u⟩ := out
    obtain rfl : id = s.reader.nextId := hfirst
    rfl
  · rcases feedLoop_cases split true 3 { s with router := r, inFlight := none } with
      ⟨r', -, hloop⟩ | ⟨r', channel, entry, text, label, ht, hloop⟩
    · have hloop : feed split { s with router := r, inFlight := none } true = _ := hloop
      have hmeet : meet split { s with router := r', inFlight := none } =
          { s with router := r', inFlight := none } := meet_alone alone
      have hskip := tell_own split { s with router := r', inFlight := none } .skip
      unfold skipPlaying at hg
      rw [hloop] at hg
      dsimp only at hg
      rw [if_pos (show (none : Option InFlight).isNone = true from rfl), hmeet] at hg
      split at hg
      · cases hskip.inFlight.symm.trans hg
      · cases hg
    · have hloop : feed split { s with router := r, inFlight := none } true = _ := hloop
      unfold skipPlaying at hg
      rw [hloop] at hg
      obtain rfl := Option.some.inj (show some _ = some g from hg)
      obtain ⟨-, c', y, hc', hy, hid, -⟩ := ht.reads j hj
      have hc' : r.channel channel = some c' := hc'
      rw [show channel = f.channel from hchannel] at hc'
      obtain rfl := Option.some.inj (hchan.symm.trans hc')
      rw [hun, List.head?_filter] at hy
      exact ⟨y, hy, hid⟩

/-! ## The properties -/

/-- Entry `e` of channel `c` is in flight, and still in the batch. -/
structure Reading (s : Channels) (f : InFlight) (c : Channel) (before : List Entry) (e : Entry)
    (after : List Entry) : Prop where
  flight : s.inFlight = some f
  entry : f.entry = some e.id
  channel : s.router.channel f.channel = some c
  batch : c.entries = before ++ e :: after

/-- The item in flight is on its last chunk. -/
def OnLast (s : Channels) (f : InFlight) : Prop :=
  ∀ n, s.playingChunk f = some n → ¬n.chunk + 1 < n.chunks

/-- The item in flight is on its first chunk. -/
def OnFirst (s : Channels) (f : InFlight) : Prop := ∀ n, s.playingChunk f = some n → n.chunk = 0

variable (split)

/-- What `forward` is to do on the last chunk. -/
structure ForwardSteps (s : Channels) (f : InFlight) (c : Channel) (after : List Entry) : Prop where
  next : ∀ y, after.find? (Kept c) = some y →
    (s.forward split).2 = .entry f.channel ∧ Feeds s (s.forward split).1 f.channel y
  last : after.find? (Kept c) = none → s.forward split = (s, .end f.channel)
  cut : (s.forward split).1.inFlight = s.inFlight ∨ ∃ y ∈ c.entries, Feeds s
    (s.forward split).1 f.channel y

/-- What `back` is to do on the first chunk. -/
structure BackSteps (s : Channels) (f : InFlight) (c : Channel) (before : List Entry) (e : Entry) :
    Prop where
  previous : ∀ y, before.reverse.find? (Kept c) = some y →
    (s.back split).2 = .entry f.channel ∧ Feeds s (s.back split).1 f.channel y
  first : before.reverse.find? (Kept c) = none →
    (s.back split).2 = .first f.channel ∧ Feeds s (s.back split).1 f.channel e
  cut : (s.back split).1.inFlight = s.inFlight ∨ ∃ y ∈ c.entries, Feeds s
    (s.back split).1 f.channel y

variable {split} {f : InFlight} {c : Channel} {before after : List Entry} {e : Entry}

theorem Reading.nodup (h : Reading s f c before e after) (F : Fit split clean b s) :
    c.entryIds.Nodup :=
  (F.router.sound.batches c (Router.mem_of_channel h.channel)).nodup

theorem Reading.reading (h : Reading s f c before e after) : s.reading = some (f, e.id) := by
  unfold Channels.reading
  rw [h.flight, Option.bind_some, h.entry]
  rfl

/-- `forward` steps to the entry right after the one read. -/
theorem forward_eq (F : Fit split clean b s) (alone : s.meanwhile = .none)
    (h : Reading s f c before e after) (hon : OnLast s f) :
    s.forward split =
      match after with
      | [] => (s, .end f.channel)
      | x :: _ => ((s.stepTo split f.channel x.id).1, .entry f.channel) := by
  have hchunk : (s.playingChunk f).any (fun n => decide (n.chunk + 1 < n.chunks)) = false := by
    cases hp : s.playingChunk f with
    | none => rfl
    | some n => exact decide_eq_false (hon n hp)
  have hnext : nextEntry c e.id = after.head?.map Entry.id := by
    unfold nextEntry
    rw [findIdx?_batch (h.nodup F) h.batch, h.batch]
    have hget : (before ++ e :: after)[before.length + 1]? = after.head? := by
      rw [List.head?_eq_getElem?, List.getElem?_append_right (Nat.le_succ _),
        Nat.succ_sub (Nat.le_refl _),
        Nat.sub_self, List.getElem?_cons_succ]
    exact congrArg (Option.map Entry.id) hget
  unfold forward
  rw [h.reading]
  dsimp only
  rw [meet_alone alone, hchunk, if_neg Bool.false_ne_true, h.channel, Option.bind_some, hnext]
  cases after with
  | nil => rfl
  | cons x rest =>
    have hbatch : c.entries = (before ++ [e]) ++ x :: rest :=
      h.batch.trans (List.append_cons before e (x :: rest))
    have hok := (stepTo_feeds F alone h.flight h.entry h.channel hbatch).1
    dsimp only [List.head?_cons, Option.map_some]
    cases hstep : s.stepTo split f.channel x.id with
    | mk t ok =>
      rw [hstep] at hok
      obtain rfl : ok = true := hok
      rfl

/-- `back` steps to the entry right before the one read, or to the first one itself. -/
theorem back_eq (F : Fit split clean b s) (alone : s.meanwhile = .none)
    (h : Reading s f c before e after) (hon : OnFirst s f) :
    s.back split =
      match before.getLast? with
      | none => ((s.stepTo split f.channel e.id).1, .first f.channel)
      | some p => ((s.stepTo split f.channel p.id).1, .entry f.channel) := by
  have hchunk : ((s.playingChunk f).map (·.chunk)).getD 0 = 0 := by
    cases hp : s.playingChunk f with
    | none => rfl
    | some n => exact hon n hp
  have hprevious : previousEntry c e.id = some (before.getLast?.map Entry.id) := by
    unfold previousEntry
    rw [findIdx?_batch (h.nodup F) h.batch, h.batch]
    refine congrArg some ?_
    cases before with
    | nil => rfl
    | cons x xs =>
      have hget : (x :: xs ++ e :: after)[(x :: xs).length - 1]? = (x :: xs).getLast? := by
        rw [List.getElem?_append_left
          (Nat.sub_lt (List.length_pos_of_ne_nil (List.cons_ne_nil x xs)) Nat.one_pos),
          List.getLast?_eq_getElem?]
      exact congrArg (Option.map Entry.id) hget
  unfold back
  rw [h.reading]
  dsimp only
  rw [meet_alone alone, hchunk, if_neg (Nat.lt_irrefl 0), h.channel, Option.bind_some, hprevious]
  rcases before.eq_nil_or_concat with rfl | ⟨front, p, rfl⟩
  · have hbatch : c.entries = [] ++ e :: after := h.batch
    have hok := (stepTo_feeds F alone h.flight h.entry h.channel hbatch).1
    dsimp only [List.getLast?_nil, Option.map_none, Option.getD_none]
    cases hstep : s.stepTo split f.channel e.id with
    | mk t ok =>
      rw [hstep] at hok
      obtain rfl : ok = true := hok
      rfl
  · have hbatch : c.entries = front ++ p :: e :: after := by
      rw [h.batch, List.concat_eq_append, List.append_assoc]
      rfl
    have hok := (stepTo_feeds F alone h.flight h.entry h.channel hbatch).1
    rw [List.concat_eq_append, List.getLast?_concat]
    dsimp only [Option.map_some, Option.getD_some]
    cases hstep : s.stepTo split f.channel p.id with
    | mk t ok =>
      rw [hstep] at hok
      obtain rfl : ok = true := hok
      rfl

/-- **`forward` steps as it should** exactly when the batch ends with the entry read, or a later
entry is not set aside. -/
theorem forward_iff (F : Fit split clean b s) (alone : s.meanwhile = .none)
    (h : Reading s f c before e after) (hon : OnLast s f) :
    ForwardSteps split s f c after ↔ after = [] ∨ ∃ y ∈ after, Kept c y = true := by
  have heq := forward_eq F alone h hon
  cases after with
  | nil =>
    refine iff_of_true ⟨fun y hy => (nomatch hy), fun _ => heq, .inl ?_⟩ (.inl rfl)
    rw [heq]
  | cons x rest =>
    have hbatch : c.entries = (before ++ [e]) ++ x :: rest := h.batch.trans (List.append_cons ..)
    obtain ⟨-, hfeeds, -⟩ := stepTo_feeds F alone h.flight h.entry h.channel hbatch
    constructor
    · intro S
      right
      cases hfind : (x :: rest).find? (Kept c) with
      | some y => exact ⟨y, List.mem_of_find?_eq_some hfind, List.find?_some hfind⟩
      | none =>
        have hlast := congrArg Prod.snd (S.last hfind)
        rw [heq] at hlast
        cases hlast
    · rintro (hnil | ⟨y, hy, hkept⟩)
      · cases hnil
      · obtain ⟨z, hz⟩ := Option.isSome_iff_exists.mp (List.find?_isSome.mpr ⟨y, hy, hkept⟩)
        have hfed := hfeeds z hz
        refine ⟨fun w hw => ?_, fun hnone => ?_, .inr ⟨z, ?_, ?_⟩⟩
        · obtain rfl := Option.some.inj (hz.symm.trans hw)
          rw [heq]
          exact ⟨rfl, hfed⟩
        · rw [hz] at hnone
          cases hnone
        · rw [hbatch]
          exact List.mem_append_right _ (List.mem_of_find?_eq_some hz)
        · rw [heq]
          exact hfed

/-- **`back` steps as it should** exactly when the entry right before the one read, or that one
itself if it is the first, is not set aside. -/
theorem back_iff (F : Fit split clean b s) (alone : s.meanwhile = .none)
    (h : Reading s f c before e after) (hon : OnFirst s f) :
    BackSteps split s f c before e ↔ Kept c (before.getLast?.getD e) = true := by
  have heq := back_eq F alone h hon
  rcases before.eq_nil_or_concat with rfl | ⟨front, p, rfl⟩
  · have hbatch : c.entries = [] ++ e :: after := h.batch
    obtain ⟨-, hfeeds, honly⟩ := stepTo_feeds F alone h.flight h.entry h.channel hbatch
    have heq : s.back split = ((s.stepTo split f.channel e.id).1, .first f.channel) := heq
    show _ ↔ Kept c e = true
    constructor
    · intro S
      obtain ⟨-, hfed⟩ := S.first rfl
      rw [heq] at hfed
      obtain ⟨y, hy, hid⟩ := honly _ e.id hfed rfl rfl
      have hkept := List.find?_some hy
      unfold Kept at hkept ⊢
      rwa [hid] at hkept
    · intro hkept
      have hfed := hfeeds e (List.find?_cons_of_pos hkept)
      refine ⟨fun y hy => (nomatch hy), fun _ => ?_, .inr ⟨e, ?_, ?_⟩⟩
      · rw [heq]
        exact ⟨rfl, hfed⟩
      · rw [h.batch]
        exact List.mem_append_right _ List.mem_cons_self
      · rw [heq]
        exact hfed
  · have hbatch : c.entries = front ++ p :: e :: after := by
      rw [h.batch, List.concat_eq_append, List.append_assoc]
      rfl
    obtain ⟨-, hfeeds, honly⟩ := stepTo_feeds F alone h.flight h.entry h.channel hbatch
    rw [List.concat_eq_append, List.getLast?_concat] at heq ⊢
    have heq : s.back split = ((s.stepTo split f.channel p.id).1, .entry f.channel) := heq
    show _ ↔ Kept c p = true
    constructor
    · intro S
      by_contra haside
      cases hfind : (front ++ [p]).reverse.find? (Kept c) with
      | none =>
        have hfirst := (S.first hfind).1
        rw [heq] at hfirst
        cases hfirst
      | some y =>
        obtain ⟨-, hfed⟩ := S.previous y hfind
        rw [heq] at hfed
        obtain ⟨z, hz, hid⟩ := honly _ y.id hfed rfl rfl
        -- An entry before `p` is none of those from `p` on.
        have hy : y ∈ front := by
          rw [List.reverse_append, List.reverse_singleton, List.singleton_append,
            List.find?_cons_of_neg haside] at hfind
          exact List.mem_reverse.mp (List.mem_of_find?_eq_some hfind)
        have hnodup := h.nodup F
        unfold Channel.entryIds at hnodup
        rw [hbatch, List.map_append] at hnodup
        refine List.disjoint_of_nodup_append hnodup (List.mem_map_of_mem hy) ?_
        rw [← hid]
        exact List.mem_map_of_mem (List.mem_of_find?_eq_some hz)
    · intro hkept
      have hfed := hfeeds p (List.find?_cons_of_pos hkept)
      have hfind : (front ++ [p]).reverse.find? (Kept c) = some p := by
        rw [List.reverse_append, List.reverse_singleton, List.singleton_append]
        exact List.find?_cons_of_pos hkept
      refine ⟨fun y hy => ?_, fun hnone => ?_, .inr ⟨p, ?_, ?_⟩⟩
      · obtain rfl := Option.some.inj (hfind.symm.trans hy)
        rw [heq]
        exact ⟨rfl, hfed⟩
      · rw [hfind] at hnone
        cases hnone
      · rw [hbatch]
        exact List.mem_append_right _ List.mem_cons_self
      · rw [heq]
        exact hfed

/-! ## The runs -/

/-- Between operations the driver makes no call of the reader. -/
theorem run_alone (split : L1.Chunking → Text → List Text) (config : Config)
    (ts : List DriverTurn) : ((new config).run split ts).meanwhile = .none := by
  rcases ts.eq_nil_or_concat with rfl | ⟨front, t, rfl⟩
  · rfl
  · unfold run
    rw [List.concat_eq_append, List.foldl_append]
    rfl

/-- What stepping is to do in a state where `e` is read. -/
structure Stepping (split : L1.Chunking → Text → List Text) (s : Channels) (f : InFlight)
    (c : Channel) (before : List Entry) (e : Entry) (after : List Entry) : Prop where
  forward : OnLast s f → (ForwardSteps split s f c after ↔ after = [] ∨ ∃ y ∈ after, y.id ∉ c.aside)
  back : OnFirst s f → (BackSteps split s f c before e ↔ (before.getLast?.getD e).id ∉ c.aside)

/-- **When stepping is right**, in every state a run reaches. -/
theorem stepping (split : L1.Chunking → Text → List Text) (config : Config) (ts : List DriverTurn)
    {f : InFlight} {c : Channel} {before after : List Entry} {e : Entry}
    (h : Reading ((new config).run split ts) f c before e after) :
    Stepping split ((new config).run split ts) f c before e after := by
  have F : Fit split _ _ _ := run_fit config ts
  have alone := run_alone split config ts
  have hkept : ∀ x : Entry, Kept c x = true ↔ x.id ∉ c.aside := fun x => decide_eq_true_iff
  refine ⟨fun hon => (forward_iff F alone h hon).trans
    (or_congr_right (exists_congr fun y => and_congr_right fun _ => hkept y)),
    fun hon => (back_iff F alone h hon).trans (hkept _)⟩

/-- Two entries of `a`, the first one read. -/
def twoEntries : List DriverTurn :=
  [(DriverOp.add "a" "One.".toList false).alone, (DriverOp.add "a" "Two.".toList false).alone]

theorem stepping_two : Stepping oneChunk ((new Config.default).run oneChunk twoEntries)
    { id := 1, channel := "a", entry := some 1, text := "One.".toList }
    (((new Config.default).run oneChunk twoEntries).router.channel "a" |>.getD
      (.new "a" none none .latest))
    [] { id := 1, text := "One.".toList, label := none }
      [{ id := 2, text := "Two.".toList, label := none }] :=
  stepping oneChunk Config.default twoEntries ⟨rfl, rfl, rfl, rfl⟩

/-- The second entry is set aside while the first is read. -/
def secondAside : Channels := (new Config.default).run oneChunk
    (twoEntries ++ [(DriverOp.setAside "a" 2 true).alone])

/-- With nothing but an entry set aside ahead, `forward` cuts the one read and feeds nothing. -/
theorem forward_cuts :
    Reading secondAside { id := 1, channel := "a", entry := some 1, text := "One.".toList }
        ((secondAside.router.channel "a").getD (.new "a" none none .latest))
        [] { id := 1, text := "One.".toList, label := none }
          [{ id := 2, text := "Two.".toList, label := none }] ∧
      (secondAside.playingChunk { id := 1, channel := "a", entry := some 1, text := "One.".toList }).map
        (fun n => (n.chunk, n.chunks)) = some (0, 1) ∧
      (secondAside.forward oneChunk).2 = .entry "a" ∧
      (secondAside.forward oneChunk).1.inFlight = none ∧
      (secondAside.forward oneChunk).1.reader.current = none := by
  refine ⟨⟨rfl, rfl, rfl, rfl⟩, ?_, ?_, ?_, ?_⟩
  all_goals rfl

end Channels

end Sonara.L2
