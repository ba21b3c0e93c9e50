import Sonara.L1.Endings
import Sonara.L2.Announce
import Sonara.L2.Driver
import Sonara.L2.Work

/-!
# What the driver does, act by act

An operation of the driver is a row of acts: the router is told something, the reader is told
something, what is in flight is cut, the next item is fed. `Fit` is what each act keeps:

* an item the driver fed and that is live is the reader's current one, and it is in flight;
* what is in flight is live, or its end is still to be delivered;
* while an entry is in flight its channel has the floor.

The flag of an act says that nothing was left to feed since the last feed (`Fresh`).
-/

namespace Sonara.L2

open Sonara (Text)
open L1 (ItemId Control endsOf)

namespace Router

variable {r r' : Router} {a : ChannelId} {op : Op}

/-- `r'` is `r` after some operations. -/
def Reaches (r r' : Router) : Prop := ∃ ops, machine.stateFrom r ops = r'

theorem Reaches.refl (r : Router) : Reaches r r := ⟨[], rfl⟩

theorem Reaches.apply (h : Reaches r r') (op : Op) : Reaches r (r'.apply op) := by
  obtain ⟨ops, rfl⟩ := h
  exact ⟨ops ++ [op], machine.stateFrom_append r ops [op]⟩

theorem Reaches.trans {r'' : Router} (h : Reaches r r') (h' : Reaches r' r'') : Reaches r r'' := by
  obtain ⟨ops, rfl⟩ := h
  obtain ⟨ops', rfl⟩ := h'
  exact ⟨ops ++ ops', machine.stateFrom_append r ops ops'⟩

/-- The router of some run. -/
abbrev Reached (r : Router) : Prop := Reaches Router.new r

theorem Reached.holdActive (h : Reached r) : HoldActive r := by
  obtain ⟨ops, rfl⟩ := h
  exact state_holdActive ops

theorem Reached.activeLast (h : Reached r) : ActiveLast r := by
  obtain ⟨ops, rfl⟩ := h
  exact state_activeLast ops

theorem Reached.sound (h : Reached r) : Sound r := by
  obtain ⟨ops, rfl⟩ := h
  exact state_sound ops

/-- A feed of no entry leaves the channels. -/
theorem Fed.channel {o : Option Feed} (f : Fed r r' o) (hno : ∀ a e, o ≠ some (.entry a e))
    (b : ChannelId) :
    r'.channel b = r.channel b := by
  have hpk := r.cleared.pick_picked
  have hchan : r.cleared.pick.1.channel b = r.channel b := by
    unfold Router.channel
    rw [hpk.channels]
    rfl
  cases f with
  | armed => rfl
  | idle => exact hchan
  | handoff => exact hchan
  | entry => exact absurd rfl (hno _ _)

end Router

namespace Channels

variable (split : L1.Chunking → Text → List Text)

/-! ## Feeding -/

/-- What a fed item reads: an announcement, or the first unread entry of its channel. -/
structure Takes (r r' : Router) (channel : ChannelId) (entry : Option Nat) (text : Text) :
    Prop where
  reaches : r.Reaches r'
  reads : ∀ e, entry = some e → r'.Reads channel ∧
    ∃ c x, r.channel channel = some c ∧ c.unread.head? = some x ∧ x.id = e ∧ x.text = text

/-- **What `feed` does**: nothing is found, or one item is handed over. -/
theorem feedLoop_cases (interrupt : Bool) (n : Nat) (s : Channels) :
    (∃ r, s.router.Reaches r ∧ s.feedLoop split interrupt n = ({ s with router := r }, none)) ∨
      ∃ r channel entry text label, Takes s.router r channel entry text ∧
        s.feedLoop split interrupt n = { s with router := r }.handOver split interrupt channel entry
          text label := by
  induction n generalizing s with
  | zero => exact .inl ⟨s.router, .refl _, rfl⟩
  | succ n ih =>
    have hfed := s.router.nextFeed_fed
    have hreach : s.router.Reaches s.router.nextFeed.1 := ⟨[.nextFeed], rfl⟩
    unfold feedLoop
    cases hf : s.router.nextFeed with
    | mk r o =>
      rw [hf] at hfed hreach
      match o with
      | none => exact .inl ⟨r, hreach, rfl⟩
      | some (.announce channel label replay manual) =>
        dsimp only
        split
        · rcases ih { s with router := r } with
            ⟨r', hr', heq⟩ | ⟨r', channel, entry, text, label, ht, heq⟩
          · exact .inl ⟨r', hreach.trans hr', heq⟩
          · refine .inr ⟨r', channel, entry, text, label,
              ⟨hreach.trans ht.reaches, fun e he => ?_⟩, heq⟩
            obtain ⟨hreads, c, x, hc, hx⟩ := ht.reads e he
            exact ⟨hreads, c, x, (hfed.channel (by intro a e; nofun) channel).symm.trans hc, hx⟩
        next text _ =>
          exact .inr ⟨r, channel, none, text, label, ⟨hreach, fun e he => nomatch he⟩, rfl⟩
      | some (.entry channel e) =>
        refine .inr ⟨r, channel, some e.id, e.text, _, ⟨hreach, fun i hi => ?_⟩, rfl⟩
        obtain rfl := Option.some.inj hi
        refine ⟨hfed.reads, ?_⟩
        generalize ho : some (Feed.entry channel e) = o at hfed
        cases hfed with
        | armed => cases ho
        | idle => cases ho
        | handoff => cases ho
        | @entry a c x es auth p unarmed picked isOpen unread =>
          obtain ⟨rfl, rfl⟩ := Feed.entry.inj (Option.some.inj ho)
          exact ⟨c, e, isOpen, by rw [unread]; rfl, rfl, rfl⟩

/-- An entry is fed in the first round. -/
theorem feedLoop_entry {s : Channels} {a : ChannelId} {e : Entry}
    (h : s.router.nextFeed.2 = some (.entry a e)) (interrupt : Bool) (n : Nat) :
    s.feedLoop split interrupt (n + 1) = s.feedLoop split interrupt 1 ∧
    (s.feedLoop split interrupt 1).2 ≠ none := by
  unfold feedLoop
  cases hf : s.router.nextFeed with
  | mk r o =>
    rw [hf] at h
    obtain rfl : o = some (.entry a e) := h
    exact ⟨rfl, nofun⟩

/-- With nothing armed, two rounds do. -/
theorem feedLoop_unarmed {s : Channels} (H : s.router.HoldActive) (hann : s.router.announce = none)
    (interrupt : Bool) (n : Nat) :
    s.feedLoop split interrupt (n + 2) = s.feedLoop split interrupt 2 ∧
      ((s.feedLoop split interrupt 2).2 = none →
        (s.feedLoop split interrupt 2).1.router.Rests) := by
  have hrests := Router.nextFeed_rests H
  have hentry := fun f => Router.handoff_entry H hann (f := f)
  rw [show n + 2 = (n + 1) + 1 from rfl]
  unfold feedLoop
  cases hf : s.router.nextFeed with
  | mk r o =>
    rw [hf] at hrests hentry
    match o with
    | none => exact ⟨rfl, fun _ => hrests rfl⟩
    | some (.announce channel label replay manual) =>
      dsimp only
      split
      · obtain ⟨a, e, hnext⟩ := hentry _ rfl (by intro a e; nofun)
        obtain ⟨heq, hsome⟩ := feedLoop_entry split (s := { s with router := r }) hnext interrupt n
        exact ⟨heq, fun hnone => absurd hnone hsome⟩
      · exact ⟨rfl, nofun⟩
    | some (.entry channel e) => exact ⟨rfl, nofun⟩

/-- **Three rounds do.** The loop of `feed` passes over at most two announcements, the armed one and
one of a hand-off; when it finds nothing, nothing is left to feed. -/
theorem feedLoop_rounds {s : Channels} (H : s.router.HoldActive) (interrupt : Bool) (n : Nat) :
    s.feedLoop split interrupt (n + 3) = s.feed split interrupt ∧
      ((s.feed split interrupt).2 = none → (s.feed split interrupt).1.router.Rests) := by
  have hrests := Router.nextFeed_rests H
  have H' := s.router.nextFeed_fed.holdActive H
  have hann := s.router.nextFeed_fed.floor.1
  rw [show n + 3 = (n + 2) + 1 from rfl]
  unfold feed
  unfold feedLoop
  cases hf : s.router.nextFeed with
  | mk r o =>
    rw [hf] at hrests H' hann
    match o with
    | none => exact ⟨rfl, fun _ => hrests rfl⟩
    | some (.announce channel label replay manual) =>
      dsimp only
      split
      · exact feedLoop_unarmed split (s := { s with router := r }) H' hann interrupt n
      · exact ⟨rfl, nofun⟩
    | some (.entry channel e) => exact ⟨rfl, nofun⟩

/-! ## Acts -/

/-- An input that may have an idle reader read. -/
def Starts : L1.Input → Prop
  | .speak _ _ _ _ | .control .restart => True
  | _ => False

/-- Between a look of `pump_fed` and its feed nobody has the reader read. -/
def Quiet (m : Meanwhile) : Prop := ∀ i ∈ m.atFeed, ¬Starts i

/-- The next item is fed in place of what is in flight; with `skip` the current item is skipped when
none is. -/
def refeed (s : Channels) (r : Router) (skip : Bool) : Channels :=
  let out := { s with router := r, inFlight := none }.feed split true
  if out.2.isNone && skip then out.1.tell split .skip else out.1

/-- An end was taken from the stream. -/
def taken (s : Channels) (id : ItemId) (rest : List ItemId) : Channels :=
  let s := { s with ended := rest }
  if s.inFlight.any (·.id == id) then { s with inFlight := none, router := s.router.done } else s

/-- One act of the driver. The flag says that nothing was left to feed since the last feed. In a
`clean` run nobody has the reader read between the look of a pump and its feed. -/
inductive Act (clean : Prop) : Bool × Channels → Bool × Channels → Prop
  | forget {s : Channels} : Act clean (true, s) (false, s)
  | route {b : Bool} {s : Channels} (op : Op) (hfeed : op ≠ .nextFeed)
      (hop : ∀ f, s.inFlight = some f → ¬op.Interrupts f.channel) :
      Act clean (b, s) (false, { s with router := s.router.apply op })
  | calm {b : Bool} {s : Channels} (op : Op) (hop : op.Calm) :
      Act clean (b, s) (b, { s with router := s.router.apply op })
  | call {b : Bool} {s : Channels} (i : L1.Input) :
      Act clean (b, s) (b, s.call (s.reader.call split i))
  | note {b : Bool} {s : Channels} (dropped : List Dropped) (config : Config) :
      Act clean (b, s) (b, { s with dropped := dropped, config := config })
  | meanwhile {b : Bool} {s : Channels} (calls : List (List L1.Input)) :
      Act clean (b, s) (b, { s with meanwhile := { s.meanwhile with calls := calls } })
  | cut {b : Bool} {s : Channels} {r : Router} (hr : s.router.Reaches r) :
      Act clean (b, s) (false, { s with router := r, inFlight := none }.tell split .skip)
  | stop {b : Bool} {s : Channels} :
      Act clean (b, s)
        (true, { s with router := (s.router.flush none).1.done, inFlight := none }.tell split .stop)
  | pump {b : Bool} {s : Channels} (quiet : clean → Quiet s.meanwhile) :
      Act clean (b, s) (true, s.pump split)
  | refeed {b : Bool} {s : Channels} {r : Router} {skip : Bool} (hr : s.router.Reaches r)
      (hskip : skip = false → s.inFlight = none) : Act clean (b, s) (true, s.refeed split r skip)
  | move {b : Bool} {s : Channels} {r : Router} (hr : s.router.Reaches r) :
      Act clean (b, s)
        (true, skipPlaying split ({ s with router := r, inFlight := none }.feed split true))
  | ended {b : Bool} {s : Channels} {id : ItemId} {rest : List ItemId} (h : s.ended = id :: rest) :
      Act clean (b, s) (false, s.taken id rest)

/-! ## What every act keeps -/

/-- The driver fits its reader. -/
structure Fit (clean : Prop) (b : Bool) (s : Channels) : Prop where
  router : s.router.Reached
  reader : L1.Reached split s.reader
  given : ∀ id ∈ s.fed, s.reader.Given id
  /-- An end to be delivered is the end of an item. -/
  gone : ∀ id ∈ s.ended, s.reader.Given id ∧ id ∉ s.reader.ids
  reads : ∀ f e, s.inFlight = some f → f.entry = some e → s.router.Reads f.channel
  only : clean → ∀ id ∈ s.fed, id ∈ s.reader.ids →
    s.reader.current.map (·.item.id) = some id ∧ s.inFlight.map InFlight.id = some id
  owed : ∀ f, s.inFlight = some f → f.id ∈ s.fed ∧ (f.id ∈ s.reader.ids ∨ f.id ∈ s.ended)
  fresh : b = true → s.inFlight = none → s.reader.current = none → s.ended = [] → s.router.Rests

variable {split} {clean : Prop} {b : Bool} {s : Channels}

/-- A new driver over a new reader. -/
theorem new_fit (config : Config) : Fit split clean true (new config) :=
  ⟨.refl _, ⟨[], rfl⟩, nofun, nofun, nofun, fun _ => nofun, nofun,
    fun _ _ _ _ => Router.new_rests⟩

/-- A call of the reader keeps the fit. -/
theorem Fit.call (F : Fit split clean b s) (i : L1.Input) :
    Fit split clean b (s.call (s.reader.call split i)) := by
  have C := L1.call_carries split F.reader i
  refine ⟨F.router, C.reached, fun id hid => C.given id (F.given id hid), fun id hid => ?_, F.reads,
    fun hclean id hid hlive => ?_, fun f hf => ?_, fun hb hf hc he => ?_⟩
  · rcases List.mem_append.mp hid with hid | hid
    · obtain ⟨hgiven, hno⟩ := F.gone id hid
      exact ⟨C.given id hgiven, fun hlive => hno (C.before id hgiven hlive)⟩
    · exact C.ended id hid
  · obtain ⟨hcur, hflight⟩ := F.only hclean id hid (C.before id (F.given id hid) hlive)
    exact ⟨C.current id hcur hlive, hflight⟩
  · obtain ⟨hfed, hwhere⟩ := F.owed f hf
    refine ⟨hfed, ?_⟩
    by_cases hlive : f.id ∈ (s.reader.call split i).r.ids
    · exact .inl hlive
    · rcases hwhere with hwas | hwas
      · exact .inr (List.mem_append_right _ (C.gone f.id hwas hlive))
      · exact .inr (List.mem_append_left _ hwas)
  · obtain ⟨hended, hnone⟩ := List.append_eq_nil_iff.mp he
    refine F.fresh hb hf ?_ hended
    cases hwas : s.reader.current with
    | none => rfl
    | some cur =>
      have hgone := C.gone cur.item.id (L1.Ledger.mem_ids_current hwas) (by
        rw [(C.reached.idle split hc).2]
        exact List.not_mem_nil)
      rw [hnone] at hgone
      cases hgone

variable (split clean) in
/-- Between a cut and the next feed: a fed item that is live is still the current one. -/
structure Loose (s : Channels) : Prop where
  router : s.router.Reached
  reader : L1.Reached split s.reader
  given : ∀ id ∈ s.fed, s.reader.Given id
  gone : ∀ id ∈ s.ended, s.reader.Given id ∧ id ∉ s.reader.ids
  current : clean → ∀ id ∈ s.fed, id ∈ s.reader.ids →
    s.reader.current.map (·.item.id) = some id

theorem Fit.loose (F : Fit split clean b s) {r : Router} (hr : s.router.Reaches r) :
    Loose split clean { s with router := r, inFlight := none } :=
  ⟨F.router.trans hr, F.reader, F.given, F.gone,
    fun hclean id hid hlive => (F.only hclean id hid hlive).1⟩

theorem Loose.route (L : Loose split clean s) {r : Router} (hr : s.router.Reaches r) :
    Loose split clean { s with router := r } :=
  ⟨L.router.trans hr, L.reader, L.given, L.gone, L.current⟩

/-- With nothing in flight and no fed item live the driver fits. -/
theorem Loose.fit (L : Loose split clean s) (hf : s.inFlight = none)
    (hno : clean → ∀ id ∈ s.fed, id ∉ s.reader.ids) (hfresh : b = true → s.router.Rests) :
    Fit split clean b s := by
  refine ⟨L.router, L.reader, L.given, L.gone, fun f e h => ?_,
    fun hclean id hid hlive => absurd hlive (hno hclean id hid), fun f h => ?_,
    fun hb _ _ _ => hfresh hb⟩
  · rw [hf] at h
    cases h
  · rw [hf] at h
    cases h

/-! ### What others do meanwhile -/

/-- A call of the reader keeps what holds between a cut and the next feed. -/
theorem Loose.call (L : Loose split clean s) (i : L1.Input) :
    Loose split clean (s.call (s.reader.call split i)) := by
  have C := L1.call_carries split L.reader i
  refine ⟨L.router, C.reached, fun id hid => C.given id (L.given id hid), fun id hid => ?_,
    fun hclean id hid hlive =>
      C.current id (L.current hclean id hid (C.before id (L.given id hid) hlive)) hlive⟩
  rcases List.mem_append.mp hid with hid | hid
  · obtain ⟨hgiven, hno⟩ := L.gone id hid
    exact ⟨C.given id hgiven, fun hlive => hno (C.before id hgiven hlive)⟩
  · exact C.ended id hid

/-- Others leave the driver's own state alone. -/
structure Own (s s' : Channels) : Prop where
  router : s'.router = s.router
  inFlight : s'.inFlight = s.inFlight
  fed : s'.fed = s.fed
  dropped : s'.dropped = s.dropped
  atFeed : s'.meanwhile.atFeed = s.meanwhile.atFeed

variable (split) in
theorem others_own (s : Channels) (is : List L1.Input) : Own s (s.others split is) := by
  induction is generalizing s with
  | nil => exact ⟨rfl, rfl, rfl, rfl, rfl⟩
  | cons i is ih =>
    have O := ih (s.call (s.reader.call split i))
    exact ⟨O.router, O.inFlight, O.fed, O.dropped, O.atFeed⟩

variable (split) in
theorem meet_own (s : Channels) : Own s (s.meet split) := by
  unfold meet
  split
  · exact ⟨rfl, rfl, rfl, rfl, rfl⟩
  next is rest _ =>
    have O := others_own split
      { s with meanwhile := { s.meanwhile with calls := rest } } is
    exact ⟨O.router, O.inFlight, O.fed, O.dropped, O.atFeed⟩

/-- Nobody calls the reader meanwhile. -/
theorem meet_alone {s : Channels} (h : s.meanwhile = .none) : s.meet split = s := by
  unfold meet
  rw [h]
  rfl

/-- What others do to the reader is about the reader alone. -/
theorem others_reader {s' : Channels} (h : s'.reader = s.reader) (is : List L1.Input) :
    (s'.others split is).reader = (s.others split is).reader := by
  induction is generalizing s s' with
  | nil => exact h
  | cons i is ih =>
    refine ih ?_
    show (s'.reader.call split i).r = (s.reader.call split i).r
    rw [h]

/-- What calls of the reader keep, whatever others do keeps. -/
theorem others_induct {P : Channels → Prop}
    (call : ∀ s i, P s → P (s.call (s.reader.call split i))) {s : Channels} (h : P s)
    (is : List L1.Input) : P (s.others split is) := by
  induction is generalizing s with
  | nil => exact h
  | cons i is ih => exact ih (call s i h)

theorem meet_induct {P : Channels → Prop}
    (call : ∀ s i, P s → P (s.call (s.reader.call split i)))
    (wait : ∀ s calls, P s → P { s with meanwhile := { s.meanwhile with calls := calls } })
    {s : Channels} (h : P s) : P (s.meet split) := by
  unfold meet
  split
  · exact h
  · exact others_induct call (wait s _ h) _

theorem Loose.others (L : Loose split clean s) (is : List L1.Input) :
    Loose split clean (s.others split is) :=
  others_induct (fun _ i L => L.call i) L is

theorem Loose.meet (L : Loose split clean s) : Loose split clean (s.meet split) :=
  meet_induct (fun _ i L => L.call i)
    (fun _ _ L => ⟨L.router, L.reader, L.given, L.gone, L.current⟩) L

theorem Loose.tell (L : Loose split clean s) (k : Control) :
    Loose split clean (s.tell split k) := L.meet.call (.control k)

variable (split) in
theorem tell_own (s : Channels) (k : Control) : Own s (s.tell split k) :=
  have O := meet_own split s
  ⟨O.router, O.inFlight, O.fed, O.dropped, O.atFeed⟩

/-- An item the driver fed is live, or its end is to be delivered. -/
def Owes (split : L1.Chunking → Text → List Text) (id : ItemId) (s : Channels) : Prop :=
  L1.Reached split s.reader ∧ (id ∈ s.reader.ids ∨ id ∈ s.ended)

theorem Owes.call {id : ItemId} (h : Owes split id s) (i : L1.Input) :
    Owes split id (s.call (s.reader.call split i)) := by
  obtain ⟨hreader, hwhere⟩ := h
  have C := L1.call_carries split hreader i
  refine ⟨C.reached, ?_⟩
  by_cases hlive : id ∈ (s.reader.call split i).r.ids
  · exact .inl hlive
  · rcases hwhere with hwas | hwas
    · exact .inr (List.mem_append_right _ (C.gone id hwas hlive))
    · exact .inr (List.mem_append_left _ hwas)

theorem Owes.meet {id : ItemId} (h : Owes split id s) : Owes split id (s.meet split) :=
  meet_induct (fun _ i h => h.call i) (fun _ _ h => h) h

/-- An idle reader that nobody has read stays idle. -/
theorem others_idle (hreader : L1.Reached split s.reader) (hidle : s.reader.current = none)
    {is : List L1.Input} (hquiet : ∀ i ∈ is, ¬Starts i) :
    (s.others split is).reader.current = none := by
  induction is generalizing s with
  | nil => exact hidle
  | cons i is ih =>
    have C := L1.call_carries split hreader i
    refine ih (s := s.call (s.reader.call split i)) C.reached ?_
      (fun j hj => hquiet j (List.mem_cons_of_mem _ hj))
    have hnext : (s.reader.call split i).r.nextId = s.reader.nextId := by
      rcases L1.call_handsOut split s.reader i with ⟨-, hn⟩ | ⟨hout, -⟩
      · exact hn
      · -- an input that hands out an id starts an item
        refine absurd ?_ (hquiet i List.mem_cons_self)
        unfold Starts
        cases i with
        | speak => exact trivial
        | control k =>
          cases k with
          | restart => exact trivial
          | _ => cases hout
        | _ => cases hout
    show (s.reader.call split i).r.current = none
    cases hc : (s.reader.call split i).r.current with
    | none => rfl
    | some cur =>
      -- a live item had its id before, so it was live in an idle reader
      have hlive := L1.Ledger.mem_ids_current hc
      have hgiven := C.live cur.item.id hlive
      have hbefore := C.before cur.item.id ⟨hgiven.1, hnext ▸ hgiven.2⟩ hlive
      rw [(hreader.idle split hidle).2] at hbefore
      cases hbefore

/-! ### Skips and feeds -/

/-- With nothing in flight no fed item is live. -/
theorem Fit.none_live (F : Fit split clean b s) (hf : s.inFlight = none) (hclean : clean) :
    ∀ id ∈ s.fed, id ∉ s.reader.ids := by
  intro id hid hlive
  have hflight := (F.only hclean id hid hlive).2
  rw [hf] at hflight
  cases hflight

/-- A skip leaves no fed item live. -/
theorem Loose.skip_none_live (L : Loose split clean s) (hclean : clean) :
    ∀ id ∈ (s.tell split .skip).fed, id ∉ (s.tell split .skip).reader.ids := by
  intro id hid hlive
  have M := L.meet
  have C := L1.call_carries split M.reader (.control .skip)
  obtain ⟨cur, hc, rfl⟩ := Option.map_eq_some_iff.mp
    (M.current hclean id hid (C.before id (M.given id hid) hlive))
  exact (C.ended _ (L1.skip_ends hc)).2 hlive

/-- Once skipped, the driver fits with nothing in flight. -/
theorem Loose.skip_fit (L : Loose split clean s) (hf : s.inFlight = none)
    (hfresh : b = true → s.router.Rests) : Fit split clean b (s.tell split .skip) := by
  have O := tell_own split s .skip
  exact (L.tell .skip).fit (O.inFlight.trans hf) L.skip_none_live
    (fun hb => O.router.symm ▸ hfresh hb)

/-- The only fed item that may be live is in flight. -/
theorem Loose.flight_fit (L : Loose split clean s) {f : InFlight} (hfed : f.id ∈ s.fed)
    (hwhere : f.id ∈ s.reader.ids ∨ f.id ∈ s.ended)
    (honly : clean → ∀ id ∈ s.fed, id ∈ s.reader.ids → id = f.id)
    (hreads : ∀ e, f.entry = some e → s.router.Reads f.channel) :
    Fit split clean b { s with inFlight := some f } := by
  refine ⟨L.router, L.reader, L.given, L.gone, fun g e hg he => ?_,
    fun hclean id hid hlive => ⟨L.current hclean id hid hlive, ?_⟩, fun g hg => ?_,
    fun _ hf => nomatch hf⟩
  · obtain rfl := Option.some.inj hg
    exact hreads e he
  · exact congrArg some (honly hclean id hid hlive).symm
  · obtain rfl := Option.some.inj hg
    exact ⟨hfed, hwhere⟩

/-- **The reader takes a text of the driver**: with an interrupt, or idle, it reads the text at
once if there is something to speak. -/
theorem Loose.spoken (L : Loose split clean s) {interrupt : Bool}
    (hnow : clean → s.reader.current = none ∨ interrupt = true) (text : Text)
    (label : Option String) :
    (s.spoken split text interrupt label).1 = s.reader.nextId ∧
      Loose split clean (s.spoken split text interrupt label).2 ∧
      Owes split s.reader.nextId (s.spoken split text interrupt label).2 ∧
      s.reader.nextId ∈ (s.spoken split text interrupt label).2.fed := by
  obtain ⟨hid, hnew⟩ := L.reader.speak_id split text .append interrupt label
  have C := L1.call_carries split L.reader (.speak text .append interrupt label)
  have hfed : s.reader.nextId ∈ (s.spoken split text interrupt label).2.fed := by
    show _ ∈ s.fed ++ [(s.reader.speak split text .append interrupt label).1]
    rw [hid]
    exact List.mem_append_right _ (List.mem_singleton_self _)
  have howes : Owes split s.reader.nextId (s.spoken split text interrupt label).2 := by
    refine ⟨C.reached, ?_⟩
    by_cases hlive : s.reader.nextId ∈ (s.spoken split text interrupt label).2.reader.ids
    · exact .inl hlive
    · refine .inr (List.mem_append_right _ (C.born _ hnew (fun hg => ?_) hlive))
      exact Nat.lt_irrefl _ hg.2
  refine ⟨hid, ⟨L.router, C.reached, fun id hmem => ?_, fun id hmem => ?_,
    fun hclean id hmem hlive => ?_⟩, howes, hfed⟩
  · rcases List.mem_append.mp hmem with hmem | hmem
    · exact C.given id (L.given id hmem)
    · rw [List.mem_singleton.mp hmem, hid]
      exact hnew
  · rcases List.mem_append.mp hmem with hmem | hmem
    · obtain ⟨hgiven, hno⟩ := L.gone id hmem
      exact ⟨C.given id hgiven, fun hlive => hno (C.before id hgiven hlive)⟩
    · exact C.ended id hmem
  · rcases List.mem_append.mp hmem with hmem | hmem
    · exact C.current id (L.current hclean id hmem (C.before id (L.given id hmem) hlive)) hlive
    · rw [List.mem_singleton.mp hmem, hid] at hlive ⊢
      -- a text with nothing to speak ends at once
      cases hempty : (split s.reader.chunking text).isEmpty with
      | true =>
        have heq := L1.speak_refused split hempty .append interrupt label
        refine absurd hlive (C.ended _ ?_).2
        show _ ∈ endsOf (s.reader.speak split text .append interrupt label).2.fx
        rw [heq]
        exact List.mem_singleton_self _
      | false =>
        have hidle : s.reader.current = none ∧ s.reader.queue = [] ∨
            interrupt = true ∧ s.reader.current ≠ none := by
          cases hc : s.reader.current with
          | none => exact .inl ⟨rfl, (L.reader.idle split hc).1⟩
          | some cur => exact .inr ⟨(hnow hclean).resolve_left (by rw [hc]; nofun), nofun⟩
        obtain ⟨cur, hcur, hitem⟩ := L1.speak_current split hempty hidle label
        have hcur' : (s.spoken split text interrupt label).2.reader.current = some cur := hcur
        rw [hcur']
        exact congrArg some hitem

/-- What shows is the current item. -/
theorem Loose.shows (L : Loose split clean s) :
    s.shown.nowPlaying.map L1.NowPlaying.itemId = s.reader.current.map (·.item.id) :=
  L.reader.synced.nowPlaying

/-- **What is handed over is the one item in flight**: in an idle reader, or with an interrupt. -/
theorem Loose.handOver_fit (L : Loose split clean s) {interrupt : Bool}
    (hnow : clean → interrupt = false →
      (s.others split s.meanwhile.atFeed).reader.current = none)
    {channel : ChannelId} {entry : Option Nat} {text : Text} {label : Option String}
    (hreads : ∀ e, entry = some e → s.router.Reads channel) :
    Fit split clean b (s.handOver split interrupt channel entry text label).1 := by
  unfold handOver speakAs
  cases interrupt with
  | false =>
    dsimp only
    have O := others_own split s s.meanwhile.atFeed
    have M := L.others s.meanwhile.atFeed
    generalize s.others split s.meanwhile.atFeed = t at O M hnow ⊢
    obtain ⟨hid, L', howes, hfed⟩ := M.spoken (fun hclean => .inl (hnow hclean rfl)) text label
    rw [if_neg nofun, if_neg nofun, hid]
    refine L'.flight_fit hfed howes.2 (fun hclean id hmem hlive => ?_)
      (fun e he => show t.router.Reads channel from O.router.symm ▸ hreads e he)
    -- an item fed before would have been read in an idle reader
    rcases List.mem_append.mp hmem with hmem | hmem
    · have C := L1.call_carries split M.reader (.speak text .append false label)
      have hwas := M.current hclean id hmem (C.before id (M.given id hmem) hlive)
      rw [hnow hclean rfl] at hwas
      cases hwas
    · exact (List.mem_singleton.mp hmem).trans hid
  | true =>
    dsimp only
    have O := meet_own split s
    have M := L.meet
    generalize s.meet split = t at O M ⊢
    obtain ⟨hid, L', howes, hfed⟩ := M.spoken (fun _ => .inr rfl) text label
    rw [if_pos rfl, if_pos rfl, hid]
    have hrouter : (t.spoken split text true label).2.router = s.router := O.router
    generalize (t.spoken split text true label).2 = u at L' howes hfed hrouter ⊢
    have O' := meet_own split u
    have U := L'.meet
    have howes' := howes.meet
    have hfed' := O'.fed.symm ▸ hfed
    have hrouter' := O'.router.trans hrouter
    generalize u.meet split = v at U howes' hfed' hrouter' ⊢
    split
    next hcut =>
      have V := tell_own split v .skip
      refine (U.tell .skip).flight_fit (V.fed.symm ▸ hfed') (howes'.meet.call (.control .skip)).2
        (fun hclean id hmem hlive => absurd hlive (U.skip_none_live hclean id hmem))
        (fun e he => ?_)
      show (v.tell split .skip).router.Reads channel
      rw [V.router, hrouter']
      exact hreads e he
    next hkeep =>
      refine U.flight_fit hfed' howes'.2 (fun hclean id hmem hlive => ?_)
        (fun e he => show v.router.Reads channel from hrouter'.symm ▸ hreads e he)
      -- a live fed item is what plays, and that is the item handed over
      have hshows := U.shows.trans (U.current hclean id hmem hlive)
      obtain ⟨np, hnp, hitem⟩ := Option.map_eq_some_iff.mp hshows
      rw [hnp] at hkeep
      have hsame : np.itemId = t.reader.nextId := by simpa using hkeep
      exact hitem.symm.trans hsame

/-! ## Every act keeps the fit -/

/-- Nothing is left once everything is skipped. -/
theorem flushAll_rests (r : Router) : (r.flush none).1.done.Rests := by
  refine ⟨?_, fun a hdue => ?_⟩
  · unfold Router.flush
    dsimp only
    rw [Router.endHold_none]
    rfl
  · obtain ⟨c, hc, hp, -⟩ := Router.audible_iff.mp hdue.audible
    have hmem : c ∈ (r.flush none).1.channels := Router.mem_of_channel hc
    unfold Router.flush at hmem
    dsimp only at hmem
    rw [Router.endHold_channels] at hmem
    obtain ⟨c₀, -, rfl⟩ := List.mem_map.mp hmem
    unfold Channel.pending Channel.unread Channel.skipToEnd at hp
    rw [List.drop_length] at hp
    exact absurd hp (Nat.lt_irrefl 0)

/-- **A feed** finds nothing, or what it hands over fits. -/
theorem Loose.feed_cases (L : Loose split clean s) (interrupt : Bool)
    (hnow : clean → interrupt = false →
      (s.others split s.meanwhile.atFeed).reader.current = none) :
    (∃ r, s.feed split interrupt = ({ s with router := r }, none) ∧
        Loose split clean { s with router := r } ∧ r.Rests) ∨
      (s.feed split interrupt).2.isNone = false ∧
        Fit split clean true (s.feed split interrupt).1 := by
  have hrests := (feedLoop_rounds split L.router.holdActive interrupt 0).2
  rcases feedLoop_cases split interrupt 3 s with
    ⟨r, hr, heq⟩ | ⟨r, channel, entry, text, label, ht, heq⟩
  · have heq : s.feed split interrupt = ({ s with router := r }, none) := heq
    rw [heq] at hrests
    exact .inl ⟨r, heq, L.route hr, hrests rfl⟩
  · have heq : s.feed split interrupt = _ := heq
    rw [heq]
    have L' : Loose split clean { s with router := r } := L.route ht.reaches
    have hreader : { s with router := r }.reader = s.reader := rfl
    have hothers : ({ s with router := r }.others split s.meanwhile.atFeed).reader =
        (s.others split s.meanwhile.atFeed).reader := others_reader hreader _
    refine .inr ⟨rfl, L'.handOver_fit (fun hclean hno => ?_) fun e he => (ht.reads e he).1⟩
    exact (congrArg L1.Reader.current hothers).trans (hnow hclean hno)

theorem Fit.meanwhile (F : Fit split clean b s) (m : Meanwhile) :
    Fit split clean b { s with meanwhile := m } :=
  ⟨F.router, F.reader, F.given, F.gone, F.reads, F.only, F.owed, F.fresh⟩

theorem Fit.meet (F : Fit split clean b s) : Fit split clean b (s.meet split) :=
  meet_induct (fun _ i F => F.call i) (fun _ _ F => F.meanwhile _) F

/-- A pump leaves the driver fit: no feed is due while the reader is idle. -/
theorem Fit.pump (F : Fit split clean b s) (quiet : clean → Quiet s.meanwhile) :
    Fit split clean true (s.pump split) := by
  unfold Channels.pump pumpFed
  split
  next hsome =>
    refine ⟨F.router, F.reader, F.given, F.gone, F.reads, F.only, F.owed, fun _ hf => ?_⟩
    rw [hf] at hsome
    cases hsome
  next hnone =>
    have O := meet_own split s
    have hf : (s.meet split).inFlight = none :=
      O.inFlight.trans (Option.not_isSome_iff_eq_none.mp hnone)
    have hquiet : clean → Quiet (s.meet split).meanwhile := fun hclean i hi =>
      quiet hclean i (O.atFeed ▸ hi)
    have M := F.meet
    generalize s.meet split = t at hf hquiet M ⊢
    dsimp only
    split
    next hbusy =>
      refine ⟨M.router, M.reader, M.given, M.gone, M.reads, M.only, M.owed, fun _ _ hc => ?_⟩
      have hplays := M.reader.synced.nowPlaying
      have hqueued := M.reader.synced.queued
      rw [hc] at hplays
      rw [(M.reader.idle split hc).1] at hqueued
      unfold shown at hbusy
      rw [Option.map_eq_none_iff.mp hplays, hqueued] at hbusy
      cases hbusy
    next hidle =>
      have hc : t.reader.current = none := by
        have hplays := M.reader.synced.nowPlaying
        unfold shown at hidle
        rw [Bool.or_eq_true, not_or] at hidle
        rw [Option.not_isSome_iff_eq_none.mp hidle.1] at hplays
        exact Option.map_eq_none_iff.mp hplays.symm
      have L : Loose split clean t :=
        ⟨M.router, M.reader, M.given, M.gone,
          fun hclean id hid hlive => (M.only hclean id hid hlive).1⟩
      rcases L.feed_cases false (fun hclean _ => others_idle L.reader hc (hquiet hclean)) with
        ⟨r, heq, L', hrests⟩ | ⟨-, hfit⟩
      · rw [heq]
        exact L'.fit hf (fun hclean => M.none_live hf hclean) (fun _ => hrests)
      · exact hfit

/-- An operation in the middle of the batch that is read leaves it the floor. -/
theorem Fit.reads_apply (F : Fit split clean b s) {op : Op} (hfeed : op ≠ .nextFeed)
    (hop : ∀ f, s.inFlight = some f → ¬op.Interrupts f.channel) :
    ∀ f e, s.inFlight = some f → f.entry = some e → (s.router.apply op).Reads f.channel :=
  fun f e hf he =>
    ((F.reads f e hf he).apply F.router.holdActive (hop f hf) (fun h => absurd h hfeed)).1

theorem Fit.refeed (F : Fit split clean b s) {r : Router} (hr : s.router.Reaches r) (skip : Bool)
    (hskip : skip = false → s.inFlight = none) : Fit split clean true (s.refeed split r skip) := by
  unfold Channels.refeed
  rcases (F.loose hr).feed_cases true (fun _ => nofun) with ⟨r', heq, L, hrests⟩ | ⟨hsome, hfit⟩
  · rw [heq]
    cases skip with
    | true => exact L.skip_fit rfl (fun _ => hrests)
    | false => exact L.fit rfl (fun hclean => F.none_live (hskip rfl) hclean) (fun _ => hrests)
  · dsimp only
    rw [hsome]
    exact hfit

/-- The end of a move: what still plays is skipped, so no fed item is left. -/
theorem Fit.move (F : Fit split clean b s) {r : Router} (hr : s.router.Reaches r) :
    Fit split clean true
      (skipPlaying split ({ s with router := r, inFlight := none }.feed split true)) := by
  unfold skipPlaying
  rcases (F.loose hr).feed_cases true (fun _ => nofun) with ⟨r', heq, L, hrests⟩ | ⟨hsome, hfit⟩
  · rw [heq]
    dsimp only
    have O := meet_own split { s with router := r', inFlight := none }
    have hf : (Channels.meet split { s with router := r', inFlight := none }).inFlight = none :=
      O.inFlight
    have hrests' :
        (Channels.meet split { s with router := r', inFlight := none }).router.Rests := by
      rw [O.router]
      exact hrests
    have M := L.meet
    generalize Channels.meet split { s with router := r', inFlight := none } = t at hf hrests' M ⊢
    rw [if_pos (show (none : Option InFlight).isNone = true from rfl)]
    split
    · exact M.skip_fit hf (fun _ => hrests')
    next hno =>
      refine M.fit hf (fun hclean id hid hlive => hno ?_) (fun _ => hrests')
      have hshows := M.shows.trans (M.current hclean id hid hlive)
      obtain ⟨np, hnp, -⟩ := Option.map_eq_some_iff.mp hshows
      rw [hnp]
      rfl
  · rw [hsome, if_neg nofun]
    exact hfit

/-- **Every act keeps the fit.** -/
theorem Act.fit {b' : Bool} {s' : Channels} (h : Act split clean (b, s) (b', s'))
    (F : Fit split clean b s) : Fit split clean b' s' := by
  cases h with
  | forget => exact ⟨F.router, F.reader, F.given, F.gone, F.reads, F.only, F.owed, nofun⟩
  | route op hfeed hop =>
    exact ⟨F.router.apply op, F.reader, F.given, F.gone, F.reads_apply hfeed hop, F.only, F.owed,
      nofun⟩
  | calm op hop =>
    have hquiet := Router.calm_quiet (r := s.router) hop
    have hspares : ∀ a, ¬op.Interrupts a := by
      intro a
      cases op <;> first
        | exact hop.elim
        | exact id
    exact ⟨F.router.apply op, F.reader, F.given, F.gone,
      F.reads_apply hquiet.2.1 fun f _ => hspares f.channel, F.only, F.owed,
      fun hb hf hc he => Router.calm_rests hop F.router.sound (F.fresh hb hf hc he)⟩
  | call i => exact F.call i
  | note dropped config =>
    exact ⟨F.router, F.reader, F.given, F.gone, F.reads, F.only, F.owed, F.fresh⟩
  | meanwhile calls => exact F.meanwhile _
  | cut hr => exact (F.loose hr).skip_fit rfl nofun
  | stop =>
    have hr : s.router.Reaches (s.router.flush none).1.done :=
      ((Router.Reaches.refl _).apply (.flush none)).apply .done
    have L := F.loose hr
    have O := tell_own split
      { s with router := (s.router.flush none).1.done, inFlight := none } .stop
    refine (L.tell .stop).fit O.inFlight (fun _ id _ => ?_)
      (fun _ => O.router.symm ▸ flushAll_rests s.router)
    have hstopped := (L1.stop_idle (Channels.meet split { s with
      router := (s.router.flush none).1.done, inFlight := none }).reader).1
    rw [((L.tell .stop).reader.idle split hstopped).2]
    exact List.not_mem_nil
  | pump quiet => exact F.pump quiet
  | refeed hr hskip => exact F.refeed hr _ hskip
  | move hr => exact F.move hr
  | @ended _ _ id rest h =>
    have hmem : id ∈ s.ended := by
      rw [h]
      exact List.mem_cons_self
    have hover : ∀ i ∈ rest, s.reader.Given i ∧ i ∉ s.reader.ids := fun i hi => F.gone i (by
      rw [h]
      exact List.mem_cons_of_mem _ hi)
    unfold taken
    dsimp only
    split
    next hours =>
      have hr : s.router.Reaches s.router.done := (Router.Reaches.refl _).apply .done
      have L := F.loose hr
      have L' : Loose split clean
          { s with router := s.router.done, inFlight := none, ended := rest } :=
        ⟨L.router, L.reader, L.given, hover, L.current⟩
      obtain ⟨f, hf, hid⟩ := (Option.any_eq_true _ _).mp hours
      refine L'.fit rfl (fun hclean i hi hlive => ?_) nofun
      -- The delivered item is the only one that could be live.
      have hflight := (F.only hclean i hi hlive).2
      rw [hf] at hflight
      obtain rfl := Option.some.inj hflight
      rw [eq_of_beq hid] at hlive
      exact (F.gone id hmem).2 hlive
    next hother =>
      refine ⟨F.router, F.reader, F.given, hover, F.reads, F.only, fun f hf => ?_, nofun⟩
      obtain ⟨hfed, hwhere⟩ := F.owed f hf
      refine ⟨hfed, hwhere.imp_right fun hin => ?_⟩
      rw [h] at hin
      rcases List.mem_cons.mp hin with rfl | hin
      · refine absurd ?_ hother
        rw [show s.inFlight = some f from hf, Option.any_some, beq_self_eq_true]
      · exact hin

/-- Acts in a row. -/
abbrev Acts (split : L1.Chunking → Text → List Text) (clean : Prop) :
    Bool × Channels → Bool × Channels → Prop := Relation.ReflTransGen (Act split clean)

theorem Acts.fit {p q : Bool × Channels} (h : Acts split clean p q) (F : Fit split clean p.1 p.2) :
    Fit split clean q.1 q.2 := by
  induction h with
  | refl => exact F
  | tail _ a ih => exact Act.fit a ih

/-- A flag may be lowered. -/
theorem Acts.lower {p : Bool × Channels} (h : Acts split clean p (true, s)) (b : Bool) :
    Acts split clean p (b, s) := by
  cases b with
  | true => exact h
  | false => exact h.tail .forget

theorem Acts.drop {p : Bool × Channels} (h : Acts split clean p (b, s)) :
    Acts split clean p (false, s) := by
  cases b with
  | true => exact h.tail .forget
  | false => exact h

/-! ## Rows of acts -/

theorem reportCut_eq (s : Channels) (channel : ChannelId) (reason : String) :
    ∃ d, s.reportCut channel reason = { s with dropped := d } := by
  unfold reportCut
  split
  · exact ⟨_, rfl⟩
  · exact ⟨s.dropped, rfl⟩

theorem rewindOther_eq (s : Channels) (cut : Option InFlight) (channel : ChannelId) :
    ∃ r, s.router.Reaches r ∧ s.rewindOther cut channel = { s with router := r } := by
  unfold rewindOther
  split
  · exact ⟨s.router, .refl _, rfl⟩
  next f _ =>
    split
    · exact ⟨s.router, .refl _, rfl⟩
    next e _ => exact ⟨_, (Router.Reaches.refl _).apply (.rewind f.channel e), rfl⟩

/-- The router is told something that may interrupt `channel`, and what is read of it is cut. -/
theorem cutIf_acts (op : Op) (channel : ChannelId) (hfeed : op ≠ .nextFeed)
    (hop : ∀ a, op.Interrupts a → a = channel) (reason : Option String) :
    Acts split clean (b, s)
    (false, { s with router := s.router.apply op }.cutIf split channel reason) := by
  have hcut : ∀ d, Acts split clean (b, s) (false,
      let s := { s with router := s.router.apply op, dropped := d }
      if s.inFlight.any (·.channel == channel) then
        { s with inFlight := none, router := s.router.done }.tell split .skip
      else s) := by
    intro d
    have hnote : Acts split clean (b, s) (b, { s with dropped := d }) := .single (.note d s.config)
    dsimp only
    split
    · exact hnote.tail (.cut (((Router.Reaches.refl _).apply op).apply .done))
    next hother =>
      refine hnote.tail (.route op hfeed fun f hf hint => hother ?_)
      have hf' : s.inFlight = some f := hf
      rw [hf', Option.any_some, hop f.channel hint, beq_self_eq_true]
  unfold cutIf
  cases reason with
  | none => exact hcut s.dropped
  | some reason =>
    obtain ⟨d, hd⟩ := reportCut_eq { s with router := s.router.apply op } channel reason
    dsimp only
    rw [hd]
    exact hcut d

/-- `read_from` and the steps: a router after a move, and what it reads is fed. -/
theorem cutAndFeed_acts {r : Router} (hr : s.router.Reaches r) (channel : ChannelId) :
    Acts split clean (b, s) (true, { s with router := r }.cutAndFeed split channel) := by
  obtain ⟨r', hr', heq⟩ := rewindOther_eq
    { s with router := r, inFlight := none } s.inFlight channel
  unfold cutAndFeed
  dsimp only
  rw [heq]
  exact .single (.move (hr.trans hr'))

/-- `next_channel` and an interrupt: another channel has the floor, and is fed. -/
theorem switchTo_acts {r : Router} (hr : s.router.Reaches r) (target : ChannelId)
    {takes : Router → Router} (htakes : ∀ r, Router.Reaches r (takes r)) :
    Acts split clean (b, s) (true, ({ s with router := r }.switchTo split target takes).1) := by
  obtain ⟨r', hr', heq⟩ := rewindOther_eq { s with router := r, inFlight := none } s.inFlight target
  have hact : Act split clean (b, s) (true, s.refeed split (takes r') s.inFlight.isSome) :=
    .refeed ((hr.trans hr').trans (htakes r')) fun hno =>
      Option.not_isSome_iff_eq_none.mp (Bool.eq_false_iff.mp hno)
  have hsame : ({ s with router := r }.switchTo split target takes).1 =
      s.refeed split (takes r') s.inFlight.isSome := by
    unfold switchTo refeed
    dsimp only
    rw [heq]
  rw [hsame]
  exact .single hact

theorem readFrom_acts (b : Bool) (s : Channels) (channel : ChannelId) (entry : Option Nat) :
    Acts split clean (b, s) (b, (s.readFrom split channel entry).1) := by
  unfold readFrom
  cases h : s.router.replayFrom channel entry with
  | mk r ok =>
    cases ok with
    | false => exact .refl
    | true =>
      have hr : s.router.Reaches r := by
        have := (Router.Reaches.refl s.router).apply (.replayFrom channel entry)
        rwa [show s.router.apply (.replayFrom channel entry) = r from congrArg Prod.fst h] at this
      exact (cutAndFeed_acts hr channel).lower b

theorem stepTo_acts (b : Bool) (s : Channels) (channel : ChannelId) (entry : Nat) :
    Acts split clean (b, s) (b, (s.stepTo split channel entry).1) := by
  unfold stepTo
  cases h : s.router.stepTo channel entry with
  | mk r ok =>
    cases ok with
    | false => exact .refl
    | true =>
      have hr : s.router.Reaches r := by
        have := (Router.Reaches.refl s.router).apply (.stepTo channel entry)
        rwa [show s.router.apply (.stepTo channel entry) = r from congrArg Prod.fst h] at this
      exact (cutAndFeed_acts hr channel).lower b

/-- Others call the reader. -/
theorem others_acts (b : Bool) (s : Channels) (is : List L1.Input) :
    Acts split clean (b, s) (b, s.others split is) := by
  induction is generalizing s with
  | nil => exact .refl
  | cons i is ih => exact (Relation.ReflTransGen.single (.call i)).trans (ih _)

theorem meet_acts (b : Bool) (s : Channels) : Acts split clean (b, s) (b, s.meet split) := by
  unfold meet
  split
  · exact .refl
  next is rest _ =>
    exact (Relation.ReflTransGen.single (.meanwhile rest)).trans (others_acts b _ is)

theorem tell_acts (b : Bool) (s : Channels) (k : Control) :
    Acts split clean (b, s) (b, s.tell split k) := (meet_acts b s).tail (.call (.control k))

/-! ### What comes between a look and a feed -/

/-- Handing a text over leaves what another caller does before a feed. -/
theorem handOver_atFeed (s : Channels) (interrupt : Bool) (channel : ChannelId)
    (entry : Option Nat) (text : Text) (label : Option String) :
    (s.handOver split interrupt channel entry text label).1.meanwhile.atFeed =
      s.meanwhile.atFeed := by
  unfold handOver speakAs
  cases interrupt with
  | false => exact (others_own split s s.meanwhile.atFeed).atFeed
  | true =>
    dsimp only
    rw [if_pos rfl, if_pos rfl]
    have O := meet_own split s
    have hspoken : ((s.meet split).spoken split text true label).2.meanwhile.atFeed =
        s.meanwhile.atFeed := O.atFeed
    generalize ((s.meet split).spoken split text true label).2 = u at hspoken ⊢
    have U := (meet_own split u).atFeed.trans hspoken
    split
    · exact (tell_own split _ .skip).atFeed.trans U
    · exact U

variable (split) in
theorem feed_atFeed (s : Channels) (interrupt : Bool) :
    (s.feed split interrupt).1.meanwhile.atFeed = s.meanwhile.atFeed := by
  rcases feedLoop_cases split interrupt 3 s with ⟨r, -, heq⟩ | ⟨r, _, _, _, _, -, heq⟩
  · exact congrArg (fun o => o.1.meanwhile.atFeed) heq
  · exact (congrArg (fun o => o.1.meanwhile.atFeed) heq).trans (handOver_atFeed ..)

theorem skipPlaying_atFeed (out : Channels × Option InFlight) :
    (skipPlaying split out).meanwhile.atFeed = out.1.meanwhile.atFeed := by
  unfold skipPlaying
  have M := (meet_own split out.1).atFeed
  split
  · dsimp only
    split
    · exact (tell_own split _ .skip).atFeed.trans M
    · exact M
  · rfl

theorem pump_atFeed (s : Channels) :
    (s.pump split).meanwhile.atFeed = s.meanwhile.atFeed := by
  unfold pump pumpFed
  have M := (meet_own split s).atFeed
  split
  · rfl
  · dsimp only
    split
    · exact M
    · exact (feed_atFeed split _ false).trans M

/-- No act changes what others do between a look of `pump_fed` and its feed. -/
theorem Act.atFeed {p q : Bool × Channels} (h : Act split clean p q) :
    q.2.meanwhile.atFeed = p.2.meanwhile.atFeed := by
  cases h with
  | cut => exact (tell_own split _ .skip).atFeed
  | stop => exact (tell_own split _ .stop).atFeed
  | pump => exact pump_atFeed _
  | @refeed _ s r skip =>
    unfold Channels.refeed
    dsimp only
    have hfeed := feed_atFeed split { s with router := r, inFlight := none } true
    split
    · exact (tell_own split _ .skip).atFeed.trans hfeed
    · exact hfeed
  | move => exact (skipPlaying_atFeed _).trans (feed_atFeed split _ true)
  | ended =>
    unfold taken
    dsimp only
    split <;> rfl
  | _ => rfl

theorem Acts.atFeed {p q : Bool × Channels} (h : Acts split clean p q) :
    q.2.meanwhile.atFeed = p.2.meanwhile.atFeed := by
  induction h with
  | refl => rfl
  | tail _ a ih => exact (Act.atFeed a).trans ih

/-- A row that ends with a pump. -/
theorem Acts.pump {p : Bool × Channels} (h : Acts split clean p (b, s))
    (quiet : clean → Quiet p.2.meanwhile) : Acts split clean p (true, s.pump split) := by
  refine h.tail (.pump fun hclean i hi => quiet hclean i ?_)
  rwa [h.atFeed] at hi

theorem report_acts (b : Bool) (s : Channels) (channel : ChannelId) (entries : List Entry)
    (reason : String)
    (item : Option ItemId) : Acts split clean (b, s) (b, s.report channel entries reason item) :=
  .single (.note _ s.config)

end Channels

end Sonara.L2
