import Mathlib.Data.List.Pairwise
import Sonara.Events.Stream

/-!
# The streams agree

What the worker has told since the start is one list, and each position along it has a
number of its own: the state's `seq` plus the count of status changes, one more with
every entry. A stream's queue is an end of that list. As long as its view is a position
along the list, not behind what it has received, every event it sends is a position's,
under the position's number: so two streams never send different states under one `seq`.

The view of a new stream is a position if the state it reads and the status it read
before belong together: if no change of the state was told behind a change of the status
that came after the status was read (`Unraced`). Otherwise the view joins a state and a
status that never were in force together, and goes out under a number that is another
position's (`streams_race`).
-/

namespace Sonara.Events

open Sonara (Text)
open Sonara.L1 (State Reader Input Chunking)

variable {split : Chunking → Text → List Text}

/-! ## Positions along what was told -/

/-- The state, the status and the count of its changes that were in force together. -/
structure Pos where
  state : State
  status : EngineStatus
  changes : Nat

namespace Pos

/-- Its number. -/
def total (p : Pos) : Nat := p.state.seq + p.changes

/-- The event that tells it. -/
def wire (p : Pos) : WireEvent := stateEventWith p.state p.total p.status

def next (p : Pos) : Told → Pos
  | .state s => { p with state := s }
  | .engineStatus status changes => { p with status := status, changes := changes }

def after (p : Pos) (q : List Told) : Pos := q.foldl next p

/-- The entry is numbered one up. -/
def Fits (p : Pos) : Told → Prop
  | .state s => s.seq = p.state.seq + 1
  | .engineStatus _ changes => changes = p.changes + 1

/-- The entries are numbered in order. -/
def Ordered (p : Pos) : List Told → Prop
  | [] => True
  | e :: q => p.Fits e ∧ (p.next e).Ordered q

variable {p : Pos} {q r : List Told}

@[simp] theorem wire_seq (p : Pos) : p.wire.seq = p.total := rfl

theorem after_append (p : Pos) (q r : List Told) : p.after (q ++ r) = (p.after q).after r :=
  List.foldl_append

theorem ordered_append : p.Ordered (q ++ r) ↔ p.Ordered q ∧ (p.after q).Ordered r := by
  induction q generalizing p with
  | nil => exact ⟨fun h => ⟨trivial, h⟩, And.right⟩
  | cons e q ih =>
    rw [List.cons_append]
    exact (and_congr_right fun _ => ih).trans and_assoc.symm

theorem Fits.total {e : Told} (h : p.Fits e) : (p.next e).total = p.total + 1 := by
  cases e with
  | state s =>
    have hs : s.seq = p.state.seq + 1 := h
    show s.seq + p.changes = p.state.seq + p.changes + 1
    omega
  | engineStatus st c =>
    have hc : c = p.changes + 1 := h
    show p.state.seq + c = p.state.seq + p.changes + 1
    omega

/-- A position's number is how far along it is. -/
theorem Ordered.total (h : p.Ordered q) : (p.after q).total = p.total + q.length := by
  induction q generalizing p with
  | nil => rfl
  | cons e q ih =>
    have hq : (p.after (e :: q)).total = (p.next e).total + q.length := ih h.2
    rw [hq, h.1.total, List.length_cons]
    omega

theorem Ordered.seq_le (h : p.Ordered q) : p.state.seq ≤ (p.after q).state.seq := by
  induction q generalizing p with
  | nil => exact Nat.le_refl _
  | cons e q ih =>
    refine Nat.le_trans ?_ (ih h.2)
    cases e with
    | state s =>
      have hs : s.seq = p.state.seq + 1 := h.1
      show p.state.seq ≤ s.seq
      omega
    | engineStatus st c => exact Nat.le_refl _

theorem Ordered.changes_le (h : p.Ordered q) : p.changes ≤ (p.after q).changes := by
  induction q generalizing p with
  | nil => exact Nat.le_refl _
  | cons e q ih =>
    refine Nat.le_trans ?_ (ih h.2)
    cases e with
    | state s => exact Nat.le_refl _
    | engineStatus st c =>
      have hc : c = p.changes + 1 := h.1
      show p.changes ≤ c
      omega

/-- The entry in front of a position is not newer than it. -/
theorem Ordered.stale {e : Told} (h : p.Ordered (e :: q)) :
    match e with
    | .state s => s.seq ≤ (p.after (e :: q)).state.seq
    | .engineStatus _ changes => changes ≤ (p.after (e :: q)).changes := by
  cases e with
  | state s => exact h.2.seq_le
  | engineStatus st c => exact h.2.changes_le

end Pos

open Pos

/-! ## What holds of a stream -/

/-- The position a view stands for. -/
def StateView.pos (v : StateView) : Pos := ⟨v.state, v.status, v.changes⟩

/-- What is in force. -/
def World.pos (w : World) : Pos := ⟨w.reader.shown, w.status, w.changes⟩

/-- What a stream knows is along its queue, which starts at `b`. -/
def Phase.Along (b : Pos) (queue : List Told) : Phase → Prop
  | .registered => True
  | .counted status changes =>
    ∃ d r, queue = d ++ r ∧ (b.after d).status = status ∧ (b.after d).changes = changes
  | .viewing v | .relaying v => ∃ d r, queue = d ++ r ∧ v.pos = b.after d

/-- What was sent last is the view. -/
def Phase.Sent (sent : List WireEvent) : Phase → Prop
  | .registered | .counted _ _ => sent = []
  | .viewing v => sent = [] ∧ v.sent = none
  | .relaying v => v.sent = some v.seq ∧ sent.getLast? = some v.pos.wire

/-- What holds of a stream that asked for `state` events, when `q` was told from `p` on. -/
structure Asked (p : Pos) (q : List Told) (s : Stream) : Prop where
  behind : ∃ a, q = a ++ s.queue ∧ s.phase.Along (p.after a) s.queue
  last : s.phase.Sent s.sent
  rising : s.sent.Pairwise (fun x y => x.seq < y.seq)
  told : ∀ x ∈ s.sent, ∃ a b, q = a ++ b ∧ x = (p.after a).wire

/-- What holds of any stream. -/
def Stream.Ok (p : Pos) (q : List Told) (s : Stream) : Prop :=
  if s.set then Asked p q s else s.sent = []

/-- The invariant. -/
structure Inv (p : Pos) (q : List Told) (w : World) : Prop where
  ordered : p.Ordered q
  now : w.pos = p.after q
  streams : ∀ k s, w.streams k = some s → s.Ok p q

variable {p : Pos} {q : List Told} {w w' : World} {s : Stream}

/-! ## The worker's steps -/

theorem Phase.Along.grow {b : Pos} {queue told : List Told} {f : Phase} (h : f.Along b queue) :
    f.Along b (queue ++ told) := by
  cases f with
  | registered => trivial
  | counted status changes =>
    obtain ⟨d, r, hq, hd⟩ := h
    exact ⟨d, r ++ told, by rw [hq, List.append_assoc], hd⟩
  | viewing v | relaying v =>
    obtain ⟨d, r, hq, hd⟩ := h
    exact ⟨d, r ++ told, by rw [hq, List.append_assoc], hd⟩

/-- More is told to a stream in order. -/
theorem Stream.Ok.grow (h : s.Ok p q) (told : List Told) :
    ({ s with queue := s.queue ++ told } : Stream).Ok p (q ++ told) := by
  unfold Stream.Ok at h ⊢
  dsimp only
  split at h
  next hset =>
    rw [if_pos hset]
    obtain ⟨a, ha, hb⟩ := h.behind
    refine ⟨⟨a, by rw [ha, List.append_assoc], hb.grow⟩, h.last, h.rising, fun x hx => ?_⟩
    obtain ⟨c, d, hcd, hx⟩ := h.told x hx
    exact ⟨c, d ++ told, by rw [hcd, List.append_assoc], hx⟩
  next hset =>
    rw [if_neg hset]
    exact h

/-- The worker moves on and tells it. -/
theorem Inv.tell (h : Inv p q w) (told : List Told) (ordered : w.pos.Ordered told)
    (now : w'.pos = w.pos.after told) (same : w'.streams = w.streams) :
    Inv p (q ++ told) (w'.broadcast told) where
  ordered := ordered_append.mpr ⟨h.ordered, h.now ▸ ordered⟩
  now := by
    rw [after_append, ← h.now]
    exact now
  streams k s hs := by
    obtain ⟨s, hk, rfl⟩ := Option.map_eq_some_iff.mp hs
    rw [same] at hk
    exact (h.streams k s hk).grow told

/-- A call of the reader adds what it tells to the queue of a stream that listens. -/
theorem Inv.call (h : Inv p q w) (i : Input) : ∃ q', Inv p q' (w.call split i) := by
  refine ⟨_, h.tell ((L1.states (w.reader.call split i).fx).map .state) ?_ ?_ rfl⟩
  all_goals
    rcases L1.call_tells split w.reader i with hc | ⟨s', hc, hseq⟩
  · rw [show L1.states (w.reader.call split i).fx = [] from congrArg Prod.snd hc]
    trivial
  · rw [show L1.states (w.reader.call split i).fx = [s'] from congrArg Prod.snd hc]
    exact ⟨hseq, trivial⟩
  · rw [show L1.states (w.reader.call split i).fx = [] from congrArg Prod.snd hc]
    unfold World.pos
    rw [show (w.reader.call split i).r.shown = w.reader.shown from congrArg Prod.fst hc]
    rfl
  · rw [show L1.states (w.reader.call split i).fx = [s'] from congrArg Prod.snd hc]
    unfold World.pos
    rw [show (w.reader.call split i).r.shown = s' from congrArg Prod.fst hc]
    rfl

theorem Inv.checkStatus (h : Inv p q w) (status : EngineStatus) :
    ∃ q', Inv p q' (w.checkStatus status) := by
  unfold World.checkStatus
  split
  · have hnext : Inv p (q ++ [.engineStatus status (w.changes + 1)])
        ({ w with status := status, changes := w.changes + 1 }.broadcast
          [.engineStatus status (w.changes + 1)]) := h.tell _ ⟨rfl, trivial⟩ rfl rfl
    exact ⟨_, hnext⟩
  · exact ⟨q, h⟩

/-! ## The streams' steps -/

theorem Inv.put (h : Inv p q w) {k : Nat} (hs : s.Ok p q) : Inv p q (w.put k s) where
  ordered := h.ordered
  now := h.now
  streams j t ht := by
    have ht : Function.update w.streams k (some s) j = some t := ht
    by_cases hj : j = k
    · rw [hj, Function.update_self] at ht
      exact Option.some.inj ht ▸ hs
    · rw [Function.update_of_ne hj] at ht
      exact h.streams j t ht

/-- A view that is a position is sent under its number, if that is a new one. -/
theorem Asked.send {a d r : List Told} {v : StateView} {set : Bool} {queue : List Told}
    {f : Phase} {sent : List WireEvent} (hq : q = a ++ queue)
    (hqueue : queue = d ++ r) (hv : v.pos = (p.after a).after d)
    (rising : sent.Pairwise (fun x y => x.seq < y.seq))
    (told : ∀ x ∈ sent, ∃ a b, q = a ++ b ∧ x = (p.after a).wire)
    (below : ∀ x ∈ sent, x.seq < v.seq) (hnew : v.sent.any (fun s => decide (v.seq ≤ s)) = false) :
    Asked p q (Stream.send ⟨set, queue, f, sent⟩ v.render) := by
  have hr : v.render = ({ v with sent := some v.seq }, some v.pos.wire) := by
    unfold StateView.render
    rw [if_neg (by rw [hnew]; decide)]
    rfl
  rw [hr]
  refine ⟨⟨a, hq, d, r, hqueue, hv⟩, ⟨rfl, ?_⟩, ?_, fun x hx => ?_⟩
  · exact List.getLast?_concat ..
  · refine List.pairwise_append.mpr ⟨rising, List.pairwise_singleton .., fun x hx y hy => ?_⟩
    rw [List.mem_singleton.mp hy]
    exact below x hx
  · rcases List.mem_append.mp hx with hx | hx
    · exact told x hx
    · rw [List.mem_singleton.mp hx]
      refine ⟨a ++ d, r, ?_, ?_⟩
      · rw [hq, hqueue, List.append_assoc]
      · rw [hv, after_append]

theorem le_last {sent : List WireEvent} {l : WireEvent}
    (rising : sent.Pairwise (fun x y => x.seq < y.seq)) (hl : sent.getLast? = some l) :
    ∀ x ∈ sent, x.seq ≤ l.seq := by
  intro x hx
  obtain ⟨init, rfl⟩ := List.getLast?_eq_some_iff.mp hl
  rcases List.mem_append.mp hx with hx | hx
  · exact Nat.le_of_lt ((List.pairwise_append.mp rising).2.2 x hx l (by simp))
  · rw [List.mem_singleton.mp hx]

/-- What the view has seen already is not sent again. -/
theorem render_stale {v : StateView} {b : Pos} {e : Told} {d : List Told}
    (ordered : b.Ordered (e :: d)) (hv : v.pos = b.after (e :: d)) (hsent : v.sent.isSome) :
    render true v e = (v, none) := by
  have hs := ordered.stale
  rw [← hv] at hs
  cases e with
  | state s => exact if_pos ⟨hs, hsent⟩
  | engineStatus st c => exact if_pos hs

/-- The next entry moves the view on, and its number. -/
theorem render_next {v : StateView} {e : Told} (fits : v.pos.Fits e) (hsent : v.sent = some v.seq) :
    ∃ v' : StateView, render true v e = v'.render ∧ v'.pos = v.pos.next e ∧ v'.seq = v.seq + 1 ∧
      v'.sent = some v.seq := by
  have htotal := fits.total
  cases e with
  | state s =>
    have hs : s.seq = v.state.seq + 1 := fits
    have hnew : ¬(s.seq ≤ v.state.seq ∧ v.sent.isSome = true) := by omega
    exact ⟨{ v with state := s }, (if_neg hnew).trans (if_pos rfl), rfl, htotal, hsent⟩
  | engineStatus st c =>
    have hc : c = v.changes + 1 := fits
    have hnew : ¬c ≤ v.changes := by omega
    exact ⟨{ v with status := st, changes := c }, (if_neg hnew).trans (if_pos rfl), rfl, htotal,
      hsent⟩

/-- A told event that is relayed goes out rendered against the view so far. -/
theorem Asked.relay {e : Told} {queue : List Told} {v : StateView} {sent : List WireEvent}
    (ordered : p.Ordered q) (h : Asked p q ⟨true, e :: queue, .relaying v, sent⟩) :
    Asked p q (Stream.send ⟨true, queue, .relaying v, sent⟩ (render true v e)) := by
  obtain ⟨a, hq, d, r, hd, hv⟩ := h.behind
  obtain ⟨hsent, hlast⟩ := h.last
  have hq' : q = (a ++ [e]) ++ queue := by rw [hq, List.append_assoc]; rfl
  cases d with
  | cons x d =>
    obtain ⟨rfl, hqueue⟩ := List.cons_eq_cons.mp hd
    have hord : (p.after a).Ordered (e :: d) := by
      rw [hq, hd] at ordered
      exact (ordered_append.mp (ordered_append.mp ordered).2).1
    rw [render_stale hord hv (hsent ▸ rfl)]
    have hkeep : (Stream.send ⟨true, queue, .relaying v, sent⟩ (v, none)).sent = sent :=
      List.append_nil sent
    refine ⟨⟨a ++ [e], hq', d, r, hqueue, ?_⟩, ⟨hsent, ?_⟩, ?_, fun y hy => h.told y ?_⟩
    · rw [hv, after_append]
      rfl
    · rw [hkeep]
      exact hlast
    · rw [hkeep]
      exact h.rising
    · rw [hkeep] at hy
      exact hy
  | nil =>
    have hfits : v.pos.Fits e := by
      rw [hv]
      rw [hq] at ordered
      exact (ordered_append.mp ordered).2.1
    obtain ⟨v', hr, hpos, hseq, hs'⟩ := render_next hfits hsent
    rw [hr]
    refine Asked.send hq' (d := []) (r := queue) rfl ?_ h.rising h.told (fun x hx => ?_) ?_
    · rw [hpos, hv, after_append]
      rfl
    · have : x.seq ≤ v.seq := le_last h.rising hlast x hx
      omega
    · rw [hs', hseq]
      simp

theorem relay_quiet (v : StateView) (e : Told) : (render false v e).2 = none := by
  cases e with
  | state s =>
    simp only [render]
    split <;> rfl
  | engineStatus st c =>
    simp only [render]
    split <;> rfl

/-! ## A new stream's view -/

/-- The state that `subscribe` reads for a stream of `state` events goes with the status it read
before: no state was told behind a status newer than that one. -/
def Unraced (w : World) : Event → Prop
  | .snapshot k => ∀ s, w.streams k = some s → s.set = true → ∀ status changes,
      s.phase = .counted status changes →
      ∀ a status' changes' b, s.queue = a ++ .engineStatus status' changes' :: b →
        changes < changes' → ∀ x, .state x ∉ b
  | _ => True

/-- Statuses leave the state as it is. -/
theorem after_state {b : Pos} {r : List Told} (h : ∀ x, .state x ∉ r) :
    (b.after r).state = b.state := by
  induction r generalizing b with
  | nil => rfl
  | cons e r ih =>
    cases e with
    | state s => exact absurd (List.mem_cons_self ..) (h s)
    | engineStatus st ch =>
      exact (ih (b := b.next _) fun x hx => h x (List.mem_cons_of_mem _ hx)).trans rfl

/-- Entries behind which no state is told behind a status: first the states, then the
statuses. -/
theorem split_states {b : Pos} {r : List Told} (ordered : b.Ordered r)
    (hr : ∀ a status changes c, r = a ++ .engineStatus status changes :: c →
      b.changes < changes → ∀ x, .state x ∉ c) :
    ∃ d e, r = d ++ e ∧ (b.after d).status = b.status ∧ (b.after d).changes = b.changes ∧
      (b.after r).state = (b.after d).state := by
  induction r generalizing b with
  | nil => exact ⟨[], [], rfl, rfl, rfl, rfl⟩
  | cons e r ih =>
    cases e with
    | state s =>
      obtain ⟨d, c, hd, hst, hch, hlast⟩ := ih ordered.2 fun a st ch c h hlt x hx =>
        hr (.state s :: a) st ch c (by rw [h]; rfl) hlt x hx
      exact ⟨.state s :: d, c, by rw [hd]; rfl, hst, hch, hlast⟩
    | engineStatus st ch =>
      have hfit : ch = b.changes + 1 := ordered.1
      refine ⟨[], .engineStatus st ch :: r, rfl, rfl, rfl, ?_⟩
      exact after_state (b := b.next (.engineStatus st ch)) (hr [] st ch r rfl (by omega))

/-- The view is taken: it is the reader as it is, unless an engine status that was passed over is
followed by a state. -/
theorem Asked.snapshot {queue : List Told} {status : EngineStatus} {changes : Nat}
    {sent : List WireEvent} (hi : Inv p q w)
    (h : Asked p q ⟨true, queue, .counted status changes, sent⟩)
    (hr : ∀ a status' changes' b, queue = a ++ .engineStatus status' changes' :: b →
      changes < changes' → ∀ x, .state x ∉ b) :
    Asked p q ⟨true, queue, .viewing ⟨w.reader.shown, status, changes, none⟩, sent⟩ := by
  obtain ⟨a, hq, d, r, hd, hst, hch⟩ := h.behind
  dsimp only at hq hd
  have hord : ((p.after a).after d).Ordered r := by
    have := hi.ordered
    rw [hq, hd] at this
    exact (ordered_append.mp (ordered_append.mp this).2).2
  obtain ⟨e, f, hef, hst', hch', hlast⟩ := split_states hord fun x st ch c hx hlt =>
    hr (d ++ x) st ch c (by rw [hd, hx, List.append_assoc]) (hch ▸ hlt)
  have hnow : w.reader.shown = ((p.after a).after (d ++ e)).state := by
    have := congrArg Pos.state hi.now
    rw [hq, hd, after_append, after_append, hlast] at this
    rw [after_append]
    exact this
  refine ⟨⟨a, hq, d ++ e, f, by rw [hd, hef, List.append_assoc], ?_⟩, ⟨h.last, rfl⟩,
    h.rising, h.told⟩
  unfold StateView.pos
  rw [hnow, after_append, ← hst, ← hst', ← hch, ← hch']

/-- **Every step keeps the invariant**, if a new stream's reads belong together. -/
theorem step_inv {e : Event} (hi : Inv p q w) (hu : Unraced w e)
    (hs : step split w e = some w') : ∃ q', Inv p q' w' := by
  cases e with
  | call i => exact Option.some.inj hs ▸ hi.call i
  | check status => exact Option.some.inj hs ▸ hi.checkStatus status
  | subscribe k set =>
    simp only [step] at hs
    split at hs
    · obtain rfl := Option.some.inj hs
      refine ⟨q, hi.put ?_⟩
      unfold Stream.Ok
      split
      · exact ⟨⟨q, (List.append_nil q).symm, trivial⟩, rfl, .nil, fun _ hx => (nomatch hx)⟩
      · rfl
    · cases hs
  | count k status =>
    simp only [step] at hs
    obtain ⟨q', hi'⟩ := hi.checkStatus status
    generalize w.checkStatus status = v at hs hi'
    split at hs
    next set queue sent hk =>
      obtain rfl := Option.some.inj hs
      refine ⟨q', hi'.put ?_⟩
      have ok := hi'.streams k _ hk
      unfold Stream.Ok at ok ⊢
      dsimp only at ok ⊢
      split at ok
      next hset =>
        rw [if_pos hset]
        obtain ⟨a, ha, -⟩ := ok.behind
        have hnow : v.pos = (p.after a).after queue := by
          rw [hi'.now, ha, after_append]
        exact ⟨⟨a, ha, queue, [], (List.append_nil _).symm, congrArg Pos.status hnow.symm,
          congrArg Pos.changes hnow.symm⟩, ok.last, ok.rising, ok.told⟩
      next hset =>
        rw [if_neg hset]
        exact ok
    · cases hs
  | snapshot k =>
    simp only [step] at hs
    split at hs
    next set queue status changes sent hk =>
      obtain rfl := Option.some.inj hs
      refine ⟨q, hi.put ?_⟩
      have ok := hi.streams k _ hk
      cases set with
      | true => exact Asked.snapshot hi ok (hu _ hk rfl status changes rfl)
      | false => exact ok
    · cases hs
  | first k =>
    simp only [step] at hs
    split at hs
    next set queue view sent hk =>
      obtain rfl := Option.some.inj hs
      refine ⟨q, hi.put ?_⟩
      have ok := hi.streams k _ hk
      cases set with
      | true =>
        have ok : Asked p q ⟨true, queue, .viewing view, sent⟩ := ok
        obtain ⟨a, ha, d, r, hd, hv⟩ := ok.behind
        obtain ⟨rfl, hnone⟩ := ok.last
        exact Asked.send ha hd hv .nil (fun _ hx => (nomatch hx)) (fun _ hx => (nomatch hx))
          (by rw [hnone]; rfl)
      | false =>
        show sent ++ [] = []
        rw [List.append_nil]
        exact ok
    · cases hs
  | relay k =>
    simp only [step] at hs
    split at hs
    next set e queue view sent hk =>
      obtain rfl := Option.some.inj hs
      refine ⟨q, hi.put ?_⟩
      have ok := hi.streams k _ hk
      cases set with
      | true => exact Asked.relay hi.ordered ok
      | false =>
        show sent ++ (render false view e).2.toList = []
        rw [relay_quiet, Option.toList_none, List.append_nil]
        exact ok
    · cases hs

theorem Started.inv (h : Started split w) : Inv w.pos [] w where
  ordered := trivial
  now := rfl
  streams k s hs := by
    rw [h.quiet k] at hs
    cases hs

theorem run_inv {w₀ : World} {es : List Event} (h : Started split w₀)
    (hu : (feed split).Meets Unraced w₀ es) (hr : (feed split).run w₀ es = some w) :
    ∃ p q, Inv p q w := by
  refine (feed split).run_invariant_of (C := Unraced) (P := fun w => ∃ p q, Inv p q w) ?_ hu
    ⟨_, _, h.inv⟩ hr
  rintro w e w' hu ⟨p, q, hi⟩ hs
  obtain ⟨q', hi'⟩ := step_inv hi hu hs
  exact ⟨p, q', hi'⟩

/-! ## What the clients see -/

/-- What a client can count on. -/
structure Agree (w : World) : Prop where
  /-- On each stream the numbers rise. -/
  rising : ∀ k s, w.streams k = some s → s.sent.Pairwise (fun x y => x.seq < y.seq)
  /-- Once all was delivered, the last event is what is in force. -/
  current : ∀ k s v, w.streams k = some s → s.set = true → s.queue = [] →
    s.phase = .relaying v →
    s.sent.getLast? = some (stateEventWith w.reader.shown (w.reader.shown.seq + w.changes) w.status)
  /-- A number stands for one content, on every stream. -/
  same : ∀ j k s t, w.streams j = some s → w.streams k = some t →
    ∀ x ∈ s.sent, ∀ y ∈ t.sent, x.seq = y.seq → x = y

theorem Stream.Ok.told (h : s.Ok p q) {x : WireEvent} (hx : x ∈ s.sent) :
    ∃ a b, q = a ++ b ∧ x = (p.after a).wire := by
  unfold Stream.Ok at h
  split at h
  · exact h.told x hx
  · rw [h] at hx
    cases hx

/-- A stream that has caught up shows what the reader shows. -/
theorem Inv.agree (hi : Inv p q w) : Agree w where
  rising k s hk := by
    have ok := hi.streams k s hk
    unfold Stream.Ok at ok
    split at ok
    · exact ok.rising
    · rw [ok]
      exact .nil
  current k s v hk hset hempty hphase := by
    have ok := hi.streams k s hk
    unfold Stream.Ok at ok
    rw [if_pos hset] at ok
    obtain ⟨a, ha, halong⟩ := ok.behind
    have hlast := ok.last
    rw [hphase] at halong hlast
    obtain ⟨d, r, hd, hv⟩ := halong
    rw [hempty] at hd ha
    obtain ⟨rfl, rfl⟩ := List.append_eq_nil_iff.mp hd.symm
    rw [List.append_nil] at ha
    rw [hlast.2, hv, ← ha]
    show some (p.after q).wire = some w.pos.wire
    rw [hi.now]
  same j k s t hj hk x hx y hy hxy := by
    obtain ⟨a, b, hab, rfl⟩ := (hi.streams j s hj).told hx
    obtain ⟨c, d, hcd, rfl⟩ := (hi.streams k t hk).told hy
    -- the number is how far along the list the position is
    have hlen : a.length = c.length := by
      have ha := (ordered_append.mp (hab ▸ hi.ordered)).1.total
      have hc := (ordered_append.mp (hcd ▸ hi.ordered)).1.total
      rw [wire_seq, wire_seq, ha, hc] at hxy
      omega
    have heq : a = c := (List.append_inj (hab.symm.trans hcd) hlen).1
    rw [heq]

/-- **The streams agree** in every run in which each new stream's two reads belong
together. -/
theorem streams_agree {w₀ : World} {es : List Event} (h : Started split w₀)
    (hu : (feed split).Meets Unraced w₀ es) (hr : (feed split).run w₀ es = some w) : Agree w := by
  obtain ⟨p, q, hi⟩ := run_inv h hu hr
  exact hi.agree

/-! ## A race -/

/-- Every text is one chunk. -/
def whole : Chunking → Text → List Text := fun _ t => [t]

/-- An idle reader, its engine ready. -/
def fresh : World := ⟨Reader.new, .allReady, 0, fun _ => none⟩

theorem fresh_started : Started whole fresh := ⟨⟨[], rfl⟩, fun _ => rfl⟩

/-- The engine starts to download its model. -/
def downloading : EngineStatus := ⟨.downloading, some (0, 100), none, none, none⟩

/-- Stream 0 is there when stream 1 reads the status; then the status changes, then the
reader is muted, and only then stream 1 reads the state. -/
def race : List Event :=
  [.subscribe 0 true, .count 0 .allReady, .snapshot 0, .first 0,
    .subscribe 1 true, .count 1 .allReady, .check downloading, .call (.control .mute),
    .snapshot 1, .first 1, .relay 0]

/-- Both send number 1: the download of an unmuted reader, and a muted one that is ready. -/
theorem streams_race : ∃ w, (feed whole).run fresh race = some w ∧ ¬Agree w := by
  refine ⟨_, rfl, fun h => ?_⟩
  have hxy := h.same 0 1 _ _ rfl rfl
    (stateEventWith Reader.new.shown 1 downloading)
      (List.mem_cons_of_mem _ (List.mem_singleton.mpr rfl))
    (stateEventWith (Reader.new.control .mute).r.shown 1 .allReady) (List.mem_singleton.mpr rfl) rfl
  have hmuted := congrArg WireEvent.muted hxy
  cases hmuted

/-- The reader is muted while stream 0 subscribes, and the status stays. -/
def joined : List Event :=
  [.subscribe 0 true, .count 0 .allReady, .call (.control .mute), .snapshot 0]

/-- A stream that joined while something was told agrees in the end. -/
theorem streams_agree_joined : ∃ w, (feed whole).run fresh joined = some w ∧ Agree w := by
  have hm : (feed whole).Meets Unraced fresh joined := by
    refine ⟨trivial, fun _ h => ?_⟩
    obtain rfl := Option.some.inj h
    refine ⟨trivial, fun _ h => ?_⟩
    obtain rfl := Option.some.inj h
    refine ⟨trivial, fun _ h => ?_⟩
    obtain rfl := Option.some.inj h
    refine ⟨fun s hs _ status changes hp a status' changes' b hq => ?_, fun _ _ => trivial⟩
    -- the queue holds one entry, a state
    obtain rfl := Option.some.inj hs
    cases a with
    | nil => cases hq
    | cons x a => exact absurd (List.cons.inj hq).2 (by simp)
  exact ⟨_, rfl, streams_agree fresh_started hm rfl⟩

end Sonara.Events
