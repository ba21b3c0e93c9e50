import Sonara.L1.Reader
import Mathlib.Logic.Relation

/-!
# What one call of the reader can do

Every method of the reader is a sequence of a dozen *atoms*: an item is admitted
or refused, dropped from the queue, started, retired; a chunk is requested, moved
to, played; the output is paused, resumed or stopped. `Atom` lists them with the
guards under which the code performs them, and `call_path` shows that each call,
from a reader whose indices are in range, is a path of atoms.

So an invariant of the reader is proved atom by atom, once, and holds of every
call. Two guards carry information the code never writes down:

* `Quiet`: what ends, moves or stops something happens *before* the call starts
  an item or plays a chunk. A call therefore starts at most one item and plays at
  most one chunk, the ones it leaves current and loaded.
* `fin`: the ways the current item may be retired in this call. Only `advance`
  retires with `Finished` or `Failed`.
-/

namespace Sonara.L1

open Sonara (Text)
open Sonara.CodeSpeech (CodeKind)
open Relation (ReflTransGen)

/-- The items that are current or queued. -/
def Reader.live (r : Reader) : List Item := r.current.toList.map (·.item) ++ r.queue

/-- Effects that open something: an item becomes current or a chunk is played. -/
def Effect.Opens : Effect → Prop
  | .emit (.item _ .started) => True
  | .playChunk _ _ _ => True
  | _ => False

/-- Effects about no item and not for the output's transport. -/
def Effect.Silent : Effect → Prop
  | .mute | .unmute | .setVolume _ | .emit (.state _) => True
  | _ => False

/-- Nothing was opened so far in this call. -/
def Call.Quiet (c : Call) : Prop := ∀ e ∈ c.fx, ¬e.Opens

/-- The readers differ in what no guard reads (settings, the shown state,
`released`, `stepWait`); Restart's item stays or goes. -/
structure SameCore (r r' : Reader) : Prop where
  nextId : r'.nextId = r.nextId
  gen : r'.gen = r.gen
  current : r'.current = r.current
  queue : r'.queue = r.queue
  last : r'.last = r.last ∨ r'.last = none
  paused : r'.paused = r.paused
  loaded : r'.loaded = r.loaded
  requested : r'.requested = r.requested

/-- One indivisible change of a call in progress. -/
inductive Atom (fin : Current → ItemPhase → Prop) : Call → Call → Prop
  /-- Settings, `released`, the state event. -/
  | view {c : Call} {r' : Reader} {es : List Effect} (same : SameCore c.r r')
      (silent : ∀ e ∈ es, e.Silent) : Atom fin c ⟨r', c.fx ++ es⟩
  /-- The pause flag moves freely while nothing is loaded. -/
  | flag {c : Call} (p w : Bool) (unloaded : c.r.loaded = none) :
      Atom fin c ⟨{ c.r with paused := p, stepWait := w }, c.fx⟩
  | pauseOutput {c : Call} (quiet : c.Quiet) (loaded : c.r.loaded.isSome)
      (playing : c.r.paused = false) :
      Atom fin c ⟨{ c.r with paused := true }, c.fx ++ [.pauseOutput]⟩
  | resumeOutput {c : Call} (quiet : c.Quiet) (loaded : c.r.loaded.isSome)
      (paused : c.r.paused = true) :
      Atom fin c ⟨{ c.r with paused := false, stepWait := false }, c.fx ++ [.resumeOutput]⟩
  | stopOutput {c : Call} (quiet : c.Quiet) (loaded : c.r.loaded.isSome) :
      Atom fin c ⟨{ c.r with loaded := none }, c.fx ++ [.stopOutput]⟩
  /-- The current item ends. -/
  | retire {c : Call} {cur : Current} {phase : ItemPhase} (quiet : c.Quiet)
      (unloaded : c.r.loaded = none) (current : c.r.current = some cur)
      (final : phase.Final) (allowed : fin cur phase) :
      Atom fin c
        ⟨{ c.r with
            current := none
            requested := c.r.requested.filter (fun p => p.1 ≠ cur.item.id)
            last := some cur.item },
          c.fx ++ [.emit (.item cur.item.id phase)]⟩
  /-- The front of the queue is dropped unread. -/
  | dropFront {c : Call} {it : Item} {rest : List Item} (queue : c.r.queue = it :: rest) :
      Atom fin c
        ⟨{ c.r with
            queue := rest
            requested := c.r.requested.filter (fun p => p.1 ≠ it.id) },
          c.fx ++ [.emit (.item it.id .skipped)]⟩
  /-- A text with nothing to speak gets an id and is skipped. -/
  | refuse {c : Call} :
      Atom fin c ⟨{ c.r with nextId := c.r.nextId + 1 },
        c.fx ++ [.emit (.item c.r.nextId .skipped)]⟩
  | admitBack {c : Call} {it : Item} (id : it.id = c.r.nextId) (chunks : it.chunks ≠ []) :
      Atom fin c ⟨{ c.r with nextId := c.r.nextId + 1, queue := c.r.queue ++ [it] }, c.fx⟩
  | admitFront {c : Call} {it : Item} (id : it.id = c.r.nextId) (chunks : it.chunks ≠ []) :
      Atom fin c ⟨{ c.r with nextId := c.r.nextId + 1, queue := it :: c.r.queue }, c.fx⟩
  /-- The front of the queue becomes current. -/
  | start {c : Call} {it : Item} {rest : List Item} (idle : c.r.current = none)
      (unloaded : c.r.loaded = none) (queue : c.r.queue = it :: rest) :
      Atom fin c
        ⟨{ c.r with
            queue := rest
            released := false
            current := some { item := it, chunk := 0, playedAny := false } },
          c.fx ++ [.emit (.item it.id .started)]⟩
  /-- A chunk of a live item is synthesized for the first time. -/
  | request {c : Call} {it : Item} {i : Nat} {t : Text} (live : it ∈ c.r.live)
      (chunk : it.chunks[i]? = some t) (fresh : (it.id, i) ∉ c.r.requested) :
      Atom fin c
        ⟨{ c.r with requested := insert (it.id, i) c.r.requested },
          c.fx ++ [.synthesize it.id i t]⟩
  | play {c : Call} {cur : Current} (unloaded : c.r.loaded = none)
      (unpaused : c.r.paused = false) (current : c.r.current = some cur)
      (requested : (cur.item.id, cur.chunk) ∈ c.r.requested) :
      Atom fin c
        ⟨{ c.r with gen := c.r.gen + 1, loaded := some (c.r.gen + 1) },
          c.fx ++ [.playChunk cur.item.id cur.chunk (c.r.gen + 1)]⟩
  | moveChunk {c : Call} {cur : Current} {i : Nat} (quiet : c.Quiet)
      (unloaded : c.r.loaded = none) (current : c.r.current = some cur)
      (inRange : i < cur.item.chunks.length) :
      Atom fin c ⟨{ c.r with current := some { cur with chunk := i } }, c.fx⟩

/-- A sequence of atoms. -/
abbrev Path (fin : Current → ItemPhase → Prop) : Call → Call → Prop := ReflTransGen (Atom fin)

/-! ## Indices stay in range -/

/-- The chunk indices the code uses are in range. -/
structure InRange (r : Reader) : Prop where
  current : ∀ cur, r.current = some cur → cur.chunk < cur.item.chunks.length
  queue : ∀ it ∈ r.queue, it.chunks ≠ []
  last : ∀ it, r.last = some it → it.chunks ≠ []

variable {fin : Current → ItemPhase → Prop} {c c' : Call}

/-- Every atom keeps the chunk and the load within the item. -/
theorem Atom.inRange (a : Atom fin c c') (h : InRange c.r) : InRange c'.r := by
  obtain ⟨hcur, hq, hlast⟩ := h
  cases a with
  | view same silent =>
    refine ⟨fun cur hc => hcur cur (same.current ▸ hc), fun it hi => hq it (same.queue ▸ hi), ?_⟩
    intro it hit
    rcases same.last with hl | hl
    · exact hlast it (hl ▸ hit)
    · rw [hl] at hit; cases hit
  | flag => exact ⟨hcur, hq, hlast⟩
  | pauseOutput => exact ⟨hcur, hq, hlast⟩
  | resumeOutput => exact ⟨hcur, hq, hlast⟩
  | stopOutput => exact ⟨hcur, hq, hlast⟩
  | @retire cur phase _ _ current =>
    refine ⟨fun cur' hc => (nomatch hc), hq, ?_⟩
    intro it hit
    obtain rfl := Option.some.inj hit
    have hlt := hcur cur current
    exact List.ne_nil_of_length_pos (Nat.lt_of_le_of_lt (Nat.zero_le _) hlt)
  | dropFront queue => exact ⟨hcur, fun it hi => hq it (queue ▸ List.mem_cons_of_mem _ hi), hlast⟩
  | refuse => exact ⟨hcur, hq, hlast⟩
  | admitBack id chunks =>
    refine ⟨hcur, fun it' hi => ?_, hlast⟩
    rcases List.mem_append.mp hi with hi | hi
    · exact hq it' hi
    · rw [List.mem_singleton.mp hi]; exact chunks
  | admitFront id chunks =>
    refine ⟨hcur, fun it' hi => ?_, hlast⟩
    rcases List.mem_cons.mp hi with rfl | hi
    · exact chunks
    · exact hq it' hi
  | start idle unloaded queue =>
    refine ⟨?_, fun it' hi => hq it' (queue ▸ List.mem_cons_of_mem _ hi), hlast⟩
    intro cur hc
    obtain rfl := Option.some.inj hc
    exact List.length_pos_of_ne_nil (hq _ (queue ▸ List.mem_cons_self ..))
  | request => exact ⟨hcur, hq, hlast⟩
  | play => exact ⟨hcur, hq, hlast⟩
  | moveChunk quiet unloaded current inRange =>
    refine ⟨?_, hq, hlast⟩
    intro cur' hc
    obtain rfl := Option.some.inj hc
    exact inRange

theorem Path.inRange (p : Path fin c c') (h : InRange c.r) : InRange c'.r := by
  induction p with
  | refl => exact h
  | tail _ a ih => exact a.inRange ih

/-- An invariant of atoms is an invariant of paths. -/
theorem Path.invariant {P : Call → Prop} (keep : ∀ {c c' : Call}, Atom fin c c' → P c → P c')
    (p : Path fin c c') (h : P c) : P c' := by
  induction p with
  | refl => exact h
  | tail _ a ih => exact keep a ih

/-! ## What a call opens stays open -/

theorem Effect.Silent.not_opens {e : Effect} (h : e.Silent) : ¬e.Opens := by
  intro ho
  cases e with
  | emit ev =>
    cases ev with
    | state s => exact ho
    | item n p => exact h
  | playChunk n k g => exact h
  | _ => exact ho

/-- What the call in progress opened: the started item is current, the played
chunk is loaded and the reader not paused. -/
structure Opened (c : Call) : Prop where
  started : ∀ n, .emit (.item n .started) ∈ c.fx → ∃ cur, c.r.current = some cur ∧ cur.item.id = n
  played : ∀ n k g, .playChunk n k g ∈ c.fx → c.r.loaded = some g ∧ c.r.paused = false ∧
    ∃ cur, c.r.current = some cur ∧ cur.item.id = n ∧ cur.chunk = k

/-- A quiet call has opened nothing. -/
theorem Call.Quiet.opened {c : Call} (h : c.Quiet) (r : Reader) {e : Effect} (he : ¬e.Opens) :
    Opened ⟨r, c.fx ++ [e]⟩ := by
  have hq : ∀ e' ∈ c.fx ++ [e], ¬e'.Opens := by
    intro e' he'
    rcases List.mem_append.mp he' with h' | h'
    · exact h e' h'
    · rw [List.mem_singleton.mp h']; exact he
  exact ⟨fun n hn => absurd trivial (hq _ hn), fun n k g hg => absurd trivial (hq _ hg)⟩

/-- An effect that opens nothing keeps what is open, on a reader with the same
current chunk, loaded and unpaused as before. -/
theorem Opened.snoc {c : Call} (h : Opened c) {r : Reader} {es : List Effect}
    (hc : r.current = c.r.current) (hl : r.loaded = c.r.loaded) (hp : r.paused = c.r.paused)
    (he : ∀ e ∈ es, ¬e.Opens) : Opened ⟨r, c.fx ++ es⟩ := by
  refine ⟨fun n hn => ?_, fun n k g hg => ?_⟩
  · rcases List.mem_append.mp hn with hn | hn
    · rw [hc]
      exact h.started n hn
    · exact absurd trivial (he _ hn)
  · rcases List.mem_append.mp hg with hg | hg
    · rw [hc, hl, hp]
      exact h.played n k g hg
    · exact absurd trivial (he _ hg)

/-- With nothing loaded no chunk was played in this call. -/
theorem Opened.not_played {c : Call} (h : Opened c) (hl : c.r.loaded = none) {n : ItemId}
    {k g : Nat} (hg : .playChunk n k g ∈ c.fx) : False := by
  have hload := (h.played n k g hg).1
  rw [hl] at hload
  cases hload

/-- With no current item none was started in this call. -/
theorem Opened.not_started {c : Call} (h : Opened c) (hc : c.r.current = none) {n : ItemId}
    (hn : .emit (.item n .started) ∈ c.fx) : False := by
  obtain ⟨cur, hcur, _⟩ := h.started n hn
  rw [hc] at hcur
  cases hcur

/-- What a call opened stays open, or is taken back by the atom that ends it. -/
theorem Atom.opened (a : Atom fin c c') (h : Opened c) : Opened c' := by
  have keep : ∀ {r : Reader}, r.current = c.r.current → r.loaded = c.r.loaded →
      r.paused = c.r.paused → Opened ⟨r, c.fx⟩ := by
    intro r hc hl hp
    have hnil : Opened ⟨r, c.fx ++ []⟩ := h.snoc hc hl hp (fun e he => absurd he List.not_mem_nil)
    rwa [List.append_nil] at hnil
  cases a with
  | view same silent =>
    exact h.snoc same.current same.loaded same.paused (fun e he => (silent e he).not_opens)
  | flag p w unloaded =>
    exact ⟨h.started, fun n k g hg => (h.not_played unloaded hg).elim⟩
  | pauseOutput quiet => exact quiet.opened _ id
  | resumeOutput quiet => exact quiet.opened _ id
  | stopOutput quiet => exact quiet.opened _ id
  | @retire cur phase quiet unloaded current final =>
    refine quiet.opened _ (fun ho => ?_)
    cases phase with
    | started => exact final
    | _ => exact ho
  | dropFront => exact h.snoc rfl rfl rfl (by simp [Effect.Opens])
  | refuse => exact h.snoc rfl rfl rfl (by simp [Effect.Opens])
  | admitBack => exact keep rfl rfl rfl
  | admitFront => exact keep rfl rfl rfl
  | @start it rest idle unloaded queue =>
    refine ⟨fun n hn => ?_, fun n k g hg => ?_⟩
    · rcases List.mem_append.mp hn with hn | hn
      · exact (h.not_started idle hn).elim
      · obtain ⟨rfl, -⟩ : n = it.id ∧ True := by simpa using hn
        exact ⟨_, rfl, rfl⟩
    · rcases List.mem_append.mp hg with hg | hg
      · exact (h.not_played unloaded hg).elim
      · simp at hg
  | request => exact h.snoc rfl rfl rfl (by simp [Effect.Opens])
  | @play cur unloaded unpaused current requested =>
    refine ⟨fun n hn => ?_, fun n k g hg => ?_⟩
    · rcases List.mem_append.mp hn with hn | hn
      · exact h.started n hn
      · simp at hn
    · rcases List.mem_append.mp hg with hg | hg
      · exact (h.not_played unloaded hg).elim
      · obtain ⟨rfl, rfl, rfl⟩ : n = cur.item.id ∧ k = cur.chunk ∧ g = c.r.gen + 1 := by
          simpa using hg
        exact ⟨rfl, unpaused, cur, current, rfl, rfl⟩
  | moveChunk quiet =>
    exact ⟨fun n hn => absurd trivial (quiet _ hn), fun n k g hg => absurd trivial (quiet _ hg)⟩

theorem Path.opened (p : Path fin c c') (h : Opened c) : Opened c' := p.invariant Atom.opened h

theorem opened_nil (r : Reader) : Opened ⟨r, []⟩ :=
  ⟨fun _ h => absurd h List.not_mem_nil, fun _ _ _ h => absurd h List.not_mem_nil⟩

end Sonara.L1
