import Sonara.L1.Lifecycle

/-!
# Synthesis and prefetch

An engine is billed for each request, so a chunk is synthesized once in a whole
run, although navigation goes back and forth and `requested` forgets the items
that ended. It works because ids never repeat: for a live item `requested` and
the history agree (`Synths.agree`), and an ended one is never named again.

`Window` is what `finish` re-establishes at the end of a call: the chunks in the
lookahead window behind the loaded one are requested.
-/

namespace Sonara.L1

open Sonara (Text)

/-- The pair a `Synthesize` is for. -/
def Effect.pair? : Effect → Option (ItemId × Nat)
  | .synthesize n k _ => some (n, k)
  | _ => none

/-- The pairs synthesized in `h`, in order. -/
def synthesized (h : List Effect) : List (ItemId × Nat) := h.filterMap Effect.pair?

theorem mem_synthesized {h : List Effect} {n : ItemId} {k : Nat} :
    (n, k) ∈ synthesized h ↔ ∃ t, .synthesize n k t ∈ h := by
  rw [synthesized, List.mem_filterMap]
  constructor
  · rintro ⟨e, he, hp⟩
    cases e with
    | synthesize m j t =>
      obtain ⟨rfl, rfl⟩ := Prod.mk.inj (Option.some.inj hp)
      exact ⟨t, he⟩
    | _ => cases hp
  · rintro ⟨t, ht⟩
    exact ⟨_, ht, rfl⟩

theorem synthesized_append (h es : List Effect) :
    synthesized (h ++ es) = synthesized h ++ synthesized es :=
  List.filterMap_append ..

/-- Effects that neither synthesize nor play. -/
def Effect.Idle (e : Effect) : Prop := e.pair? = none ∧ ∀ n k g, e ≠ .playChunk n k g

theorem synthesized_append_idle (h : List Effect) {es : List Effect} (he : ∀ e ∈ es, e.Idle) :
    synthesized (h ++ es) = synthesized h := by
  rw [synthesized_append, show synthesized es = [] from
    List.filterMap_eq_nil_iff.mpr (fun e hm => (he e hm).1), List.append_nil]

/-- Every `PlayChunk` of `h` comes after a `Synthesize` for its pair. -/
def Served (h : List Effect) : Prop :=
  ∀ a n k g b, h = a ++ .playChunk n k g :: b → (n, k) ∈ synthesized a

/-- The requests of a reader and the synthesis effects so far. -/
structure Synths (r : Reader) (h : List Effect) : Prop where
  once : (synthesized h).Nodup
  live : ∀ p ∈ r.requested, p.1 ∈ r.ids
  agree : ∀ n ∈ r.ids, ∀ k, (n, k) ∈ r.requested ↔ (n, k) ∈ synthesized h
  text : ∀ it ∈ r.live, ∀ k t, .synthesize it.id k t ∈ h → it.chunks[k]? = some t
  served : Served h

namespace Synths

variable {r r' : Reader} {h es : List Effect}

/-- One more effect that plays only what was synthesized. -/
theorem served_snoc {e : Effect} (S : Served h)
    (he : ∀ n k g, e = .playChunk n k g → (n, k) ∈ synthesized h) : Served (h ++ [e]) := by
  intro a n k g b heq
  rcases List.eq_nil_or_concat b with rfl | ⟨b', x, rfl⟩
  · obtain ⟨rfl, hx⟩ := List.append_inj' heq rfl
    exact he n k g (List.cons.inj hx).1
  · have heq' : h ++ [e] = (a ++ .playChunk n k g :: b') ++ [x] := by
      rw [heq]
      simp
    obtain ⟨hh, -⟩ := List.append_inj' heq' rfl
    exact S a n k g b' hh

theorem served_idle (S : Served h) (he : ∀ e ∈ es, e.Idle) : Served (h ++ es) := by
  induction es generalizing h with
  | nil => rwa [List.append_nil]
  | cons e es ih =>
    have hfirst : Served (h ++ [e]) :=
      served_snoc S (fun n k g heq => absurd heq ((he e (List.mem_cons_self ..)).2 n k g))
    have := ih hfirst (fun e' hm => he e' (List.mem_cons_of_mem _ hm))
    rwa [List.append_assoc] at this

/-- Idle effects on a reader with the same live items and requests. -/
theorem frame (S : Synths r h) (live : r'.live = r.live) (requested : r'.requested = r.requested)
    (idle : ∀ e ∈ es, e.Idle) : Synths r' (h ++ es) := by
  have hids : r'.ids = r.ids := by rw [Reader.ids, Reader.ids, live]
  have hsyn := synthesized_append_idle h idle
  refine ⟨hsyn ▸ S.once, fun p hp => hids ▸ S.live p (requested ▸ hp), fun n hn k => ?_,
    fun it hit k t hm => ?_, served_idle S.served idle⟩
  · rw [hsyn, requested]
    exact S.agree n (hids ▸ hn) k
  · refine S.text it (live ▸ hit) k t ((List.mem_append.mp hm).resolve_right (fun hm => ?_))
    cases (idle _ hm).1

/-- An item leaves and its requests are forgotten. -/
theorem leave (S : Synths r h) {n : ItemId} (nodup : r.ids.Nodup)
    (live : ∃ it, it.id = n ∧ r.live.Perm (it :: r'.live))
    (requested : r'.requested = r.requested.filter (fun p => p.1 ≠ n))
    (idle : ∀ e ∈ es, e.Idle) : Synths r' (h ++ es) := by
  obtain ⟨it, hit, hperm⟩ := live
  have hids : r.ids.Perm (n :: r'.ids) := by
    have := hperm.map (·.id)
    rwa [List.map_cons, hit] at this
  have hout : n ∉ r'.ids := (List.nodup_cons.mp (hids.nodup_iff.mp nodup)).1
  have hsyn := synthesized_append_idle h idle
  refine ⟨hsyn ▸ S.once, fun p hp => ?_, fun m hm k => ?_, fun it' hit' k t hm => ?_,
    served_idle S.served idle⟩
  · rw [requested, Finset.mem_filter] at hp
    have hne : p.1 ≠ n := by simpa using hp.2
    exact (List.mem_cons.mp (hids.mem_iff.mp (S.live p hp.1))).resolve_left hne
  · have hne : m ≠ n := fun he => hout (he ▸ hm)
    rw [hsyn, requested, Finset.mem_filter]
    exact ⟨fun hp => (S.agree m (hids.mem_iff.mpr (List.mem_cons_of_mem _ hm)) k).mp hp.1,
      fun hp => ⟨(S.agree m (hids.mem_iff.mpr (List.mem_cons_of_mem _ hm)) k).mpr
        hp, by simpa using hne⟩⟩
  · refine S.text it' (hperm.mem_iff.mpr (List.mem_cons_of_mem _ hit')) k t
      ((List.mem_append.mp hm).resolve_right (fun hm => ?_))
    cases (idle _ hm).1

/-- An item joins under an id no effect names. -/
theorem admitted (S : Synths r h) (L : Ledger r h) {it : Item} (id : it.id = r.nextId)
    (live : r'.live.Perm (it :: r.live)) (requested : r'.requested = r.requested) :
    Synths r' h := by
  have hids : r'.ids.Perm (it.id :: r.ids) := List.Perm.map Item.id live
  have hnew : ∀ k t, .synthesize it.id k t ∉ h := fun k t hm =>
    absurd (L.named _ hm _ rfl).2 (by rw [id]; exact Nat.lt_irrefl _)
  refine ⟨S.once, fun p hp => ?_, fun n hn k => ?_, fun it' hit' k t hm => ?_, S.served⟩
  · exact hids.mem_iff.mpr (List.mem_cons_of_mem _ (S.live p (requested ▸ hp)))
  · rw [requested]
    rcases List.mem_cons.mp (hids.mem_iff.mp hn) with rfl | hn
    · refine ⟨fun hp => ?_, fun hp => ?_⟩
      · exact absurd (L.live _ (S.live _ hp)).2 (by dsimp only; rw [id]; exact Nat.lt_irrefl _)
      · obtain ⟨t, ht⟩ := mem_synthesized.mp hp
        exact absurd ht (hnew k t)
    · exact S.agree n hn k
  · rcases List.mem_cons.mp (live.mem_iff.mp hit') with rfl | hit'
    · exact absurd hm (hnew k t)
    · exact S.text it' hit' k t hm

/-- A chunk of a live item is synthesized for the first time. -/
theorem request (S : Synths r h) (nodup : r.ids.Nodup) {it : Item} {i : Nat} {t : Text}
    (live : it ∈ r.live) (chunk : it.chunks[i]? = some t) (fresh : (it.id, i) ∉ r.requested) :
    Synths { r with requested := insert (it.id, i) r.requested }
      (h ++ [.synthesize it.id i t]) := by
  have hid : it.id ∈ r.ids := List.mem_map_of_mem live
  have hsyn : synthesized (h ++ [.synthesize it.id i t]) = synthesized h ++ [(it.id, i)] :=
    synthesized_append ..
  refine ⟨?_, fun p hp => ?_, fun n hn k => ?_, fun it' hit' k t' hm => ?_,
    served_snoc S.served (fun _ _ _ he => (nomatch he))⟩
  · rw [hsyn]
    have hnew : (it.id, i) ∉ synthesized h := fun hm => fresh ((S.agree _ hid i).mpr hm)
    exact List.nodup_append.mpr ⟨S.once, List.nodup_singleton _, fun a ha b hb he =>
      hnew (by rw [← List.mem_singleton.mp hb, ← he]; exact ha)⟩
  · rcases Finset.mem_insert.mp hp with rfl | hp
    · exact hid
    · exact S.live p hp
  · rw [hsyn, Finset.mem_insert, List.mem_append, List.mem_singleton, or_comm]
    exact or_congr_left (S.agree n hn k)
  · rcases List.mem_append.mp hm with hm | hm
    · exact S.text it' hit' k t' hm
    · obtain ⟨hn, rfl, rfl⟩ : it'.id = it.id ∧ k = i ∧ t' = t := by simpa using hm
      rw [List.inj_on_of_nodup_map nodup hit' live hn]
      exact chunk

/-- A requested chunk is played. -/
theorem play (S : Synths r h) {cur : Current} (current : r.current = some cur) (g : Nat)
    (requested : (cur.item.id, cur.chunk) ∈ r.requested) (live : r'.live = r.live)
    (same : r'.requested = r.requested) :
    Synths r' (h ++ [.playChunk cur.item.id cur.chunk g]) := by
  have hids : r'.ids = r.ids := by rw [Reader.ids, Reader.ids, live]
  have hsyn : synthesized (h ++ [.playChunk cur.item.id cur.chunk g]) = synthesized h := by
    rw [synthesized_append]
    exact List.append_nil _
  refine ⟨hsyn ▸ S.once, fun p hp => hids ▸ S.live p (same ▸ hp), fun n hn k => ?_,
    fun it hit k t hm => ?_, served_snoc S.served (fun n k g' he => ?_)⟩
  · rw [hsyn, same]
    exact S.agree n (hids ▸ hn) k
  · rcases List.mem_append.mp hm with hm | hm
    · exact S.text it (live ▸ hit) k t hm
    · cases List.mem_singleton.mp hm
  · obtain ⟨rfl, rfl, -⟩ := Effect.playChunk.inj he
    exact (S.agree _ (Ledger.mem_ids_current current) _).mp requested

end Synths

variable {fin : Current → ItemPhase → Prop} {c c' : Call} {h : List Effect}

theorem Effect.Silent.idle {e : Effect} (hs : e.Silent) : e.Idle := by
  cases e with
  | synthesize n k t => exact hs.elim
  | playChunk n k g => exact hs.elim
  | _ => exact ⟨rfl, nofun⟩

/-- **Every atom keeps the synthesis account.** -/
theorem Atom.synths (a : Atom fin c c') (L : Ledger c.r (h ++ c.fx))
    (S : Synths c.r (h ++ c.fx)) : Synths c'.r (h ++ c'.fx) := by
  have still : ∀ {r' : Reader}, r'.live = c.r.live → r'.requested = c.r.requested →
      Synths r' (h ++ c.fx) := by
    intro r' hl hr
    have S' : Synths r' (h ++ c.fx ++ []) := S.frame hl hr (fun e he => absurd he List.not_mem_nil)
    rwa [List.append_nil] at S'
  have idle : ∀ {r' : Reader} {es : List Effect}, r'.live = c.r.live →
      r'.requested = c.r.requested → (∀ e ∈ es, e.Idle) → Synths r' (h ++ (c.fx ++ es)) := by
    intro r' es hl hr he
    rw [← List.append_assoc]
    exact S.frame hl hr he
  cases a with
  | view same silent =>
    refine idle ?_ same.requested (fun e he => (silent e he).idle)
    rw [Reader.live, Reader.live, same.current, same.queue]
  | flag => exact still rfl rfl
  | pauseOutput => exact idle rfl rfl (by simp [Effect.Idle, Effect.pair?])
  | resumeOutput => exact idle rfl rfl (by simp [Effect.Idle, Effect.pair?])
  | stopOutput => exact idle rfl rfl (by simp [Effect.Idle, Effect.pair?])
  | @retire cur phase quiet unloaded current =>
    show Synths _ (h ++ (c.fx ++ _))
    rw [← List.append_assoc]
    refine S.leave L.nodup ⟨cur.item, rfl, ?_⟩ rfl (by simp [Effect.Idle, Effect.pair?])
    rw [Ledger.live_eq_cons current]
    exact .refl _
  | @dropFront it rest queue =>
    show Synths _ (h ++ (c.fx ++ _))
    rw [← List.append_assoc]
    refine S.leave L.nodup ⟨it, rfl, ?_⟩ rfl (by simp [Effect.Idle, Effect.pair?])
    rw [Reader.live, queue]
    exact List.perm_middle
  | refuse => exact idle rfl rfl (by simp [Effect.Idle, Effect.pair?])
  | @admitBack it id chunks =>
    refine S.admitted L id ?_ rfl
    show (c.r.current.toList.map (·.item) ++ (c.r.queue ++ [it])).Perm (it :: c.r.live)
    rw [← List.append_assoc]
    exact List.perm_append_singleton ..
  | @admitFront it id chunks => exact S.admitted L id List.perm_middle rfl
  | @start it rest isIdle unloaded queue =>
    refine idle ?_ rfl (by simp [Effect.Idle, Effect.pair?])
    rw [Ledger.live_eq_queue isIdle, queue]
    rfl
  | @request it i t live chunk fresh =>
    show Synths _ (h ++ (c.fx ++ _))
    rw [← List.append_assoc]
    exact S.request L.nodup live chunk fresh
  | @play cur unloaded unpaused current requested =>
    show Synths _ (h ++ (c.fx ++ _))
    rw [← List.append_assoc]
    exact S.play current _ requested rfl rfl
  | @moveChunk cur i quiet unloaded current inRange =>
    refine still ?_ rfl
    rw [Ledger.live_eq_cons current]
    rfl

variable (split : Chunking → Text → List Text)

theorem SameItems.live {r r' : Reader} (e : SameItems r r') : r'.live = r.live := by
  have hc : r'.current.map (·.item) = r.current.map (·.item) := by
    have := congrArg (Option.map Prod.fst) e.current
    rwa [Option.map_map, Option.map_map] at this
  rw [Reader.live, Reader.live, ← Option.toList_map, ← Option.toList_map, hc, e.queue]

theorem enter_requested (r : Reader) (i : Input) : (r.enter i).requested = r.requested := by
  cases i with
  | onAudio e =>
    show (if r.loaded = some e.gen then r.hear e else r).requested = r.requested
    split
    · cases e <;> rfl
    · rfl
  | _ => rfl

/-- **The synthesis account of every run.** -/
theorem state_synths (is : List Input) :
    Synths ((machine split).state is) ((machine split).out is) := by
  refine (machine split).run_induction (P := fun _ r h => Synths r h) ?_ (fun is i S => ?_) is
  · exact ⟨List.nodup_nil, fun p hp => absurd hp (Finset.notMem_empty p),
      fun n hn => absurd hn List.not_mem_nil,
      fun _ hi => absurd hi List.not_mem_nil, fun a n k g b he => absurd he (by simp)⟩
  · have L := (state_ledger split is).1
    have e := enter_same ((machine split).state is) i
    have hpath := call_path split (state_inRange split is) (state_settled split is) i
    have hinit : Ledger (((machine split).state is).enter i) ((machine split).out is ++ []) ∧
        Synths (((machine split).state is).enter i) ((machine split).out is ++ []) :=
      ⟨by rw [List.append_nil]; exact e.ledger L,
        S.frame e.live (enter_requested _ i) (fun e he => absurd he List.not_mem_nil)⟩
    exact (hpath.invariant
      (P := fun c => Ledger c.r ((machine split).out is ++ c.fx) ∧
        Synths c.r ((machine split).out is ++ c.fx))
      (fun a hi => ⟨a.ledger hi.1, a.synths hi.1 hi.2⟩) hinit).2

/-! ## The lookahead window -/

/-- The `lookahead` chunks after the loaded one are requested. -/
def Window (r : Reader) : Prop :=
  ∀ cur, r.loaded.isSome → r.current = some cur →
    ∀ e ∈ (Call.ahead r cur).take r.lookahead, (e.1, e.2.1) ∈ r.requested

namespace Call

/-- A sequence of requests leaves each of them requested. -/
theorem requests_mem (l : List (ItemId × Nat × Text)) (c : Call) {e : ItemId × Nat × Text}
    (he : e ∈ l) :
    (e.1, e.2.1) ∈ (l.foldl (fun c (id, chunk, text) => c.request id chunk text)
      c).r.requested := by
  induction l generalizing c with
  | nil => exact absurd he List.not_mem_nil
  | cons f l ih =>
    rcases List.mem_cons.mp he with rfl | he
    · obtain ⟨q, hsub, hq⟩ := requests_r l (c.request e.1 e.2.1 e.2.2)
      rw [List.foldl_cons, hq]
      refine hsub ?_
      rw [request_r]
      exact Finset.mem_insert_self _ _
    · exact ih _ he

theorem prefetch_window (c : Call) : Window c.prefetch.r := by
  intro cur hl hc e he
  obtain ⟨q, -, hr⟩ := c.prefetch_r
  rw [hr] at hl hc he
  obtain ⟨g, hg⟩ := Option.isSome_iff_exists.mp hl
  have hcall : c.prefetch = ((ahead c.r cur).take c.r.lookahead).foldl
      (fun c (id, chunk, text) => c.request id chunk text) c := by
    unfold prefetch
    rw [show c.r.loaded = some g from hg, show c.r.current = some cur from hc]
  rw [hcall]
  exact requests_mem _ c he

theorem finish_window (c : Call) : Window c.finish.r := by
  have hw := c.prefetch_window
  unfold finish
  dsimp only
  split
  · exact hw
  · exact hw

end Call

/-- Every call keeps the requests within the window ahead. -/
theorem call_window {r : Reader} (h : Window r) (i : Input) : Window (r.call split i).r := by
  cases i with
  | speak text mode interrupt label =>
    show Window (r.speak split text mode interrupt label).2.r
    unfold Reader.speak
    dsimp only
    split
    · exact h
    · exact Call.finish_window _
  | control k => exact Call.finish_window _
  | onAudio e =>
    show Window (r.onAudio e).r
    unfold Reader.onAudio
    split
    · exact h
    · split <;> exact Call.finish_window _
  | _ => exact Call.finish_window _

theorem state_window (is : List Input) : Window ((machine split).state is) :=
  (machine split).run_induction (P := fun _ r _ => Window r) (fun _ hl => (nomatch hl))
    (fun _ i h => call_window split h i) is

/-- Synthesis and prefetch after a run. -/
structure Prefetched (is : List Input) : Prop where
  /-- No pair is synthesized twice. -/
  once : (synthesized ((machine split).out is)).Nodup
  /-- A chunk is played after its own text was synthesized. -/
  played : ∀ i a n k g b, (machine split).answer is i = a ++ .playChunk n k g :: b →
    ∃ cur t, ((machine split).state (is ++ [i])).current = some cur ∧ cur.item.id = n ∧
      cur.item.chunks[k]? = some t ∧ .synthesize n k t ∈ (machine split).out is ++ a
  requested : ∀ p ∈ ((machine split).state is).requested,
    ∃ it ∈ ((machine split).state is).live, it.id = p.1
  /-- The window behind the loaded chunk was synthesized, each chunk with its text. -/
  window : ∀ cur, ((machine split).state is).loaded.isSome →
    ((machine split).state is).current = some cur →
    ∀ e ∈ (Call.ahead ((machine split).state is) cur).take ((machine split).state is).lookahead,
      (e.1, e.2.1) ∈ ((machine split).state is).requested ∧
        .synthesize e.1 e.2.1 e.2.2 ∈ (machine split).out is

/-- **Synthesis and prefetch, in every run.** -/
theorem prefetched (is : List Input) : Prefetched split is := by
  have S := state_synths split is
  refine ⟨S.once, fun i a n k g b he => ?_, fun p hp => ?_, fun cur hl hc e he => ?_⟩
  · have S' := state_synths split (is ++ [i])
    have hopen : Opened ⟨(machine split).state (is ++ [i]), (machine split).answer is i⟩ := by
      rw [Lib.Machine.state_snoc]
      exact (call_path split (state_inRange split is) (state_settled split is) i).opened
        (opened_nil _)
    have hmem : .playChunk n k g ∈ (machine split).answer is i := by
      rw [he]
      exact List.mem_append_right _ (List.mem_cons_self ..)
    obtain ⟨-, -, cur, hcur, hid, hk⟩ := hopen.played n k g hmem
    have hout : (machine split).out (is ++ [i])
        = ((machine split).out is ++ a) ++ .playChunk n k g :: b := by
      rw [Lib.Machine.out_snoc, he, List.append_assoc]
    obtain ⟨t, ht⟩ := mem_synthesized.mp (S'.served _ n k g b hout)
    refine ⟨cur, t, hcur, hid, S'.text cur.item (Reader.mem_live_current hcur) k t ?_, ht⟩
    rw [hid, hout]
    exact List.mem_append_left _ ht
  · exact List.mem_map.mp (S.live p hp)
  · have hreq := state_window split is cur hl hc e he
    obtain ⟨it, hlive, hid, hchunk⟩ := Call.ahead_live hc (List.mem_of_mem_take he)
    obtain ⟨t, ht⟩ := mem_synthesized.mp ((S.agree _ (S.live _ hreq) _).mp hreq)
    have htext := S.text it hlive e.2.1 t (by rw [hid]; exact ht)
    obtain rfl := Option.some.inj (hchunk.symm.trans htext)
    exact ⟨hreq, ht⟩

end Sonara.L1
