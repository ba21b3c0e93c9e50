import Sonara.L1.Paths

/-!
# The ledger of item ids

`phases n h` lists the phases that the effects `h` report of item `n`. The ledger
relates the reader to everything it emitted so far (`h`): the live items have
distinct ids that were handed out, a queued one has no phase yet, the current one
is `[started]`, and every other id handed out has ended, once and for all
(`Ended`). Every atom keeps the ledger, because the atoms that emit a phase are
the ones that move the item: `retire`, `dropFront`, `refuse` and `start`.

`Loads` is the same for the audio: the loaded `gen` is the one of the current
chunk's `PlayChunk`.
-/

namespace Sonara.L1

/-- The phase an effect reports of item `n`. -/
def Effect.phaseOf (n : ItemId) : Effect → Option ItemPhase
  | .emit (.item m p) => if m = n then some p else none
  | _ => none

/-- The phases that `h` reports of item `n`, in order. -/
def phases (n : ItemId) (h : List Effect) : List ItemPhase := h.filterMap (Effect.phaseOf n)

/-- Item `n` has ended in `h`: after at most one `Started` it got one final phase,
and no later effect names it. -/
def Ended (n : ItemId) (h : List Effect) : Prop :=
  ∃ a p b, h = a ++ .emit (.item n p) :: b ∧ p.Final ∧
    (phases n a = [] ∨ phases n a = [.started]) ∧ ∀ e ∈ b, e.item? ≠ some n

theorem phases_append (n : ItemId) (a b : List Effect) :
    phases n (a ++ b) = phases n a ++ phases n b :=
  List.filterMap_append ..

/-- An effect reports phases only of the item it names. -/
theorem Effect.phaseOf_eq_none {n : ItemId} {e : Effect} (h : e.item? ≠ some n) :
    e.phaseOf n = none := by
  cases e with
  | emit ev =>
    cases ev with
    | state s => rfl
    | item m p => exact if_neg (fun hm => h (congrArg some hm))
  | _ => rfl

theorem phases_eq_nil {n : ItemId} {h : List Effect} (hn : ∀ e ∈ h, e.item? ≠ some n) :
    phases n h = [] :=
  List.filterMap_eq_nil_iff.mpr (fun e he => Effect.phaseOf_eq_none (hn e he))

/-- Effects that do not name `n` leave its phases as they are. -/
theorem phases_append_of_unnamed {n : ItemId} (h : List Effect) {es : List Effect}
    (hn : ∀ e ∈ es, e.item? ≠ some n) : phases n (h ++ es) = phases n h := by
  rw [phases_append, phases_eq_nil hn, List.append_nil]

theorem phases_phase (n : ItemId) (p : ItemPhase) : phases n [.emit (.item n p)] = [p] := by
  simp [phases, Effect.phaseOf]

theorem Ended.append {n : ItemId} {h es : List Effect} (he : Ended n h)
    (hn : ∀ e ∈ es, e.item? ≠ some n) : Ended n (h ++ es) := by
  obtain ⟨a, p, b, rfl, hp, ha, hb⟩ := he
  refine ⟨a, p, b ++ es, by simp, hp, ha, fun e hm => ?_⟩
  rcases List.mem_append.mp hm with hm | hm
  · exact hb e hm
  · exact hn e hm

/-- A final phase ends an item that had at most `Started`. -/
theorem ended_snoc {n : ItemId} {p : ItemPhase} {h : List Effect} (hp : p.Final)
    (hh : phases n h = [] ∨ phases n h = [.started]) : Ended n (h ++ [.emit (.item n p)]) :=
  ⟨h, p, [], rfl, hp, hh, fun _ he => absurd he List.not_mem_nil⟩

/-- The phases of an ended item. -/
theorem Ended.phases {n : ItemId} {h : List Effect} (he : Ended n h) :
    ∃ p, p.Final ∧ (phases n h = [p] ∨ phases n h = [.started, p]) := by
  obtain ⟨a, p, b, rfl, hp, ha, hb⟩ := he
  refine ⟨p, hp, ?_⟩
  have hsplit : L1.phases n (a ++ .emit (.item n p) :: b) = L1.phases n a ++ [p] := by
    rw [show a ++ Effect.emit (.item n p) :: b = (a ++ [.emit (.item n p)]) ++ b by simp]
    rw [phases_append_of_unnamed _ hb, phases_append, phases_phase]
  rw [hsplit]
  rcases ha with ha | ha <;> rw [ha]
  · exact .inl rfl
  · exact .inr rfl

/-! ## The ledger -/

/-- The ids of the live items. -/
def Reader.ids (r : Reader) : List ItemId := r.live.map (·.id)

/-- Id `n` was handed out. -/
def Reader.Given (r : Reader) (n : ItemId) : Prop := 1 ≤ n ∧ n < r.nextId

/-- The reader and the effects so far account for every id handed out. -/
structure Ledger (r : Reader) (h : List Effect) : Prop where
  pos : 1 ≤ r.nextId
  nodup : r.ids.Nodup
  live : ∀ n ∈ r.ids, r.Given n
  named : ∀ e ∈ h, ∀ n, e.item? = some n → r.Given n
  waiting : ∀ it ∈ r.queue, phases it.id h = []
  reading : ∀ cur, r.current = some cur → phases cur.item.id h = [.started]
  ended : ∀ n, r.Given n → n ∉ r.ids → Ended n h

namespace Ledger

variable {r r' : Reader} {h es : List Effect}

theorem mem_ids_queue {it : Item} (hi : it ∈ r.queue) : it.id ∈ r.ids :=
  List.mem_map_of_mem (Reader.mem_live_queue hi)

theorem mem_ids_current {cur : Current} (hc : r.current = some cur) : cur.item.id ∈ r.ids :=
  List.mem_map_of_mem (Reader.mem_live_current hc)

theorem live_eq_cons {cur : Current} (hc : r.current = some cur) :
    r.live = cur.item :: r.queue := by
  simp [Reader.live, hc]

theorem live_eq_queue (hc : r.current = none) : r.live = r.queue := by
  simp [Reader.live, hc]

/-- Nothing was emitted about an id not handed out yet. -/
theorem phases_next (L : Ledger r h) : phases r.nextId h = [] :=
  phases_eq_nil (fun e he hn => absurd (L.named e he _ hn).2 (Nat.lt_irrefl _))

/-- Effects that report no phase and name only live items, on a reader with the
same live items and the same counter. -/
theorem frame (L : Ledger r h) (next : r'.nextId = r.nextId) (queue : r'.queue = r.queue)
    (current : r'.current.map (·.item) = r.current.map (·.item))
    (plain : ∀ e ∈ es, ∀ n, e.phaseOf n = none)
    (named : ∀ e ∈ es, ∀ n, e.item? = some n → n ∈ r.ids) : Ledger r' (h ++ es) := by
  have hlive : r'.live = r.live := by
    have hc : r'.current.toList.map (·.item) = r.current.toList.map (·.item) := by
      rw [← Option.toList_map, ← Option.toList_map, current]
    rw [Reader.live, Reader.live, hc, queue]
  have hids : r'.ids = r.ids := by rw [Reader.ids, Reader.ids, hlive]
  have hgiven : ∀ n, r'.Given n ↔ r.Given n := fun n => by rw [Reader.Given, Reader.Given, next]
  have hphases : ∀ n, phases n (h ++ es) = phases n h := fun n => by
    rw [phases_append, show phases n es = [] from
      List.filterMap_eq_nil_iff.mpr (fun e he => plain e he n), List.append_nil]
  refine ⟨next ▸ L.pos, hids ▸ L.nodup, fun n hn => ?_, fun e he n hn => ?_, fun it hit => ?_,
    fun cur hcur => ?_, fun n hn hmem => ?_⟩
  · rw [hgiven]
    exact L.live n (hids ▸ hn)
  · rw [hgiven]
    rcases List.mem_append.mp he with he | he
    · exact L.named e he n hn
    · exact L.live n (named e he n hn)
  · rw [hphases]
    exact L.waiting it (queue ▸ hit)
  · obtain ⟨cur', hcur', hitem⟩ : ∃ cur', r.current = some cur' ∧ cur'.item = cur.item := by
      rw [hcur] at current
      exact Option.map_eq_some_iff.mp current.symm
    rw [hphases, ← hitem]
    exact L.reading cur' hcur'
  · rw [hids] at hmem
    refine (L.ended n ((hgiven n).mp hn) hmem).append (fun e he hne => ?_)
    exact hmem (named e he n hne)

/-- Flags, settings and transport: effects about no item. -/
theorem quiet (L : Ledger r h) (next : r'.nextId = r.nextId) (queue : r'.queue = r.queue)
    (current : r'.current.map (·.item) = r.current.map (·.item))
    (plain : ∀ e ∈ es, e.item? = none) : Ledger r' (h ++ es) :=
  L.frame next queue current
    (fun e he _ => Effect.phaseOf_eq_none (by rw [plain e he]; exact nofun))
    (fun e he n hn => by rw [plain e he] at hn; cases hn)

/-- One live item leaves with a final phase. -/
theorem leave (L : Ledger r h) {n : ItemId} {p : ItemPhase} (hp : p.Final)
    (next : r'.nextId = r.nextId) (ids : r.ids.Perm (n :: r'.ids))
    (phase : phases n h = [] ∨ phases n h = [.started])
    (queue : ∀ it ∈ r'.queue, it ∈ r.queue)
    (current : ∀ cur, r'.current = some cur → r.current = some cur) :
    Ledger r' (h ++ [.emit (.item n p)]) := by
  obtain ⟨hout, hnodup⟩ := List.nodup_cons.mp (ids.nodup_iff.mp L.nodup)
  have hgiven : ∀ m, r'.Given m ↔ r.Given m := fun m => by rw [Reader.Given, Reader.Given, next]
  have hother : ∀ m, m ≠ n → ∀ e ∈ [Effect.emit (.item n p)], e.item? ≠ some m := by
    intro m hm e he heq
    rw [List.mem_singleton.mp he] at heq
    exact hm (Option.some.inj heq).symm
  refine ⟨next ▸ L.pos, hnodup, fun m hm => ?_, fun e he m hm => ?_, fun it hit => ?_,
    fun cur hcur => ?_, fun m hm hmem => ?_⟩
  · rw [hgiven]
    exact L.live m (ids.mem_iff.mpr (List.mem_cons_of_mem _ hm))
  · rw [hgiven]
    rcases List.mem_append.mp he with he | he
    · exact L.named e he m hm
    · rw [List.mem_singleton.mp he] at hm
      obtain rfl : n = m := Option.some.inj hm
      exact L.live n (ids.mem_iff.mpr (List.mem_cons_self ..))
  · have hne : it.id ≠ n := fun he => hout (he ▸ mem_ids_queue hit)
    rw [phases_append_of_unnamed h (hother _ hne)]
    exact L.waiting it (queue it hit)
  · have hne : cur.item.id ≠ n := fun he => hout (he ▸ mem_ids_current hcur)
    rw [phases_append_of_unnamed h (hother _ hne)]
    exact L.reading cur (current cur hcur)
  · by_cases he : m = n
    · rw [he]
      exact ended_snoc hp phase
    · have hnot : m ∉ r.ids := by
        rw [ids.mem_iff]
        exact fun hm' => (List.mem_cons.mp hm').elim he hmem
      exact (L.ended m ((hgiven m).mp hm) hnot).append (hother m he)

/-- A new item joins the queue under the next id. -/
theorem admitted (L : Ledger r h) {it : Item} (id : it.id = r.nextId)
    (next : r'.nextId = r.nextId + 1) (ids : r'.ids.Perm (it.id :: r.ids))
    (queue : ∀ q ∈ r'.queue, q = it ∨ q ∈ r.queue) (current : r'.current = r.current) :
    Ledger r' h := by
  have hgiven : ∀ n, r.Given n → r'.Given n := fun n hn => by
    rw [Reader.Given, next]
    exact ⟨hn.1, Nat.lt_succ_of_lt hn.2⟩
  have hnew : it.id ∉ r.ids := fun hm => absurd (L.live _ hm).2 (by rw [id]; exact Nat.lt_irrefl _)
  refine ⟨by rw [next]; exact Nat.le_add_left .., ?_, fun n hn => ?_,
    fun e he n hn => hgiven n (L.named e he n hn), fun q hq => ?_,
    fun cur hcur => L.reading cur (current ▸ hcur), fun n hn hmem => ?_⟩
  · exact ids.nodup_iff.mpr (List.nodup_cons.mpr ⟨hnew, L.nodup⟩)
  · rcases List.mem_cons.mp (ids.mem_iff.mp hn) with rfl | hn
    · rw [Reader.Given, next, id]
      exact ⟨L.pos, Nat.lt_succ_self _⟩
    · exact hgiven n (L.live n hn)
  · rcases queue q hq with rfl | hq
    · rw [id]
      exact L.phases_next
    · exact L.waiting q hq
  · have hne : n ≠ it.id ∧ n ∉ r.ids := by
      rw [ids.mem_iff] at hmem
      exact ⟨fun he => hmem (he ▸ List.mem_cons_self ..),
        fun hm => hmem (List.mem_cons_of_mem _ hm)⟩
    refine L.ended n ⟨hn.1, ?_⟩ hne.2
    have hlt := hn.2
    rw [next] at hlt
    exact Nat.lt_of_le_of_ne (Nat.le_of_lt_succ hlt) (id ▸ hne.1)

/-- An id that is refused at once. -/
theorem refused (L : Ledger r h) :
    Ledger { r with nextId := r.nextId + 1 } (h ++ [.emit (.item r.nextId .skipped)]) := by
  have hother : ∀ m, m < r.nextId →
      ∀ e ∈ [Effect.emit (.item r.nextId .skipped)], e.item? ≠ some m := by
    intro m hm e he heq
    rw [List.mem_singleton.mp he] at heq
    exact absurd (Option.some.inj heq) (Nat.ne_of_gt hm)
  have hgiven : ∀ n, r.Given n → ({ r with nextId := r.nextId + 1 } : Reader).Given n :=
    fun n hn => ⟨hn.1, Nat.lt_succ_of_lt hn.2⟩
  refine ⟨Nat.le_add_left .., L.nodup, fun n hn => hgiven n (L.live n hn), fun e he n hn => ?_,
    fun it hit => ?_, fun cur hcur => ?_, fun n hn hmem => ?_⟩
  · rcases List.mem_append.mp he with he | he
    · exact hgiven n (L.named e he n hn)
    · rw [List.mem_singleton.mp he] at hn
      obtain rfl : r.nextId = n := Option.some.inj hn
      exact ⟨L.pos, Nat.lt_succ_self _⟩
  · rw [phases_append_of_unnamed h (hother _ (L.live _ (mem_ids_queue hit)).2)]
    exact L.waiting it hit
  · rw [phases_append_of_unnamed h (hother _ (L.live _ (mem_ids_current hcur)).2)]
    exact L.reading cur hcur
  · rcases Nat.lt_or_eq_of_le (Nat.le_of_lt_succ hn.2) with hlt | rfl
    · exact (L.ended n ⟨hn.1, hlt⟩ hmem).append (hother n hlt)
    · exact ended_snoc trivial (.inl L.phases_next)

/-- The front of the queue becomes current. -/
theorem begun (L : Ledger r h) {it : Item} {rest : List Item} (idle : r.current = none)
    (queue : r.queue = it :: rest) (next : r'.nextId = r.nextId) (queue' : r'.queue = rest)
    (current : r'.current.map (·.item) = some it) :
    Ledger r' (h ++ [.emit (.item it.id .started)]) := by
  obtain ⟨cur, hcur, hitem⟩ := Option.map_eq_some_iff.mp current
  have hids : r'.ids = r.ids := by
    rw [Reader.ids, Reader.ids, live_eq_cons hcur, live_eq_queue idle, queue, queue', hitem]
  have hgiven : ∀ n, r'.Given n ↔ r.Given n := fun n => by rw [Reader.Given, Reader.Given, next]
  have hother : ∀ m, m ≠ it.id → ∀ e ∈ [Effect.emit (.item it.id .started)], e.item? ≠ some m := by
    intro m hm e he heq
    rw [List.mem_singleton.mp he] at heq
    exact hm (Option.some.inj heq).symm
  have hfront : it ∈ r.queue := queue ▸ List.mem_cons_self ..
  refine ⟨next ▸ L.pos, hids ▸ L.nodup, fun n hn => ?_, fun e he n hn => ?_, fun q hq => ?_,
    fun cur' hcur' => ?_, fun n hn hmem => ?_⟩
  · rw [hgiven]
    exact L.live n (hids ▸ hn)
  · rw [hgiven]
    rcases List.mem_append.mp he with he | he
    · exact L.named e he n hn
    · rw [List.mem_singleton.mp he] at hn
      obtain rfl : it.id = n := Option.some.inj hn
      exact L.live _ (mem_ids_queue hfront)
  · rw [queue'] at hq
    have hnodup : (it.id :: rest.map (·.id)).Nodup := by
      have hn := L.nodup
      rw [Reader.ids, live_eq_queue idle, queue] at hn
      exact hn
    have hne : q.id ≠ it.id := fun he =>
      (List.nodup_cons.mp hnodup).1 (he ▸ List.mem_map_of_mem hq)
    rw [phases_append_of_unnamed h (hother _ hne)]
    exact L.waiting q (queue ▸ List.mem_cons_of_mem _ hq)
  · obtain rfl : cur = cur' := Option.some.inj (hcur.symm.trans hcur')
    rw [hitem, phases_append, L.waiting it hfront, phases_phase]
    rfl
  · rw [hids] at hmem
    have hne : n ≠ it.id := fun he => hmem (he ▸ mem_ids_queue hfront)
    exact (L.ended n ((hgiven n).mp hn) hmem).append (hother n hne)

end Ledger

variable {fin : Current → ItemPhase → Prop} {c c' : Call} {h : List Effect}

theorem Effect.Silent.item?_eq_none {e : Effect} (hs : e.Silent) : e.item? = none := by
  cases e with
  | emit ev =>
    cases ev with
    | state s => rfl
    | item n p => exact hs.elim
  | synthesize n k t => exact hs.elim
  | playChunk n k g => exact hs.elim
  | _ => rfl

/-- **Every atom keeps the ledger.** -/
theorem Atom.ledger (a : Atom fin c c') (L : Ledger c.r (h ++ c.fx)) :
    Ledger c'.r (h ++ c'.fx) := by
  -- Atoms without an effect leave the ids, the queue and the current item.
  have still : ∀ {r' : Reader}, r'.nextId = c.r.nextId → r'.queue = c.r.queue →
      r'.current.map (·.item) = c.r.current.map (·.item) → Ledger r' (h ++ c.fx) := by
    intro r' hn hq hc
    have L' : Ledger r' (h ++ c.fx ++ []) :=
      L.quiet hn hq hc (fun e he => absurd he List.not_mem_nil)
    rwa [List.append_nil] at L'
  cases a with
  | view same silent =>
    show Ledger _ (h ++ (c.fx ++ _))
    rw [← List.append_assoc]
    exact L.quiet same.nextId same.queue (by rw [same.current])
      (fun e he => (silent e he).item?_eq_none)
  | flag p w unloaded => exact still rfl rfl rfl
  | pauseOutput =>
    show Ledger _ (h ++ (c.fx ++ _))
    rw [← List.append_assoc]
    exact L.quiet rfl rfl rfl (fun e he => by rw [List.mem_singleton.mp he]; rfl)
  | resumeOutput =>
    show Ledger _ (h ++ (c.fx ++ _))
    rw [← List.append_assoc]
    exact L.quiet rfl rfl rfl (fun e he => by rw [List.mem_singleton.mp he]; rfl)
  | stopOutput =>
    show Ledger _ (h ++ (c.fx ++ _))
    rw [← List.append_assoc]
    exact L.quiet rfl rfl rfl (fun e he => by rw [List.mem_singleton.mp he]; rfl)
  | @retire cur phase quiet unloaded current final =>
    show Ledger _ (h ++ (c.fx ++ _))
    rw [← List.append_assoc]
    refine L.leave final rfl ?_ (.inr (L.reading cur current)) (fun it hit => hit)
      (fun cur' hc => (nomatch hc))
    rw [Reader.ids, Ledger.live_eq_cons current]
    exact .refl _
  | @dropFront it rest queue =>
    show Ledger _ (h ++ (c.fx ++ _))
    rw [← List.append_assoc]
    have hfront : it ∈ c.r.queue := queue ▸ List.mem_cons_self ..
    refine L.leave trivial rfl ?_ (.inl (L.waiting it hfront))
      (fun q hq => queue ▸ List.mem_cons_of_mem _ hq) (fun cur hc => hc)
    have hlive : c.r.live.Perm (it :: (c.r.current.toList.map (·.item) ++ rest)) := by
      rw [Reader.live, queue]
      exact List.perm_middle
    exact hlive.map _
  | refuse =>
    show Ledger _ (h ++ (c.fx ++ _))
    rw [← List.append_assoc]
    exact L.refused
  | @admitBack it id chunks =>
    refine L.admitted id rfl ?_ (fun q hq => ?_) rfl
    · have hlive : (c.r.current.toList.map (·.item) ++ (c.r.queue ++ [it])).Perm
          (it :: c.r.live) := by
        rw [← List.append_assoc]
        exact List.perm_append_singleton ..
      exact hlive.map _
    · rcases List.mem_append.mp hq with hq | hq
      · exact .inr hq
      · exact .inl (List.mem_singleton.mp hq)
  | @admitFront it id chunks =>
    refine L.admitted id rfl ?_ (fun q hq => List.mem_cons.mp hq) rfl
    have hlive : (c.r.current.toList.map (·.item) ++ it :: c.r.queue).Perm (it :: c.r.live) :=
      List.perm_middle
    exact hlive.map _
  | start idle unloaded queue =>
    show Ledger _ (h ++ (c.fx ++ _))
    rw [← List.append_assoc]
    exact L.begun idle queue rfl rfl rfl
  | @request it i t live chunk fresh =>
    show Ledger _ (h ++ (c.fx ++ _))
    rw [← List.append_assoc]
    refine L.frame rfl rfl rfl (fun e he n => by rw [List.mem_singleton.mp he]; rfl) ?_
    intro e he n hn
    rw [List.mem_singleton.mp he] at hn
    obtain rfl : it.id = n := Option.some.inj hn
    exact List.mem_map_of_mem live
  | @play cur unloaded unpaused current requested =>
    show Ledger _ (h ++ (c.fx ++ _))
    rw [← List.append_assoc]
    refine L.frame rfl rfl rfl (fun e he n => by rw [List.mem_singleton.mp he]; rfl) ?_
    intro e he n hn
    rw [List.mem_singleton.mp he] at hn
    obtain rfl : cur.item.id = n := Option.some.inj hn
    exact Ledger.mem_ids_current current
  | moveChunk quiet unloaded current inRange => exact still rfl rfl (by rw [current]; rfl)

/-! ## The loaded chunk -/

/-- The loaded `gen` is the one under which the current chunk was played, and no
other chunk was played under it. -/
structure Loads (r : Reader) (h : List Effect) : Prop where
  bound : ∀ n k g, .playChunk n k g ∈ h → g ≤ r.gen
  only : ∀ n k g, .playChunk n k g ∈ h → r.loaded = some g →
    ∃ cur, r.current = some cur ∧ cur.item.id = n ∧ cur.chunk = k
  played : ∀ g, r.loaded = some g →
    ∃ cur, r.current = some cur ∧ .playChunk cur.item.id cur.chunk g ∈ h

/-- Effects that play nothing, on a reader with the same `gen` that has the same
chunk loaded or none. -/
theorem Loads.frame {r r' : Reader} {es : List Effect} (P : Loads r h) (gen : r'.gen = r.gen)
    (es_plain : ∀ e ∈ es, ∀ n k g, e ≠ .playChunk n k g)
    (loaded : r'.loaded = none ∨ r'.loaded = r.loaded ∧ ∀ cur, r.current = some cur →
      ∃ cur', r'.current = some cur' ∧ cur'.item.id = cur.item.id ∧ cur'.chunk = cur.chunk) :
    Loads r' (h ++ es) := by
  have hold : ∀ {n k g}, Effect.playChunk n k g ∈ h ++ es → .playChunk n k g ∈ h := by
    intro n k g hm
    rcases List.mem_append.mp hm with hm | hm
    · exact hm
    · exact absurd rfl (es_plain _ hm n k g)
  refine ⟨fun n k g hm => gen ▸ P.bound n k g (hold hm), fun n k g hm hl => ?_, fun g hl => ?_⟩
  · rcases loaded with hn | ⟨hs, hc⟩
    · rw [hn] at hl
      cases hl
    · obtain ⟨cur, hcur, hid, hk⟩ := P.only n k g (hold hm) (hs ▸ hl)
      obtain ⟨cur', hcur', hid', hk'⟩ := hc cur hcur
      exact ⟨cur', hcur', hid'.trans hid, hk'.trans hk⟩
  · rcases loaded with hn | ⟨hs, hc⟩
    · rw [hn] at hl
      cases hl
    · obtain ⟨cur, hcur, hm⟩ := P.played g (hs ▸ hl)
      obtain ⟨cur', hcur', hid, hk⟩ := hc cur hcur
      exact ⟨cur', hcur', List.mem_append_left _ (by rw [hid, hk]; exact hm)⟩

/-- **Every atom keeps the loaded chunk accounted for.** -/
theorem Atom.loads (a : Atom fin c c') (P : Loads c.r (h ++ c.fx)) : Loads c'.r (h ++ c'.fx) := by
  have same : ∀ {r' : Reader} {es : List Effect}, r'.gen = c.r.gen →
      (∀ e ∈ es, ∀ n k g, e ≠ .playChunk n k g) → r'.loaded = c.r.loaded →
      r'.current = c.r.current → Loads r' (h ++ (c.fx ++ es)) := by
    intro r' es hg he hl hc
    rw [← List.append_assoc]
    exact P.frame hg he (.inr ⟨hl, fun cur hcur => ⟨cur, hc.trans hcur, rfl, rfl⟩⟩)
  have unloaded : ∀ {r' : Reader} {es : List Effect}, r'.gen = c.r.gen →
      (∀ e ∈ es, ∀ n k g, e ≠ .playChunk n k g) → r'.loaded = none →
      Loads r' (h ++ (c.fx ++ es)) := by
    intro r' es hg he hl
    rw [← List.append_assoc]
    exact P.frame hg he (.inl hl)
  cases a with
  | view hs silent =>
    refine same hs.gen (fun e he n k g heq => ?_) hs.loaded hs.current
    exact (heq ▸ silent e he : Effect.Silent (.playChunk n k g))
  | flag p w hl => exact ⟨P.bound, P.only, P.played⟩
  | pauseOutput => exact same rfl (by simp) rfl rfl
  | resumeOutput => exact same rfl (by simp) rfl rfl
  | stopOutput => exact unloaded rfl (by simp) rfl
  | retire quiet hl => exact unloaded rfl (by simp) hl
  | dropFront => exact same rfl (by simp) rfl rfl
  | refuse => exact same rfl (by simp) rfl rfl
  | admitBack => exact ⟨P.bound, P.only, P.played⟩
  | admitFront => exact ⟨P.bound, P.only, P.played⟩
  | start idle hl => exact unloaded rfl (by simp) hl
  | request => exact same rfl (by simp) rfl rfl
  | @play cur hl unpaused current requested =>
    show Loads _ (h ++ (c.fx ++ _))
    rw [← List.append_assoc]
    have hcases : ∀ {n k g}, Effect.playChunk n k g ∈
        h ++ c.fx ++ [.playChunk cur.item.id cur.chunk (c.r.gen + 1)] →
        .playChunk n k g ∈ h ++ c.fx ∨ n = cur.item.id ∧ k = cur.chunk ∧ g = c.r.gen + 1 := by
      intro n k g hm
      rcases List.mem_append.mp hm with hm | hm
      · exact .inl hm
      · exact .inr (by simpa using hm)
    refine ⟨fun n k g hm => ?_, fun n k g hm hload => ?_, fun g hload => ?_⟩
    · rcases hcases hm with hm | ⟨-, -, rfl⟩
      · exact Nat.le_succ_of_le (P.bound n k g hm)
      · exact Nat.le_refl _
    · obtain rfl : c.r.gen + 1 = g := Option.some.inj hload
      rcases hcases hm with hm | ⟨rfl, rfl, -⟩
      · exact absurd (P.bound n k _ hm) (Nat.not_succ_le_self _)
      · exact ⟨cur, current, rfl, rfl⟩
    · obtain rfl : c.r.gen + 1 = g := Option.some.inj hload
      exact ⟨cur, current, List.mem_append_right _ (List.mem_singleton.mpr rfl)⟩
  | @moveChunk cur i quiet hl current inRange =>
    have P' : Loads { c.r with current := some { cur with chunk := i } } (h ++ (c.fx ++ [])) :=
      unloaded rfl (by simp) hl
    rw [List.append_nil] at P'
    exact P'

end Sonara.L1
