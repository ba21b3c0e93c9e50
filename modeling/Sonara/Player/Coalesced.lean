import Sonara.Player.Controller

/-!
# No change of a setting is lost

Everything a setting has under way is a `Work`: its drain is a request in flight, a `resume` or a
`finish` in the queue. There is one work for the drain that is running and none otherwise
(`Inv.drains`), so one request at most is in flight. Every override counts its calls, which await
the drain or have their `settle` in the queue (`Inv.counts`).

A value in `next` is sent as long as the drain looks at it again. Between the end of its loop and
the callback that says so it does not (`InGap`): a value given there stays in `next`. `Kept` holds
in the runs without such a call.
-/

namespace Sonara.Player

/-- What a drain does next, and whether its loop has ended. -/
structure Work where
  key : Key
  drain : Nat
  ended : Bool
  deriving DecidableEq

def Request.work (r : Request) : Work := ⟨r.key, r.drain, false⟩

def Task.work : Task → Option Work
  | .resume key d _ => some ⟨key, d, false⟩
  | .finish key d _ => some ⟨key, d, true⟩
  | .settle _ _ => none

/-- The setting of the call that goes on. -/
def Task.call : Task → Option Key
  | .settle key _ => some key
  | _ => none

namespace Setting

/-- The loop of a drain takes the newest value. -/
def flush (s : Setting) : Setting :=
  match s.sender.next with
  | some value => { s with sender := { s.sender with next := none }, sent := some value }
  | none => s

/-- The override of `n` calls that are not settled; without any it waits for its timer. -/
structure Counts (settleMs n : Nat) (s : Setting) : Prop where
  absent : s.pending = none → n = 0
  held : ∀ p, s.pending = some p →
    p.inflight = n ∧ p.timer = if n = 0 then some (s.settledAt + settleMs) else none

variable {settleMs n clock : Nat} {s : Setting}

@[simp] theorem hold_given (value : Int) : (s.hold value).given = some value := by
  unfold hold; split <;> rfl

@[simp] theorem hold_sent (value : Int) : (s.hold value).sent = s.sent := by
  unfold hold; split <;> rfl

/-- Another call. -/
theorem Counts.hold (h : s.Counts settleMs n) (value : Int) :
    (s.hold value).Counts settleMs (n + 1) := by
  unfold Setting.hold
  cases hp : s.pending with
  | none =>
    refine ⟨fun h => (by cases h), fun p heq => ?_⟩
    obtain rfl := Option.some.inj heq
    rw [h.absent hp]
    exact ⟨rfl, rfl⟩
  | some p =>
    refine ⟨fun h => (by cases h), fun p' heq => ?_⟩
    obtain rfl := Option.some.inj heq
    exact ⟨congrArg (· + 1) (h.held p hp).1, rfl⟩

/-- A change that is not about the override. -/
theorem Counts.congr (h : s.Counts settleMs n) {s' : Setting} (hp : s'.pending = s.pending)
    (ht : s'.settledAt = s.settledAt) : s'.Counts settleMs n := by
  refine ⟨fun hn => h.absent (hp ▸ hn), fun p heq => ?_⟩
  rw [ht]
  exact h.held p (hp ▸ heq)

/-- A call that settles takes one from the count. -/
theorem Counts.settle (h : s.Counts settleMs (n + 1)) (shown : Option ℚ) (ok : Bool) :
    (s.settle settleMs clock shown ok).Counts settleMs n := by
  unfold Setting.settle
  cases hp : s.pending with
  | none => exact absurd (h.absent hp) (Nat.succ_ne_zero n)
  | some p =>
    obtain ⟨hn, ht⟩ := h.held p hp
    simp only [hn, Nat.add_sub_cancel]
    by_cases hpos : n > 0
    · rw [if_pos hpos]
      refine ⟨fun h => (by cases h), fun p' heq => ?_⟩
      obtain rfl := Option.some.inj heq
      rw [if_neg (by omega)] at ht ⊢
      exact ⟨rfl, ht⟩
    · obtain rfl : n = 0 := by omega
      rw [if_neg hpos]
      split
      · exact ⟨fun _ => rfl, fun p' heq => by cases heq⟩
      · refine ⟨fun h => (by cases h), fun p' heq => ?_⟩
        obtain rfl := Option.some.inj heq
        exact ⟨rfl, rfl⟩

theorem settle_keeps (shown : Option ℚ) (ok : Bool) :
    (s.settle settleMs clock shown ok).sender = s.sender ∧
      (s.settle settleMs clock shown ok).given = s.given ∧
      (s.settle settleMs clock shown ok).sent = s.sent := by
  unfold settle
  cases s.pending with
  | none => exact ⟨rfl, rfl, rfl⟩
  | some p =>
    dsimp only
    split
    · exact ⟨rfl, rfl, rfl⟩
    · split <;> exact ⟨rfl, rfl, rfl⟩

theorem Counts.confirm (h : s.Counts settleMs n) (shown : ℚ) :
    (s.confirm shown).Counts settleMs n := by
  unfold Setting.confirm
  cases hp : s.pending with
  | none => exact h
  | some p =>
    dsimp only
    split
    next hdone =>
      have hn : n = 0 := (h.held p hp).1.symm.trans hdone.1
      exact ⟨fun _ => hn, fun p' heq => by cases heq⟩
    next => exact h

theorem confirm_keeps (shown : ℚ) : (s.confirm shown).sender = s.sender ∧
    (s.confirm shown).given = s.given ∧ (s.confirm shown).sent = s.sent := by
  unfold confirm
  cases s.pending with
  | none => exact ⟨rfl, rfl, rfl⟩
  | some p => dsimp only; split <;> exact ⟨rfl, rfl, rfl⟩

/-- Only the override of settled calls has a timer. -/
theorem Counts.expire (h : s.Counts settleMs n) (hdue : s.due clock = true) :
    s.expire.Counts settleMs n := by
  unfold due at hdue
  unfold Setting.expire
  cases hp : s.pending with
  | none => rw [hp] at hdue; cases hdue
  | some p =>
    obtain ⟨hn, ht⟩ := h.held p hp
    rw [hp, Option.bind_some, ht] at hdue
    have hzero : n = 0 := by
      by_contra hne
      rw [if_neg hne] at hdue
      cases hdue
    dsimp only
    rw [if_pos (hn.trans hzero)]
    exact ⟨fun _ => hzero, fun p' heq => by cases heq⟩

theorem expire_keeps : s.expire.sender = s.sender ∧ s.expire.given = s.given ∧
    s.expire.sent = s.sent := by
  unfold expire
  cases s.pending with
  | none => exact ⟨rfl, rfl, rfl⟩
  | some p => dsimp only; split <;> exact ⟨rfl, rfl, rfl⟩

end Setting

namespace World

variable {w w' : World} {settleMs : Nat} {k key : Key}

/-- All that the drains have under way. -/
def works (w : World) : List Work := w.requests.map Request.work ++ w.queue.filterMap Task.work

def worksOf (w : World) (k : Key) : List Work := w.works.filter (·.key = k)

/-- The settings of the calls that are not settled. -/
def calls (w : World) : List Key := w.callers.map (·.key) ++ w.queue.filterMap Task.call

/-- What holds of each setting in every run. -/
structure Inv (settleMs : Nat) (k : Key) (w : World) : Prop where
  /-- The drain that is running, and no other, has one work under way. -/
  drains : (w.worksOf k).map (·.drain) |>.Perm (w.settings k).sender.running.toList
  callers : ∀ c ∈ w.callers, c.key = k → (w.settings k).sender.running = some c.drain
  counts : (w.settings k).Counts settleMs (w.calls.count k)

/-- No value is left behind. -/
structure Kept (k : Key) (w : World) : Prop where
  sent : (w.settings k).sender.next = none → (w.settings k).sent = (w.settings k).given
  next : ∀ value, (w.settings k).sender.next = some value → (w.settings k).given = some value ∧
    (w.settings k).sender.running ≠ none ∧ ∀ x ∈ w.worksOf k, x.ended = false

/-- The loop of the drain has ended, and its callback has not run. -/
def InGap (w : World) (k : Key) : Prop := ∃ d ok, Task.finish k d ok ∈ w.queue

/-- No value is given in the gap. -/
def OnTime (w : World) : Event → Prop
  | .call key raw => key.value raw ≠ none → ¬ w.InGap key
  | _ => True

/-! ## What the functions do -/

@[simp] theorem modify_same (f : Setting → Setting) :
    (w.modify key f).settings key = f (w.settings key) :=
  if_pos rfl

theorem modify_other (f : Setting → Setting) (h : k ≠ key) :
    (w.modify key f).settings k = w.settings k :=
  if_neg h

/-- A drain flushes its own setting alone. -/
theorem drain_settings (d : Nat) (ok : Bool) :
    (w.drain key d ok).settings k = if k = key then (w.settings key).flush else w.settings k := by
  have hflush : ∀ s : Setting, s.sender.next = none → s.flush = s := by
    intro s hs
    rw [Setting.flush, hs]
  unfold drain
  cases hn : (w.settings key).sender.next with
  | none =>
    by_cases h : k = key
    · rw [if_pos h, hflush _ hn, h]
    · exact (if_neg h).symm
  | some value =>
    by_cases h : k = key
    · subst h
      simp [Setting.flush, hn]
    · simp [modify_other, h]

/-- A drain adds one work, ended if nothing was to be sent. -/
theorem drain_works (d : Nat) (ok : Bool) :
    (w.drain key d ok).works.Perm (.mk key d (w.settings key).sender.next.isNone :: w.works) := by
  unfold drain works
  cases (w.settings key).sender.next with
  | none =>
    show (w.requests.map Request.work ++ (w.queue ++ [Task.finish key d ok]).filterMap
      Task.work).Perm
      (Work.mk key d true :: _)
    rw [List.filterMap_append, ← List.append_assoc]
    exact List.perm_append_comm
  | some value =>
    show ((w.requests ++ [Request.mk key value d]).map Request.work ++
      w.queue.filterMap Task.work).Perm
      (Work.mk key d false :: _)
    rw [List.map_append, List.append_assoc]
    exact List.perm_middle

theorem drain_calls (d : Nat) (ok : Bool) : (w.drain key d ok).calls = w.calls := by
  unfold drain calls
  cases (w.settings key).sender.next with
  | none =>
    show w.callers.map (·.key) ++ (w.queue ++ [Task.finish key d ok]).filterMap Task.call = _
    rw [List.filterMap_append]
    simp [Task.call]
  | some value => rfl

theorem drain_callers (d : Nat) (ok : Bool) : (w.drain key d ok).callers = w.callers := by
  unfold drain
  cases (w.settings key).sender.next <;> rfl

/-- The drain a call awaits: the one in progress, or a new one. -/
def nextDrain (w : World) (key : Key) : Nat := (w.settings key).sender.running.getD w.drains

theorem setting_busy {raw : JsNumber} {value : Int} {d : Nat} (hv : key.value raw = some value)
    (hr : (w.settings key).sender.running = some d) : w.setting key raw =
      { w.modify key fun s => { s.hold value with
        sender := { s.sender with next := some value } } with
        callers := w.callers ++ [⟨key, d⟩] } := by
  simp [setting, hv, modify_same, hr]
  rfl

/-- With no drain running a call begins one, which sends the value. -/
theorem setting_idle {raw : JsNumber} {value : Int} (hv : key.value raw = some value)
    (hr : (w.settings key).sender.running = none) : w.setting key raw =
      { w.modify key fun s => { s.hold value with
          sender := { next := none, running := some w.drains }, sent := some value } with
        drains := w.drains + 1
        requests := w.requests ++ [⟨key, value, w.drains⟩]
        callers := w.callers ++ [⟨key, w.drains⟩] } := by
  simp only [setting, hv, modify_same, hr, drain]
  congr 1
  funext k
  by_cases h : k = key
  · subst h
    simp [modify]
  · simp [modify, h]

theorem setting_other {raw : JsNumber} (hk : k ≠ key) :
    (w.setting key raw).settings k = w.settings k := by
  cases hv : key.value raw with
  | none => simp [setting, hv]
  | some value =>
    cases hr : (w.settings key).sender.running with
    | none => simp [setting_idle hv hr, modify_other, hk]
    | some d => simp [setting_busy hv hr, modify_other, hk]

theorem setting_callers {raw : JsNumber} {value : Int} (hv : key.value raw = some value) :
    (w.setting key raw).callers = w.callers ++ [⟨key, w.nextDrain key⟩] := by
  unfold nextDrain
  cases hr : (w.settings key).sender.running with
  | none => simp [setting_idle hv hr]
  | some d => simp [setting_busy hv hr]

theorem setting_queue (raw : JsNumber) : (w.setting key raw).queue = w.queue := by
  cases hv : key.value raw with
  | none => simp [setting, hv]
  | some value =>
    cases hr : (w.settings key).sender.running with
    | none => simp [setting_idle hv hr, modify]
    | some d => simp [setting_busy hv hr, modify]

theorem setting_calls {raw : JsNumber} {value : Int} (hv : key.value raw = some value) :
    (w.setting key raw).calls.Perm (key :: w.calls) := by
  rw [calls, setting_callers hv, setting_queue, List.map_append, List.append_assoc]
  exact List.perm_middle

theorem setting_works_busy {raw : JsNumber} {value : Int} {d : Nat}
    (hv : key.value raw = some value)
    (hr : (w.settings key).sender.running = some d) : (w.setting key raw).works = w.works := by
  rw [works, setting_queue, setting_busy hv hr]
  rfl

theorem setting_works_idle {raw : JsNumber} {value : Int} (hv : key.value raw = some value)
    (hr : (w.settings key).sender.running = none) :
    (w.setting key raw).works.Perm (.mk key w.drains false :: w.works) := by
  have hreq : (w.setting key raw).requests = w.requests ++ [⟨key, value, w.drains⟩] := by
    rw [setting_idle hv hr]
  rw [works, setting_queue, hreq, List.map_append, List.append_assoc]
  exact List.perm_middle

/-- The setting after a call. -/
theorem setting_same {raw : JsNumber} {value : Int} (hv : key.value raw = some value) :
    (w.setting key raw).settings key = { (w.settings key).hold value with
      sender :=
        { next := if (w.settings key).sender.running.isSome then some value else none
          running := some (w.nextDrain key) }
      sent := if (w.settings key).sender.running.isSome then
      (w.settings key).sent else some value } := by
  unfold nextDrain
  cases hr : (w.settings key).sender.running with
  | none => simp [setting_idle hv hr, modify]
  | some d => simp [setting_busy hv hr, modify, hr]

/-! ## What each event does to a setting -/

theorem worksOf_perm {x : Work} {rest : List Work} (h : w.works.Perm (x :: rest)) :
    (w.worksOf k).Perm (if x.key = k then x :: rest.filter (·.key = k) else rest.filter
      (·.key = k)) := by
  refine (h.filter _).trans ?_
  rw [List.filter_cons]
  simp

/-- A drain that goes from one work to the next. -/
theorem worksOf_next {x y : Work} {rest : List Work} (hx : w.works.Perm (x :: rest))
    (hy : w'.works.Perm (y :: rest)) (hk : x.key = y.key) (hd : x.drain = y.drain) :
    ((w'.worksOf k).map (·.drain)).Perm ((w.worksOf k).map (·.drain)) := by
  refine ((worksOf_perm hy).map _).trans (((worksOf_perm hx).map _).trans ?_).symm
  rw [hk]
  split
  · rw [List.map_cons, List.map_cons, hd]
  · exact .refl _

/-- Another setting. -/
theorem Inv.other (h : Inv settleMs k w) (hs : w'.settings k = w.settings k)
    (hw : ((w'.worksOf k).map (·.drain)).Perm ((w.worksOf k).map (·.drain)))
    (hc : ∀ c ∈ w'.callers, c.key = k → c ∈ w.callers) (hn : w'.calls.count k = w.calls.count k) :
    Inv settleMs k w' := by
  refine ⟨?_, fun c hin hk => ?_, ?_⟩
  · rw [hs]
    exact hw.trans h.drains
  · rw [hs]
    exact h.callers c (hc c hin hk) hk
  · rw [hs, hn]
    exact h.counts

/-- A call keeps the invariant of every setting. -/
theorem Inv.call (h : Inv settleMs k w) (raw : JsNumber) : Inv settleMs k (w.setting key raw) := by
  cases hv : key.value raw with
  | none => simpa [setting, hv] using h
  | some value =>
    by_cases hk : k = key
    · subst hk
      have hsame := setting_same (w := w) hv
      refine ⟨?_, fun c hin hck => ?_, ?_⟩
      · rw [hsame]
        unfold nextDrain
        have hdrains := h.drains
        cases hr : (w.settings k).sender.running with
        | some d =>
          rw [hr] at hdrains
          rw [worksOf, setting_works_busy hv hr]
          exact hdrains
        | none =>
          rw [hr] at hdrains
          have hnil : w.works.filter (·.key = k) = [] := List.map_eq_nil_iff.mp hdrains.eq_nil
          refine ((worksOf_perm (setting_works_idle hv hr)).map _).trans ?_
          rw [if_pos rfl, hnil]
          exact .refl _
      · rw [hsame]
        rw [setting_callers hv] at hin
        rcases List.mem_append.mp hin with hin | hin
        · have hc := h.callers c hin hck
          rw [nextDrain, hc, Option.getD_some]
        · rw [List.mem_singleton.mp hin]
      · rw [hsame, (setting_calls hv).count_eq k, List.count_cons_self]
        exact (h.counts.hold value).congr rfl rfl
    · refine h.other (setting_other hk) ?_ (fun c hin hck => ?_) ?_
      · cases hr : (w.settings key).sender.running with
        | some d => rw [worksOf, setting_works_busy hv hr, worksOf]
        | none =>
          refine ((worksOf_perm (setting_works_idle hv hr)).map _).trans ?_
          rw [if_neg (Ne.symm hk)]
          exact .refl _
      · rw [setting_callers hv] at hin
        rcases List.mem_append.mp hin with hin | hin
        · exact hin
        · rw [List.mem_singleton.mp hin] at hck
          exact absurd hck.symm hk
      · rw [(setting_calls hv).count_eq k, List.count_cons_of_ne (Ne.symm hk)]

/-- The queue without its first task. -/
abbrev dequeue (w : World) (queue : List Task) : World := { w with queue := queue }

/-- The drain goes on with the end of its request. -/
abbrev resumed (w : World) (queue : List Task) (err : Option Text) : World :=
  { w with queue := queue, error := err }

theorem works_head {t : Task} {queue : List Task} (hq : w.queue = t :: queue) :
    w.works.Perm (t.work.toList ++ (w.dequeue queue).works) := by
  unfold works
  rw [hq, List.filterMap_cons]
  cases t.work with
  | none => exact .refl _
  | some x => exact List.perm_middle

theorem calls_head {t : Task} {queue : List Task} (hq : w.queue = t :: queue) :
    w.calls.Perm (t.call.toList ++ (w.dequeue queue).calls) := by
  unfold calls
  rw [hq, List.filterMap_cons]
  cases t.call with
  | none => exact .refl _
  | some x => exact List.perm_middle

/-- A task that resumes keeps the invariant. -/
theorem Inv.resume (h : Inv settleMs k w) {d : Nat} {err : Option Text} {queue : List Task}
    (hq : w.queue = .resume key d err :: queue) (ok : Bool) :
    Inv settleMs k ((w.resumed queue err).drain key d ok) := by
  have hworks := worksOf_next (k := k) (works_head hq)
    (drain_works (w := w.resumed queue err) d ok) rfl rfl
  have hcalls : ((w.resumed queue err).drain key d ok).calls.Perm w.calls := by
    rw [drain_calls]
    exact (calls_head hq).symm
  have hsettings : ((w.resumed queue err).drain key d ok).settings k = _ := drain_settings d ok
  by_cases hk : k = key
  · subst hk
    rw [if_pos rfl] at hsettings
    have hflush : ∀ s : Setting, s.flush.sender.running = s.sender.running ∧
        s.flush.pending = s.pending ∧ s.flush.settledAt = s.settledAt := by
      intro s
      unfold Setting.flush
      split <;> exact ⟨rfl, rfl, rfl⟩
    obtain ⟨hrun, hp, ht⟩ := hflush (w.settings k)
    refine ⟨?_, fun c hin hck => ?_, ?_⟩
    · rw [hsettings, hrun]
      exact hworks.trans h.drains
    · rw [hsettings, hrun]
      rw [drain_callers] at hin
      exact h.callers c hin hck
    · rw [hsettings, hcalls.count_eq k]
      exact h.counts.congr hp ht
  · rw [if_neg hk] at hsettings
    refine h.other hsettings hworks (fun c hin _ => ?_) (hcalls.count_eq k)
    rwa [drain_callers] at hin

/-- A work that finishes leaves the calls under way. -/
theorem finish_calls (d : Nat) (ok : Bool) : (w.finish key d ok).calls.Perm w.calls := by
  have hnew : ((w.callers.filter (· = ⟨key, d⟩)).map fun c => Task.settle c.key ok).filterMap
    Task.call =
      (w.callers.filter (· = ⟨key, d⟩)).map (·.key) := by
    rw [List.filterMap_map]
    exact congrFun (List.filterMap_eq_map (f := Caller.key)) _
  have hsplit : (w.callers.filter (· ≠ ⟨key, d⟩) ++ w.callers.filter (· = ⟨key, d⟩)).Perm
      w.callers := by
    have := List.filter_append_perm (· = (⟨key, d⟩ : Caller)) w.callers
    refine List.perm_append_comm.trans ?_
    simpa using this
  show ((w.callers.filter (· ≠ ⟨key, d⟩)).map (·.key) ++ (w.queue ++ _).filterMap Task.call).Perm _
  rw [List.filterMap_append, hnew]
  refine (List.perm_append_comm.append_left _).trans ?_
  rw [← List.append_assoc, ← List.map_append]
  exact (hsplit.map _).append_right _

theorem finish_works (d : Nat) (ok : Bool) : (w.finish key d ok).works = w.works := by
  have hnone : ((w.callers.filter (· = ⟨key, d⟩)).map fun c => Task.settle c.key ok).filterMap
      Task.work = [] := by
    rw [List.filterMap_map]
    exact List.filterMap_eq_nil_iff.mpr fun _ _ => rfl
  show w.requests.map Request.work ++ (w.queue ++ _).filterMap Task.work = _
  rw [List.filterMap_append, hnone, List.append_nil]
  rfl

/-- A task that finishes keeps the invariant. -/
theorem Inv.finish (h : Inv settleMs k w) {d : Nat} {ok : Bool} {queue : List Task}
    (hq : w.queue = .finish key d ok :: queue) :
    Inv settleMs k ((w.dequeue queue).finish key d ok) := by
  have hcalls : ((w.dequeue queue).finish key d ok).calls.count k = w.calls.count k :=
    ((finish_calls d ok).trans (calls_head hq).symm).count_eq k
  have hworks := worksOf_perm (k := k) (works_head hq)
  by_cases hk : k = key
  · subst hk
    rw [if_pos rfl] at hworks
    have hdrains := (hworks.map (·.drain)).symm.trans h.drains
    -- the drain that ends is the one that is running
    obtain ⟨hrun, hnone⟩ : (w.settings k).sender.running = some d ∧
        (w.dequeue queue).works.filter (·.key = k) = [] := by
      cases hr : (w.settings k).sender.running with
      | none =>
        rw [hr] at hdrains
        cases hdrains.eq_nil
      | some d' =>
        rw [hr] at hdrains
        have heq := List.perm_singleton.mp hdrains
        rw [List.map_cons] at heq
        obtain ⟨hd, hrest⟩ := List.cons.inj heq
        exact ⟨congrArg some hd.symm, List.map_eq_nil_iff.mp hrest⟩
    refine ⟨?_, fun c hin hck => ?_, ?_⟩
    · rw [worksOf, finish_works, hnone]
      unfold World.finish
      simp [modify]
    · obtain ⟨hin, hne⟩ := List.mem_filter.mp hin
      have hc := h.callers c hin hck
      rw [hrun] at hc
      obtain ⟨ck, cd⟩ := c
      obtain rfl : ck = k := hck
      obtain rfl := Option.some.inj hc
      simp at hne
    · rw [hcalls]
      refine h.counts.congr ?_ ?_ <;> simp [World.finish, modify]
  · rw [if_neg (Ne.symm hk)] at hworks
    refine h.other ?_ ?_ (fun c hin _ => (List.mem_filter.mp hin).1) hcalls
    · simp [World.finish, modify, hk]
    · rw [worksOf, finish_works]
      exact (hworks.map _).symm

/-- A change of one setting that leaves its sender alone. -/
theorem Inv.modify (h : Inv settleMs k w) {f : Setting → Setting}
    (hs : ∀ s, (f s).sender = s.sender)
    {queue : List Task} (hworks : (w.dequeue queue).works.Perm w.works)
    (hcalls : k ≠ key → (w.dequeue queue).calls.count k = w.calls.count k)
    (hcounts : k = key → (f (w.settings k)).Counts settleMs ((w.dequeue queue).calls.count k)) :
    Inv settleMs k ((w.dequeue queue).modify key f) := by
  have hdrains : (((w.dequeue queue).worksOf k).map (·.drain)).Perm ((w.worksOf k).map (·.drain)) :=
    (hworks.filter _).map _
  by_cases hk : k = key
  · subst hk
    refine ⟨?_, fun c hin hck => ?_, ?_⟩
    · rw [modify_same, hs]
      exact hdrains.trans h.drains
    · rw [modify_same, hs]
      exact h.callers c hin hck
    · rw [modify_same]
      exact hcounts rfl
  · exact h.other (modify_other f hk) hdrains (fun c hin _ => hin) (hcalls hk)

/-- A task that settles keeps the invariant. -/
theorem Inv.settle (h : Inv settleMs k w) {ok : Bool} {queue : List Task} (shown : Option ℚ)
    (hq : w.queue = .settle key ok :: queue) :
    Inv settleMs k ((w.dequeue queue).modify key (·.settle settleMs w.clock shown ok)) := by
  have hcalls := (calls_head hq).count_eq k
  have hone : ([key] ++ (w.dequeue queue).calls).count k =
      (w.dequeue queue).calls.count k + if key = k then 1 else 0 := by
    rw [List.singleton_append, List.count_cons]
    simp
  rw [show (Task.settle key ok).call.toList = [key] from rfl, hone] at hcalls
  refine h.modify (fun s => Setting.settle_keeps shown ok |>.1) (works_head hq).symm (fun hk => ?_)
    fun hk => ?_
  · rw [hcalls, if_neg (Ne.symm hk), Nat.add_zero]
  · have hcounts := h.counts
    rw [hcalls, if_pos hk.symm] at hcounts
    exact hcounts.settle shown ok

/-- A result keeps the invariant: its task is queued. -/
theorem Inv.result (h : Inv settleMs k w) {i : Nat} {r : Request} {err : Option Text}
    (hr : w.requests[i]? = some r) : Inv settleMs k { w with
      requests := w.requests.eraseIdx i, queue := w.queue ++ [.resume r.key r.drain err] } := by
  obtain ⟨hi, hget⟩ := List.getElem?_eq_some_iff.mp hr
  have hreq : (w.requests.map Request.work).Perm
      (r.work :: (w.requests.eraseIdx i).map Request.work) := by
    rw [← List.map_cons]
    refine List.Perm.map _ ?_
    rw [← hget]
    exact (List.getElem_cons_eraseIdx_perm hi).symm
  refine h.other rfl ?_ (fun c hin _ => hin) ?_
  · refine ((List.Perm.filter _ ?_).map _)
    show ((w.requests.eraseIdx i).map Request.work ++ (w.queue ++ _).filterMap Task.work).Perm
      (w.requests.map Request.work ++ w.queue.filterMap Task.work)
    rw [List.filterMap_append, ← List.append_assoc]
    exact List.perm_append_comm.trans (hreq.symm.append_right _)
  · show List.count k (w.callers.map (·.key) ++ (w.queue ++ _).filterMap Task.call) = _
    rw [List.filterMap_append, List.filterMap_cons_none rfl, List.filterMap_nil, List.append_nil]
    rfl

theorem Inv.state (h : Inv settleMs k w) (values : Key → ℚ) : Inv settleMs k { w with
    state := some values, settings := fun k => (w.settings k).confirm (values k) } := by
  obtain ⟨hs, -, -⟩ := Setting.confirm_keeps (s := w.settings k) (values k)
  refine ⟨?_, fun c hin hck => ?_, h.counts.confirm (values k)⟩
  · show (List.map _ (w.worksOf k)).Perm ((w.settings k).confirm (values k)).sender.running.toList
    rw [hs]
    exact h.drains
  · show ((w.settings k).confirm (values k)).sender.running = _
    rw [hs]
    exact h.callers c hin hck

/-- Every event keeps the invariant. -/
theorem Inv.step (h : Inv settleMs k w) {e : Event} (hs : w.step settleMs e = some w') :
    Inv settleMs k w' := by
  cases e with
  | call key raw =>
    obtain rfl := Option.some.inj hs
    exact h.call raw
  | task =>
    simp only [World.step, World.task] at hs
    split at hs
    · cases hs
    next t queue hq =>
      cases t with
      | resume key d err =>
        obtain rfl := Option.some.inj hs
        exact h.resume hq err.isNone
      | finish key d ok =>
        obtain rfl := Option.some.inj hs
        exact h.finish hq
      | settle key ok =>
        obtain rfl := Option.some.inj hs
        exact h.settle (w.shown key) hq
  | result i err =>
    obtain ⟨r, hr, rfl⟩ := Option.map_eq_some_iff.mp hs
    exact h.result hr
  | state values =>
    obtain rfl := Option.some.inj hs
    exact h.state values
  | timer key =>
    obtain ⟨⟨-, hdue⟩, heq⟩ := Option.ite_none_right_eq_some.mp hs
    obtain rfl := Option.some.inj heq
    show Inv settleMs k ((w.dequeue w.queue).modify key Setting.expire)
    refine h.modify (fun s => Setting.expire_keeps.1) (.refl _) (fun _ => rfl) fun hk => ?_
    subst hk
    exact h.counts.expire hdue
  | wait ms =>
    obtain rfl := Option.some.inj hs
    exact ⟨h.drains, h.callers, h.counts⟩

/-! ## A value in `next` is sent -/

/-- An event that does not touch what is given and sent, and ends no loop. -/
theorem Kept.other (h : Kept k w) (hs : (w'.settings k).sender = (w.settings k).sender)
    (hg : (w'.settings k).given = (w.settings k).given)
    (ht : (w'.settings k).sent = (w.settings k).sent)
    (hw : ∀ x ∈ w'.worksOf k, x ∈ w.worksOf k ∨ x.ended = false) : Kept k w' := by
  refine ⟨fun hn => ?_, fun value hn => ?_⟩
  · rw [hg, ht]
    exact h.sent (hs ▸ hn)
  · obtain ⟨hgiven, hrun, hworks⟩ := h.next value (hs ▸ hn)
    refine ⟨hg.trans hgiven, hs ▸ hrun, fun x hx => ?_⟩
    exact (hw x hx).elim (hworks x) id

theorem worksOf_of_perm {x : Work} {rest : List Work} (hx : w.works.Perm (x :: rest)) :
    ∀ y ∈ w.worksOf k, y = x ∧ x.key = k ∨ y ∈ rest.filter (·.key = k) := by
  intro y hy
  obtain ⟨hin, hk⟩ := List.mem_filter.mp hy
  have hk : y.key = k := of_decide_eq_true hk
  rcases List.mem_cons.mp (hx.mem_iff.mp hin) with rfl | hin
  · exact .inl ⟨rfl, hk⟩
  · exact .inr (List.mem_filter.mpr ⟨hin, decide_eq_true hk⟩)

theorem rest_mem_worksOf {x y : Work} {rest : List Work} (hx : w.works.Perm (x :: rest))
    (hy : y ∈ rest.filter (·.key = k)) : y ∈ w.worksOf k := by
  obtain ⟨hin, hk⟩ := List.mem_filter.mp hy
  exact List.mem_filter.mpr ⟨hx.mem_iff.mpr (List.mem_cons_of_mem _ hin), hk⟩

/-- A call on time leaves no value behind. -/
theorem Kept.call (h : Kept k w) {raw : JsNumber} (ht : w.OnTime (.call key raw)) :
    Kept k (w.setting key raw) := by
  cases hv : key.value raw with
  | none => simpa [setting, hv] using h
  | some value =>
    by_cases hk : k = key
    · subst hk
      have hgap := ht (by rw [hv]; exact Option.some_ne_none value)
      have hsame := setting_same (w := w) hv
      cases hr : (w.settings k).sender.running with
      | none =>
        rw [hr] at hsame
        refine ⟨fun _ => ?_, fun value hn => ?_⟩
        · rw [hsame]
          simp
        · rw [hsame] at hn
          cases hn
      | some d =>
        rw [hr] at hsame
        refine ⟨fun hn => ?_, fun value' hn => ?_⟩
        · rw [hsame] at hn
          cases hn
        · rw [hsame] at hn ⊢
          obtain rfl : value = value' := Option.some.inj hn
          refine ⟨Setting.hold_given value, Option.some_ne_none _, fun x hx => ?_⟩
          rw [worksOf, setting_works_busy hv hr] at hx
          -- only a `finish` has ended its loop
          obtain ⟨hin, hxk⟩ := List.mem_filter.mp hx
          rcases List.mem_append.mp hin with hin | hin
          · obtain ⟨r, -, rfl⟩ := List.mem_map.mp hin
            rfl
          · obtain ⟨t, htask, hwork⟩ := List.mem_filterMap.mp hin
            cases t with
            | resume key d err => exact Option.some.inj hwork ▸ rfl
            | finish key d ok =>
              obtain rfl := Option.some.inj hwork
              obtain rfl : key = k := of_decide_eq_true hxk
              exact absurd ⟨d, ok, htask⟩ hgap
            | settle key ok => cases hwork
    · have hset : (w.setting key raw).settings k = w.settings k := setting_other hk
      refine h.other (hset ▸ rfl) (hset ▸ rfl) (hset ▸ rfl) fun x hx => ?_
      cases hr : (w.settings key).sender.running with
      | some d =>
        rw [worksOf, setting_works_busy hv hr] at hx
        exact .inl hx
      | none =>
        obtain ⟨-, hkey⟩ | hin := worksOf_of_perm (setting_works_idle hv hr) x hx
        · exact absurd hkey.symm hk
        · exact .inl hin

/-- A task that resumes leaves no value behind. -/
theorem Kept.resume (h : Kept k w) {d : Nat} {err : Option Text} {queue : List Task}
    (hq : w.queue = .resume key d err :: queue) (ok : Bool) :
    Kept k ((w.resumed queue err).drain key d ok) := by
  have hsettings : ((w.resumed queue err).drain key d ok).settings k = _ := drain_settings d ok
  by_cases hk : k = key
  · subst hk
    rw [if_pos rfl] at hsettings
    have hnext : (w.settings k).flush.sender.next = none ∧
        (w.settings k).flush.sent = (w.settings k).flush.given := by
      unfold Setting.flush
      cases hn : (w.settings k).sender.next with
      | none => exact ⟨hn, h.sent hn⟩
      | some value => exact ⟨rfl, (h.next value hn).1.symm⟩
    refine ⟨fun _ => ?_, fun value hn => ?_⟩
    · rw [hsettings]
      exact hnext.2
    · rw [hsettings] at hn
      cases hnext.1.symm.trans hn
  · rw [if_neg hk] at hsettings
    refine h.other (hsettings ▸ rfl) (hsettings ▸ rfl) (hsettings ▸ rfl) fun x hx => ?_
    obtain ⟨-, hkey⟩ | hin := worksOf_of_perm (drain_works d ok) x hx
    · exact absurd hkey.symm hk
    · exact .inl (rest_mem_worksOf (works_head hq) hin)

/-- A task that finishes leaves no value behind. -/
theorem Kept.finish (h : Kept k w) {d : Nat} {ok : Bool} {queue : List Task}
    (hq : w.queue = .finish key d ok :: queue) : Kept k ((w.dequeue queue).finish key d ok) := by
  have hhead := works_head hq
  by_cases hk : k = key
  · subst hk
    -- a value in `next` would have a loop that goes on
    have hnone : (w.settings k).sender.next = none := by
      cases hn : (w.settings k).sender.next with
      | none => rfl
      | some value =>
        have hin : Work.mk k d true ∈ w.worksOf k :=
          List.mem_filter.mpr ⟨hhead.mem_iff.mpr List.mem_cons_self, decide_eq_true rfl⟩
        cases (h.next value hn).2.2 _ hin
    refine ⟨fun _ => ?_, fun value hn => ?_⟩
    · have := h.sent hnone
      simpa [World.finish, World.modify] using this
    · simp [World.finish, World.modify, hnone] at hn
  · have hset : ((w.dequeue queue).finish key d ok).settings k = w.settings k := by
      simp [World.finish, World.modify, hk]
    refine h.other (hset ▸ rfl) (hset ▸ rfl) (hset ▸ rfl) fun x hx => ?_
    rw [worksOf, finish_works] at hx
    exact .inl (rest_mem_worksOf hhead hx)

/-- A change of the override alone leaves no value behind. -/
theorem Kept.modify (h : Kept k w) {f : Setting → Setting}
    (hs : ∀ s, (f s).sender = s.sender ∧ (f s).given = s.given ∧ (f s).sent = s.sent)
    {queue : List Task} (hworks : (w.dequeue queue).works.Perm w.works) :
    Kept k ((w.dequeue queue).modify key f) := by
  have hset : ∀ s : Setting, s = w.settings k ∨ s = f (w.settings k) →
      s.sender = (w.settings k).sender ∧ s.given = (w.settings k).given ∧
        s.sent = (w.settings k).sent := by
    rintro s (rfl | rfl)
    · exact ⟨rfl, rfl, rfl⟩
    · exact hs _
  obtain ⟨hsender, hgiven, hsent⟩ := hset (((w.dequeue queue).modify key f).settings k) <| by
    by_cases hk : k = key
    · subst hk
      exact .inr (modify_same f)
    · exact .inl (modify_other f hk)
  exact h.other hsender hgiven hsent fun x hx => .inl ((hworks.filter _).mem_iff.mp hx)

/-- An event on time leaves no value behind. -/
theorem Kept.step (h : Kept k w) {e : Event} (ht : w.OnTime e) (hs : w.step settleMs e = some w') :
    Kept k w' := by
  cases e with
  | call key raw =>
    obtain rfl := Option.some.inj hs
    exact h.call ht
  | task =>
    simp only [World.step, World.task] at hs
    split at hs
    · cases hs
    next t queue hq =>
      cases t with
      | resume key d err =>
        obtain rfl := Option.some.inj hs
        exact h.resume hq err.isNone
      | finish key d ok =>
        obtain rfl := Option.some.inj hs
        exact h.finish hq
      | settle key ok =>
        obtain rfl := Option.some.inj hs
        exact h.modify (fun s => Setting.settle_keeps (w.shown key) ok) (works_head hq).symm
  | result i err =>
    obtain ⟨r, hr, rfl⟩ := Option.map_eq_some_iff.mp hs
    refine h.other rfl rfl rfl fun x hx => ?_
    obtain ⟨hin, hk⟩ := List.mem_filter.mp hx
    have hin : x ∈ (w.requests.eraseIdx i).map Request.work ++
        (w.queue ++ [Task.resume r.key r.drain err]).filterMap Task.work := hin
    rw [List.filterMap_append, ← List.append_assoc] at hin
    rcases List.mem_append.mp hin with hin | hin
    · refine .inl (List.mem_filter.mpr ⟨?_, hk⟩)
      rcases List.mem_append.mp hin with hin | hin
      · obtain ⟨r', hr', rfl⟩ := List.mem_map.mp hin
        exact List.mem_append_left _ (List.mem_map_of_mem (List.mem_of_mem_eraseIdx hr'))
      · exact List.mem_append_right _ hin
    · obtain rfl := List.mem_singleton.mp hin
      exact .inr rfl
  | state values =>
    obtain rfl := Option.some.inj hs
    obtain ⟨hsender, hgiven, hsent⟩ := Setting.confirm_keeps (s := w.settings k) (values k)
    exact h.other hsender hgiven hsent fun x hx => .inl hx
  | timer key =>
    obtain ⟨-, heq⟩ := Option.ite_none_right_eq_some.mp hs
    obtain rfl := Option.some.inj heq
    show Kept k ((w.dequeue w.queue).modify key Setting.expire)
    exact h.modify (fun s => Setting.expire_keeps) (.refl _)
  | wait ms =>
    obtain rfl := Option.some.inj hs
    exact ⟨h.sent, h.next⟩

/-! ## Every change is sent -/

/-- No request of the setting is in flight, and no task is left. -/
def Quiet (w : World) (k : Key) : Prop := (∀ r ∈ w.requests, r.key ≠ k) ∧ w.queue = []

/-- No change is lost, and no override stays. -/
structure Lossless (settleMs : Nat) (w : World) : Prop where
  single : ∀ k, (w.requests.filter (·.key = k)).length ≤ 1
  last : ∀ k, w.Quiet k →
    (w.settings k).sent = (w.settings k).given ∧ (w.settings k).sender.next = none
  /-- Once the time has passed, and the timer has fired that was due. -/
  overrides : ∀ k, w.Quiet k → (w.settings k).settledAt + settleMs ≤ w.clock →
    (w.settings k).due w.clock = false → (w.settings k).pending = none

theorem init_inv (settleMs : Nat) (k : Key) : Inv settleMs k {} :=
  ⟨.refl _, fun _ hin => absurd hin List.not_mem_nil, ⟨fun _ => rfl, fun _ hp => by cases hp⟩⟩

theorem init_kept (k : Key) : Kept k {} := ⟨fun _ => rfl, fun _ hn => by cases hn⟩

/-- A setting has at most one request in flight. -/
theorem Inv.single (h : Inv settleMs k w) : (w.requests.filter (·.key = k)).length ≤ 1 := by
  have hworks : (w.worksOf k).length ≤ 1 := by
    rw [← List.length_map (·.drain), h.drains.length_eq]
    cases (w.settings k).sender.running with
    | none => exact Nat.zero_le 1
    | some d => exact Nat.le_refl 1
  have hreq : ((w.requests.map Request.work).filter (·.key = k)).length =
      (w.requests.filter (·.key = k)).length := by
    rw [List.filter_map, List.length_map]
    rfl
  unfold worksOf works at hworks
  rw [List.filter_append, List.length_append, hreq] at hworks
  omega

/-- With nothing under way no drain is running. -/
theorem Inv.idle (h : Inv settleMs k w) (hq : w.Quiet k) :
    (w.settings k).sender.running = none := by
  have hnil : w.worksOf k = [] := by
    refine List.filter_eq_nil_iff.mpr fun x hx => ?_
    rw [works, hq.2, List.filterMap_nil, List.append_nil] at hx
    obtain ⟨r, hr, rfl⟩ := List.mem_map.mp hx
    intro hk
    exact hq.1 r hr (of_decide_eq_true hk)
  have hdrains := h.drains
  rw [hnil] at hdrains
  cases hr : (w.settings k).sender.running with
  | none => rfl
  | some d =>
    rw [hr] at hdrains
    cases hdrains.symm.eq_nil

/-- When all is quiet and the time is over, no override is left. -/
theorem Inv.overrides (h : Inv settleMs k w) (hq : w.Quiet k)
    (hclock : (w.settings k).settledAt + settleMs ≤ w.clock)
    (hdue : (w.settings k).due w.clock = false) :
    (w.settings k).pending = none := by
  have hcalls : w.calls.count k = 0 := by
    rw [calls, hq.2, List.filterMap_nil, List.append_nil]
    refine List.count_eq_zero.mpr fun hin => ?_
    obtain ⟨c, hc, hck⟩ := List.mem_map.mp hin
    have hrun := h.callers c hc hck
    rw [h.idle hq] at hrun
    cases hrun
  cases hp : (w.settings k).pending with
  | none => rfl
  | some p =>
    -- its timer was set when the last call settled
    have htimer := (h.counts.held p hp).2
    rw [hcalls, if_pos rfl] at htimer
    rw [Setting.due, hp, Option.bind_some, htimer, Option.any_some, decide_eq_true hclock] at hdue
    cases hdue

theorem Kept.last (h : Kept k w) (hi : Inv settleMs k w) (hq : w.Quiet k) :
    (w.settings k).sent = (w.settings k).given ∧ (w.settings k).sender.next = none := by
  cases hn : (w.settings k).sender.next with
  | none => exact ⟨h.sent hn, rfl⟩
  | some value => exact absurd (hi.idle hq) (h.next value hn).2.1

end World

/-- **No change of a setting is lost** in a run without a value given between the end of a
drain's loop and its callback: one request at most of a setting is in flight, and when none is and
no task is left, the last value given is the last one sent. -/
theorem changes_sent (settleMs : Nat) {es : List Event} {w : World}
    (hm : (runs settleMs).Meets World.OnTime {} es) (hr : (runs settleMs).run {} es = some w) :
    w.Lossless settleMs := by
  have hinv : ∀ k, World.Inv settleMs k w := by
    intro k
    exact (runs settleMs).run_invariant (fun _ _ _ h hs => h.step hs) (World.init_inv settleMs k) hr
  have hkept : ∀ k, World.Kept k w := by
    intro k
    exact (runs settleMs).run_invariant_of (fun _ _ _ ht h hs => h.step ht hs) hm
      (World.init_kept k) hr
  exact ⟨fun k => (hinv k).single, fun k => (hkept k).last (hinv k), fun k => (hinv k).overrides⟩

/-- Two values in one turn: the second one follows the first. -/
def twoValues : List Event :=
  [.call .volume (.finite 30), .call .volume (.finite 50), .result 0 none, .task, .result 0 none,
    .task, .task]

/-- Two values are set, and the second is sent. -/
theorem changes_sent_two : ∃ w, (runs 1000).run {} twoValues = some w ∧ w.Lossless 1000 ∧
    (w.settings .volume).sent = some 50 := by
  have hrun : ((runs 1000).run {} twoValues).map (fun w => (w.settings .volume).sent) = some
      (some 50) := by
    decide +kernel
  obtain ⟨w, hw, hsent⟩ := Option.map_eq_some_iff.mp hrun
  refine ⟨w, hw, changes_sent 1000 ?_ hw, hsent⟩
  refine ⟨fun _ ⟨_, _, hin⟩ => absurd hin List.not_mem_nil, fun t ht => ⟨fun _ ⟨_, _, hin⟩ => ?_,
    fun _ _ => ⟨trivial, fun _ _ => ⟨trivial, fun _ _ => ⟨trivial, fun _ _ => ⟨trivial, fun _ _ =>
      ⟨trivial, fun _ _ => trivial⟩⟩⟩⟩⟩⟩⟩
  obtain rfl := Option.some.inj ht
  rw [World.setting_queue] at hin
  exact absurd hin List.not_mem_nil

/-- The second value comes when the drain has found no more and its callback waits. -/
def lateValue : List Event :=
  [.call .volume (.finite 30), .result 0 none, .task, .call .volume (.finite 50), .task,
    .task, .task]

/-- It is never sent. -/
theorem late_value_kept : ¬ ∀ (settleMs : Nat) (es : List Event) (w : World),
    (runs settleMs).run {} es = some w → w.Lossless settleMs := by
  intro hall
  have hrun : ((runs 1000).run {} lateValue).map (fun w => (w.requests, w.queue,
      (w.settings .volume).sender.next)) = some ([], [], some 50) := by
    decide +kernel
  obtain ⟨w, hw, heq⟩ := Option.map_eq_some_iff.mp hrun
  obtain ⟨hreq, heq⟩ := Prod.mk.inj heq
  obtain ⟨hqueue, hnext⟩ := Prod.mk.inj heq
  have hquiet : w.Quiet .volume := ⟨fun r hr => absurd (hreq ▸ hr) List.not_mem_nil, hqueue⟩
  have hlast := ((hall 1000 lateValue w hw).last .volume hquiet).2
  rw [hnext] at hlast
  cases hlast

end Sonara.Player
