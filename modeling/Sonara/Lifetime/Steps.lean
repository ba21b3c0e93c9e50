import Sonara.Lifetime.Log

/-!
# What a step of a thread does

A thread counts on facts about the memory at each place of its task (`Conn.Knows`, `Press.Knows`,
`Monitor.Knows`). No other thread takes them away (`others`), since inside a critical section it is
the one with the admission lock; and each step of its own is an `Access` and leaves it with what its
next place counts on (`Conn.step_spec`, `Press.step_spec`, `Monitor.step_spec`).
-/

namespace Sonara.Lifetime

variable {S : Setup} {s s' : Shared} {who : Who}

/-! ## What a thread knows -/

/-- It is in a critical section. -/
def Phase.inside : Phase → Bool
  | .weighing => true
  | .admitted => true
  | .carried => true
  | _ => false

/-- Its request is carried out and the reply not sent. -/
def Phase.pending : Phase → Nat
  | .carried => 1
  | .done => 1
  | _ => 0

/-- What the log says of a connection. -/
structure Conn.Counts (i : Nat) (c : Conn) (log : List Act) : Prop where
  replied : log.count (.carry (.conn i)) = log.count (.accept i) + c.phase.pending
  joined : log.count (.join i) = log.count (.leave i) + c.joined.toNat

/-- What a connection's task can count on. -/
structure Conn.Knows (i : Nat) (s : Shared) (c : Conn) : Prop where
  inside : c.phase.inside = true → s.lock = some (.conn i)
  admitted : c.phase = .admitted → s.retiring = false
  ending : c.phase = .ending → s.retiring = true
  counts : Counts i c s.log

/-- What another party does leaves a connection what it counts on. -/
theorem Conn.Knows.others {i : Nat} {c : Conn} (K : c.Knows i s) (A : Access S who s s')
    (hne : who ≠ .conn i) :
    c.Knows i s' where
  inside h := (A.other (K.inside h) hne.symm).1
  admitted h := by
    have hlock := K.inside (by rw [h]; rfl)
    rw [(A.other hlock hne.symm).2]
    exact K.admitted h
  ending h := A.retired (K.ending h)
  counts :=
    { replied := by
        rw [A.count hne (e := .carry (.conn i)) rfl, A.count hne (e := .accept i) rfl,
          K.counts.replied]
      joined := by
        rw [A.count hne (e := .join i) rfl, A.count hne (e := .leave i) rfl, K.counts.joined] }

/-- What the hotkey thread can count on. -/
structure Press.Knows (s : Shared) (p : Press) : Prop where
  inside : p ≠ .idle → s.lock = some .hotkey
  admitted : p = .admitted → s.retiring = false

theorem Press.Knows.others {p : Press} (K : p.Knows s) (A : Access S who s s')
    (hne : who ≠ .hotkey) :
    p.Knows s' where
  inside h := (A.other (K.inside h) hne.symm).1
  admitted h := by
    have hlock := K.inside (by rw [h]; exact fun hp => Press.noConfusion hp)
    rw [(A.other hlock hne.symm).2]
    exact K.admitted h

/-- The monitor is in its critical section. -/
structure Decides (S : Setup) (s : Shared) : Prop where
  lock : s.lock = some .monitor
  retiring : s.retiring = false
  alone : S.standalone = false

theorem Decides.others (D : Decides S s) (A : Access S who s s') (hne : who ≠ .monitor) :
    Decides S s' where
  lock := (A.other D.lock hne.symm).1
  retiring := by rw [(A.other D.lock hne.symm).2, D.retiring]
  alone := D.alone

/-- What the monitor can count on: the log as it was when it read what it decides on. -/
def Monitor.Knows (S : Setup) (s : Shared) : Monitor → Prop
  | .locked => s.lock = some .monitor
  | .lockedUnkept => Decides S s ∧ ∃ a, Since a s.log ∧ .keep ∉ a
  | .lockedAlone =>
    Decides S s ∧ ∃ a b, Since a s.log ∧ a <+: b ∧ b <+: s.log ∧ .keep ∉ a ∧ AllLeft b
  | .lockedExpired time => Decides S s ∧ time ≤ s.now ∧ ∃ a b c, Idle S s.log time a b c
  | .agreed => s.retiring = true
  | _ => True

/-- What another party does leaves the monitor what it counts on. -/
theorem Monitor.Knows.others {m : Monitor} (K : m.Knows S s) (A : Access S who s s')
    (hne : who ≠ .monitor) :
    m.Knows S s' := by
  cases m with
  | locked => exact (A.other K hne.symm).1
  | lockedUnkept =>
    obtain ⟨D, a, ha, hk⟩ := K
    exact ⟨D.others A hne, a, A.since D.lock hne.symm ha, hk⟩
  | lockedAlone =>
    obtain ⟨D, a, b, ha, hab, hb, hk, hleft⟩ := K
    exact ⟨D.others A hne, a, b, A.since D.lock hne.symm ha, hab, A.prefix_log hb, hk, hleft⟩
  | lockedExpired time =>
    obtain ⟨D, htime, a, b, c, h⟩ := K
    refine ⟨D.others A hne, A.now.symm ▸ htime, a, b, c, ?_⟩
    exact ⟨h.alone, A.since D.lock hne.symm h.first, h.second, h.third, A.prefix_log h.last,
      h.unkept, h.left, h.expired⟩
  | agreed => exact A.retired K
  | _ => trivial

/-! ## The steps -/

namespace Conn

variable {i : Nat} {c : Conn} {log : List Act} {http : Bool}

theorem Counts.goto (C : Counts i c log) {p : Phase} (hp : p.pending = c.phase.pending) :
    Counts i (c.goto p) log where
  replied := by rw [C.replied, ← hp]; rfl
  joined := C.joined

theorem Counts.act (C : Counts i c log) {e : Act} (he : e.of ≠ some i) :
    Counts i c (log ++ [e]) := by
  have hne : ∀ x : Act, x.of = some i → (log ++ [e]).count x = log.count x := by
    intro x hx
    rw [List.count_append, List.count_singleton, if_neg, Nat.add_zero]
    intro hex
    rw [beq_iff_eq] at hex
    exact he (hex ▸ hx)
  constructor
  · rw [hne _ rfl, hne _ rfl, C.replied]
  · rw [hne _ rfl, hne _ rfl, C.joined]

/-- Out of a critical section and with nothing to end. -/
theorem Knows.out (C : Counts i c s.log) (hin : c.phase.inside = false) (hend : c.phase ≠ .ending) :
    c.Knows i s where
  inside h := by rw [hin] at h; cases h
  admitted h := by rw [h] at hin; cases hin
  ending h := absurd h hend
  counts := C

/-- An access that the rule lets a connection make any time. -/
theorem allowed {e : Act} (hrule : Rule S s.log e) (hof : e.of = none ∨ e.of = some i)
    (hfree : e.guarded = false) :
    Allowed S (.conn i) s e where
  rule := hrule
  own j hj := by
    rcases hof with h | h
    · cases hj.symm.trans h
    · rw [Option.some.inj (hj.symm.trans h)]
  lock h := by rw [hfree] at h; cases h
  time time ht := by rw [ht] at hfree; cases hfree

/-- `E_BUSY`. -/
theorem refused (K : c.Knows i s) (h : Retired s.log ∨ ∃ why, .exit why ∈ s.log)
    (hp : c.phase.pending = 0) :
    Access S (.conn i) s (s.act (.refuse i)) ∧ (c.goto .free).Knows i (s.act (.refuse i)) := by
  refine ⟨.act _ (allowed h (.inl rfl) rfl), .out ?_ rfl (fun h => Phase.noConfusion h)⟩
  rw [act_log]
  exact (K.counts.goto (p := .free) hp.symm).act (by intro h; cases h)

theorem Books.exit_log (B : Books S s) (h : s.life.exit.isSome = true) :
    ∃ why, .exit why ∈ s.log := by
  rw [B.exit] at h
  obtain ⟨why, hwhy⟩ := Option.isSome_iff_exists.mp h
  obtain ⟨e, he, hreason⟩ := List.exists_of_findSome?_eq_some hwhy
  cases e with
  | exit why => exact ⟨why, he⟩
  | _ => cases hreason

/-- A step in which the task only goes on. -/
theorem moved (K : c.Knows i s) {p : Phase} (hp : p.pending = c.phase.pending)
    (hin : p.inside = false) (hend : p ≠ .ending) : Access S (.conn i) s s ∧ (c.goto p).Knows i s :=
  ⟨.nothing, .out (K.counts.goto hp) hin hend⟩

/-- A step in which the task only goes on, after an access of no connection's place. -/
theorem acted (K : c.Knows i s) {e : Act} (he : Rule S s.log e) (hof : e.of = none)
    (hguard : e.guarded = false) {p : Phase} (hp : p.pending = c.phase.pending)
    (hin : p.inside = false) (hend : p ≠ .ending) :
    Access S (.conn i) s (s.act e) ∧ (c.goto p).Knows i (s.act e) := by
  refine ⟨.act _ (allowed he (.inl hof) hguard), .out ?_ hin hend⟩
  rw [act_log]
  exact (K.counts.goto hp).act (by rw [hof]; intro h; cases h)

/-- Dispatching a request does what the kind allows, and no more. -/
theorem dispatch_spec (B : Books S s) (K : c.Knows i s) {kind : Kind}
    (hc : c.phase = .dispatched kind) {answer : Bool}
    {r : Shared × Conn} (h : dispatch i answer s c kind = some r) :
    Access S (.conn i) s r.1 ∧ r.2.Knows i r.1 := by
  have hpending : c.phase.pending = 0 := by rw [hc]; rfl
  have hfree : ¬s.lock.isSome = true → s.lock = none :=
    fun hl => Option.not_isSome_iff_eq_none.mp hl
  cases kind with
  | hello takeover keepAlive =>
    unfold dispatch at h
    dsimp only at h
    split at h
    · cases h
      exact moved K hpending.symm rfl fun h => Phase.noConfusion h
    · split at h
      · split at h
        · cases h
        next hl =>
          cases h
          refine ⟨.take (hfree hl), fun _ => rfl, fun h => Phase.noConfusion h,
            fun h => Phase.noConfusion h, ?_⟩
          exact K.counts.goto hpending.symm
      · cases h
        cases keepAlive with
        | false => exact moved K hpending.symm rfl fun h => Phase.noConfusion h
        | true =>
          refine ⟨.act _ (allowed (e := .keep) trivial (.inl rfl) rfl),
            .out ?_ rfl fun h => Phase.noConfusion h⟩
          rw [if_pos rfl, act_log]
          exact (K.counts.goto (p := .greeted) hpending.symm).act (by intro h; cases h)
  | speech =>
    unfold dispatch admitRequest at h
    dsimp only at h
    split at h
    · cases h
    next hl =>
      split at h
      next hr =>
        cases h
        exact refused K (.inl (B.retiring.mp hr)) hpending
      next hr =>
        cases h
        refine ⟨.take (hfree hl), fun _ => rfl, fun _ => Bool.eq_false_iff.mpr hr,
          fun h => Phase.noConfusion h, ?_⟩
        exact K.counts.goto hpending.symm
  | unlocked =>
    cases h
    exact acted K (e := .start i) trivial rfl rfl hpending.symm rfl fun h => Phase.noConfusion h
  | plain =>
    cases h
    exact moved K hpending.symm rfl fun h => Phase.noConfusion h
  | shutdown =>
    unfold dispatch at h
    dsimp only at h
    split at h
    · cases h
    next hl =>
      cases h
      refine ⟨.act (.retire .shutdown) ⟨trivial, (by intro j hj; cases hj),
        fun _ => .inl (hfree hl), (by intro t ht; cases ht)⟩, ?_⟩
      refine ⟨fun h => Bool.noConfusion h, fun h => Phase.noConfusion h, fun _ => ?_, ?_⟩
      · rw [act_retiring]
        exact Bool.or_true _
      · rw [act_log]
        exact (K.counts.goto (p := .ending) hpending.symm).act (by intro h; cases h)
  | events =>
    cases h
    exact moved K hpending.symm rfl fun h => Phase.noConfusion h

/-- The connection counts as a client. -/
theorem Counts.join (C : Counts i c log) (hj : c.joined = false) (hp : c.phase.pending = 0)
    (authed : Bool) :
    Counts i ⟨authed, true, .counted⟩ (log ++ [.join i]) where
  replied := by
    rw [List.count_append, List.count_append, C.replied, hp]
    rfl
  joined := by
    rw [List.count_append, List.count_append, C.joined, hj, List.count_singleton_self]
    rfl

/-- It counts no more. -/
theorem Counts.leave (C : Counts i c log) (hj : c.joined = true) (hp : c.phase.pending = 0)
    (authed : Bool) :
    Counts i ⟨authed, false, .counted⟩ (log ++ [.leave i]) where
  replied := by
    rw [List.count_append, List.count_append, C.replied, hp]
    rfl
  joined := by
    rw [List.count_append, List.count_append, C.joined, hj, List.count_singleton_self]
    rfl

/-- Its request is carried out. -/
theorem Counts.carry (C : Counts i c log) (hp : c.phase.pending = 0) :
    Counts i (c.goto .carried) (log ++ [.carry (.conn i)]) where
  replied := by
    rw [List.count_append, List.count_append, C.replied, hp, List.count_singleton_self]
    rfl
  joined := by
    rw [List.count_append, List.count_append, C.joined]
    rfl

/-- The reply to it is out. -/
theorem Counts.accept (C : Counts i c log) (hp : c.phase.pending = 1) :
    Counts i (c.goto .free) (log ++ [.accept i]) where
  replied := by
    rw [List.count_append, List.count_append, C.replied, hp, List.count_singleton_self]
    rfl
  joined := by
    rw [List.count_append, List.count_append, C.joined]
    rfl

/-- A connection whose task goes on, over HTTP with no stream open. -/
def Streams (http : Bool) (c : Conn) : Prop :=
  http = true → c.joined = true → c.phase = .free ∨ c.phase = .counted ∨
    ∃ time, c.phase = .counting time

/-- **What the task of a connection does**, in one step. -/
theorem go_spec (B : Books S s) (K : c.Knows i s) (hs : Streams http c) {answer : Bool}
    {r : Shared × Conn}
    (h : go http i answer s c = some r) : Access S (.conn i) s r.1 ∧ r.2.Knows i r.1 := by
  unfold go at h
  cases hc : c.phase with
  | free =>
    rw [hc] at h
    cases h
  | clocked kind time =>
    rw [hc] at h
    cases h
    exact acted K (e := .touch time) trivial rfl rfl (by rw [hc]; rfl) rfl fun h =>
      Phase.noConfusion h
  | touched kind =>
    have hpending : c.phase.pending = 0 := by rw [hc]; rfl
    rw [hc] at h
    dsimp only at h
    split at h
    -- It is refused once an exit was asked for; an HTTP stream joins here.
    next hexit =>
      cases h
      rw [Bool.and_eq_true] at hexit
      exact refused K (.inr (Books.exit_log B hexit.2)) hpending
    · split at h
      · split at h
        next hhttp =>
          cases h
          have hj : c.joined = false := by
            by_contra hj
            rcases hs hhttp (Bool.not_eq_false _ ▸ hj) with h | h | ⟨time, h⟩ <;> rw [hc]
              at h <;> cases h
          refine ⟨.act _ (allowed (e := .join i) trivial (.inr rfl) rfl),
            .out ?_ rfl fun h => Phase.noConfusion h⟩
          rw [act_log]
          exact K.counts.join hj hpending c.authed
        · cases h
          exact moved K hpending.symm rfl fun h => Phase.noConfusion h
      · cases h
        exact moved K hpending.symm rfl fun h => Phase.noConfusion h
  | handled kind =>
    have hpending : c.phase.pending = 0 := by rw [hc]; rfl
    rw [hc] at h
    dsimp only at h
    split at h
    · cases h
      exact moved K hpending.symm rfl fun h => Phase.noConfusion h
    · split at h
      · cases h
        exact moved K hpending.symm rfl fun h => Phase.noConfusion h
      · split at h
        next hexit =>
          cases h
          exact refused K (.inr (Books.exit_log B hexit)) hpending
        · cases h
          exact moved K hpending.symm rfl fun h => Phase.noConfusion h
  | asked kind =>
    have hpending : c.phase.pending = 0 := by rw [hc]; rfl
    rw [hc] at h
    dsimp only at h
    split at h
    · cases h
    · split at h
      next hr =>
        cases h
        exact refused K (.inl (B.retiring.mp hr)) hpending
      · cases h
        exact moved K hpending.symm rfl fun h => Phase.noConfusion h
  | dispatched kind =>
    rw [hc] at h
    exact dispatch_spec B K hc h
  | weighing =>
    have hpending : c.phase.pending = 0 := by rw [hc]; rfl
    have hlock := K.inside (by rw [hc]; rfl)
    rw [hc] at h
    dsimp only at h
    split at h
    -- A takeover retires the runtime while the lock is held.
    · cases h
      refine ⟨.last (.retire .takeover) ⟨trivial, (by intro j hj; cases hj), fun _ => .inr hlock,
        (by intro t ht; cases ht)⟩ hlock, ?_⟩
      refine ⟨fun h => Bool.noConfusion h, fun h => Phase.noConfusion h, fun _ => ?_, ?_⟩
      · show (s.act (.retire .takeover)).retiring = true
        rw [act_retiring]
        exact Bool.or_true _
      · show Counts i _ (s.act (.retire .takeover)).log
        rw [act_log]
        exact (K.counts.goto (p := .ending) hpending.symm).act (by intro h; cases h)
    · cases h
      exact ⟨.free hlock, .out (K.counts.goto (p := .free) hpending.symm) rfl fun h =>
        Phase.noConfusion h⟩
  | admitted =>
    have hpending : c.phase.pending = 0 := by rw [hc]; rfl
    have hlock := K.inside (by rw [hc]; rfl)
    have hopen := K.admitted hc
    rw [hc] at h
    cases h
    -- Nothing retired the runtime since the look under the lock.
    have hrule : Rule S s.log (.carry (.conn i)) := by
      intro hr
      rw [B.retiring.mpr hr] at hopen
      cases hopen
    refine ⟨.act (.carry (.conn i)) ⟨hrule, fun j hj => congrArg Who.conn (Option.some.inj hj),
      fun _ => .inr hlock,
      (by intro t ht; cases ht)⟩, ?_⟩
    refine ⟨fun _ => (act_lock s _).trans hlock, fun h => Phase.noConfusion h,
      fun h => Phase.noConfusion h, ?_⟩
    rw [act_log]
    exact K.counts.carry hpending
  | carried =>
    have hlock := K.inside (by rw [hc]; rfl)
    rw [hc] at h
    cases h
    refine ⟨.free hlock, .out (K.counts.goto (p := .done) ?_) rfl fun h => Phase.noConfusion h⟩
    rw [hc]
    rfl
  | done =>
    rw [hc] at h
    cases h
    refine ⟨.act _ (allowed (e := .accept i) trivial (.inr rfl) rfl),
      .out ?_ rfl fun h => Phase.noConfusion h⟩
    rw [act_log]
    exact K.counts.accept (by rw [hc]; rfl)
  | ending =>
    have hpending : c.phase.pending = 0 := by rw [hc]; rfl
    have hretired := B.retiring.mp (K.ending hc)
    rw [hc] at h
    cases h
    cases answer with
    | false => exact moved K hpending.symm rfl fun h => Phase.noConfusion h
    | true =>
      exact acted K (e := .exit .takeover) (.inr hretired) rfl rfl hpending.symm rfl fun h =>
        Phase.noConfusion h
  | greeted =>
    have hpending : c.phase.pending = 0 := by rw [hc]; rfl
    rw [hc] at h
    dsimp only at h
    split at h
    next hjoin =>
      cases h
      rw [Bool.and_eq_true, Bool.not_eq_true', Bool.not_eq_true'] at hjoin
      refine ⟨.act _ (allowed (e := .join i) trivial (.inr rfl) rfl),
        .out ?_ rfl fun h => Phase.noConfusion h⟩
      rw [act_log]
      exact K.counts.join hjoin.2 hpending true
    · cases h
      refine ⟨.nothing, .out ⟨?_, K.counts.joined⟩ rfl fun h => Phase.noConfusion h⟩
      rw [K.counts.replied, hpending]
      rfl
  | counted =>
    rw [hc] at h
    cases h
    exact moved K (by rw [hc]; rfl) rfl fun h => Phase.noConfusion h
  | counting time =>
    rw [hc] at h
    cases h
    exact acted K (e := .touch time) trivial rfl rfl (by rw [hc]; rfl) rfl fun h =>
      Phase.noConfusion h

/-- A step of a connection is an access, and the task knows where it is. -/
theorem step_spec (B : Books S s) (K : c.Knows i s) (hs : Streams http c) {e : Step}
    {r : Shared × Conn}
    (h : step http i s c e = some r) : Access S (.conn i) s r.1 ∧ r.2.Knows i r.1 := by
  cases e with
  | arrive kind =>
    unfold step at h
    dsimp only at h
    split at h
    next hfree =>
      cases h
      rw [Bool.and_eq_true, decide_eq_true_eq] at hfree
      exact moved K (by rw [hfree.1]; rfl) rfl fun h => Phase.noConfusion h
    · cases h
  | close =>
    unfold step at h
    dsimp only at h
    split at h
    next hfree =>
      have hpending : c.phase.pending = 0 := by rw [hfree]; rfl
      split at h
      next hj =>
        cases h
        refine ⟨.act _ (allowed (e := .leave i) trivial (.inr rfl) rfl),
          .out ?_ rfl fun h => Phase.noConfusion h⟩
        rw [act_log]
        exact K.counts.leave hj hpending http
      next hj =>
        cases h
        refine ⟨.nothing, .out ⟨?_, ?_⟩ rfl fun h => Phase.noConfusion h⟩
        · rw [K.counts.replied, hpending]
          rfl
        · rw [K.counts.joined, Bool.eq_false_iff.mpr hj]
    · cases h
  | go answer => exact go_spec B K hs h

end Conn

/-- **What the hotkey thread does.** -/
theorem Press.step_spec {p : Press} (B : Books S s) (K : p.Knows s) {r : Shared × Press}
    (h : p.step s = some r) :
    Access S .hotkey s r.1 ∧ r.2.Knows r.1 := by
  cases p with
  | idle =>
    unfold Press.step at h
    dsimp only at h
    split at h
    · cases h
    next hl =>
      split at h
      · cases h
        exact ⟨.nothing, K⟩
      next hr =>
        cases h
        exact ⟨.take (Option.not_isSome_iff_eq_none.mp hl), fun _ => rfl,
          fun _ => Bool.eq_false_iff.mpr hr⟩
  | admitted =>
    have hlock := K.inside fun h => Press.noConfusion h
    have hopen := K.admitted rfl
    cases h
    have hrule : Rule S s.log (.carry .hotkey) := by
      intro hr
      rw [B.retiring.mpr hr] at hopen
      cases hopen
    refine ⟨.act (.carry .hotkey) ⟨hrule, (by intro j hj; cases hj), fun _ => .inr hlock,
      (by intro t ht; cases ht)⟩, ?_⟩
    exact ⟨fun _ => (act_lock s _).trans hlock, fun h => Press.noConfusion h⟩
  | carried =>
    have hlock := K.inside fun h => Press.noConfusion h
    cases h
    exact ⟨.free hlock, fun h => absurd rfl h, fun h => Press.noConfusion h⟩

/-- A step of the monitor out of its critical section. -/
theorem Monitor.walk {m : Monitor} (hm : m.Knows S s) : Access S .monitor s s ∧ m.Knows S s :=
  ⟨.nothing, hm⟩

/-- **What the monitor does.** -/
theorem Monitor.step_spec {m : Monitor} (B : Books S s) (K : m.Knows S s)
    (hleft : s.life.clients = 0 → AllLeft s.log)
    {busy : Bool} {r : Shared × Monitor} (h : m.step busy s = some r) :
    Access S .monitor s r.1 ∧ r.2.Knows S r.1 := by
  cases m with
  | waiting =>
    cases h
    refine Monitor.walk ?_
    split <;> trivial
  | checked =>
    cases h
    refine Monitor.walk ?_
    split <;> trivial
  | unkept =>
    cases h
    refine Monitor.walk ?_
    split <;> trivial
  | active =>
    cases h
    exact Monitor.walk trivial
  | clocked time =>
    cases h
    exact ⟨.act (.touch time) ⟨trivial, (by intro j hj; cases hj), (by intro h; cases h),
      (by intro t ht; cases ht)⟩, trivial⟩
  | asking =>
    cases h
    refine Monitor.walk ?_
    split <;> trivial
  | expiring =>
    cases h
    refine Monitor.walk ?_
    split <;> trivial
  | wanting =>
    unfold Monitor.step at h
    dsimp only at h
    split at h
    · cases h
    next hl =>
      cases h
      exact ⟨.take (Option.not_isSome_iff_eq_none.mp hl), rfl⟩
  | locked =>
    unfold Monitor.step at h
    dsimp only at h
    split at h
    -- Retired meanwhile, or kept, or the clients are counted next.
    next hr =>
      cases h
      exact ⟨.free K, hr⟩
    next hr =>
      split at h
      · cases h
        exact ⟨.free K, trivial⟩
      next hkept =>
        cases h
        rw [Bool.or_eq_true, not_or, Bool.not_eq_true, Bool.not_eq_true, B.standalone] at hkept
        exact Monitor.walk ⟨⟨K, Bool.eq_false_iff.mpr hr, hkept.1⟩, s.log, Since.refl _,
          B.keepAlive hkept.2⟩
  | lockedUnkept =>
    obtain ⟨D, a, ha, hkeep⟩ := K
    unfold Monitor.step at h
    dsimp only at h
    split at h
    next hclients =>
      cases h
      -- Without a client, all who joined have left by now.
      have hab : a <+: s.log := by
        obtain ⟨rest, hrest, -⟩ := ha
        exact ⟨rest, hrest.symm⟩
      exact Monitor.walk ⟨D, a, s.log, ha, hab, List.prefix_rfl, hkeep, hleft hclients⟩
    · cases h
      exact ⟨.free D.lock, trivial⟩
  | lockedAlone =>
    obtain ⟨D, a, b, ha, hab, hb, hkeep, hleft⟩ := K
    unfold Monitor.step at h
    dsimp only at h
    split at h
    next hexpired =>
      cases h
      -- The idle time runs from the last touch of the log.
      unfold Life.idleExpired at hexpired
      rw [decide_eq_true_eq, B.idleExit, B.lastActive] at hexpired
      refine Monitor.walk ⟨D, Nat.le_refl _, a, b, s.log, ?_⟩
      exact ⟨D.alone, ha, hab, hb, List.prefix_rfl, hkeep, hleft, hexpired⟩
    · cases h
      exact ⟨.free D.lock, trivial⟩
  | lockedExpired time =>
    obtain ⟨D, htime, a, b, c, hidle⟩ := K
    unfold Monitor.step at h
    dsimp only at h
    split at h
    · cases h
      exact ⟨.free D.lock, trivial⟩
    · cases h
      -- The lock was held since the look, so nothing retired the runtime in between.
      have hrule : Rule S s.log (.retire (.idle time)) := by
        refine ⟨fun hr => ?_, a, b, c, hidle⟩
        have hretiring := D.retiring
        rw [B.retiring.mpr hr] at hretiring
        cases hretiring
      refine ⟨.last _ ⟨hrule, (by intro j hj; cases hj), fun _ => .inr D.lock,
        fun t ht => ?_⟩ D.lock, ?_⟩
      · cases ht
        exact htime
      · show (s.act (.retire (.idle time))).retiring = true
        rw [act_retiring]
        exact Bool.or_true _
  | agreed =>
    cases h
    have hretired := B.retiring.mp K
    refine ⟨.act (.exit .idle) ⟨.inr hretired, (by intro j hj; cases hj), (by intro h; cases h),
      (by intro t ht; cases ht)⟩, ?_⟩
    trivial
  | stopped => cases h

end Sonara.Lifetime
