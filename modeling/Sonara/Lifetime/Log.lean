import Sonara.Lifetime.Server

/-!
# What the log of a process says

`Rule` is what is true of every access to the shared memory and of the accesses before it: what
takes the admission lock is carried out only while nothing retired the runtime, a request is refused
only once something did or an exit was requested, the process ends itself only after that, and the
idle exit is decided only after, in this order, nobody had asked to keep the process, every client
had left and the idle time had passed, with nothing carried out under the lock from the first of
these on (`Idle`). Of speech that starts without the lock it says nothing. `Books` ties the memory
to its log, and `Access` is what one step of a thread may do to both: what carries out or retires
has the admission lock.
-/

namespace Sonara.Lifetime

open Lib (Logged)

/-! ## What the log says -/

/-- The time a touch writes. -/
def Act.time? : Act → Option Nat
  | .touch time => some time
  | _ => none

/-- The reason of an exit. -/
def Act.reason? : Act → Option ExitReason
  | .exit why => some why
  | _ => none

def Act.retires : Act → Bool
  | .retire _ => true
  | _ => false

/-- The time of the last touch. -/
def lastTouch (start : Nat) (log : List Act) : Nat :=
  log.foldl (fun last e => e.time?.getD last) start

/-- The reason of the first exit that was requested. -/
def firstExit (log : List Act) : Option ExitReason := log.findSome? Act.reason?

/-- Something retired the runtime. -/
def Retired (log : List Act) : Prop := ∃ why, .retire why ∈ log

/-- Nothing was carried out under the admission lock since the log was `before`. -/
def Since (before log : List Act) : Prop := ∃ rest, log = before ++ rest ∧ ∀ who, .carry who ∉ rest

/-- Every client had left. -/
def AllLeft (log : List Act) : Prop := ∀ i, log.count (.join i) = log.count (.leave i)

/-- What the start of a process fixes. -/
structure Setup where
  idleExit : Nat
  standalone : Bool
  start : Nat

variable (S : Setup)

/-- **When the idle exit may be decided**, on `time` as the clock: nobody had asked to keep the
process when the log was `a`, every client had left when it was `b`, and the last touch when it was
`c` was long enough ago. -/
structure Idle (before : List Act) (time : Nat) (a b c : List Act) : Prop where
  alone : S.standalone = false
  first : Since a before
  second : a <+: b
  third : b <+: c
  last : c <+: before
  unkept : .keep ∉ a
  left : AllLeft b
  expired : S.idleExit ≤ time - lastTouch S.start c

/-- What is true of an access and of what was before it. -/
def Rule (before : List Act) : Act → Prop
  | .carry _ => ¬Retired before
  | .refuse _ => Retired before ∨ ∃ why, .exit why ∈ before
  | .exit why => why = .signal ∨ Retired before
  | .retire (.idle time) => ¬Retired before ∧ ∃ a b c, Idle S before time a b c
  | _ => True

theorem lastTouch_snoc (start : Nat) (log : List Act) (e : Act) :
    lastTouch start (log ++ [e]) = e.time?.getD (lastTouch start log) := List.foldl_append

theorem firstExit_snoc (log : List Act) (e : Act) :
    firstExit (log ++ [e]) = (firstExit log).or e.reason? := by
  unfold firstExit
  rw [List.findSome?_append, List.findSome?_cons]
  cases e.reason? <;> rfl

theorem Retired.snoc {log : List Act} (h : Retired log) (e : Act) : Retired (log ++ [e]) := by
  obtain ⟨why, hwhy⟩ := h
  exact ⟨why, List.mem_append_left _ hwhy⟩

theorem retired_snoc {log : List Act} {e : Act} :
    Retired (log ++ [e]) ↔ Retired log ∨ e.retires = true := by
  constructor
  · rintro ⟨why, hwhy⟩
    rcases List.mem_append.mp hwhy with hwhy | hwhy
    · exact .inl ⟨why, hwhy⟩
    · rw [← List.mem_singleton.mp hwhy]
      exact .inr rfl
  · rintro (h | h)
    · exact h.snoc _
    · cases e with
      | retire why => exact ⟨why, List.mem_append_right _ (List.mem_singleton_self _)⟩
      | _ => cases h

theorem Since.refl (log : List Act) : Since log log :=
  ⟨[], (List.append_nil log).symm, fun _ => List.not_mem_nil⟩

theorem Since.snoc {before log : List Act} (h : Since before log) {e : Act}
    (he : ∀ who, e ≠ .carry who) :
    Since before (log ++ [e]) := by
  obtain ⟨rest, rfl, hrest⟩ := h
  refine ⟨rest ++ [e], List.append_assoc .., fun who hmem => ?_⟩
  rcases List.mem_append.mp hmem with hmem | hmem
  · exact hrest who hmem
  · exact he who (List.mem_singleton.mp hmem).symm

/-! ## The memory and its log -/

section

variable (s : Shared) (e : Act)

@[simp] theorem act_log : (s.act e).log = s.log ++ [e] := by cases e <;> rfl
@[simp] theorem act_lock : (s.act e).lock = s.lock := by cases e <;> rfl
@[simp] theorem act_now : (s.act e).now = s.now := by cases e <;> rfl
@[simp] theorem act_standalone : (s.act e).life.standalone = s.life.standalone := by cases e <;> rfl
@[simp] theorem act_idleExit : (s.act e).life.idleExit = s.life.idleExit := by cases e <;> rfl
@[simp] theorem act_retiring : (s.act e).retiring = (s.retiring || e.retires) := by
  cases e <;> simp [Shared.act, Act.retires]
@[simp] theorem act_lastActive : (s.act e).life.lastActive =
    e.time?.getD s.life.lastActive := by cases e <;> rfl
@[simp] theorem act_exit : (s.act e).life.exit = s.life.exit.or e.reason? := by
  cases e <;> simp [Shared.act, Act.reason?, Life.requestExit]
theorem act_keepAlive : (s.act e).life.keepAlive = (s.life.keepAlive || e == .keep) := by
  cases e <;> simp [Shared.act, Life.requestExit]

end

/-- The memory is what its log says. -/
structure Books (s : Shared) : Prop where
  standalone : s.life.standalone = S.standalone
  idleExit : s.life.idleExit = S.idleExit
  keepAlive : s.life.keepAlive = false → .keep ∉ s.log
  lastActive : s.life.lastActive = lastTouch S.start s.log
  retiring : s.retiring = true ↔ Retired s.log
  exit : s.life.exit = firstExit s.log
  times : ∀ time, .retire (.idle time) ∈ s.log → time ≤ s.now
  logged : Logged (Rule S) s.log

variable {S} {s s' : Shared} {who : Who}

/-- Doing what its rule allows keeps the memory what its log says. -/
theorem Books.act (B : Books S s) {e : Act} (he : Rule S s.log e)
    (htime : ∀ time, e = .retire (.idle time) → time ≤ s.now) :
    Books S (s.act e) where
  standalone := by rw [act_standalone, B.standalone]
  idleExit := by rw [act_idleExit, B.idleExit]
  keepAlive hk hmem := by
    rw [act_keepAlive, Bool.or_eq_false_iff, beq_eq_false_iff_ne] at hk
    rw [act_log] at hmem
    rcases List.mem_append.mp hmem with hmem | hmem
    · exact B.keepAlive hk.1 hmem
    · exact hk.2 (List.mem_singleton.mp hmem).symm
  lastActive := by rw [act_lastActive, act_log, lastTouch_snoc, B.lastActive]
  retiring := by rw [act_retiring, Bool.or_eq_true, B.retiring, act_log, retired_snoc]
  exit := by rw [act_exit, act_log, firstExit_snoc, B.exit]
  times time hmem := by
    rw [act_now]
    rw [act_log] at hmem
    rcases List.mem_append.mp hmem with hmem | hmem
    · exact B.times time hmem
    · exact htime time (List.mem_singleton.mp hmem).symm
  logged := by
    rw [act_log]
    exact B.logged.snoc he

/-- The lock is not in the books. -/
theorem Books.lock (B : Books S s) (l : Option Who) : Books S { s with lock := l } :=
  ⟨B.standalone, B.idleExit, B.keepAlive, B.lastActive, B.retiring, B.exit, B.times, B.logged⟩

/-! ## One access -/

/-- The connection whose place an access marks. -/
def Act.of : Act → Option Nat
  | .join i => some i
  | .leave i => some i
  | .carry (.conn i) => some i
  | .accept i => some i
  | _ => none

/-- It must have the admission lock, or find it free for the moment. -/
def Act.guarded : Act → Bool
  | .carry _ => true
  | .retire _ => true
  | _ => false

/-- An access of `who` that the rule allows. -/
structure Allowed (S : Setup) (who : Who) (s : Shared) (e : Act) : Prop where
  rule : Rule S s.log e
  own : ∀ i, e.of = some i → who = .conn i
  lock : e.guarded = true → s.lock = none ∨ s.lock = some who
  time : ∀ time, e = .retire (.idle time) → time ≤ s.now

variable (S) in
/-- What one step of `who` does to the memory. -/
inductive Access (who : Who) (s : Shared) : Shared → Prop
  | nothing : Access who s s
  | take : s.lock = none → Access who s (s.take who)
  | free : s.lock = some who → Access who s s.free
  | act (e : Act) : Allowed S who s e → Access who s (s.act e)
  | last (e : Act) : Allowed S who s e → s.lock = some who → Access who s (s.act e).free

namespace Access

theorem books (A : Access S who s s') (B : Books S s) : Books S s' := by
  cases A with
  | nothing => exact B
  | take _ => exact B.lock _
  | free _ => exact B.lock _
  | act e h => exact B.act h.rule h.time
  | last e h _ => exact (B.act h.rule h.time).lock _

/-- Another's lock and what it guards. -/
theorem other {x : Who} (A : Access S who s s') (hx : s.lock = some x) (hne : x ≠ who) :
    s'.lock = some x ∧ s'.retiring = s.retiring := by
  have hmine : s.lock ≠ some who := fun h => hne (Option.some.inj (hx.symm.trans h))
  cases A with
  | nothing => exact ⟨hx, rfl⟩
  | take hfree => cases hx.symm.trans hfree
  | free h => exact absurd h hmine
  | act e h =>
    refine ⟨(act_lock s e).trans hx, ?_⟩
    rw [act_retiring]
    cases e with
    | retire why =>
      rcases h.lock rfl with hl | hl
      · cases hx.symm.trans hl
      · exact absurd hl hmine
    | _ => exact Bool.or_false _
  | last e _ h => exact absurd h hmine

/-- What was retired stays so. -/
theorem retired (A : Access S who s s') (h : s.retiring = true) : s'.retiring = true := by
  cases A with
  | nothing => exact h
  | take _ => exact h
  | free _ => exact h
  | act e _ => rw [act_retiring, h, Bool.true_or]
  | last e _ _ =>
    show (s.act e).retiring = true
    rw [act_retiring, h, Bool.true_or]

theorem now (A : Access S who s s') : s'.now = s.now := by
  cases A with
  | nothing => rfl
  | take _ => rfl
  | free _ => rfl
  | act e _ => exact act_now s e
  | last e _ _ => exact act_now s e

/-- The log grows by at most one access. -/
theorem log (A : Access S who s s') : s'.log = s.log ∨ ∃ e, Allowed S who s e ∧
    s'.log = s.log ++ [e] := by
  cases A with
  | nothing => exact .inl rfl
  | take _ => exact .inl rfl
  | free _ => exact .inl rfl
  | act e h => exact .inr ⟨e, h, act_log s e⟩
  | last e h _ => exact .inr ⟨e, h, act_log s e⟩

/-- The accesses of a connection are its own. -/
theorem count (A : Access S who s s') {i : Nat} (hne : who ≠ .conn i) {e : Act}
    (he : e.of = some i) :
    s'.log.count e = s.log.count e := by
  rcases A.log with h | ⟨x, hx, h⟩
  · rw [h]
  · rw [h, List.count_append, List.count_singleton, if_neg, Nat.add_zero]
    intro hxe
    rw [beq_iff_eq] at hxe
    exact hne (hx.own i (hxe ▸ he))

theorem since (A : Access S who s s') {x : Who} (hx : s.lock = some x) (hne : x ≠ who)
    {a : List Act} (h : Since a s.log) : Since a s'.log := by
  rcases A.log with hl | ⟨e, he, hl⟩
  · rwa [hl]
  · rw [hl]
    refine h.snoc fun w hw => ?_
    rcases he.lock (by rw [hw]; rfl) with hfree | hmine
    · cases hx.symm.trans hfree
    · exact hne (Option.some.inj (hx.symm.trans hmine))

theorem prefix_log (A : Access S who s s') {c : List Act} (h : c <+: s.log) : c <+: s'.log := by
  rcases A.log with hl | ⟨e, _, hl⟩
  · rwa [hl]
  · rw [hl]
    exact h.trans (List.prefix_append _ _)

end Access

end Sonara.Lifetime
