import Sonara.Lib.Machine

/-!
# The health of an external engine (`health.rs`)

Two things keep a chunk off the network: the breaker, which opens after transient failures and
closes by itself, and a block, for a failure the user must fix (or one that waits for its
time). There is one place for a block, so a later one replaces it.

Times are nanoseconds on the injected clock. An input says how long after the one before it
comes, so time never goes back.
-/

namespace Sonara.External

def secs (n : Nat) : Nat := n * 1000000000

/-- Why a request failed. -/
inductive Reason where
  | noKey
  | auth
  | quota
  | rateLimited
  | network
  | timeout
  | server
  | badVoice
  | badConfig
  | format
  deriving DecidableEq, Repr

/-- A failure that may pass on its own. -/
def Reason.isTransient : Reason → Bool
  | .rateLimited | .network | .timeout | .server => true
  | _ => false

/-- A new key may end it. -/
def Reason.ofKey : Reason → Bool
  | .noKey | .auth => true
  | _ => false

/-- The breaker opens for this long first, doubling up to `breakerMax`. -/
def breakerFirst : Nat := secs 30

def breakerMax : Nat := secs 300

/-- A `quota` failure blocks this long, then one chunk probes. -/
def quotaBlock : Nat := secs 600

/-- A `quota` failure's own `Retry-After` is kept up to this long. -/
def quotaMax : Nat := secs (24 * 3600)

/-- A longer `Retry-After` opens the breaker. -/
def retryAfterMax : Nat := 1500 * 1000000

/-- A failure of a request. -/
structure ExtError where
  reason : Reason
  message : String
  retryAfter : Option Nat := none
  deriving DecidableEq, Repr

/-- A failure the user must fix (or that waits for its time). -/
structure Blocked where
  reason : Reason
  message : String
  /-- `quota`: blocked until then. -/
  stop : Option Nat := none
  /-- `badVoice`: only this voice is blocked. -/
  voice : Option String := none
  deriving DecidableEq, Repr

structure Transient where
  reason : Reason
  message : String
  deriving DecidableEq, Repr

/-- What `status` reports. -/
inductive HealthView where
  | healthy
  /-- Breaker open or a quota block: it will try again by itself. -/
  | waiting (reason : Reason) (message : String)
  /-- The user must change something. -/
  | blocked (reason : Reason) (message : String)
  deriving DecidableEq, Repr

structure Health where
  consecutive : Nat := 0
  openUntil : Option Nat := none
  nextOpen : Nat := breakerFirst
  lastTransient : Option Transient := none
  blocked : Option Blocked := none
  cueSaid : Bool := false
  /-- Something failed since the last success. -/
  troubled : Bool := false
  deriving DecidableEq, Repr

def Blocked.expired (b : Blocked) (now : Nat) : Bool := b.stop.any (· ≤ now)

def Blocked.otherVoice (b : Blocked) (voice : String) : Bool := b.voice.any (· ≠ voice)

/-- How long a quota failure blocks. -/
def quotaWait (e : ExtError) : Nat := e.retryAfter.elim quotaBlock fun d =>
    max (min d quotaMax) quotaBlock

/-- The block that a failure leaves. -/
def blockOf (e : ExtError) (voice : String) (now : Nat) : Blocked where
  reason := e.reason
  message := e.message
  stop := if e.reason = .quota then some (now + quotaWait e) else none
  voice := if e.reason = .badVoice then some voice else none

namespace Health

variable (h : Health)

/-- The failure that holds the breaker open. -/
def opened (now : Nat) : Option Transient :=
  match h.openUntil, h.lastTransient with
  | some t, some tr => if now < t then some tr else none
  | _, _ => none

/-- Why a chunk for `voice` must not go to the network now, if so. -/
def skip (voice : String) (now : Nat) : Health × Option (Reason × String) :=
  let waits := (h.opened now).map fun tr => (tr.reason, tr.message)
  match h.blocked with
  | none => (h, waits)
  | some b =>
    -- The probe: let this chunk through.
    if b.expired now then ({ h with blocked := none }, waits)
    else if !b.otherVoice voice then (h, some (b.reason, b.message))
    else (h, waits)

/-- The breaker after one more transient failure. -/
def trip (now : Nat) : Health :=
  if 2 ≤ h.consecutive then
    { h with openUntil := some (now + h.nextOpen), nextOpen := min (h.nextOpen * 2) breakerMax }
  else h

/-- Nothing is sent before the wait that the provider asked for ends. -/
def hint (e : ExtError) (now : Nat) : Health :=
  match e.retryAfter.filter (retryAfterMax < ·) with
  | none => h
  | some d =>
    let stop := now + min d breakerMax
    { h with openUntil := some (h.openUntil.elim stop (max · stop)) }

/-- Count a failure of a request for `voice`. -/
def recordFailure (e : ExtError) (voice : String) (now : Nat) : Health :=
  if e.reason.isTransient then
    let counted := { h with
      troubled := true
      consecutive := h.consecutive + 1
      lastTransient := some ⟨e.reason, e.message⟩ }
    (counted.trip now).hint e now
  else { h with troubled := true, blocked := some (blockOf e voice now) }

/-- Block without a request. -/
def block (reason : Reason) (message : String) : Health :=
  { h with troubled := true, blocked := some { reason := reason, message := message } }

/-- A success for `voice`, or of everything; the answer says that the engine recovered. -/
def succeed (voice : Option String) : Health × Bool :=
  let kept := voice.any fun v => h.blocked.any fun b => b.otherVoice v
  ({ h with
      troubled := kept
      consecutive := 0
      openUntil := none
      nextOpen := breakerFirst
      lastTransient := none
      blocked := if kept then h.blocked else none
      cueSaid := kept && h.cueSaid },
    h.troubled && !kept)

def recordSuccess (voice : String) : Health × Bool := h.succeed (some voice)

def clear : Health := (h.succeed none).1

/-- Clear a `noKey` or `auth` block (a new key). -/
def clearKeyBlock : Health :=
  if h.blocked.any (·.reason.ofKey) then { h with blocked := none, cueSaid := false } else h

/-- True once per episode. -/
def takeCue : Health × Bool := ({ h with cueSaid := true }, !h.cueSaid)

def view (now : Nat) : HealthView :=
  let waits := (h.opened now).elim .healthy fun tr => .waiting tr.reason tr.message
  match h.blocked with
  | none => waits
  | some b =>
    if b.expired now then waits
    else if b.reason = .quota then .waiting b.reason b.message
    else .blocked b.reason b.message

end Health

/-- What the engine asks of its health. -/
inductive HealthCall where
  | recordFailure (e : ExtError) (voice : String)
  | recordSuccess (voice : String)
  | block (reason : Reason) (message : String)
  | clear
  | clearKeyBlock
  | skip (voice : String)
  | takeCue
  | view
  deriving DecidableEq, Repr

/-- A call, and how long after the one before it comes. -/
structure HealthInput where
  after : Nat
  call : HealthCall
  deriving DecidableEq, Repr

inductive HealthAnswer where
  | recovered (b : Bool)
  | skipped (why : Option (Reason × String))
  | cue (b : Bool)
  | viewed (v : HealthView)
  deriving DecidableEq, Repr

/-- The health at a time. -/
structure Watched where
  health : Health := {}
  now : Nat := 0
  deriving DecidableEq, Repr

def Watched.step (s : Watched) (i : HealthInput) : Watched × List HealthAnswer :=
  let now := s.now + i.after
  let h := s.health
  match i.call with
  | .recordFailure e voice => (⟨h.recordFailure e voice now, now⟩, [])
  | .recordSuccess voice =>
    (⟨(h.recordSuccess voice).1, now⟩, [.recovered (h.recordSuccess voice).2])
  | .block reason message => (⟨h.block reason message, now⟩, [])
  | .clear => (⟨h.clear, now⟩, [])
  | .clearKeyBlock => (⟨h.clearKeyBlock, now⟩, [])
  | .skip voice => (⟨(h.skip voice now).1, now⟩, [.skipped (h.skip voice now).2])
  | .takeCue => (⟨h.takeCue.1, now⟩, [.cue h.takeCue.2])
  | .view => (⟨h, now⟩, [.viewed (h.view now)])

def health : Lib.Machine Watched HealthInput HealthAnswer where
  init := {}
  step := Watched.step

/-! ## What a call keeps -/

/-- The calls that end a block for `reason` of `voice` (of every voice, if there is none), or
that put another in its place. -/
def Ends (reason : Reason) (voice : Option String) : HealthCall → Prop
  | .recordFailure e _ => e.reason.isTransient = false
  | .recordSuccess u => ∀ v ∈ voice, u = v
  | .block _ _ => True
  | .clear => True
  | .clearKeyBlock => reason.ofKey = true
  | .skip _ | .takeCue | .view => False

/-- The calls that put a block in the place of the one that is there. -/
def HealthCall.Replaces : HealthCall → Prop
  | .recordFailure e _ => e.reason.isTransient = false
  | .block _ _ => True
  | _ => False

/-- The calls that close the breaker. -/
def HealthCall.Resets : HealthCall → Prop
  | .recordSuccess _ | .clear => True
  | _ => False

/-- The transient failures in a row, after one more call. -/
def HealthCall.count (n : Nat) : HealthCall → Nat
  | .recordFailure e _ => if e.reason.isTransient then n + 1 else n
  | .recordSuccess _ | .clear => 0
  | _ => n

/-- The transient failures since the last success or clear. -/
def inARow (is : List HealthInput) : Nat := is.foldl (fun n i => i.call.count n) 0

/-- How long the breaker opens after that many times. -/
def backoff : Nat → Nat
  | 0 => breakerFirst
  | k + 1 => min (backoff k * 2) breakerMax

def elapsed : List HealthInput → Nat
  | [] => 0
  | i :: is => i.after + elapsed is

theorem inARow_snoc (is : List HealthInput) (i : HealthInput) :
    inARow (is ++ [i]) = i.call.count (inARow is) := List.foldl_append

theorem backoff_le (k : Nat) : backoff k ≤ breakerMax := by
  cases k with
  | zero => decide
  | succ k => exact Nat.min_le_right _ _

variable {h : Health} {s : Watched} {i : HealthInput} {b : Blocked} {now : Nat}

namespace Health

@[simp] theorem trip_blocked : (h.trip now).blocked = h.blocked := by
  unfold trip
  split <;> rfl

@[simp] theorem trip_lastTransient : (h.trip now).lastTransient = h.lastTransient := by
  unfold trip
  split <;> rfl

@[simp] theorem trip_consecutive : (h.trip now).consecutive = h.consecutive := by
  unfold trip
  split <;> rfl

@[simp] theorem hint_blocked (e : ExtError) : (h.hint e now).blocked = h.blocked := by
  unfold hint
  split <;> rfl

@[simp] theorem hint_lastTransient (e : ExtError) :
    (h.hint e now).lastTransient = h.lastTransient := by
  unfold hint
  split <;> rfl

@[simp] theorem hint_consecutive (e : ExtError) : (h.hint e now).consecutive = h.consecutive := by
  unfold hint
  split <;> rfl

@[simp] theorem hint_nextOpen (e : ExtError) : (h.hint e now).nextOpen = h.nextOpen := by
  unfold hint
  split <;> rfl

/-- A hint never closes the breaker earlier. -/
theorem hint_openUntil (e : ExtError) {t : Nat} (ht : ∃ stop ∈ h.openUntil, t ≤ stop) :
    ∃ stop ∈ (h.hint e now).openUntil, t ≤ stop := by
  obtain ⟨stop, hstop, hle⟩ := ht
  unfold hint
  split
  · exact ⟨stop, hstop, hle⟩
  · rw [Option.mem_def.mp hstop]
    exact ⟨_, rfl, Nat.le_trans hle (Nat.le_max_left _ _)⟩

theorem recordFailure_blocked {e : ExtError} (ht : e.reason.isTransient = true) (voice : String) :
    (h.recordFailure e voice now).blocked = h.blocked := by
  unfold recordFailure
  rw [if_pos ht, hint_blocked, trip_blocked]

theorem recordFailure_block {e : ExtError} (ht : e.reason.isTransient = false) (voice : String) :
    (h.recordFailure e voice now).blocked = some (blockOf e voice now) := by
  unfold recordFailure
  rw [ht]
  rfl

theorem succeed_kept {voice : String} (hb : h.blocked = some b) (hv : b.otherVoice voice = true) :
    (h.succeed (some voice)).1.blocked = some b := by
  unfold succeed
  simp [hb, hv]

theorem succeed_blocked (voice : Option String) :
    (h.succeed voice).1.blocked = h.blocked ∨ (h.succeed voice).1.blocked = none := by
  unfold succeed
  dsimp only
  split
  · exact .inl rfl
  · exact .inr rfl

theorem clearKeyBlock_blocked : h.clearKeyBlock.blocked = h.blocked ∨
    h.clearKeyBlock.blocked = none := by
  unfold clearKeyBlock
  split
  · exact .inr rfl
  · exact .inl rfl

/-- A probe takes a block away whose time is over, and nothing else does. -/
theorem skip_blocked (h : Health) (voice : String) (now : Nat) :
    (h.skip voice now).1.blocked = h.blocked ∨
    (h.skip voice now).1.blocked = none ∧ ∃ b ∈ h.blocked, b.expired now = true := by
  unfold skip
  cases hb : h.blocked with
  | none => exact .inl hb
  | some b =>
    dsimp only
    by_cases hexp : b.expired now = true
    · rw [if_pos hexp]
      exact .inr ⟨rfl, b, rfl, hexp⟩
    · rw [if_neg hexp]
      split
      · exact .inl hb
      · exact .inl hb

theorem skip_eq {voice : String} (hb : h.blocked = some b) (hexp : b.expired now = false)
    (hv : b.otherVoice voice = false) : (h.skip voice now).2 = some (b.reason, b.message) := by
  unfold skip
  rw [hb]
  simp [hexp, hv]

/-- What a chunk is kept off the network for is the block or the breaker. -/
theorem skip_why {voice : String} {why : Reason × String} (hs : (h.skip voice now).2 = some why) :
    (∃ b ∈ h.blocked, b.expired now = false) ∨ ∃ tr, h.opened now = some tr ∧
    why = (tr.reason, tr.message) := by
  have hwaits : ((h.opened now).map fun tr => (tr.reason, tr.message)) = some why →
      ∃ tr, h.opened now = some tr ∧ why = (tr.reason, tr.message) := by
    intro hwhy
    obtain ⟨tr, htr, heq⟩ := Option.map_eq_some_iff.mp hwhy
    exact ⟨tr, htr, heq.symm⟩
  unfold skip at hs
  cases hb : h.blocked with
  | none =>
    rw [hb] at hs
    exact .inr (hwaits hs)
  | some b =>
    rw [hb] at hs
    dsimp only at hs
    by_cases hexp : b.expired now = true
    · rw [if_pos hexp] at hs
      exact .inr (hwaits hs)
    · exact .inl ⟨b, rfl, by simpa using hexp⟩

/-- The breaker keeps a chunk off the network, whatever is blocked. -/
theorem skip_opened {tr : Transient} (ho : h.opened now = some tr) (voice : String) :
    ∃ why, (h.skip voice now).2 = some why := by
  unfold skip
  rw [ho]
  cases h.blocked with
  | none => exact ⟨_, rfl⟩
  | some b =>
    dsimp only
    split
    · exact ⟨_, rfl⟩
    · split
      · exact ⟨_, rfl⟩
      · exact ⟨_, rfl⟩

theorem opened_eq {stop : Nat} {tr : Transient} (hstop : h.openUntil = some stop)
    (htr : h.lastTransient = some tr) (hnow : now < stop) : h.opened now = some tr := by
  unfold opened
  rw [hstop, htr]
  exact if_pos hnow

theorem opened_mem {tr : Transient} (ho : h.opened now = some tr) : h.lastTransient = some tr := by
  unfold opened at ho
  split at ho
  next t tr' hstop hlast =>
    split at ho
    · rw [hlast, ho]
    · cases ho
  · cases ho

/-- A healthy engine keeps no chunk off the network. -/
theorem skip_healthy (hv : h.view now = .healthy) (voice : String) :
    (h.skip voice now).2 = none := by
  have hwaits : (h.opened now).elim .healthy
    (fun tr => HealthView.waiting tr.reason tr.message) = .healthy →
      ((h.opened now).map fun tr => (tr.reason, tr.message)) = none := by
    intro heq
    cases ho : h.opened now with
    | none => rfl
    | some tr =>
      rw [ho] at heq
      cases heq
  unfold view at hv
  unfold skip
  cases hb : h.blocked with
  | none =>
    rw [hb] at hv
    exact hwaits hv
  | some b =>
    rw [hb] at hv
    dsimp only at hv ⊢
    by_cases hexp : b.expired now = true
    · rw [if_pos hexp] at hv ⊢
      exact hwaits hv
    · rw [if_neg hexp] at hv
      split at hv
      · cases hv
      · cases hv

end Health

/-! ## Blocks -/

/-- A block stays, or its time is over, unless a call ends it. -/
theorem step_blocked (hb : s.health.blocked = some b) (hends : ¬Ends b.reason b.voice i.call) :
    (s.step i).1.health.blocked = some b ∨
      (s.step i).1.health.blocked = none ∧ b.expired (s.now + i.after) = true := by
  obtain ⟨after, call⟩ := i
  cases call with
  | recordFailure e voice =>
    have ht : e.reason.isTransient = true := by simpa [Ends] using hends
    exact .inl ((Health.recordFailure_blocked ht voice).trans hb)
  | recordSuccess voice =>
    refine .inl (Health.succeed_kept hb ?_)
    have hother : ∃ v ∈ b.voice, voice ≠ v := by simpa [Ends] using hends
    obtain ⟨v, hv, hne⟩ := hother
    unfold Blocked.otherVoice
    rw [Option.mem_def.mp hv]
    simpa using hne.symm
  | block reason message => exact absurd trivial hends
  | clear => exact absurd trivial hends
  | clearKeyBlock =>
    have hkey : ¬b.reason.ofKey = true := hends
    left
    show (Health.clearKeyBlock s.health).blocked = some b
    unfold Health.clearKeyBlock
    rw [hb, Option.any_some, if_neg hkey, hb]
  | skip voice =>
    rcases s.health.skip_blocked voice (s.now + after) with hsame | ⟨hnone, b', hb', hexp⟩
    · exact .inl (hsame.trans hb)
    · rw [hb] at hb'
      obtain rfl := Option.some.inj hb'
      exact .inr ⟨hnone, hexp⟩
  | takeCue => exact .inl hb
  | view => exact .inl hb

/-- A block without an end stays. -/
theorem stateFrom_blocked {more : List HealthInput} (hb : s.health.blocked = some b)
    (hstop : b.stop = none)
    (hmore : ∀ i ∈ more, ¬Ends b.reason b.voice i.call) :
    (health.stateFrom s more).health.blocked = some b := by
  refine health.stateFrom_keeps (C := fun i => ¬Ends b.reason b.voice i.call)
    (P := fun s => s.health.blocked = some b) (fun s i hi hb => ?_) more s hmore hb
  rcases step_blocked hb hi with h | ⟨-, hexp⟩
  · exact h
  · unfold Blocked.expired at hexp
    rw [hstop] at hexp
    cases hexp

/-- No other block comes. -/
theorem step_unreplaced (hb : s.health.blocked = none ∨ s.health.blocked = some b)
    (hi : ¬i.call.Replaces) :
    (s.step i).1.health.blocked = none ∨ (s.step i).1.health.blocked = some b := by
  have hsub : ∀ o : Option Blocked, o = s.health.blocked ∨ o = none → o = none ∨ o = some b := by
    rintro o (rfl | rfl)
    · exact hb
    · exact .inl rfl
  obtain ⟨after, call⟩ := i
  cases call with
  | recordFailure e voice =>
    have ht : e.reason.isTransient = true := by simpa [HealthCall.Replaces] using hi
    exact hsub _ (.inl (Health.recordFailure_blocked ht voice))
  | recordSuccess voice =>
    exact hsub _ (Health.succeed_blocked (some voice))
  | block reason message => exact absurd trivial hi
  | clear => exact .inl rfl
  | clearKeyBlock =>
    exact hsub _ Health.clearKeyBlock_blocked
  | skip voice =>
    rcases s.health.skip_blocked voice (s.now + after) with hsame | ⟨hnone, -⟩
    · exact hsub _ (.inl hsame)
    · exact hsub _ (.inr hnone)
  | takeCue => exact hb
  | view => exact hb

theorem stateFrom_now (s : Watched) (more : List HealthInput) :
    (health.stateFrom s more).now = s.now + elapsed more := by
  induction more generalizing s with
  | nil => rfl
  | cons i more ih =>
    have hnow : (health.step s i).1.now = s.now + i.after := by
      obtain ⟨after, call⟩ := i
      cases call <;> rfl
    show (health.stateFrom (health.step s i).1 more).now = _
    rw [ih, hnow]
    exact Nat.add_assoc _ _ _

theorem answer_skip (is : List HealthInput) (a : Nat) (voice : String) :
    health.answer is ⟨a, .skip voice⟩ =
    [.skipped ((health.state is).health.skip voice ((health.state is).now + a)).2] := rfl

/-! ## The breaker -/

/-- The failures counted, and how long the breaker opens next. -/
structure Counted (n : Nat) (h : Health) : Prop where
  consecutive : h.consecutive = n
  nextOpen : h.nextOpen = backoff (n - 1)
  transient : ∀ tr ∈ h.lastTransient, tr.reason.isTransient = true

theorem Counted.fresh : Counted 0 {} where
  consecutive := rfl
  nextOpen := rfl
  transient tr htr := by cases htr

theorem Counted.same {n : Nat} {h' : Health} (hc : Counted n h)
    (h1 : h'.consecutive = h.consecutive)
    (h2 : h'.nextOpen = h.nextOpen) (h3 : h'.lastTransient = h.lastTransient) : Counted n h' where
  consecutive := h1.trans hc.consecutive
  nextOpen := h2.trans hc.nextOpen
  transient := h3 ▸ hc.transient

/-- A transient failure raises the count by one. -/
theorem Counted.failure {n : Nat} (hc : Counted n h) {e : ExtError}
    (ht : e.reason.isTransient = true)
    (voice : String) (now : Nat) : Counted (n + 1) (h.recordFailure e voice now) := by
  unfold Health.recordFailure
  rw [if_pos ht]
  refine ⟨?_, ?_, ?_⟩
  · rw [Health.hint_consecutive, Health.trip_consecutive, hc.consecutive]
  · rw [Health.hint_nextOpen]
    unfold Health.trip
    dsimp only
    rw [hc.consecutive, hc.nextOpen]
    by_cases hn : 2 ≤ n + 1
    · rw [if_pos hn]
      obtain ⟨k, rfl⟩ := Nat.exists_eq_add_of_le' (Nat.le_of_succ_le_succ hn)
      rfl
    · rw [if_neg hn]
      have hzero : n = 0 := by omega
      subst hzero
      rfl
  · rw [Health.hint_lastTransient, Health.trip_lastTransient]
    intro tr htr
    obtain rfl := Option.some.inj htr
    exact ht

/-- Every call counts as its own kind says. -/
theorem Counted.step {n : Nat} (hc : Counted n s.health) (i : HealthInput) :
    Counted (i.call.count n) (s.step i).1.health := by
  obtain ⟨after, call⟩ := i
  cases call with
  | recordFailure e voice =>
    show Counted (if e.reason.isTransient then n + 1 else n) _
    by_cases ht : e.reason.isTransient = true
    · rw [if_pos ht]
      exact hc.failure ht voice _
    · rw [if_neg ht]
      show Counted n (s.health.recordFailure e voice _)
      unfold Health.recordFailure
      rw [if_neg ht]
      exact hc.same rfl rfl rfl
  | recordSuccess voice => exact ⟨rfl, rfl, fun tr htr => by cases htr⟩
  | block reason message => exact hc.same rfl rfl rfl
  | clear => exact ⟨rfl, rfl, fun tr htr => by cases htr⟩
  | clearKeyBlock =>
    show Counted n (Health.clearKeyBlock s.health)
    unfold Health.clearKeyBlock
    split
    · exact hc.same rfl rfl rfl
    · exact hc
  | skip voice =>
    show Counted n (s.health.skip voice _).1
    unfold Health.skip
    split
    · exact hc
    · split
      · exact hc.same rfl rfl rfl
      · split
        · exact hc
        · exact hc
  | takeCue => exact hc.same rfl rfl rfl
  | view => exact hc

theorem state_counted (is : List HealthInput) : Counted (inARow is) (health.state is).health := by
  refine health.run_induction (P := fun is s _ => Counted (inARow is) s.health) Counted.fresh ?_ is
  intro is i hc
  rw [inARow_snoc]
  exact hc.step i

/-- The breaker is open until `t` at least, and a later failure opens it for `wait` at least. -/
structure Open (t wait : Nat) (s : Watched) : Prop where
  stop : ∃ stop ∈ s.health.openUntil, t ≤ stop
  last : ∃ tr, s.health.lastTransient = some tr
  counted : 1 ≤ s.health.consecutive
  next : wait ≤ s.health.nextOpen
  reach : t ≤ s.now + wait
  small : wait ≤ breakerMax

variable {t wait : Nat}

theorem Open.same {s' : Watched} (ho : Open t wait s)
    (h1 : s'.health.openUntil = s.health.openUntil)
    (h2 : s'.health.lastTransient = s.health.lastTransient)
    (h3 : s'.health.consecutive = s.health.consecutive)
    (h4 : s'.health.nextOpen = s.health.nextOpen) (hnow : s.now ≤ s'.now) : Open t wait s' where
  stop := h1 ▸ ho.stop
  last := h2 ▸ ho.last
  counted := h3 ▸ ho.counted
  next := h4 ▸ ho.next
  reach := Nat.le_trans ho.reach (Nat.add_le_add_right hnow wait)
  small := ho.small

/-- A failure that is not the first in a row opens the breaker. -/
theorem failure_opens {e : ExtError} (ht : e.reason.isTransient = true) (voice : String)
    (hc : 1 ≤ h.consecutive) (hwait : wait ≤ h.nextOpen) (hsmall : wait ≤ breakerMax)
    (hreach : t ≤ now + wait) :
    Open t wait ⟨h.recordFailure e voice now, now⟩ := by
  have htrip : 2 ≤ h.consecutive + 1 := Nat.succ_le_succ hc
  refine ⟨?_, ?_, ?_, ?_, hreach, hsmall⟩
  · show ∃ stop ∈ (h.recordFailure e voice now).openUntil, t ≤ stop
    unfold Health.recordFailure
    rw [if_pos ht]
    refine Health.hint_openUntil e ⟨now + h.nextOpen, ?_, by omega⟩
    unfold Health.trip
    rw [if_pos htrip]
    rfl
  · show ∃ tr, (h.recordFailure e voice now).lastTransient = some tr
    unfold Health.recordFailure
    rw [if_pos ht, Health.hint_lastTransient, Health.trip_lastTransient]
    exact ⟨_, rfl⟩
  · show 1 ≤ (h.recordFailure e voice now).consecutive
    unfold Health.recordFailure
    rw [if_pos ht, Health.hint_consecutive, Health.trip_consecutive]
    exact Nat.le_add_left 1 _
  · show wait ≤ (h.recordFailure e voice now).nextOpen
    unfold Health.recordFailure
    rw [if_pos ht, Health.hint_nextOpen]
    unfold Health.trip
    rw [if_pos htrip]
    refine Nat.le_min.mpr ⟨?_, hsmall⟩
    show wait ≤ h.nextOpen * 2
    omega

/-- A breaker that is open stays open through a call that does not reset it. -/
theorem Open.step (ho : Open t wait s) (hi : ¬i.call.Resets) : Open t wait (s.step i).1 := by
  obtain ⟨after, call⟩ := i
  have hnow : s.now ≤ s.now + after := Nat.le_add_right _ _
  cases call with
  | recordFailure e voice =>
    by_cases ht : e.reason.isTransient = true
    · exact failure_opens ht voice ho.counted ho.next ho.small (by have := ho.reach; omega)
    · show Open t wait ⟨s.health.recordFailure e voice _, _⟩
      unfold Health.recordFailure
      rw [if_neg ht]
      exact ho.same rfl rfl rfl rfl hnow
  | recordSuccess voice => exact absurd trivial hi
  | block reason message => exact ho.same rfl rfl rfl rfl hnow
  | clear => exact absurd trivial hi
  | clearKeyBlock =>
    show Open t wait ⟨Health.clearKeyBlock s.health, _⟩
    unfold Health.clearKeyBlock
    split
    · exact ho.same rfl rfl rfl rfl hnow
    · exact ho.same rfl rfl rfl rfl hnow
  | skip voice =>
    show Open t wait ⟨(s.health.skip voice _).1, _⟩
    unfold Health.skip
    split
    · exact ho.same rfl rfl rfl rfl hnow
    · split
      · exact ho.same rfl rfl rfl rfl hnow
      · split
        · exact ho.same rfl rfl rfl rfl hnow
        · exact ho.same rfl rfl rfl rfl hnow
  | takeCue => exact ho.same rfl rfl rfl rfl hnow
  | view => exact ho.same rfl rfl rfl rfl hnow

/-! ## What may be sent -/

variable {is more : List HealthInput} {d a : Nat} {v : String} {e : ExtError}

/-- The state after a call and what follows. -/
theorem state_then (is more : List HealthInput) (i : HealthInput) :
    health.state (is ++ i :: more) = health.stateFrom (health.state (is ++ [i])) more := by
  rw [← health.state_append, List.append_assoc, List.singleton_append]

/-- A block without an end answers every chunk it is for. -/
theorem blocked_answers (hb : (health.state (is ++ [i])).health.blocked = some b)
    (hstop : b.stop = none)
    (hmore : ∀ i ∈ more, ¬Ends b.reason b.voice i.call) {u : String} (hu : ∀ w ∈ b.voice, w = u) :
    health.answer (is ++ i :: more) ⟨a, .skip u⟩ = [.skipped (some (b.reason, b.message))] := by
  have hkept := stateFrom_blocked hb hstop hmore
  rw [answer_skip, state_then]
  refine congrArg (fun o => [HealthAnswer.skipped o]) (Health.skip_eq hkept ?_ ?_)
  · unfold Blocked.expired
    rw [hstop]
    rfl
  · unfold Blocked.otherVoice
    cases hv : b.voice with
    | none => rfl
    | some w =>
      obtain rfl := hu w hv
      simp

theorem failed_blocked (is : List HealthInput) (d : Nat) (v : String)
    (ht : e.reason.isTransient = false) :
    ∃ now, (health.state (is ++ [⟨d, .recordFailure e v⟩])).health.blocked = some
    (blockOf e v now) := by
  rw [health.state_snoc]
  exact ⟨_, Health.recordFailure_block ht v⟩

theorem badVoice_blocks (hbad : e.reason = .badVoice)
    (hmore : ∀ i ∈ more, ¬Ends .badVoice (some v) i.call) :
    health.answer (is ++ ⟨d, .recordFailure e v⟩ :: more) ⟨a, .skip v⟩ =
      [.skipped (some (.badVoice, e.message))] := by
  obtain ⟨now, hb⟩ := failed_blocked is d v (e := e) (by rw [hbad]; rfl)
  have hblock : blockOf e v now =
      { reason := .badVoice, message := e.message, voice := some v } := by
    unfold blockOf
    simp [hbad]
  rw [hblock] at hb
  refine blocked_answers hb rfl hmore fun w hw => ?_
  exact (Option.some.inj hw).symm

theorem failure_blocks (ht : e.reason.isTransient = false) (hquota : e.reason ≠ .quota)
    (hbad : e.reason ≠ .badVoice) (hmore : ∀ i ∈ more, ¬Ends e.reason none i.call) (u : String) :
    health.answer (is ++ ⟨d, .recordFailure e v⟩ :: more) ⟨a, .skip u⟩ =
      [.skipped (some (e.reason, e.message))] := by
  obtain ⟨now, hb⟩ := failed_blocked is d v ht
  have hblock : blockOf e v now = { reason := e.reason, message := e.message } := by
    unfold blockOf
    simp [hquota, hbad]
  rw [hblock] at hb
  refine blocked_answers hb rfl hmore fun w hw => ?_
  cases hw

theorem block_blocks {reason : Reason} {message : String}
    (hmore : ∀ i ∈ more, ¬Ends reason none i.call)
    (u : String) : health.answer (is ++ ⟨d, .block reason message⟩ :: more) ⟨a, .skip u⟩ =
      [.skipped (some (reason, message))] := by
  have hb : (health.state (is ++ [⟨d, .block reason message⟩])).health.blocked =
      some { reason := reason, message := message } := by
    rw [health.state_snoc]
    rfl
  refine blocked_answers hb rfl hmore fun w hw => ?_
  cases hw

/-- From the second transient failure in a row on, nothing is sent for the backoff. -/
theorem breaker_blocks (ht : e.reason.isTransient = true)
    (hrow : 2 ≤ inARow (is ++ [⟨d, .recordFailure e v⟩])) (hmore : ∀ i ∈ more, ¬i.call.Resets)
    (hsoon : elapsed more + a < backoff (inARow (is ++ [⟨d, .recordFailure e v⟩]) - 2))
    (u : String) :
    ∃ why, health.answer (is ++ ⟨d, .recordFailure e v⟩ :: more)
    ⟨a, .skip u⟩ = [.skipped (some why)] := by
  have hcounted := state_counted is
  have hcount : inARow (is ++ [⟨d, .recordFailure e v⟩]) = inARow is + 1 := by
    rw [inARow_snoc]
    exact if_pos ht
  rw [hcount] at hrow hsoon
  have hnext : backoff (inARow is + 1 - 2) ≤ (health.state is).health.nextOpen :=
    Nat.le_of_eq hcounted.nextOpen.symm
  have hopen : Open ((health.state is).now + d + backoff (inARow is + 1 - 2))
    (backoff (inARow is + 1 - 2))
      (health.state (is ++ [⟨d, .recordFailure e v⟩])) := by
    rw [health.state_snoc]
    refine failure_opens ht v ?_ hnext (backoff_le _) (Nat.le_refl _)
    rw [hcounted.consecutive]
    omega
  have hkept := health.stateFrom_keeps (C := fun i => ¬i.call.Resets)
    (fun s i hi ho => Open.step ho hi) more _ hmore
    hopen
  obtain ⟨stop, hstop, hle⟩ := hkept.stop
  obtain ⟨tr, htr⟩ := hkept.last
  have hnow : (health.stateFrom (health.state (is ++ [⟨d, .recordFailure e v⟩])) more).now =
      (health.state is).now + d + elapsed more := by
    rw [stateFrom_now, health.state_snoc]
    rfl
  have hsoon' : (health.state is).now + d + elapsed more + a < stop := by omega
  obtain ⟨why, hwhy⟩ := Health.skip_opened (Health.opened_eq hstop htr hsoon') u
  refine ⟨why, ?_⟩
  rw [answer_skip, state_then, hnow, hwhy]

/-- A quota block ends. -/
theorem quota_ends (hquota : e.reason = .quota) (hmore : ∀ i ∈ more, ¬i.call.Replaces)
    (hlate : quotaMax ≤ elapsed more + a) {u : String} {why : Reason × String}
    (hs : health.answer (is ++ ⟨d, .recordFailure e v⟩ :: more)
      ⟨a, .skip u⟩ = [.skipped (some why)]) :
    why.1.isTransient = true := by
  have ht : e.reason.isTransient = false := by
    rw [hquota]
    rfl
  have hb : (health.state (is ++ [⟨d, .recordFailure e v⟩])).health.blocked =
      some (blockOf e v ((health.state is).now + d)) := by
    rw [health.state_snoc]
    exact Health.recordFailure_block ht v
  have hkept := health.stateFrom_keeps (C := fun i => ¬i.call.Replaces)
    (P := fun s => s.health.blocked = none ∨ s.health.blocked = some
      (blockOf e v ((health.state is).now + d)))
    (fun s i hi h => step_unreplaced h hi) more _ hmore (.inr hb)
  have hnow : (health.stateFrom (health.state (is ++ [⟨d, .recordFailure e v⟩])) more).now =
      (health.state is).now + d + elapsed more := by
    rw [stateFrom_now, health.state_snoc]
    rfl
  have hwait : quotaWait e ≤ quotaMax := by
    unfold quotaWait
    cases e.retryAfter with
    | none => decide
    | some d => exact Nat.max_le.mpr ⟨Nat.min_le_right _ _, by decide⟩
  rw [answer_skip, state_then, hnow] at hs
  have hwhy : ((health.stateFrom (health.state (is ++ [⟨d, .recordFailure e v⟩]))
    more).health.skip u
      ((health.state is).now + d + elapsed more + a)).2 = some why := by
    injection hs with hs
    injection hs
  rcases Health.skip_why hwhy with ⟨b, hb', hexp⟩ | ⟨tr, htr, rfl⟩
  · rcases hkept with hnone | hsome
    · rw [hnone] at hb'
      cases hb'
    · rw [hsome] at hb'
      obtain rfl := Option.some.inj hb'
      unfold Blocked.expired blockOf at hexp
      rw [if_pos hquota] at hexp
      have hfalse : ¬(health.state is).now + d + quotaWait e ≤ (health.state is).now + d +
          elapsed more + a := by
        simpa using hexp
      omega
  · have hcounted := state_counted (is ++ ⟨d, .recordFailure e v⟩ :: more)
    rw [state_then] at hcounted
    exact hcounted.transient tr (Health.opened_mem htr)

/-- **A failure the user must fix keeps blocking** until a success it can end with, a clear, or,
if a key may end it, a new key, or until another such failure or a block takes its place.
Transient failures keep the breaker open from the second in a row on, for a backoff that
doubles up to `breakerMax` and starts again after a success. A quota block ends by `quotaMax`,
and a healthy engine keeps nothing off the network. -/
theorem failures_block (is more : List HealthInput) (d a : Nat) (v : String) :
    (∀ e, e.reason = .badVoice → (∀ i ∈ more, ¬Ends .badVoice (some v) i.call) →
      health.answer (is ++ ⟨d, .recordFailure e v⟩ :: more) ⟨a, .skip v⟩ =
        [.skipped (some (.badVoice, e.message))]) ∧
    (∀ e, e.reason.isTransient = false → e.reason ≠ .quota → e.reason ≠ .badVoice →
      (∀ i ∈ more, ¬Ends e.reason none i.call) → ∀ u,
      health.answer (is ++ ⟨d, .recordFailure e v⟩ :: more) ⟨a, .skip u⟩ =
        [.skipped (some (e.reason, e.message))]) ∧
    (∀ reason message, (∀ i ∈ more, ¬Ends reason none i.call) → ∀ u,
      health.answer (is ++ ⟨d, .block reason message⟩ :: more) ⟨a, .skip u⟩ =
        [.skipped (some (reason, message))]) ∧
    (∀ e, e.reason.isTransient = true → 2 ≤ inARow (is ++ [⟨d, .recordFailure e v⟩]) →
      (∀ i ∈ more, ¬i.call.Resets) →
      elapsed more + a < backoff (inARow (is ++ [⟨d, .recordFailure e v⟩]) - 2) → ∀ u,
      ∃ why, health.answer (is ++ ⟨d, .recordFailure e v⟩ :: more)
      ⟨a, .skip u⟩ = [.skipped (some why)]) ∧
    ((health.state is).health.nextOpen = backoff (inARow is - 1) ∧ (∀ k, backoff k ≤ breakerMax) ∧
      ∀ u, (health.state (is ++ [⟨d, .recordSuccess u⟩])).health.nextOpen = breakerFirst) ∧
    (∀ e, e.reason = .quota → (∀ i ∈ more, ¬i.call.Replaces) →
      quotaMax ≤ elapsed more + a → ∀ u why,
      health.answer (is ++ ⟨d, .recordFailure e v⟩ :: more) ⟨a, .skip u⟩ = [.skipped (some why)] →
        why.1.isTransient = true) ∧
    (health.answer is ⟨a, .view⟩ = [.viewed .healthy] → ∀ u,
      health.answer is ⟨a, .skip u⟩ = [.skipped none]) := by
  refine ⟨fun e hbad hmore => badVoice_blocks hbad hmore, fun e ht hquota hbad hmore u =>
    failure_blocks ht hquota hbad hmore u, fun reason message hmore u => block_blocks hmore u,
    fun e ht hrow hmore hsoon u => breaker_blocks ht hrow hmore hsoon u,
    ⟨(state_counted is).nextOpen, backoff_le, fun u => ?_⟩,
    fun e hquota hmore hlate u why hs => quota_ends hquota hmore hlate hs, fun hview u => ?_⟩
  · rw [health.state_snoc]
    rfl
  · have hhealthy : (health.state is).health.view ((health.state is).now + a) = .healthy := by
      injection hview with hview
      injection hview
    rw [answer_skip, Health.skip_healthy hhealthy]

/-- A refused key, then the same voice after a wait. -/
theorem failures_block_auth : health.answer
    [⟨0, .recordFailure { reason := .auth, message := "401" } "nova"⟩, ⟨secs 3600, .view⟩]
    ⟨0, .skip "nova"⟩ =
      [.skipped (some (.auth, "401"))] := by
  refine (failures_block [] [⟨secs 3600, .view⟩] 0 0 "nova").2.1
    { reason := .auth, message := "401" }
    rfl (by decide) (by decide) (fun i hi => ?_) "nova"
  obtain rfl := List.mem_singleton.mp hi
  exact id

/-- A success with another voice ends a block for the key, and a bad voice gives its place to the
next one. -/
theorem block_given_up :
    health.answer [⟨0, .recordFailure { reason := .auth, message := "401" } "nova"⟩,
      ⟨0, .recordSuccess "echo"⟩]
      ⟨0, .skip "nova"⟩ = [.skipped none] ∧
    health.answer [⟨0, .recordFailure { reason := .badVoice, message := "no voice" } "nova"⟩,
      ⟨0, .recordFailure { reason := .badVoice, message := "no voice" } "echo"⟩]
      ⟨0, .skip "nova"⟩ = [.skipped none] := by decide

end Sonara.External
