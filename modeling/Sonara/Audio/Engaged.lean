import Sonara.Audio.Control

/-!
# Other apps are left engaged only while the reader speaks or pauses for breath

The invariant (`Ok`): one backend at most is engaged; it is that of the mode, and the control is
armed, unless the command for a change waits; and the grace runs from when the reader stopped.
Every command and every timeout ends in `reconcile`, which is one lemma (`Ready.reconcile`).
-/

namespace Sonara.Audio

variable {w w' : World} {a : Activity} {t t' : Tried} {c : Cmd}

namespace World

@[simp] theorem restoreAll_ducked : w.restoreAll.ducker.ducked = false := by
  unfold restoreAll
  dsimp only
  split
  · rfl
  next h => simpa using h

@[simp] theorem restoreAll_paused : w.restoreAll.pauser.paused = false := by
  unfold restoreAll
  dsimp only
  split
  · rfl
  next h => simpa using h

@[simp] theorem restoreAll_engaged : w.restoreAll.engaged = false := by
  unfold engaged
  rw [restoreAll_ducked, restoreAll_paused]
  rfl

@[simp] theorem publish_engaged : w.publish.engaged = w.engaged := rfl

theorem engaged_of_ducked (h : w.ducker.ducked = true) : w.engaged = true := by
  unfold engaged
  rw [h]
  rfl

theorem engaged_of_paused (h : w.pauser.paused = true) : w.engaged = true := by
  unfold engaged
  rw [h, Bool.or_true]

/-- The command waits, is about to be sent, or never comes as the channel is closed. -/
def Pending (w : World) (c : Cmd) : Prop := c ∈ w.queue ∨ c ∈ w.unsent ∨ w.closed = true

/-- The engaged backend is that of the mode, or the mode has changed since. -/
structure OfMode (w : World) : Prop where
  apart : ¬(w.ducker.ducked = true ∧ w.pauser.paused = true)
  duck : w.ducker.ducked = true → w.status.mode = .duck ∨ w.Pending .mode
  pause : w.pauser.paused = true → w.status.mode = .pause ∨ w.Pending .mode

/-- What `reconcile` is given: the grace runs from when the reader stopped, or starts now. -/
structure Ready (w : World) : Prop extends OfMode w where
  clock : w.engaged = true → w.status.activity ≠ .speaking →
    w.idleSince = some w.stopped ∨ w.idleSince = none ∧ w.stopped = w.now

/-- The invariant. -/
structure Ok (w : World) : Prop extends OfMode w where
  armed : w.engaged = true → w.status.armed = true ∨ w.Pending .arm
  /-- The reader speaks, or the grace of its activity runs from when it stopped. -/
  grace : w.engaged = true → w.status.activity = .speaking ∧ w.idleSince = none ∨
    ∃ g, w.graceFor w.status.activity = some g ∧ w.idleSince = some w.stopped
  idle : w.engaged = false → w.idleSince = none
  done : w.done = true → w.engaged = false

/-- The other apps are as they were. -/
theorem Ok.calm (h : w.engaged = false) (hidle : w.idleSince = none) : w.Ok where
  apart hboth := by
    rw [engaged_of_ducked hboth.1] at h
    cases h
  duck hd := by
    rw [engaged_of_ducked hd] at h
    cases h
  pause hp := by
    rw [engaged_of_paused hp] at h
    cases h
  armed he := by
    rw [he] at h
    cases h
  grace he := by
    rw [he] at h
    cases h
  idle _ := hidle
  done _ := h

theorem restoreAll_ok (w : World) : w.restoreAll.Ok := .calm restoreAll_engaged rfl

theorem Ok.publish (h : w.Ok) : w.publish.Ok where
  apart := h.apart
  duck := h.duck
  pause := h.pause
  armed := h.armed
  grace := h.grace
  idle := h.idle
  done := h.done

/-- The backend of the mode is engaged, or none. -/
theorem engage_ok (hdone : w.done = false) (hwant : w.want = true) : (w.engage t).Ok := by
  obtain ⟨hleft, hmode⟩ := Bool.and_eq_true_iff.mp hwant
  obtain ⟨harmed, hspeaking⟩ := Bool.and_eq_true_iff.mp hleft
  have hspeaking : w.status.activity = .speaking := of_decide_eq_true hspeaking
  have hmode : w.status.mode ≠ .off := of_decide_eq_true hmode
  unfold engage
  cases hm : w.status.mode with
  | off => exact absurd hm hmode
  | duck =>
    have hpaused : (if w.pauser.paused then w.pauser.resume else w.pauser).paused = false := by
      split
      · rfl
      next hp => simpa using hp
    refine ⟨⟨fun hboth => ?_, fun _ => .inl hm, fun hp => ?_⟩, fun _ => .inl harmed,
      fun _ => .inl ⟨hspeaking, rfl⟩,
      fun _ => rfl, fun hd => ?_⟩
    · rw [hpaused] at hboth
      cases hboth.2
    · dsimp only at hp
      rw [hpaused] at hp
      cases hp
    · dsimp only at hd
      rw [hdone] at hd
      cases hd
  | pause =>
    have hducked : (if w.ducker.ducked then w.ducker.restore else w.ducker).ducked = false := by
      split
      · rfl
      next hd => simpa using hd
    refine ⟨⟨fun hboth => ?_, fun hd => ?_, fun _ => .inl hm⟩, fun _ => .inl harmed,
      fun _ => .inl ⟨hspeaking, rfl⟩,
      fun _ => rfl, fun hd => ?_⟩
    · rw [hducked] at hboth
      cases hboth.1
    · dsimp only at hd
      rw [hducked] at hd
      cases hd
    · dsimp only at hd
      rw [hdone] at hd
      cases hd

/-- The grace runs on from when the reader stopped. -/
theorem linger_ok (h : w.Ready) (hdone : w.done = false) (he : w.engaged = true)
    (harmed : w.status.armed = true)
    (hsilent : w.status.activity ≠ .speaking) {g : Nat}
    (hg : w.graceFor w.status.activity = some g) :
    (w.linger g).Ok := by
  have hsince : w.idleSince.getD w.now = w.stopped := by
    rcases h.clock he hsilent with hsome | ⟨hnone, hnow⟩
    · rw [hsome]
      rfl
    · rw [hnone]
      exact hnow.symm
  unfold linger
  rw [hsince]
  dsimp only
  split
  · exact restoreAll_ok w
  · refine ⟨⟨h.apart, h.duck, h.pause⟩, fun _ => .inl harmed, fun _ => .inr ⟨g, hg, rfl⟩,
      fun hcalm => ?_,
      fun hd => ?_⟩
    · rw [show w.engaged = false from hcalm] at he
      cases he
    · rw [hdone] at hd
      cases hd

/-- **What `reconcile` does.** It keeps one backend engaged at most, that of the mode, while the
reader speaks or its grace runs. -/
theorem Ready.reconcile (h : w.Ready) (hdone : w.done = false) (t : Tried) :
    (w.reconcile t).Ok := by
  unfold World.reconcile
  refine Ok.publish ?_
  dsimp only
  split
  next hwant => exact engage_ok hdone hwant
  next hwant =>
    split
    next he =>
      split
      next hgrace =>
        obtain ⟨hleft, hany⟩ := Bool.and_eq_true_iff.mp hgrace
        obtain ⟨harmed, hmode⟩ := Bool.and_eq_true_iff.mp hleft
        have hsilent : w.status.activity ≠ .speaking := by
          intro hspeaking
          refine hwant ?_
          unfold want
          rw [harmed, hspeaking, hmode]
          rfl
        cases hg : w.graceFor w.status.activity with
        | none =>
          rw [hg] at hany
          cases hany
        | some g => exact linger_ok h hdone he harmed hsilent hg
      · exact restoreAll_ok w
    next he =>
      have hcalm : w.engaged = false := by simpa using he
      exact .calm hcalm rfl

/-- With the mode off, disarmed, or a held item, nothing stays engaged. -/
theorem reconcile_off (hoff : w.status.mode = .off ∨ w.status.armed = false ∨
    w.status.activity = .held) :
    (w.reconcile t).engaged = false := by
  have hwant : w.want = false := by
    unfold want
    rcases hoff with h | h | h
    · rw [h]
      simp
    · rw [h]
      rfl
    · rw [h]
      simp
  have hgrace : (w.status.armed && decide (w.status.mode ≠ .off) &&
    (w.graceFor w.status.activity).any (0 < ·)) =
      false := by
    rcases hoff with h | h | h
    · rw [h]
      simp
    · rw [h]
      rfl
    · rw [h]
      exact Bool.and_false _
  unfold reconcile
  rw [publish_engaged, hwant, if_neg (by decide)]
  split
  · dsimp only
    rw [hgrace, if_neg (by decide), restoreAll_engaged]
  next he =>
    have hcalm : w.engaged = false := by simpa using he
    exact hcalm

/-! ## The commands -/

theorem Ok.ready (h : w.Ok) : w.Ready where
  apart := h.apart
  duck := h.duck
  pause := h.pause
  clock he hsilent := by
    rcases h.grace he with ⟨hspeaking, -⟩ | ⟨g, -, hsince⟩
    · exact absurd hspeaking hsilent
    · exact .inl hsince

/-- A command that is taken waits no longer; the others do. -/
theorem Pending.pop {queue : List Cmd} {c' : Cmd} (hq : w.queue = c :: queue) (hne : c' ≠ c)
    (h : w.Pending c') :
    { w with queue := queue }.Pending c' := by
  rcases h with h | h
  · rw [hq] at h
    rcases List.mem_cons.mp h with rfl | h
    · exact absurd rfl hne
    · exact .inl h
  · exact .inr h

theorem Ok.pop {queue : List Cmd} (h : w.Ok) (hq : w.queue = c :: queue) (hne : Cmd.mode ≠ c) :
    { w with queue := queue }.Ready where
  apart := h.apart
  duck hd := (h.duck hd).imp_right (Pending.pop hq hne)
  pause hp := (h.pause hp).imp_right (Pending.pop hq hne)
  clock := h.ready.clock

/-- A new activity: the clock starts when the reader stops speaking. -/
theorem Ready.follow (h : w.Ready) (hstart : w.engaged = true → w.status.activity = .speaking →
    w.idleSince = none) (a : Activity) : (w.follow a).Ready where
  apart := h.apart
  duck := h.duck
  pause := h.pause
  clock he hsilent := by
    have he : w.engaged = true := he
    have hsilent : a ≠ .speaking := hsilent
    unfold World.follow
    by_cases hspeaking : w.status.activity = .speaking
    · rw [if_pos ⟨hspeaking, hsilent⟩]
      exact .inr ⟨hstart he hspeaking, rfl⟩
    · rw [if_neg fun hboth => hspeaking hboth.1]
      exact h.clock he hspeaking

/-- Re-applying the level keeps the backend that is engaged. -/
theorem relevel_ready (h : w.Ready) (t : Tried) : (w.relevel t).Ready := by
  unfold relevel
  split
  next hd =>
    have hpaused : w.pauser.paused = false := by
      cases hp : w.pauser.paused with
      | false => rfl
      | true => exact absurd ⟨hd, hp⟩ h.apart
    refine ⟨⟨fun hboth => ?_, fun _ => h.duck hd, h.pause⟩,
      fun _ hsilent => h.clock (engaged_of_ducked hd) hsilent⟩
    have hp : w.pauser.paused = true := hboth.2
    rw [hpaused] at hp
    cases hp
  · exact h

theorem restoreAll_ready (w : World) : w.restoreAll.Ready := (restoreAll_ok w).ready

/-- A handled command keeps the invariant: each ends in `reconcile`, but for a shutdown. -/
theorem Ok.handle {queue : List Cmd} (h : w.Ok) (hdone : w.done = false) (hq : w.queue = c :: queue)
    (t t' : Tried) :
    ({ w with queue := queue }.handle t t' c).Ok := by
  cases c with
  | activity a =>
    refine Ready.reconcile (Ready.follow (h.pop hq fun hmode => by cases hmode)
      (fun he hspeaking => ?_) a) hdone t
    rcases h.grace he with ⟨-, hnone⟩ | ⟨g, hg, -⟩
    · exact hnone
    · have hspeaking : w.status.activity = .speaking := hspeaking
      rw [hspeaking] at hg
      cases hg
  | mode =>
    have hready := restoreAll_ready { w with queue := queue }
    exact hready.reconcile hdone t
  | level n =>
    refine (relevel_ready (h.pop hq fun hmode => by cases hmode) t').reconcile ?_ t
    unfold relevel
    split
    · exact hdone
    · exact hdone
  | arm => exact (h.pop hq (by decide)).reconcile hdone t
  | recover => exact (h.pop hq (by decide)).reconcile hdone t
  | sync => exact (h.pop hq (by decide)).reconcile hdone t
  | shutdown =>
    exact { (restoreAll_ok _).publish with done := fun _ => restoreAll_engaged }

/-! ## Runs -/

/-- A change of the status is ahead of its command: what it breaks waits for that command. -/
theorem Ok.update (h : w.Ok) (c : Change) :
    { w with status := c.update w.status, unsent := c.cmd :: w.unsent }.Ok := by
  have hpending : ∀ c', w.Pending c' →
      { w with status := c.update w.status, unsent := c.cmd :: w.unsent }.Pending c' :=
    fun c' hp => hp.imp_right fun hp => hp.imp_left (List.mem_cons_of_mem c.cmd)
  have hactivity : (c.update w.status).activity = w.status.activity := by
    cases c <;> rfl
  refine ⟨⟨h.apart, fun hd => ?_, fun hp => ?_⟩, fun he => ?_, fun he => ?_, h.idle, h.done⟩
  · cases c with
    | mode m => exact .inr (.inr (.inl List.mem_cons_self))
    | level n => exact (h.duck hd).imp_right (hpending _)
    | arm on => exact (h.duck hd).imp_right (hpending _)
  · cases c with
    | mode m => exact .inr (.inr (.inl List.mem_cons_self))
    | level n => exact (h.pause hp).imp_right (hpending _)
    | arm on => exact (h.pause hp).imp_right (hpending _)
  · cases c with
    | mode m => exact (h.armed he).imp_right (hpending _)
    | level n => exact (h.armed he).imp_right (hpending _)
    | arm on => exact .inr (.inr (.inl List.mem_cons_self))
  · have hgrace := h.grace he
    rw [← hactivity] at hgrace
    exact hgrace

/-- What waits goes on waiting. -/
theorem Ok.waits (h : w.Ok) (queue unsent : List Cmd) (closed : Bool)
    (hpending : ∀ c, w.Pending c →
      { w with queue := queue, unsent := unsent, closed := closed }.Pending c) :
    { w with queue := queue, unsent := unsent, closed := closed }.Ok where
  apart := h.apart
  duck hd := (h.duck hd).imp_right (hpending _)
  pause hp := (h.pause hp).imp_right (hpending _)
  armed he := (h.armed he).imp_right (hpending _)
  grace := h.grace
  idle := h.idle
  done := h.done

/-- A command that is sent waits in the queue, if the channel is open. -/
theorem mem_sent {queue : List Cmd} {closed : Bool} (hopen : closed = false) {c' : Cmd}
    (h : c' ∈ queue ∨ c' = c) :
    c' ∈ (if closed then queue else queue ++ [c]) := by
  rw [hopen, if_neg (by decide)]
  rcases h with h | rfl
  · exact List.mem_append_left _ h
  · exact List.mem_append_right _ (List.mem_singleton_self _)

theorem Ok.send (h : w.Ok) (c : Cmd) : { w with
    unsent := w.unsent.erase c, queue := if w.closed then w.queue else w.queue ++ [c] }.Ok := by
  refine h.waits _ _ w.closed fun c' hp => ?_
  cases hclosed : w.closed with
  | true => exact .inr (.inr rfl)
  | false =>
    rcases hp with hp | hp | hp
    · exact .inl (mem_sent rfl (.inl hp))
    · by_cases hc : c' = c
      · exact .inl (mem_sent rfl (.inr hc))
      · exact .inr (.inl ((List.mem_erase_of_ne hc).mpr hp))
    · rw [hclosed] at hp
      cases hp

theorem Ok.post (h : w.Ok) (c : Cmd) :
    { w with queue := if w.closed then w.queue else w.queue ++ [c] }.Ok := by
  refine h.waits _ w.unsent w.closed fun c' hp => ?_
  cases hclosed : w.closed with
  | true => exact .inr (.inr rfl)
  | false =>
    rcases hp with hp | hp | hp
    · exact .inl (mem_sent rfl (.inl hp))
    · exact .inr (.inl hp)
    · rw [hclosed] at hp
      cases hp

theorem Ok.close (h : w.Ok) : { w with closed := true }.Ok :=
  h.waits w.queue w.unsent true fun _ _ => .inr (.inr rfl)

/-- Time goes by. -/
theorem Ok.tick (h : w.Ok) (d : Nat) : { w with now := w.now + d }.Ok where
  apart := h.apart
  duck := h.duck
  pause := h.pause
  armed := h.armed
  grace := h.grace
  idle := h.idle
  done := h.done

/-- Every event keeps the invariant. -/
theorem step_ok (h : w.Ok) {e : Event} (hs : step w e = some w') : w'.Ok := by
  cases e with
  | update c =>
    obtain rfl := Option.some.inj hs
    exact h.update c
  | send c =>
    unfold step at hs
    dsimp only at hs
    split at hs
    · obtain rfl := Option.some.inj hs
      exact h.send c
    · cases hs
  | post c =>
    obtain rfl := Option.some.inj hs
    exact h.post c
  | close =>
    obtain rfl := Option.some.inj hs
    exact h.close
  | tick d =>
    obtain rfl := Option.some.inj hs
    exact h.tick d
  | handle t t' =>
    unfold step at hs
    dsimp only at hs
    split at hs
    · cases hs
    next hdone =>
      split at hs
      · cases hs
      next c queue hq =>
        obtain rfl := Option.some.inj hs
        exact h.handle (by simpa using hdone) hq t t'
  | timeout t =>
    unfold step at hs
    dsimp only at hs
    split at hs
    next hdue =>
      obtain rfl := Option.some.inj hs
      exact h.ready.reconcile hdue.1 t
    · cases hs
  | disconnect =>
    unfold step at hs
    dsimp only at hs
    split at hs
    · obtain rfl := Option.some.inj hs
      split
      · exact { restoreAll_ok w with done := fun _ => restoreAll_engaged }
      · exact { (restoreAll_ok w).publish with done := fun _ => restoreAll_engaged }
    · cases hs

/-- A command that is handled leaves nothing engaged with the mode off, disarmed or a held item. -/
theorem handle_off (hs : step w (.handle t t') = some w')
    (hoff : w'.status.mode = .off ∨ w'.status.armed = false ∨ w'.status.activity = .held) :
    w'.engaged = false := by
  have hstatus : ∀ (v : World), (v.reconcile t).status.mode = v.status.mode ∧
      (v.reconcile t).status.armed = v.status.armed ∧ (v.reconcile t).status.activity =
        v.status.activity := by
    intro v
    unfold reconcile publish linger engage
    dsimp only
    repeat' split
    all_goals exact ⟨rfl, rfl, rfl⟩
  have hreconcile : ∀ (v : World), w' = v.reconcile t → w'.engaged = false := by
    rintro v rfl
    obtain ⟨hmode, harmed, hactivity⟩ := hstatus v
    rw [hmode, harmed, hactivity] at hoff
    exact reconcile_off hoff
  unfold step at hs
  dsimp only at hs
  split at hs
  · cases hs
  · split at hs
    · cases hs
    next c queue hq =>
      have hw' := (Option.some.inj hs).symm
      cases c with
      | activity a => exact hreconcile _ hw'
      | mode => exact hreconcile _ hw'
      | level n => exact hreconcile _ hw'
      | arm => exact hreconcile _ hw'
      | recover => exact hreconcile _ hw'
      | sync => exact hreconcile _ hw'
      | shutdown =>
        subst hw'
        exact restoreAll_engaged

theorem reaches_ok (h : audio.Reaches w) : w.Ok := by
  refine h.invariant (fun w hw => ?_) fun w e w' hok hs => step_ok hok hs
  obtain ⟨g, rfl⟩ := hw
  exact .calm rfl rfl

/-- Nothing waits for the worker: no command, no closed channel, and no grace that is over. -/
def Settled (w : World) : Prop :=
  w.queue = [] ∧ w.unsent = [] ∧ w.closed = false ∧ w.deadline.all (w.now < ·) = true

instance : Decidable w.Settled := inferInstanceAs (Decidable (_ ∧ _ ∧ _ ∧ _))

theorem Settled.not_pending (h : w.Settled) (c : Cmd) : ¬w.Pending c := by
  obtain ⟨hqueue, hunsent, hclosed, -⟩ := h
  rintro (hp | hp | hp)
  · rw [hqueue] at hp
    cases hp
  · rw [hunsent] at hp
    cases hp
  · rw [hclosed] at hp
    cases hp

/-- **Other apps are left alone.** Never are both backends engaged. When nothing waits, an engaged
one is that of the mode, the control is armed, and the reader speaks, or has been idle or at a step
for less than its grace. A handled command leaves nothing engaged with the mode off, disarmed or a
held item, and nothing is engaged when the worker has ended. -/
theorem audio_restored (h : audio.Reaches w) :
    ¬(w.ducker.ducked = true ∧ w.pauser.paused = true) ∧
    (w.Settled → w.engaged = true → w.status.armed = true ∧
      (w.ducker.ducked = true → w.status.mode = .duck) ∧
      (w.pauser.paused = true → w.status.mode = .pause) ∧
      (w.status.activity = .speaking ∨ ∃ g, w.graceFor w.status.activity = some g ∧
        w.now < w.stopped + g)) ∧
    (w.Settled → w.status.mode = .off ∨ w.status.armed = false ∨ w.status.activity = .held →
      w.engaged = false) ∧
    (∀ t t' w', step w (.handle t t') = some w' →
      w'.status.mode = .off ∨ w'.status.armed = false ∨ w'.status.activity = .held →
      w'.engaged = false) ∧
    (w.done = true → w.engaged = false) := by
  have hok := reaches_ok h
  have hengaged : w.Settled → w.engaged = true → w.status.armed = true ∧
      (w.ducker.ducked = true → w.status.mode = .duck) ∧
        (w.pauser.paused = true → w.status.mode = .pause) ∧
      (w.status.activity = .speaking ∨ ∃ g, w.graceFor w.status.activity = some g ∧
        w.now < w.stopped + g) := by
    intro hset he
    refine ⟨(hok.armed he).resolve_right (hset.not_pending _),
      fun hd => (hok.duck hd).resolve_right (hset.not_pending _),
      fun hp => (hok.pause hp).resolve_right (hset.not_pending _), ?_⟩
    rcases hok.grace he with ⟨hspeaking, -⟩ | ⟨g, hg, hsince⟩
    · exact .inl hspeaking
    · refine .inr ⟨g, hg, ?_⟩
      have hdue := hset.2.2.2
      unfold deadline at hdue
      rw [hsince, hg] at hdue
      exact of_decide_eq_true hdue
  refine ⟨hok.apart, hengaged, fun hset hoff => ?_,
    fun t t' w' hs hoff => handle_off hs hoff, hok.done⟩
  cases he : w.engaged with
  | false => rfl
  | true =>
    obtain ⟨harmed, hduck, hpause, hactivity⟩ := hengaged hset he
    rcases hoff with hoff | hoff | hoff
    · rcases Bool.or_eq_true_iff.mp he with hd | hp
      · rw [hduck hd] at hoff
        cases hoff
      · rw [hpause hp] at hoff
        cases hoff
    · rw [hoff] at harmed
      cases harmed
    · rw [hoff] at hactivity
      rcases hactivity with hspeaking | ⟨g, hg, -⟩
      · cases hspeaking
      · cases hg

/-- A message is read with the mode duck, and ends. -/
def breath : List Event :=
  [.update (.mode .duck), .send .mode, .handle none none, .update (.arm true), .send .arm,
    .handle none none,
    .post (.activity .speaking), .handle (some [("music".toList, true)]) none, .tick (secs 2),
    .post (.activity .idle), .handle none none, .tick 100000000]

theorem audio_restored_breath : ∃ w, audio.run { idleGrace := 400000000 } breath = some w ∧
    w.engaged = true ∧
    w.status.armed = true ∧ ¬(w.ducker.ducked = true ∧ w.pauser.paused = true) := by
  refine ⟨_, rfl, by decide, ?_⟩
  have hreach : audio.Reaches _ := ⟨{ idleGrace := 400000000 }, breath, ⟨400000000, rfl⟩, rfl⟩
  exact ⟨((audio_restored hreach).2.1 (by decide) (by decide)).1, (audio_restored hreach).1⟩

end World

end Sonara.Audio
