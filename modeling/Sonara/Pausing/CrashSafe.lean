import Sonara.Pausing.Resumed

/-!
# A crash leaves no media paused

Every operation is safe along its effects and keeps the invariant behind the last of them, so both
hold in every run (`System.Good`). A process that has read no record knows only sessions it paused
itself (`Own`): what a record names is an app, and all sessions of it are resumed.
-/

namespace Sonara.Pausing

open Lib MediaPauser

variable {p : MediaPauser} {w : Outside} {o : Owed} {now : Nat} {es : List Effect}

/-! ## The sessions of this process -/

/-- A session that is ours stays ours. -/
theorem mine_step (e : Effect) : w.mine ⊆ (w.step e).mine := by
  by_cases hquiet : e.Quiet
  · rw [hquiet.settles.mine]
    exact List.Subset.refl _
  · cases e with
    | write => exact List.Subset.refl _
    | clear => exact List.Subset.refl _
    | pause s app answer =>
      unfold Outside.step
      dsimp only
      split
      · exact List.subset_cons_self _ _
      · exact List.Subset.refl _
    | _ => exact absurd trivial hquiet

theorem mine_after (es : List Effect) : w.mine ⊆ (w.after es).mine := by
  induction es generalizing w with
  | nil => exact List.Subset.refl _
  | cons e es ih => exact List.Subset.trans (mine_step e) ih

theorem swept_step {e : Effect} (h : (w.step e).swept = false) : w.swept = false := by
  cases e with
  | read => cases h
  | pause s app answer =>
    unfold Outside.step at h
    dsimp only at h
    split at h
    · exact h
    · exact h
  | _ => exact h

theorem swept_after (h : (w.after es).swept = false) : w.swept = false := by
  induction es generalizing w with
  | nil => exact h
  | cons e es ih => exact swept_step (ih h)

/-- A session that was paused, or may have been, is ours. -/
theorem answered_mine (r : PauseReply) (app : Text) {saved : List (Session × Text)}
    (h : ∀ x ∈ saved, x.1 ∈ w.mine) :
    ∀ x ∈ savedBy saved r.session app r.answer, x.1 ∈
    (w.after (answered p r app saved now)).mine := by
  intro x hx
  unfold savedBy at hx
  split at hx
  next hsaves =>
    rcases List.mem_append.mp hx with hx | hx
    · exact mine_after _ (h x hx)
    · rw [List.mem_singleton.mp hx]
      refine mine_step (.wait r.during) ?_
      show r.session ∈ (Outside.step _ (.pause r.session app r.answer)).mine
      unfold Outside.step
      dsimp only
      rw [if_pos hsaves]
      exact List.mem_cons_self
  · exact mine_after _ (h x hx)

/-- The sessions a pause saves are ours. -/
theorem pauseEach_mine (list : List PauseReply) {saved : List (Session × Text)}
    (h : ∀ x ∈ saved, x.1 ∈ w.mine) :
    ∀ x ∈ (p.pauseEach list saved now).2.1, x.1 ∈
    (w.after (p.pauseEach list saved now).1).mine := by
  induction list generalizing w saved now with
  | nil => exact h
  | cons r rest ih =>
    unfold pauseEach
    cases r.app with
    | none => exact ih h
    | some app =>
      dsimp only
      split
      · exact ih (answered_mine r app h)
      · exact ih (w := w.step (.asked r.session r.playing)) h

/-- After a pause the pauser's sessions are ours. -/
theorem MediaPauser.Own.after_pause (h : p.Own w) (a : PauseAnswers) :
    (p.pause a w.now).2.Own (w.after (p.pause a w.now).1) := by
  unfold MediaPauser.pause
  split
  · exact h
  · cases a.sessions with
    | none => exact h
    | some list =>
      have hmine := @pauseEach_mine p w w.now list [] fun x hx => absurd hx List.not_mem_nil
      refine ⟨fun _ x hx => ?_, fun hswept q hq => ?_⟩
      · rw [Outside.after_append]
        exact mine_after _ (hmine x hx)
      · obtain ⟨s, hs, hsession⟩ := h.pending (swept_after hswept) q hq
        exact ⟨s, mine_after _ hs, hsession⟩

/-- A process that has read no record knows the session of each resume it owes. -/
theorem todo_mine (h : p.Own w) (hswept : w.swept = false) :
    ∀ q ∈ p.todo now, ∃ s ∈ w.mine, q.session = some s := by
  intro q hq
  unfold MediaPauser.todo at hq
  rcases List.mem_append.mp hq with hq | hq
  · obtain ⟨x, hx, rfl⟩ := List.mem_map.mp hq
    exact ⟨x.1, h.saved hswept x hx, rfl⟩
  · exact h.pending hswept q (List.mem_of_mem_filter hq)

theorem resumeByApp_mine (h : p.Own w) (hswept : w.swept = false)
    (sessions : Option (List Listed)) :
    resumeByApp ((p.todo now).filter (·.session.isNone)) sessions now = ([], []) := by
  have hnil : (p.todo now).filter (·.session.isNone) = [] := by
    refine List.filter_eq_nil_iff.mpr fun q hq => ?_
    obtain ⟨s, -, hsession⟩ := todo_mine h hswept q hq
    rw [hsession]
    exact Bool.false_ne_true
  rw [hnil]
  rfl

theorem MediaPauser.Own.after_resume (h : p.Own w) (a : ResumeAnswers) :
    (p.resume a w.now).2.Own (w.after (p.resume a w.now).1) := by
  unfold MediaPauser.resume
  dsimp only
  split
  · exact ⟨fun _ x hx => absurd hx List.not_mem_nil, fun _ q hq => absurd hq List.not_mem_nil⟩
  · refine ⟨fun _ x hx => absurd hx List.not_mem_nil, fun hswept q hq => ?_⟩
    have hswept₀ := swept_after hswept
    rw [resumeByApp_mine h hswept₀] at hq
    obtain ⟨s, hs, hsession⟩ := todo_mine h hswept₀ q
      (resumeEach_failed ((List.append_nil _).subst hq))
    exact ⟨s, mine_after _ hs, hsession⟩

theorem MediaPauser.Own.after_recover (h : p.Own w) (a : RecoverAnswers) :
    (p.recover a w.file w.now).2.Own (w.after (p.recover a w.file w.now).1) := by
  cases w.file with
  | none => exact h
  | some f =>
    have hread : ∀ es, (w.after (.read :: .wait a.between :: es)).swept = false → False :=
      fun es hswept => nomatch @swept_after (w.step .read) _ hswept
    exact ⟨fun hswept => (hread _ hswept).elim, fun hswept => (hread _ hswept).elim⟩

/-! ## What is played -/

/-- Only a session that was saved is played. -/
theorem resumeEach_plays {todo : List Pending} {ask : Nat → Check} {t : Session} {ok : Bool}
    (h : .play t ok ∈ (resumeEach todo ask).1) : ∃ q ∈ todo, q.session = some t := by
  induction todo generalizing ask with
  | nil => cases h
  | cons q rest ih =>
    have hrest : .play t ok ∈ (resumeEach rest fun i => ask (i + 1)).1 →
        ∃ r ∈ q :: rest, r.session = some t := by
      intro h
      obtain ⟨r, hr, hsession⟩ := ih h
      exact ⟨r, List.mem_cons_of_mem _ hr, hsession⟩
    unfold resumeEach at h
    cases hs : q.session with
    | none =>
      rw [hs] at h
      exact hrest h
    | some s =>
      rw [hs] at h
      dsimp only at h
      split at h
      · rcases List.mem_cons.mp h with heq | h
        · cases heq
        · rcases List.mem_cons.mp h with heq | h
          · cases heq
            exact ⟨q, List.mem_cons_self, hs⟩
          · exact hrest h
      · rcases List.mem_cons.mp h with heq | h
        · cases heq
        · exact hrest h

/-- A process that has read no record plays only what it paused. -/
theorem resume_plays_own (h : p.Own w) (hswept : w.swept = false) (a : ResumeAnswers)
    {t : Session} {ok : Bool} (hplay : .play t ok ∈ (p.resume a now).1) : t ∈ w.mine := by
  unfold MediaPauser.resume at hplay
  dsimp only at hplay
  split at hplay
  · cases List.mem_singleton.mp hplay
  · rw [resumeByApp_mine h hswept, List.append_nil] at hplay
    rcases List.mem_append.mp hplay with hplay | hplay
    · obtain ⟨q, hq, hsession⟩ := resumeEach_plays hplay
      obtain ⟨s, hs, hown⟩ := todo_mine h hswept q hq
      rwa [Option.some.inj (hsession.symm.trans hown)]
    · simp only [List.mem_cons, List.not_mem_nil, or_false] at hplay
      rcases hplay with h | h
      · cases h
      · split at h <;> cases h

/-- A listed session of a wanted app plays, or is told to. -/
theorem resumeEachOf_plays {wanted : List Text} {list : List Listed} {l : Listed} {app : Text}
    (hl : l ∈ list) (happ : l.app = some app) (hwanted : app ∈ wanted) :
    .asked l.session (some true) ∈ (resumeEachOf wanted list).1 ∨
      .play l.session l.plays ∈ (resumeEachOf wanted list).1 := by
  induction list with
  | nil => cases hl
  | cons x rest ih =>
    unfold resumeEachOf
    rcases List.mem_cons.mp hl with rfl | hl
    · rw [happ]
      dsimp only
      rw [if_pos (List.contains_iff_mem.mpr hwanted)]
      split
      next hplaying =>
        rw [hplaying]
        exact .inl (List.mem_cons_of_mem _ List.mem_cons_self)
      · exact .inr (List.mem_cons_of_mem _ (List.mem_cons_of_mem _ List.mem_cons_self))
    · cases x.app with
      | none => exact (ih hl).imp (List.mem_cons_of_mem _) (List.mem_cons_of_mem _)
      | some name =>
        dsimp only
        split
        · split
          · exact (ih hl).imp (List.mem_cons_of_mem _ ∘ List.mem_cons_of_mem _)
              (List.mem_cons_of_mem _ ∘ List.mem_cons_of_mem _)
          · exact (ih hl).imp
              (List.mem_cons_of_mem _ ∘ List.mem_cons_of_mem _ ∘ List.mem_cons_of_mem _)
              (List.mem_cons_of_mem _ ∘ List.mem_cons_of_mem _ ∘ List.mem_cons_of_mem _)
        · exact (ih hl).imp (List.mem_cons_of_mem _) (List.mem_cons_of_mem _)

/-- The startup sweep plays what is owed and listed, while the record is of no great age. -/
theorem recover_plays (h : w.Safe) (ho : o ∈ w.owed) {a : RecoverAnswers}
    (hage : expired o.kept (w.now + a.between) = false) {list : List Listed}
    (hlist : a.sessions = some list)
    {l : Listed} (hl : l ∈ list) (hsession : l.session = o.session) (happ : l.app = some o.app) :
    .asked o.session (some true) ∈ (p.recover a w.file w.now).1 ∨
      .play o.session l.plays ∈ (p.recover a w.file w.now).1 := by
  obtain ⟨apps, time, hfile, hmem, hkept⟩ :=
    h o ho (not_expired_mono hage (Nat.le_refl _) (Nat.le_add_right _ _))
  have hplays := resumeEachOf_plays hl happ hmem
  rw [hsession] at hplays
  have hyoung : expired time (w.now + a.between) = false :=
    not_expired_mono hage hkept (Nat.le_refl _)
  have hne : apps.isEmpty = false := by
    rw [List.isEmpty_eq_false_iff]
    exact List.ne_nil_of_mem hmem
  have hsweep : ∀ e ∈ (resumeEachOf apps list).1, e ∈ (p.recover a w.file w.now).1 := by
    intro e he
    rw [hfile]
    unfold MediaPauser.recover sweep
    dsimp only
    rw [Option.getD_some, hne, hyoung, hlist]
    refine List.mem_cons_of_mem _ (List.mem_cons_of_mem _ (List.mem_append_left _ ?_))
    exact List.mem_cons_of_mem _ he
  exact hplays.imp (hsweep _) (hsweep _)

/-! ## Runs -/

structure System.Good (s : System) : Prop where
  safe : s.out.Safe
  inv : ∀ p, s.pauser = some p → p.Inv s.out ∧ p.Own s.out

variable {s : System}

theorem System.Good.perform {r : List Effect × MediaPauser}
    (halong : Along Outside.step Outside.Safe w r.1)
    (hinv : r.2.Inv (w.after r.1)) (hown : r.2.Own (w.after r.1)) (cut : Option Nat) :
    (System.perform w r cut).Good := by
  cases cut with
  | none =>
    refine ⟨halong.last, ?_⟩
    rintro _ ⟨⟩
    exact ⟨hinv, hown⟩
  | some cut => exact ⟨halong.cut cut, fun p hp => nomatch hp⟩

/-- Every event keeps the system good. -/
theorem System.Good.step (h : s.Good) (e : Event) : (s.step e).Good := by
  cases e with
  | wait secs =>
    have hsettles := @Effect.Quiet.settles s.out (.wait secs) trivial
    refine ⟨h.safe.settles hsettles, fun p hp => ?_⟩
    obtain ⟨hinv, hown⟩ := h.inv p hp
    exact ⟨⟨hinv.safe.settles hsettles, hinv.held.settles hsettles, hinv.idle⟩,
      ⟨hown.saved, hown.pending⟩⟩
  | call op cut =>
    unfold System.step
    cases hp : s.pauser with
    | none => exact h
    | some p =>
      obtain ⟨hinv, hown⟩ := h.inv p hp
      dsimp only
      cases op with
      | pause a =>
        exact .perform (hinv.after_pause a).1 (hinv.after_pause a).2 (hown.after_pause a) cut
      | resume a =>
        exact .perform (hinv.after_resume a).1 (hinv.after_resume a).2 (hown.after_resume a) cut
      | recover a =>
        have hrecover := inv_recover hinv.safe hinv.idle a
        exact .perform hrecover.1 hrecover.2 (hown.after_recover a) cut
  | start a cut =>
    unfold System.step
    cases s.pauser with
    | some p => exact h
    | none =>
      have hown : ({} : MediaPauser).Own (System.fresh s.out) :=
        ⟨fun _ x hx => absurd hx List.not_mem_nil, fun _ q hq => absurd hq List.not_mem_nil⟩
      have hrecover := @inv_recover {} (System.fresh s.out) h.safe (fun _ => rfl) a
      exact .perform hrecover.1 hrecover.2 (hown.after_recover a) cut

theorem System.Good.run (h : s.Good) (events : List Event) : (s.run events).Good := by
  induction events generalizing s with
  | nil => exact h
  | cons e events ih => exact ih (h.step e)

theorem System.initial_good (file : Option StateFile) (now : Nat) :
    (System.initial file now).Good :=
  ⟨fun _ ho => absurd ho List.not_mem_nil, fun _ hp => nomatch hp⟩

/-- What was paused and has not played again is in the file wherever a run stops, and with the
process as well: until the oldest of its own time and those the file has had since is past
`PENDING_MAX_AGE`. Until then a new process plays it, when it is listed under its name. A process
that has read no record resumes only what it paused. -/
theorem pausing_crash_safe (file : Option StateFile) (now : Nat) (events : List Event) :
    let s := (System.initial file now).run events
    (∀ o ∈ s.out.owed, expired o.kept s.out.now = false →
      (∃ f, s.out.file = some f ∧ o.app ∈ f.apps) ∧
        ∀ p, s.pauser = some p → o.app ∈ p.saved.map (·.2) ++ p.pending.map (·.app)) ∧
    (∀ o ∈ s.out.owed, ∀ (a : RecoverAnswers) list, expired o.kept (s.out.now + a.between) = false →
      a.sessions = some list → ∀ l ∈ list, l.session = o.session → l.app = some o.app →
        .asked o.session (some true) ∈ (({} : MediaPauser).recover a s.out.file s.out.now).1 ∨
          .play o.session l.plays ∈ (({} : MediaPauser).recover a s.out.file s.out.now).1) ∧
    ∀ p, s.pauser = some p → s.out.swept = false →
      ∀ a t ok, .play t ok ∈ (p.resume a s.out.now).1 → t ∈ s.out.mine := by
  intro s
  have hgood : s.Good := (System.initial_good file now).run events
  refine ⟨fun o ho hage => ⟨?_, fun p hp => ?_⟩, ?_, ?_⟩
  · obtain ⟨apps, time, hfile, happ, -⟩ := hgood.safe o ho hage
    exact ⟨_, hfile, happ⟩
  · rw [List.mem_append]
    rcases (hgood.inv p hp).1.held o ho hage with ⟨hsaved, -⟩ | ⟨q, hq, happ, -⟩
    · exact .inl (List.mem_map.mpr ⟨_, hsaved, rfl⟩)
    · exact .inr (List.mem_map.mpr ⟨q, hq, happ⟩)
  · intro o ho a list hage hlist l hl hsession happ
    exact recover_plays hgood.safe ho hage hlist hl hsession happ
  · intro p hp hswept a t ok hplay
    exact resume_plays_own (hgood.inv p hp).2 hswept a hplay

/-! ## What the time of a record and its names cost -/

/-- A session that plays, in a pause. -/
def playing (s : Session) (app : Text) : PauseReply :=
  { session := s, app := some app, playing := some true, before := 0, answer := .ok, during := 0 }

def pauseOf (list : List PauseReply) : Event :=
  .call (.pause { sessions := some list, after := 0, last := 0 }) none

def resumeOf (c : Check) : Event :=
  .call (.resume { ask := fun _ => c, sessions := none, took := 0 }) none

def startOf (list : List Listed) : Event :=
  .start { sessions := some list, between := 0, took := 0 } none

def crash : Event := .call (.resume { ask := fun _ => ⟨none, false⟩, sessions := none, took := 0 })
    (some 0)

/-- A resume that failed; a second app is paused 590 s later, and the process crashes. -/
def crashWithOldEntry : List Event :=
  [startOf [], pauseOf [playing 1 ['a']], resumeOf ⟨some false, false⟩, .wait 590,
    pauseOf [playing 2 ['b']], crash,
    .wait 110, startOf [⟨2, some ['b'], some false, true⟩]]

/-- A crash; the next process is asked to resume a session that does not say its name. -/
def crashWithoutName : List Event := [startOf [], pauseOf [playing 1 ['a']], crash]

/-- What it paused is in the file, and the next process plays it where it says its name. -/
theorem pausing_crash_safe_again :
    let s := (System.initial none 0).run crashWithoutName
    let a : RecoverAnswers := ⟨some [⟨1, some ['a'], some false, true⟩], 0, 0⟩
    (∃ f, s.out.file = some f ∧ ['a'] ∈ f.apps) ∧
      (.asked 1 (some true) ∈ (({} : MediaPauser).recover a s.out.file s.out.now).1 ∨
        .play 1 true ∈ (({} : MediaPauser).recover a s.out.file s.out.now).1) := by
  intro s a
  have howed : ⟨1, ['a'], 0, 0⟩ ∈ s.out.owed := by decide
  have hsafe := pausing_crash_safe none 0 crashWithoutName
  exact ⟨(hsafe.1 _ howed (by decide)).1,
    hsafe.2.1 _ howed a _ (by decide) rfl ⟨1, some ['a'], some false,
      true⟩ List.mem_cons_self rfl rfl⟩

/-- A session that does not answer when it is resumed. -/
def resumeWithoutAnswer : List Event :=
  [startOf [], pauseOf [playing 1 ['a']], resumeOf ⟨none, true⟩]

/-- A sweep in the middle of a pause: it fails to play a session of the app that the user paused. -/
def sweepWhilePaused : List Event :=
  [startOf [], pauseOf [playing 1 ['a']],
    .call (.recover ⟨some [⟨1, some ['a'], some false, true⟩, ⟨3, some ['a'], some false, false⟩],
      0, 0⟩) none]

/-- The promise by own ages fails: of a session paused 110 s ago nothing is left. One that does
not say its name or its state is dropped while it is there, and a sweep in the middle of a pause
makes the next resume play what the user paused. -/
theorem not_pausing_by_own_age :
    let crashed := (System.initial none 0).run crashWithoutName
    let unanswered := (System.initial none 0).run resumeWithoutAnswer
    let swept := (System.initial none 0).run sweepWhilePaused
    (¬ ∀ (file : Option StateFile) (now : Nat) (events : List Event),
      ∀ o ∈ ((System.initial file now).run events).out.owed,
        expired o.since ((System.initial file now).run events).out.now = false →
          ∃ f, ((System.initial file now).run events).out.file = some f ∧ o.app ∈ f.apps) ∧
    (crashed.out.owed = [⟨1, ['a'], 0, 0⟩] ∧ crashed.out.now = 0 ∧
      (({} : MediaPauser).recover ⟨some [⟨1, none, some false, true⟩], 0,
        0⟩ crashed.out.file crashed.out.now).1 =
        [.read, .wait 0, .listed [['a']] [1], .named [['a']] 1 none, .wait 0, .clear]) ∧
    (unanswered.out.mine = [1] ∧ unanswered.out.file = none ∧ unanswered.pauser = some {}) ∧
    (swept.out.mine = [1] ∧ ∃ p, swept.pauser = some p ∧
      .play 3 true ∈ (p.resume ⟨fun _ => ⟨some false, true⟩, none, 0⟩ swept.out.now).1) := by
  refine ⟨fun h => ?_, by decide, by decide, by decide, _, rfl, by decide⟩
  have hfile : ((System.initial none 0).run crashWithOldEntry).out.file = none := by decide
  obtain ⟨f, hf, -⟩ := h none 0 crashWithOldEntry ⟨2, ['b'], 590, 0⟩ (by decide) (by decide)
  cases hfile.symm.trans hf

end Sonara.Pausing
