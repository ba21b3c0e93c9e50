import Sonara.Pausing.Runs

/-!
# What is owed stays recorded

Only three effects do more than settle what is owed: a write and a clear of the file, and a pause.
Up to the next of them a safe point is followed by safe points (`Owes.quiet`). A write of all that
is held makes the point behind it safe (`safe_record`), so each operation is safe along its
effects: a pause is recorded before it happens, and the file is not touched by a resume before
everything in it was tried.
-/

namespace Sonara.Pausing

open Lib

variable {p : MediaPauser} {w w' : Outside} {o : Owed} {P Q : Owed → Prop} {e : Effect}
  {es : List Effect}
  {now now' time : Nat}

/-! ## Times and apps -/

theorem not_expired_mono {time' : Nat} (h : expired time now = false) (htime : time ≤ time')
    (hnow : now' ≤ now) :
    expired time' now' = false := by
  unfold expired at h ⊢
  rw [decide_eq_false_iff_not] at h ⊢
  omega

/-- `unique` keeps the apps. -/
theorem mem_unique {a : Text} {apps : List Text} : a ∈ unique apps ↔ a ∈ apps := by
  have hfold : ∀ (apps out : List Text),
      a ∈ apps.foldl (fun out a => if out.contains a then out else out ++ [a]) out ↔
        a ∈ out ∨ a ∈ apps := by
    intro apps
    induction apps with
    | nil =>
      intro out
      rw [List.foldl_nil]
      exact ⟨.inl, fun h => h.elim id fun h => absurd h List.not_mem_nil⟩
    | cons b apps ih =>
      intro out
      rw [List.foldl_cons, ih, List.mem_cons]
      by_cases hb : out.contains b = true
      · rw [if_pos hb]
        constructor
        · exact fun h => h.imp_right .inr
        · rintro (h | rfl | h)
          · exact .inl h
          · exact .inl (List.contains_iff_mem.mp hb)
          · exact .inr h
      · rw [if_neg hb, List.mem_append, List.mem_singleton, or_assoc]
  unfold unique
  rw [hfold]
  exact ⟨fun h => h.elim (fun h => absurd h List.not_mem_nil) id, .inr⟩

theorem min?_le {l : List Nat} {a : Nat} (h : a ∈ l) (d : Nat) : l.min?.getD d ≤ a := by
  cases hmin : l.min? with
  | none =>
    rw [List.min?_eq_none_iff.mp hmin] at h
    cases h
  | some m => exact (List.min?_eq_some_iff.mp hmin).2 a h

/-! ## Effects that only settle -/

/-- The file stays, and nothing more is owed. -/
def Effect.Quiet : Effect → Prop
  | .write _ _ => False
  | .clear => False
  | .pause _ _ _ => False
  | _ => True

/-- What is behind quiet effects. -/
structure Outside.Settles (w w' : Outside) : Prop where
  file : w'.file = w.file
  now : w.now ≤ w'.now
  owed : ∀ o ∈ w'.owed, o ∈ w.owed
  mine : w'.mine = w.mine

theorem Outside.Settles.refl (w : Outside) : w.Settles w := ⟨rfl, Nat.le_refl _, fun _ h => h, rfl⟩

theorem Outside.Settles.trans {w'' : Outside} (h : w.Settles w') (h' : w'.Settles w'') :
    w.Settles w'' :=
  ⟨h'.file.trans h.file, h.now.trans h'.now, fun o ho => h.owed o (h'.owed o ho),
    h'.mine.trans h.mine⟩

theorem Outside.settle_settles (gone : Owed → Bool) : w.Settles (w.settle gone) :=
  ⟨rfl, Nat.le_refl _, fun _ h => List.mem_of_mem_filter h, rfl⟩

theorem Effect.Quiet.settles (h : e.Quiet) : w.Settles (w.step e) := by
  cases e with
  | write => cases h
  | clear => cases h
  | pause => cases h
  | read => exact ⟨rfl, Nat.le_refl _, fun _ h => h, rfl⟩
  | wait secs => exact ⟨rfl, Nat.le_add_right _ _, fun _ h => h, rfl⟩
  | listed => exact w.settle_settles _
  | named => exact w.settle_settles _
  | asked => exact w.settle_settles _
  | checked => exact w.settle_settles _
  | play => exact w.settle_settles _

theorem Outside.Owes.settles (h : w.Owes P) (hw : w.Settles w') : w'.Owes P := fun o ho hage =>
  h o (hw.owed o ho) (not_expired_mono hage (Nat.le_refl _) hw.now)

theorem Outside.Safe.settles (h : w.Safe) (hw : w.Settles w') : w'.Safe := by
  intro o ho hage
  obtain ⟨apps, time, hfile, happ, hkept⟩ := Owes.settles h hw o ho hage
  exact ⟨apps, time, hw.file.trans hfile, happ, hkept⟩

theorem settles_after (hes : ∀ e ∈ es, e.Quiet) : w.Settles (w.after es) := by
  induction es generalizing w with
  | nil => exact .refl w
  | cons e es ih =>
    have hstep : w.Settles (w.step e) := (hes e List.mem_cons_self).settles
    exact hstep.trans (ih fun e he => hes e (List.mem_cons_of_mem _ he))

/-- A safe point is followed by safe points, up to the next write. -/
theorem Outside.Safe.along (h : w.Safe) (hes : ∀ e ∈ es, e.Quiet) :
    Along Outside.step Outside.Safe w es :=
  Along.of_keeps h fun e he _ ht => ht.settles (hes e he).settles

/-- What was owed and is owed no more behind `e` is not owed behind more quiet effects either. -/
theorem mem_after_cons (hes : ∀ e ∈ es, e.Quiet) (h : o ∈ (w.after (e :: es)).owed) :
    o ∈ (w.step e).owed :=
  (settles_after hes).owed o h

/-! ## Writes -/

/-- `P` does not ask for a later time. -/
def Lowers (P : Owed → Prop) : Prop := ∀ o k, k ≤ o.kept → P o → P { o with kept := k }

theorem lowers_pending : Lowers fun o => o.Pending p := by
  rintro o k hk ⟨q, hq, happ, hsession, hkept⟩
  exact ⟨q, hq, happ, hsession, hk.trans hkept⟩

theorem Outside.Owes.write {apps : List Text} (h : w.Owes P) (hP : Lowers P) :
    (w.step (.write apps time)).Owes P := by
  intro o ho hage
  obtain ⟨o, hmem, rfl⟩ := List.mem_map.mp ho
  exact hP o _ (Nat.min_le_left _ _)
    (h o hmem (not_expired_mono hage (Nat.min_le_left _ _) (Nat.le_refl _)))

theorem Outside.Owes.imp (h : w.Owes P) (hPQ : ∀ o, P o → Q o) : w.Owes Q :=
  fun o ho hage => hPQ o (h o ho hage)

/-- A write of all that is owed. -/
theorem safe_write {apps : List Text} (h : w.Owes fun o => o.app ∈ apps) :
    (w.step (.write apps time)).Safe := by
  intro o ho hage
  obtain ⟨o, hmem, rfl⟩ := List.mem_map.mp ho
  have happ := h o hmem (not_expired_mono hage (Nat.min_le_left _ _) (Nat.le_refl _))
  exact ⟨apps, time, rfl, happ, Nat.min_le_right _ _⟩

/-- The file is written with `apps`, or cleared when there are none. -/
def WritesAll (apps : List Text) (e : Effect) : Prop :=
  e = .clear ∧ apps = [] ∨ ∃ time, e = .write apps time

theorem WritesAll.owes {apps : List Text} (he : WritesAll apps e) (h : w.Owes P) (hP : Lowers P) :
    (w.step e).Owes P := by
  obtain ⟨rfl, -⟩ | ⟨time, rfl⟩ := he
  · exact h
  · exact h.write hP

theorem WritesAll.safe {apps : List Text} (he : WritesAll apps e)
    (h : w.Owes fun o => o.app ∈ apps) :
    (w.step e).Safe := by
  obtain ⟨rfl, rfl⟩ | ⟨time, rfl⟩ := he
  · intro o ho hage
    exact absurd (h o ho hage) List.not_mem_nil
  · exact safe_write h

theorem writesAll_record (p : MediaPauser) (apps : List Text) (now : Nat) :
    WritesAll (unique (p.pending.map (·.app) ++ apps)) (p.record apps now) := by
  unfold MediaPauser.record
  dsimp only
  split
  next h => exact .inl ⟨rfl, List.isEmpty_iff.mp h⟩
  · exact .inr ⟨_, rfl⟩

theorem safe_record {apps : List Text} (h : w.Owes fun o => o.app ∈ apps ∨ o.Pending p) :
    (w.step (p.record apps now)).Safe := by
  refine (writesAll_record p apps now).safe (h.imp fun o ho => ?_)
  rw [mem_unique, List.mem_append]
  rcases ho with ho | ⟨q, hq, happ, -⟩
  · exact .inr ho
  · exact .inl (List.mem_map.mpr ⟨q, hq, happ⟩)

/-! ## Pause -/

/-- In the middle of a pause: saved so far, or pending. -/
def Owed.Held (p : MediaPauser) (saved : List (Session × Text)) (now : Nat) (o : Owed) : Prop :=
  ((o.session, o.app) ∈ saved ∧ o.kept ≤ now) ∨ o.Pending p

variable {saved : List (Session × Text)} {s : Session} {app : Text} {apps : List Text}
  {answer : PauseAnswer}

theorem lowers_held : Lowers (Owed.Held p saved now) := by
  rintro o k hk (⟨hmem, hkept⟩ | h)
  · exact .inl ⟨hmem, hk.trans hkept⟩
  · exact .inr (lowers_pending o k hk h)

theorem Owed.Held.mono {saved' : List (Session × Text)} (h : o.Held p saved now)
    (hsaved : saved ⊆ saved') (hnow : now ≤ now') : o.Held p saved' now' :=
  h.imp_left fun h => ⟨hsaved h.1, h.2.trans hnow⟩

/-- What is owed after a pause was owed, or is the session that may have paused. -/
theorem mem_pause (h : o ∈ (w.step (.pause s app answer)).owed) :
    o ∈ w.owed ∨ answer.saves = true ∧ o.session = s ∧ o.app = app ∧ o.kept ≤ w.now ∧
      ∀ f time, w.file = some f → f.time = some time → o.kept ≤ time := by
  unfold Outside.step at h
  dsimp only at h
  split at h
  next hsaves =>
    rcases List.mem_cons.mp h with rfl | h
    · refine .inr ⟨hsaves, rfl, rfl, ?_, ?_⟩
      · dsimp only
        cases w.file.bind (·.time) with
        | none => exact Nat.le_refl _
        | some time => exact Nat.min_le_left _ _
      · intro f time hf htime
        dsimp only
        rw [hf, Option.bind_some, htime]
        exact Nat.min_le_right _ _
    · exact .inl (List.mem_of_mem_filter h)
  · exact .inl h

theorem pause_file : (w.step (.pause s app answer)).file = w.file ∧
    (w.step (.pause s app answer)).now = w.now := by
  unfold Outside.step
  dsimp only
  split <;> exact ⟨rfl, rfl⟩

/-- The sessions saved, with one more when it answered so. -/
def savedBy (saved : List (Session × Text)) (s : Session) (app : Text) (answer : PauseAnswer) :
    List (Session × Text) :=
  if answer.saves then saved ++ [(s, app)] else saved

theorem subset_savedBy : saved ⊆ savedBy saved s app answer := by
  unfold savedBy
  split
  · exact List.subset_append_left _ _
  · exact List.Subset.refl _

/-- A session whose app is recorded may pause. -/
theorem safe_pause {apps : List Text} (hsafe : w.Safe)
    (hfile : w.file = some { apps := apps, time := some time }) (happ : app ∈ apps) :
    (w.step (.pause s app answer)).Safe := by
  obtain ⟨hfile', hnow⟩ := @pause_file w s app answer
  intro o ho hage
  rw [hnow] at hage
  rcases mem_pause ho with ho | ⟨-, -, rfl, -, hkept⟩
  · obtain ⟨apps, time, h⟩ := hsafe o ho hage
    exact ⟨apps, time, hfile'.trans h.1, h.2⟩
  · exact ⟨apps, time, hfile'.trans hfile, happ, hkept _ time hfile rfl⟩

theorem held_pause (h : w.Owes (Owed.Held p saved w.now)) :
    (w.step (.pause s app answer)).Owes (Owed.Held p (savedBy saved s app answer) w.now) := by
  intro o ho hage
  rw [pause_file.2] at hage
  rcases mem_pause ho with ho | ⟨hsaves, rfl, rfl, hkept, -⟩
  · exact (h o ho hage).mono subset_savedBy (Nat.le_refl _)
  · refine .inl ⟨?_, hkept⟩
    unfold savedBy
    rw [if_pos hsaves]
    exact List.mem_append_right _ (List.mem_singleton.mpr rfl)

theorem record_write (p : MediaPauser) (hne : app ∈ apps) (now : Nat) :
    ∃ time, p.record apps now = .write (unique (p.pending.map (·.app) ++ apps)) time := by
  rcases writesAll_record p apps now with ⟨-, hnil⟩ | hwrite
  · have hmem : app ∈ unique (p.pending.map (·.app) ++ apps) :=
      mem_unique.mpr (List.mem_append_right _ hne)
    rw [hnil] at hmem
    cases hmem
  · exact hwrite

/-- One session of a pause, recorded before it pauses. -/
theorem pauseOne_along (hsafe : w.Safe) (hheld : w.Owes (Owed.Held p saved w.now)) :
    Along Outside.step Outside.Safe w
    [p.record (saved.map (·.2) ++ [app]) w.now, .pause s app answer] ∧
    (w.after [p.record (saved.map (·.2) ++ [app]) w.now, .pause s app answer]).now = w.now ∧
    (w.after [p.record (saved.map (·.2) ++ [app]) w.now, .pause s app answer]).Owes
      (Owed.Held p (savedBy saved s app answer) w.now) := by
  have happ : app ∈ saved.map (·.2) ++ [app] := List.mem_append_right _ (List.mem_singleton.mpr rfl)
  have hsafe' : (w.step (p.record (saved.map (·.2) ++ [app]) w.now)).Safe := by
    refine safe_record (hheld.imp fun o ho => ho.imp_left fun h => ?_)
    exact List.mem_append_left _ (List.mem_map.mpr ⟨_, h.1, rfl⟩)
  have hheld' := (writesAll_record p (saved.map (·.2) ++ [app]) w.now).owes hheld lowers_held
  obtain ⟨time, hwrite⟩ := record_write p happ w.now
  rw [hwrite] at hsafe' hheld' ⊢
  refine ⟨⟨hsafe, hsafe', ?_⟩, pause_file.2, held_pause hheld'⟩
  exact safe_pause hsafe' rfl (mem_unique.mpr (List.mem_append_right _ happ))

/-- What is done with one session that plays. -/
def answered (p : MediaPauser) (r : MediaPauser.PauseReply) (app : Text)
    (saved : List (Session × Text)) (now : Nat) :
    List Effect :=
  [.asked r.session r.playing, .wait r.before, p.record (saved.map (·.2) ++ [app]) (now + r.before),
    .pause r.session app r.answer, .wait r.during]

/-- Each effect of one answered session is safe, and the session is held if it may have paused. -/
theorem answered_along (r : MediaPauser.PauseReply) (hsafe : w.Safe)
    (hheld : w.Owes (Owed.Held p saved w.now)) :
    Along Outside.step Outside.Safe w (answered p r app saved w.now) ∧
    (w.after (answered p r app saved w.now)).now = w.now + r.before + r.during ∧
    (w.after (answered p r app saved w.now)).Owes
      (Owed.Held p (savedBy saved r.session app r.answer) (w.now + r.before + r.during)) := by
  have hasked : w.Settles (w.step (.asked r.session r.playing)) := w.settle_settles _
  have hbefore : w.Settles ((w.step (.asked r.session r.playing)).step (.wait r.before)) :=
    hasked.trans (Effect.Quiet.settles (e := .wait r.before) trivial)
  obtain ⟨hone, hnow, hheld'⟩ := @pauseOne_along p _ saved r.session app r.answer
    (hsafe.settles hbefore) ((hheld.settles hbefore).imp fun o ho =>
      ho.mono (List.Subset.refl _) hbefore.now)
  obtain ⟨-, hsafe₁, hsafe₂⟩ := hone
  have hduring := @Effect.Quiet.settles (w.after ((answered p r app saved w.now).take 4))
    (.wait r.during) trivial
  refine ⟨⟨hsafe, hsafe.settles hasked, hsafe.settles hbefore, hsafe₁, hsafe₂,
    hsafe₂.settles hduring⟩, ?_, ?_⟩
  · exact congrArg (· + r.during) hnow
  · exact (hheld'.settles hduring).imp fun o ho =>
      ho.mono (List.Subset.refl _) (Nat.le_add_right _ _)

/-- The loop of a pause. -/
theorem pauseEach_along (list : List MediaPauser.PauseReply) (hsafe : w.Safe)
    (hheld : w.Owes (Owed.Held p saved w.now)) :
    Along Outside.step Outside.Safe w (p.pauseEach list saved w.now).1 ∧
    (w.after (p.pauseEach list saved w.now).1).now = (p.pauseEach list saved w.now).2.2 ∧
    (w.after (p.pauseEach list saved w.now).1).Owes
      (Owed.Held p (p.pauseEach list saved w.now).2.1 (p.pauseEach list saved w.now).2.2) := by
  induction list generalizing w saved with
  | nil => exact ⟨hsafe, rfl, hheld⟩
  | cons r rest ih =>
    unfold MediaPauser.pauseEach
    cases hname : r.app with
    | none => exact ih hsafe hheld
    | some app =>
      dsimp only
      split
      · obtain ⟨hone, hnow, hheld'⟩ := @answered_along p w saved app r hsafe hheld
        rw [← hnow] at hheld'
        obtain ⟨hrest, hnow', hheld''⟩ := ih hone.last hheld'
        rw [hnow] at hrest hnow' hheld''
        exact ⟨hone.append hrest, hnow', hheld''⟩
      · have hasked : w.Settles (w.step (.asked r.session r.playing)) := w.settle_settles _
        obtain ⟨hsafe', hnow, hheld'⟩ := ih (hsafe.settles hasked) (hheld.settles hasked)
        exact ⟨⟨hsafe, hsafe'⟩, hnow, hheld'⟩

/-- A pause is safe at every effect, and keeps the invariant. -/
theorem MediaPauser.Inv.after_pause (h : p.Inv w) (a : MediaPauser.PauseAnswers) :
    Along Outside.step Outside.Safe w (p.pause a w.now).1 ∧
    (p.pause a w.now).2.Inv (w.after (p.pause a w.now).1) := by
  unfold MediaPauser.pause
  split
  · exact ⟨h.safe, h⟩
  next hpaused =>
    cases hlist : a.sessions with
    | none => exact ⟨h.safe, h⟩
    | some list =>
      dsimp only
      -- nothing is saved before, so all that is owed is pending
      have hheld : w.Owes (Owed.Held p [] w.now) := h.held.imp fun o ho => by
        rcases ho with ⟨hsaved, -⟩ | ho
        · rw [h.idle (Bool.eq_false_iff.mpr hpaused)] at hsaved
          cases hsaved
        · exact .inr ho
      obtain ⟨hloop, hnow, hheld'⟩ := pauseEach_along list h.safe hheld
      obtain ⟨es, saved, now, hout⟩ : ∃ es saved now, p.pauseEach list
        [] w.now = (es, saved, now) := ⟨_, _, _, rfl⟩
      rw [hout] at hloop hnow hheld' ⊢
      dsimp only at hloop hnow hheld' ⊢
      have hquiet : ∀ e ∈ [Effect.wait a.after, .wait a.last], e.Quiet := by simp [Effect.Quiet]
      have hsince := (hheld'.settles (settles_after hquiet)).imp fun o ho =>
        ho.mono (List.Subset.refl _) (Nat.le_add_right now a.after)
      have hlast : (((w.after es).after [.wait a.after, .wait a.last]).step
          (p.record (saved.map (·.2)) (now + a.after + a.last))).Safe :=
        safe_record (hsince.imp fun o ho => ho.imp_left fun h => List.mem_map.mpr ⟨_, h.1, rfl⟩)
      have hdone := (writesAll_record p (saved.map (·.2)) (now + a.after + a.last)).owes
        hsince lowers_held
      have htail := hloop.last.along hquiet
      refine ⟨hloop.append (htail.snoc hlast), ?_, ?_, fun h => nomatch h⟩
      · rw [Outside.after_append]
        exact hlast
      · rw [Outside.after_append]
        exact hdone

end Sonara.Pausing
