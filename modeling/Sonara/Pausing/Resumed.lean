import Sonara.Pausing.Kept

/-!
# What a resume leaves

All that is still owed behind the loops of a resume is among what they failed to resume: a session
that was tried plays, or is gone, or is kept (`mem_resumeEach`, `mem_resumeApps`). So the write at
their end has everything, and until then the file has what it had.
-/

namespace Sonara.Pausing

open Lib MediaPauser

variable {p : MediaPauser} {w : Outside} {o : Owed} {now : Nat}

/-! ## The loops -/

theorem mem_settle {gone : Owed → Bool} (h : o ∈ (w.settle gone).owed) : gone o = false := by
  have := List.of_mem_filter h
  rwa [Bool.not_eq_true'] at this

theorem resumeEach_quiet (todo : List Pending) (ask : Nat → Check) :
    ∀ e ∈ (resumeEach todo ask).1, e.Quiet := by
  induction todo generalizing ask with
  | nil => exact fun e he => absurd he List.not_mem_nil
  | cons q rest ih =>
    unfold resumeEach
    cases q.session with
    | none => exact ih _
    | some s =>
      dsimp only
      split
      · exact List.forall_mem_cons.mpr ⟨trivial, List.forall_mem_cons.mpr ⟨trivial, ih _⟩⟩
      · exact List.forall_mem_cons.mpr ⟨trivial, ih _⟩

/-- An entry that failed was to be resumed. -/
theorem resumeEach_failed {todo : List Pending} {ask : Nat → Check} {q : Pending}
    (h : q ∈ (resumeEach todo ask).2) : q ∈ todo := by
  induction todo generalizing ask with
  | nil => cases h
  | cons r rest ih =>
    unfold resumeEach at h
    cases hs : r.session with
    | none =>
      rw [hs] at h
      exact List.mem_cons_of_mem _ (ih h)
    | some s =>
      rw [hs] at h
      dsimp only at h
      split at h
      · split at h
        · exact List.mem_cons_of_mem _ (ih h)
        · rcases List.mem_cons.mp h with rfl | h
          · exact List.mem_cons_self
          · exact List.mem_cons_of_mem _ (ih h)
      · exact List.mem_cons_of_mem _ (ih h)

/-- What is owed behind the loop over known sessions failed in it. -/
theorem mem_resumeEach {todo : List Pending} {ask : Nat → Check}
    (h : o ∈ (w.after (resumeEach todo ask).1).owed) :
    ∀ q ∈ todo, q.session = some o.session → q ∈ (resumeEach todo ask).2 := by
  induction todo generalizing w ask with
  | nil => exact fun q hq => absurd hq List.not_mem_nil
  | cons r rest ih =>
    unfold resumeEach at h ⊢
    cases hs : r.session with
    | none =>
      rw [hs] at h
      intro q hq hsession
      rcases List.mem_cons.mp hq with rfl | hq
      · cases hs.symm.trans hsession
      · exact ih h q hq hsession
    | some s =>
      rw [hs] at h
      dsimp only at h ⊢
      have hquiet := resumeEach_quiet rest fun i => ask (i + 1)
      by_cases hplaying : (ask 0).playing = some false
      · rw [if_pos hplaying] at h ⊢
        have hplay := mem_settle (mem_after_cons hquiet h)
        intro q hq hsession
        rcases List.mem_cons.mp hq with rfl | hq
        · have hsame : s = o.session := Option.some.inj (hs.symm.trans hsession)
          rw [hsame, beq_self_eq_true, Bool.true_and] at hplay
          dsimp only
          rw [hplay]
          exact List.mem_cons_self
        · have hmem := ih h q hq hsession
          dsimp only
          split
          · exact hmem
          · exact List.mem_cons_of_mem _ hmem
      · rw [if_neg hplaying] at h ⊢
        have hgone := mem_settle (mem_after_cons hquiet h)
        intro q hq hsession
        rcases List.mem_cons.mp hq with rfl | hq
        · have hsame : s = o.session := Option.some.inj (hs.symm.trans hsession)
          rw [hsame, beq_self_eq_true, Bool.true_and, bne_eq_false_iff_eq] at hgone
          exact absurd hgone hplaying
        · exact ih h q hq hsession

/-- Resuming by app writes nothing and pauses nothing. -/
theorem resumeEachOf_quiet (wanted : List Text) (list : List Listed) :
    ∀ e ∈ (resumeEachOf wanted list).1, e.Quiet := by
  induction list with
  | nil => exact fun e he => absurd he List.not_mem_nil
  | cons l rest ih =>
    unfold resumeEachOf
    cases l.app with
    | none => exact List.forall_mem_cons.mpr ⟨trivial, ih⟩
    | some app =>
      dsimp only
      split
      · split
        · exact List.forall_mem_cons.mpr ⟨trivial, List.forall_mem_cons.mpr ⟨trivial, ih⟩⟩
        · exact List.forall_mem_cons.mpr
            ⟨trivial, List.forall_mem_cons.mpr ⟨trivial, List.forall_mem_cons.mpr ⟨trivial, ih⟩⟩⟩
      · exact List.forall_mem_cons.mpr ⟨trivial, ih⟩

theorem resumeApps_quiet (wanted : List Text) (list : List Listed) :
    ∀ e ∈ (resumeApps wanted list).1, e.Quiet :=
  List.forall_mem_cons.mpr ⟨trivial, resumeEachOf_quiet wanted list⟩

/-- A session of a wanted app that is still owed said its name. -/
theorem named_of_mem {wanted : List Text} {s : Session} {app : Option Text} {es : List Effect}
    (hquiet : ∀ e ∈ es, e.Quiet) (h : o ∈ (w.after (.named wanted s app :: es)).owed)
    (hwanted : wanted.contains o.app = true) (hsession : s = o.session) : app = some o.app := by
  have hnamed := mem_settle (mem_after_cons hquiet h)
  rw [hsession, hwanted, beq_self_eq_true, Bool.true_and, Bool.true_and, bne_eq_false_iff_eq]
    at hnamed
  exact hnamed

/-- A listed session of a wanted app that is owed behind the loop failed in it. -/
theorem mem_resumeEachOf {wanted : List Text} {list : List Listed}
    (h : o ∈ (w.after (resumeEachOf wanted list).1).owed) (hwanted : wanted.contains o.app = true) :
    ∀ l ∈ list, l.session = o.session → (o.session, o.app) ∈ (resumeEachOf wanted list).2 := by
  induction list generalizing w with
  | nil => exact fun l hl => absurd hl List.not_mem_nil
  | cons l rest ih =>
    have hquiet := resumeEachOf_quiet wanted rest
    unfold resumeEachOf at h ⊢
    cases happ : l.app with
    | none =>
      rw [happ] at h
      intro x hx hsession
      rcases List.mem_cons.mp hx with rfl | hx
      · cases named_of_mem hquiet h hwanted hsession
      · exact ih h x hx hsession
    | some app =>
      rw [happ] at h
      dsimp only at h ⊢
      by_cases hw : wanted.contains app = true
      · rw [if_pos hw] at h ⊢
        by_cases hplaying : l.playing = some true
        · rw [if_pos hplaying] at h ⊢
          have hasked := mem_settle (mem_after_cons hquiet h)
          intro x hx hsession
          rcases List.mem_cons.mp hx with rfl | hx
          · rw [hsession, hplaying, beq_self_eq_true] at hasked
            cases hasked
          · exact ih h x hx hsession
        · rw [if_neg hplaying] at h ⊢
          have hplay := mem_settle (mem_after_cons hquiet h)
          have hplayed : ∀ e ∈ Effect.asked l.session l.playing :: .play l.session
            l.plays :: (resumeEachOf wanted rest).1,
              e.Quiet := List.forall_mem_cons.mpr
                ⟨trivial, List.forall_mem_cons.mpr ⟨trivial, hquiet⟩⟩
          intro x hx hsession
          rcases List.mem_cons.mp hx with rfl | hx
          · have hname := Option.some.inj (named_of_mem hplayed h hwanted hsession)
            rw [hsession, beq_self_eq_true, Bool.true_and] at hplay
            dsimp only
            rw [hplay, hsession, hname]
            exact List.mem_cons_self
          · have hmem := ih h x hx hsession
            dsimp only
            split
            · exact hmem
            · exact List.mem_cons_of_mem _ hmem
      · rw [if_neg hw] at h ⊢
        intro x hx hsession
        rcases List.mem_cons.mp hx with rfl | hx
        · rw [Option.some.inj (named_of_mem hquiet h hwanted hsession)] at hw
          exact absurd hwanted hw
        · exact ih h x hx hsession

/-- What is owed of a wanted app behind a resume by app failed in it. -/
theorem mem_resumeApps {wanted : List Text} {list : List Listed}
    (h : o ∈ (w.after (resumeApps wanted list).1).owed)
    (hwanted : o.app ∈ wanted) : (o.session, o.app) ∈ (resumeApps wanted list).2 := by
  have hcontains : wanted.contains o.app = true := List.contains_iff_mem.mpr hwanted
  have hlisted := mem_settle (mem_after_cons (resumeEachOf_quiet wanted list) h)
  rw [hcontains, Bool.true_and, Bool.not_eq_false', List.contains_iff_mem] at hlisted
  obtain ⟨l, hl, hsession⟩ := List.mem_map.mp hlisted
  exact mem_resumeEachOf h hcontains l hl hsession

/-! ## Resume -/

/-- The resume `q` is for what is owed. -/
def Pending.For (q : Pending) (o : Owed) : Prop :=
  q.app = o.app ∧ (q.session = some o.session ∨ q.session = none)

/-- All that is owed is to be tried. -/
theorem owes_todo (h : p.Inv w) : w.Owes fun o => ∃ q ∈ p.todo w.now, q.For o := by
  intro o ho hage
  unfold MediaPauser.todo
  rcases h.held o ho hage with ⟨hmem, -⟩ | ⟨q, hq, happ, hsession, hkept⟩
  · exact ⟨_, List.mem_append_left _ (List.mem_map.mpr ⟨_, hmem, rfl⟩), rfl, .inl rfl⟩
  · refine ⟨q, List.mem_append_right _ (List.mem_filter.mpr ⟨hq, ?_⟩), happ, hsession⟩
    rw [not_expired_mono hage hkept (Nat.le_refl _)]
    rfl

theorem resumeByApp_quiet (byApp : List Pending) (sessions : Option (List Listed)) (now : Nat) :
    ∀ e ∈ (resumeByApp byApp sessions now).1, e.Quiet := by
  unfold resumeByApp
  split
  · exact fun e he => absurd he List.not_mem_nil
  · cases sessions with
    | none => exact fun e he => absurd he List.not_mem_nil
    | some list => exact resumeApps_quiet _ list

/-- What is owed behind a resume by app is among what it leaves. -/
theorem mem_resumeByApp {byApp : List Pending} {sessions : Option (List Listed)}
    (h : o ∈ (w.after (resumeByApp byApp sessions now).1).owed) {q : Pending} (hq : q ∈ byApp)
    (hfor : q.For o) : ∃ q ∈ (resumeByApp byApp sessions now).2, q.For o := by
  have hne : ¬ byApp.isEmpty = true := by
    rw [List.isEmpty_iff]
    exact List.ne_nil_of_mem hq
  unfold resumeByApp at h ⊢
  rw [if_neg hne] at h ⊢
  cases sessions with
  | none => exact ⟨q, hq, hfor⟩
  | some list =>
    have hwanted : o.app ∈ unique (byApp.map (·.app)) :=
      mem_unique.mpr (List.mem_map.mpr ⟨q, hq, hfor.1⟩)
    exact ⟨_, List.mem_map.mpr ⟨_, mem_resumeApps h hwanted, rfl⟩, rfl, .inl rfl⟩

theorem oldest_le {q : Pending} (h : q ∈ p.pending) (now : Nat) : p.oldest now ≤ q.time :=
  min?_le (List.mem_map.mpr ⟨q, h, rfl⟩) now

/-- A write of the resumes that are left, with the oldest time of them. -/
theorem owes_left (h : w.Owes fun o => ∃ q ∈ p.pending, q.For o) (now : Nat) :
    let e := if p.pending.isEmpty then .clear else .write (unique (p.pending.map (·.app))) (p.oldest now)
    (w.step e).Safe ∧ (w.step e).Owes fun o => o.Pending p := by
  dsimp only
  split
  next hnil =>
    rw [List.isEmpty_iff.mp hnil] at h
    have hnone : (w.step .clear).Owes fun _ => False := fun o ho hage => by
      obtain ⟨q, hq, -⟩ := h o ho hage
      cases hq
    exact ⟨hnone.imp fun _ h => h.elim, hnone.imp fun _ h => h.elim⟩
  · refine ⟨safe_write (h.imp ?_), ?_⟩
    · rintro o ⟨q, hq, happ, -⟩
      exact mem_unique.mpr (List.mem_map.mpr ⟨q, hq, happ⟩)
    · intro o ho hage
      obtain ⟨o, hmem, rfl⟩ := List.mem_map.mp ho
      have hold := not_expired_mono hage (Nat.min_le_left _ _) (Nat.le_refl _)
      obtain ⟨q, hq, happ, hsession⟩ := h o hmem hold
      exact ⟨q, hq, happ, hsession, (Nat.min_le_right _ _).trans (oldest_le hq now)⟩

/-- What is owed behind both parts of a resume is among what they leave. -/
theorem owes_resume {todo : List Pending} {a : ResumeAnswers}
    {known named : List Effect × List Pending}
    (h : w.Owes fun o => ∃ q ∈ todo, q.For o) (hknown : resumeEach todo a.ask = known)
    (hnamed : resumeByApp (todo.filter (·.session.isNone)) a.sessions now = named) (took : Nat) :
    (w.after (known.1 ++ named.1 ++ [.wait took])).Owes fun o =>
    ∃ q ∈ known.2 ++ named.2, q.For o := by
  have hk := resumeEach_quiet todo a.ask
  have hn := resumeByApp_quiet (todo.filter (·.session.isNone)) a.sessions now
  rw [hknown] at hk
  rw [hnamed] at hn
  rw [Outside.after_append, Outside.after_append]
  obtain ⟨w₁, hw₁⟩ : ∃ w₁, w.after known.1 = w₁ := ⟨_, rfl⟩
  obtain ⟨w₂, hw₂⟩ : ∃ w₂, w₁.after named.1 = w₂ := ⟨_, rfl⟩
  rw [hw₁, hw₂]
  have hsettles₁ : w.Settles w₁ := hw₁ ▸ settles_after hk
  have hsettles₂ : w₁.Settles w₂ := hw₂ ▸ settles_after hn
  have howed := h.settles (hsettles₁.trans hsettles₂)
  intro o ho hage
  have hage₂ := not_expired_mono hage (Nat.le_refl _) (Nat.le_add_right w₂.now took)
  obtain ⟨q, hq, hfor⟩ := howed o ho hage₂
  cases hsession : q.session with
  | some s =>
    have hs : q.session = some o.session :=
      hfor.2.resolve_right (by rw [hsession]; exact Option.some_ne_none s)
    have hmem := hsettles₂.owed o ho
    rw [← hw₁, ← hknown] at hmem
    exact ⟨q, List.mem_append_left _ (hknown ▸ mem_resumeEach hmem q hq hs), hfor⟩
  | none =>
    have hmem : o ∈ w₂.owed := ho
    rw [← hw₂, ← hnamed] at hmem
    have hnone : q.session.isNone = true := by rw [hsession]; rfl
    obtain ⟨q', hq', hfor'⟩ := mem_resumeByApp hmem (List.mem_filter.mpr ⟨hq, hnone⟩) hfor
    exact ⟨q', List.mem_append_right _ (hnamed ▸ hq'), hfor'⟩

/-- A resume is safe at every effect, and keeps the invariant. -/
theorem MediaPauser.Inv.after_resume (h : p.Inv w) (a : ResumeAnswers) :
    Along Outside.step Outside.Safe w (p.resume a w.now).1 ∧
    (p.resume a w.now).2.Inv (w.after (p.resume a w.now).1) := by
  have htodo := owes_todo h
  unfold MediaPauser.resume
  dsimp only
  split
  next hnil =>
    rw [List.isEmpty_iff.mp hnil] at htodo
    have hnone : (w.step .clear).Owes fun _ => False := fun o ho hage => by
      obtain ⟨q, hq, -⟩ := htodo o ho hage
      cases hq
    exact ⟨⟨h.safe, hnone.imp fun _ h => h.elim⟩, hnone.imp fun _ h => h.elim,
      hnone.imp fun _ h => h.elim, fun _ => rfl⟩
  · obtain ⟨known, hknown⟩ : ∃ known, resumeEach (p.todo w.now) a.ask = known := ⟨_, rfl⟩
    obtain ⟨named, hnamed⟩ : ∃ named, resumeByApp
        ((p.todo w.now).filter (·.session.isNone)) a.sessions w.now = named :=
      ⟨_, rfl⟩
    rw [hknown, hnamed]
    have hquiet : ∀ e ∈ known.1 ++ named.1 ++ [.wait a.took], e.Quiet := by
      have hk := resumeEach_quiet (p.todo w.now) a.ask
      have hn := resumeByApp_quiet ((p.todo w.now).filter (·.session.isNone)) a.sessions w.now
      rw [hknown] at hk
      rw [hnamed] at hn
      exact List.forall_mem_append.mpr ⟨List.forall_mem_append.mpr ⟨hk, hn⟩,
        List.forall_mem_singleton.mpr trivial⟩
    have hleft := owes_resume htodo hknown hnamed a.took
    have hlast := owes_left
      (p := { p with saved := [], pending := known.2 ++ named.2, paused := false }) hleft w.now
    have halong := (h.safe.along hquiet).snoc hlast.1
    have hsplit : ∀ last, known.1 ++ named.1 ++ [.wait a.took, last] = known.1 ++ named.1 ++
        [.wait a.took] ++ [last] :=
      fun last => by rw [List.append_assoc _ [_] [last]]; rfl
    rw [hsplit]
    refine ⟨halong, halong.last, ?_, fun _ => rfl⟩
    rw [Outside.after_append]
    exact hlast.2.imp fun o ho => .inr ho

/-! ## The startup sweep -/

theorem writesAll_left (apps : List Text) (time : Nat) :
    WritesAll apps (if apps.isEmpty then .clear else .write apps time) := by
  split
  next h => exact .inl ⟨rfl, List.isEmpty_iff.mp h⟩
  · exact .inr ⟨time, rfl⟩

/-- What is owed is in the file. -/
theorem owes_file {f : StateFile} (h : w.Safe) (hfile : w.file = some f) :
    w.Owes fun o => ∃ time, f.time = some time ∧ o.app ∈ f.apps ∧ o.kept ≤ time := by
  intro o ho hage
  obtain ⟨apps, time, hf, happ, hkept⟩ := h o ho hage
  obtain rfl := Option.some.inj (hfile.symm.trans hf)
  exact ⟨time, rfl, happ, hkept⟩

/-- What is owed behind the sweep is among the sessions it leaves, or it could not list any. -/
theorem owes_sweep {f : StateFile} (h : w.Safe) (hfile : w.file = some f) (a : RecoverAnswers) :
    Along Outside.step Outside.Safe w (sweep f a w.now).1 ∧
    (w.after (sweep f a w.now).1).Owes fun o =>
      ∃ time, f.time = some time ∧ o.app ∈ f.apps ∧ o.kept ≤ time ∧
        ∀ failed, (sweep f a w.now).2 = some failed → (o.session, o.app) ∈ failed := by
  have hrecorded := owes_file h hfile
  unfold sweep
  dsimp only
  split
  next hold =>
    have hnone : (w.step .clear).Owes fun _ => False := fun o ho hage => by
      obtain ⟨time, htime, happ, hkept⟩ := hrecorded o ho hage
      have hyoung : expired time w.now = false := not_expired_mono hage hkept (Nat.le_refl _)
      rw [htime, Option.getD_some, hyoung, Bool.or_false, List.isEmpty_iff] at hold
      rw [hold] at happ
      cases happ
    exact ⟨⟨h, hnone.imp fun _ h => h.elim⟩, hnone.imp fun _ h => h.elim⟩
  · cases a.sessions with
    | none =>
      exact ⟨h, hrecorded.imp fun o ⟨time, htime, happ, hkept⟩ =>
        ⟨time, htime, happ, hkept, fun _ h => nomatch h⟩⟩
    | some list =>
      dsimp only
      have hquiet := resumeApps_quiet f.apps list
      obtain ⟨out, hout⟩ : ∃ out, resumeApps f.apps list = out := ⟨_, rfl⟩
      rw [hout] at hquiet ⊢
      have hquiet' : ∀ e ∈ out.1 ++ [.wait a.took], e.Quiet :=
        List.forall_mem_append.mpr ⟨hquiet, List.forall_mem_singleton.mpr trivial⟩
      -- what is behind the loop failed in it
      have hfailed : (w.after (out.1 ++ [.wait a.took])).Owes fun o =>
          ∃ time, f.time = some time ∧ o.app ∈ f.apps ∧ o.kept ≤ time ∧
            (o.session, o.app) ∈ out.2 := by
        intro o ho hage
        obtain ⟨time, htime, happ, hkept⟩ := hrecorded.settles (settles_after hquiet') o ho hage
        rw [Outside.after_append, ← hout] at ho
        exact ⟨time, htime, happ, hkept, hout ▸ mem_resumeApps ho happ⟩
      have hwrites := writesAll_left (unique (out.2.map (·.2))) (f.time.getD w.now)
      have hsafe := hwrites.safe (hfailed.imp fun o ⟨_, _, _, _, hmem⟩ =>
        mem_unique.mpr (List.mem_map.mpr ⟨_, hmem, rfl⟩))
      have howes := hwrites.owes hfailed fun o k hk ⟨time, htime, happ, hkept, hmem⟩ =>
        ⟨time, htime, happ, hk.trans hkept, hmem⟩
      have hsplit : ∀ last, out.1 ++ [.wait a.took, last] = out.1 ++ [.wait a.took] ++ [last] :=
        fun last => by rw [List.append_assoc]; rfl
      rw [hsplit, Outside.after_append]
      refine ⟨(h.along hquiet').snoc hsafe, howes.imp fun o ⟨time, htime, happ, hkept, hmem⟩ => ?_⟩
      refine ⟨time, htime, happ, hkept, ?_⟩
      rintro _ ⟨⟩
      exact hmem

/-- A sweep that could not list the sessions does nothing. -/
theorem sweep_none {f : StateFile} {a : RecoverAnswers} (h : (sweep f a now).2 = none) :
    (sweep f a now).1 = [] := by
  unfold sweep at h ⊢
  dsimp only at h ⊢
  split
  next hold =>
    rw [if_pos hold] at h
    cases h
  next hold =>
    rw [if_neg hold] at h
    cases hs : a.sessions with
    | none => rfl
    | some list =>
      rw [hs] at h
      cases h

/-- The sweep at the start is safe at every effect, and keeps the invariant. -/
theorem inv_recover (h : w.Safe) (hidle : p.paused = false → p.saved = []) (a : RecoverAnswers) :
    Along Outside.step Outside.Safe w (p.recover a w.file w.now).1 ∧
    (p.recover a w.file w.now).2.Inv (w.after (p.recover a w.file w.now).1) := by
  cases hfile : w.file with
  | none =>
    have hnone : w.Owes fun _ => False := fun o ho hage => by
      obtain ⟨apps, time, hf, -⟩ := h o ho hage
      cases hfile.symm.trans hf
    exact ⟨h, h, hnone.imp fun _ h => h.elim, hidle⟩
  | some f =>
    have hquiet : ∀ e ∈ [Effect.read, .wait a.between], e.Quiet := by simp [Effect.Quiet]
    have hsettles := settles_after (w := w) hquiet
    obtain ⟨halong, howes⟩ := owes_sweep (h.settles hsettles) (hsettles.file.trans hfile) a
    obtain ⟨swept, hswept⟩ : ∃ swept, sweep f a (w.now + a.between) = swept := ⟨_, rfl⟩
    have hnow : (w.after [.read, .wait a.between]).now = w.now + a.between := rfl
    rw [hnow, hswept] at halong howes
    unfold MediaPauser.recover
    dsimp only
    rw [hswept]
    refine ⟨⟨h, (h.along hquiet).2.1, halong⟩, halong.last, ?_, hidle⟩
    refine fun o ho hage => .inr ?_
    obtain ⟨time, htime, happ, hkept, hfailed⟩ := howes o ho hage
    cases hs : swept.2 with
    | none =>
      have hnil : swept.1 = [] := by
        rw [← hswept] at hs ⊢
        exact sweep_none hs
      rw [hnil] at hage
      have hyoung : expired (f.time.getD w.now) w.now = false := by
        rw [htime]
        exact not_expired_mono hage hkept (Nat.le_add_right w.now a.between)
      dsimp only
      rw [hyoung]
      exact ⟨_, List.mem_append_right _ (List.mem_map.mpr ⟨_, happ, rfl⟩), rfl, .inr rfl,
        htime ▸ hkept⟩
    | some failed =>
      refine ⟨_, List.mem_append_right _ (List.mem_map.mpr ⟨_, hfailed failed hs, rfl⟩), rfl,
        .inl rfl, ?_⟩
      rw [htime]
      exact hkept

end Sonara.Pausing
