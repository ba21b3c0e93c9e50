import Sonara.Mute.Quiet

/-!
# The hold follows the mute

`Inv` says what each point of a change knows. Only the thread that has `changing` is past
`outside`, so a step of it finds the mute as its last step left it, and the truth that
`follow` sets is still the truth when it sets it.
-/

namespace Sonara.Mute

open World

variable {w w' : World} {t : Thread} {e : Event}

/-- What a point of a change can count on. -/
def Phase.Knows (w : World) : Phase → Prop
  | .outside => True
  | .started _ => True
  | .chosen hold target => target.mutes = true → hold = true
  | .raised target => target.mutes = true → w.held = true
  | .dropping => True
  | .told reader => (w.muted = true → reader = true) ∧ (w.readable = true → reader = w.muted)
  | .knows muted => (w.isMuted = true → muted = true) ∧ (w.readable = true → muted = w.isMuted)
  | .followed => w.readable = true → w.held = w.isMuted

/-- The invariant of every run. -/
structure Inv (w : World) : Prop where
  /-- Whoever is inside has the lock. -/
  alone : ∀ t, w.phase t ≠ .outside → w.changing = some t
  covered : w.isMuted = true → w.held = true
  knows : ∀ t, (w.phase t).Knows w
  idle : w.changing = none → w.readable = true → w.held = w.isMuted

theorem Started.inv (h : Started w) : Inv w where
  alone t ht := absurd (h.outside t) ht
  covered hm := h.follows.trans hm
  knows t := by
    rw [h.outside t]
    trivial
  idle _ _ := h.follows

@[simp] theorem goto_phase_self (w : World) (t : Thread) (p : Phase) : (w.goto t p).phase t = p :=
  Function.update_self ..

theorem goto_phase_of_ne (w : World) {t u : Thread} (p : Phase) (h : u ≠ t) :
    (w.goto t p).phase u = w.phase u :=
  Function.update_of_ne h ..

/-- A thread inside keeps every other one outside. -/
theorem Inv.outside_of_ne (h : Inv w) (ht : w.phase t ≠ .outside) {u : Thread} (hu : u ≠ t) :
    w.phase u = .outside := by
  by_contra hin
  have := (h.alone u hin).symm.trans (h.alone t ht)
  exact hu (Option.some.inj this)

/-- A step of the thread inside, that stays inside: what is left to check of it. -/
theorem Inv.move (h : Inv w) (ht : w.phase t ≠ .outside) {p : Phase}
    (hc : w'.changing = w.changing) (hp : w'.phase = w.phase)
    (covered : w'.isMuted = true → w'.held = true) (knows : p.Knows (w'.goto t p)) :
    Inv (w'.goto t p) where
  alone u hu := by
    by_cases hut : u = t
    · subst hut
      exact hc.trans (h.alone u ht)
    · rw [goto_phase_of_ne _ _ hut, hp, h.outside_of_ne ht hut] at hu
      exact absurd rfl hu
  covered := covered
  knows u := by
    by_cases hut : u = t
    · subst hut
      rw [goto_phase_self]
      exact knows
    · rw [goto_phase_of_ne _ _ hut, hp, h.outside_of_ne ht hut]
      trivial
  idle hfree := by
    have : w.changing = none := hc.symm.trans hfree
    rw [h.alone t ht] at this
    cases this

theorem ne_outside (h : w.phase t = p) (hp : p ≠ .outside) : w.phase t ≠ .outside := h ▸ hp

/-- What is to be called mutes only if the hold is raised before. -/
theorem World.choose_mutes (w : World) (c : Caller) (h : (w.choose c).2.mutes = true) :
    (w.choose c).1 = true := by
  cases c with
  | setLevel value =>
    cases value with
    | none => exact h
    | some n =>
      unfold choose at h ⊢
      by_cases hn : n ≤ 2
      · simpa [Option.filter, hn, Target.mutes] using h
      · simp [Option.filter, hn, Target.mutes] at h
  | control mute => exact h
  | hotkey press =>
    unfold choose at h ⊢
    cases hl : w.level with
    | some level =>
      rw [hl] at h
      exact h
    | none =>
      rw [hl] at h
      exact h
  | sync => exact h

/-- A call mutes nothing that its target does not. -/
theorem isMuted_call {target : Target} (h : (w.call target).isMuted = true) :
    w.isMuted = true ∨ target.mutes = true := by
  cases target with
  | level n =>
    unfold call isMuted at h
    rcases Bool.or_eq_true_iff.mp h with h | h
    · exact .inl (Bool.or_eq_true_iff.mpr (.inl h))
    · cases hl : w.level with
      | none =>
        rw [hl] at h
        cases h
      | some l =>
        rw [hl] at h
        exact .inr h
  | reader mute =>
    unfold call isMuted at h
    rcases Bool.or_eq_true_iff.mp h with h | h
    · dsimp only at h
      split at h
      · exact .inr h
      · exact .inl (Bool.or_eq_true_iff.mpr (.inl h))
    · exact .inl (Bool.or_eq_true_iff.mpr (.inr h))
  | nothing => exact .inl h

theorem World.call_held (w : World) (target : Target) : (w.call target).held = w.held := by
  cases target <;> rfl

theorem World.call_changing (w : World) (target : Target) :
    (w.call target).changing = w.changing := by
  cases target <;> rfl

theorem World.call_phase (w : World) (target : Target) : (w.call target).phase = w.phase := by
  cases target <;> rfl

/-- **Every step keeps the invariant.** -/
theorem step_inv (h : Inv w) (hs : step w e = some w') : Inv w' := by
  cases e with
  | start t caller =>
    simp only [step] at hs
    split at hs
    next hfree =>
      obtain rfl := Option.some.inj hs
      -- The lock is free, so every other caller is outside.
      have hout : ∀ u, w.phase u = .outside := by
        intro u
        by_contra hin
        have hlock := h.alone u hin
        rw [hfree.1] at hlock
        cases hlock
      refine ⟨fun u hu => ?_, h.covered, fun u => ?_, fun hc => nomatch hc⟩
      · by_cases hut : u = t
        · rw [hut]
          rfl
        · rw [goto_phase_of_ne _ _ hut] at hu
          exact absurd (hout u) hu
      · by_cases hut : u = t
        · rw [hut, goto_phase_self]
          trivial
        · rw [goto_phase_of_ne _ _ hut]
          show (w.phase u).Knows _
          rw [hout u]
          trivial
    · cases hs
  | choose t =>
    simp only [step] at hs
    split at hs
    next caller hp =>
      obtain rfl := Option.some.inj hs
      exact h.move (ne_outside hp nofun) rfl rfl h.covered (w.choose_mutes caller)
    · cases hs
  | raise t =>
    simp only [step] at hs
    split at hs
    next hold target hp =>
      obtain rfl := Option.some.inj hs
      -- The hold goes up before the target is called.
      have hk : target.mutes = true → hold = true := by
        have := h.knows t
        rwa [hp] at this
      refine h.move (ne_outside hp nofun) rfl rfl (fun hm => ?_) (fun hm => ?_)
      · exact Bool.or_eq_true_iff.mpr (.inr (h.covered hm))
      · exact Bool.or_eq_true_iff.mpr (.inl (hk hm))
    · cases hs
  | call t admitted =>
    simp only [step] at hs
    split at hs
    next target hp =>
      obtain rfl := Option.some.inj hs
      -- A target that mutes is called with the hold up.
      have hk : target.mutes = true → w.held = true := by
        have := h.knows t
        rwa [hp] at this
      cases admitted with
      | false => exact h.move (ne_outside hp nofun) rfl rfl h.covered trivial
      | true =>
        refine h.move (ne_outside hp nofun) (w.call_changing target) (w.call_phase target)
          (fun hm => ?_) trivial
        rw [if_pos rfl] at hm ⊢
        rw [w.call_held target]
        exact (isMuted_call hm).elim h.covered hk
    · cases hs
  | askReader t =>
    simp only [step] at hs
    split at hs
    next hp =>
      obtain rfl := Option.some.inj hs
      refine h.move (ne_outside hp nofun) rfl rfl h.covered ⟨fun hm => ?_, fun hr => if_pos hr⟩
      split
      · exact hm
      · exact h.covered (Bool.or_eq_true_iff.mpr (.inl hm))
    · cases hs
  | askAgent t =>
    simp only [step] at hs
    split at hs
    next reader hp =>
      obtain rfl := Option.some.inj hs
      obtain ⟨hcov, heq⟩ : (w.muted = true → reader = true) ∧
          (w.readable = true → reader = w.muted) := by
        have := h.knows t
        rwa [hp] at this
      refine h.move (ne_outside hp nofun) rfl rfl h.covered ⟨fun hm => ?_, fun hr => ?_⟩
      · rcases Bool.or_eq_true_iff.mp hm with hm | hm
        · exact Bool.or_eq_true_iff.mpr (.inl (hcov hm))
        · exact Bool.or_eq_true_iff.mpr (.inr hm)
      · rw [heq hr]
        rfl
    · cases hs
  | follow t =>
    simp only [step] at hs
    split at hs
    next muted hp =>
      obtain rfl := Option.some.inj hs
      obtain ⟨hcov, heq⟩ : (w.isMuted = true → muted = true) ∧
          (w.readable = true → muted = w.isMuted) := by
        have := h.knows t
        rwa [hp] at this
      exact h.move (ne_outside hp nofun) rfl rfl hcov heq
    · cases hs
  | release t =>
    simp only [step] at hs
    split at hs
    next hp =>
      obtain rfl := Option.some.inj hs
      have hin := ne_outside hp nofun
      -- The caller that leaves knows the hold is what the mute says.
      have hk : w.readable = true → w.held = w.isMuted := by
        have := h.knows t
        rwa [hp] at this
      have hout : ∀ u, (({ w with changing := none } : World).goto t .outside).phase u =
          .outside := by
        intro u
        by_cases hut : u = t
        · rw [hut, goto_phase_self]
        · rw [goto_phase_of_ne _ _ hut]
          exact h.outside_of_ne hin hut
      refine ⟨fun u hu => absurd (hout u) hu, h.covered, fun u => ?_, fun _ => hk⟩
      rw [hout u]
      trivial
    · cases hs
  | close =>
    -- A closed reader answers nothing more, so what hangs on its answer is free.
    obtain rfl := Option.some.inj hs
    refine ⟨h.alone, h.covered, fun u => ?_, fun _ hr => nomatch hr⟩
    have hk := h.knows u
    show (w.phase u).Knows _
    cases hp : w.phase u with
    | told reader =>
      rw [hp] at hk
      exact ⟨hk.1, fun hr => nomatch hr⟩
    | knows muted =>
      rw [hp] at hk
      exact ⟨hk.1, fun hr => nomatch hr⟩
    | followed => exact fun hr => nomatch hr
    | raised target =>
      rw [hp] at hk
      exact hk
    | chosen hold target =>
      rw [hp] at hk
      exact hk
    | outside => trivial
    | started caller => trivial
    | dropping => trivial

theorem reaches_inv (h : quiet.Reaches w) : Inv w :=
  h.invariant (fun _ hs => hs.inv) fun _ _ _ hi hs => step_inv hi hs

/-! ## The hold falls only with the mute -/

/-- Only `follow` lowers the hold. -/
theorem step_held (hs : step w e = some w') (h : w.held = true) :
    w'.held = true ∨ ∃ t, e = .follow t ∧ w.phase t = .knows false ∧ w'.isMuted = w.isMuted := by
  cases e with
  | start t caller =>
    simp only [step] at hs
    split at hs
    · exact .inl (Option.some.inj hs ▸ h)
    · cases hs
  | raise t =>
    simp only [step] at hs
    split at hs
    · exact .inl (Option.some.inj hs ▸ Bool.or_eq_true_iff.mpr (.inr h))
    · cases hs
  | call t admitted =>
    simp only [step] at hs
    split at hs
    next target _ =>
      obtain rfl := Option.some.inj hs
      cases admitted with
      | false => exact .inl h
      | true => exact .inl ((w.call_held target).trans h)
    · cases hs
  | follow t =>
    simp only [step] at hs
    split at hs
    next muted hp =>
      obtain rfl := Option.some.inj hs
      cases muted with
      | false => exact .inr ⟨t, rfl, hp, rfl⟩
      | true => exact .inl rfl
    · cases hs
  | close => exact .inl (Option.some.inj hs ▸ h)
  | choose t | askReader t | askAgent t | release t =>
    simp only [step] at hs
    split at hs
    · exact .inl (Option.some.inj hs ▸ h)
    · cases hs

/-- What `follow` lowers the hold for is that nothing is muted. -/
theorem Inv.lowered (h : Inv w) (hp : w.phase t = .knows false) : w.isMuted = false := by
  have hk := h.knows t
  rw [hp] at hk
  by_contra hne
  exact absurd (hk.1 (eq_true_of_ne_false hne)) nofun

/-- Only the call of a change moves the mute. -/
theorem step_isMuted (hs : step w e = some w') :
    w'.isMuted = w.isMuted ∨ ∃ t target, e = .call t true ∧ w.phase t = .raised target ∧
      w'.isMuted = (w.call target).isMuted := by
  cases e with
  | call t admitted =>
    simp only [step] at hs
    split at hs
    next target hp =>
      obtain rfl := Option.some.inj hs
      cases admitted with
      | false => exact .inl rfl
      | true => exact .inr ⟨t, target, rfl, hp, rfl⟩
    · cases hs
  | close => exact .inl (Option.some.inj hs ▸ rfl)
  | start t caller =>
    simp only [step] at hs
    split at hs
    · exact .inl (Option.some.inj hs ▸ rfl)
    · cases hs
  | choose t | raise t | askReader t | askAgent t | follow t | release t =>
    simp only [step] at hs
    split at hs
    · exact .inl (Option.some.inj hs ▸ rfl)
    · cases hs

/-- The hold is up before a call mutes. -/
theorem Inv.held_before (h : Inv w) (hs : step w e = some w') (hm : w'.isMuted = true)
    (hn : w.isMuted = false) : w.held = true := by
  rcases step_isMuted hs with he | ⟨t, target, -, hp, he⟩
  · rw [he, hn] at hm
    cases hm
  · rw [he] at hm
    have hk := h.knows t
    rw [hp] at hk
    rcases isMuted_call hm with hm | hm
    · rw [hn] at hm
      cases hm
    · exact hk hm

/-- The reader cannot be read, the hold is raised, and no `follow` under way knows
otherwise. -/
structure Kept (w : World) : Prop where
  unreadable : w.readable = false
  held : w.held = true
  told : ∀ t, w.phase t ≠ .told false ∧ w.phase t ≠ .knows false

/-- A point that a step moves to knows nothing against the hold either. -/
theorem Kept.goto (h : Kept w) {p : Phase} (hne : p ≠ .told false ∧ p ≠ .knows false) :
    Kept (w.goto t p) where
  unreadable := h.unreadable
  held := h.held
  told v := by
    by_cases hv : v = t
    · rw [hv, goto_phase_self]
      exact hne
    · rw [goto_phase_of_ne _ _ hv]
      exact h.told v

/-- A hold raised over an unreadable reader stays, whatever steps come. -/
theorem step_kept (h : Kept w) (hs : step w e = some w') : Kept w' := by
  cases e with
  | start t caller =>
    simp only [step] at hs
    split at hs
    · obtain rfl := Option.some.inj hs
      refine Kept.goto ?_ (by simp)
      exact ⟨h.unreadable, h.held, h.told⟩
    · cases hs
  | choose t =>
    simp only [step] at hs
    split at hs
    · obtain rfl := Option.some.inj hs
      exact h.goto (by simp)
    · cases hs
  | raise t =>
    simp only [step] at hs
    split at hs
    · obtain rfl := Option.some.inj hs
      refine Kept.goto ?_ (by simp)
      exact ⟨h.unreadable, Bool.or_eq_true_iff.mpr (.inr h.held), h.told⟩
    · cases hs
  | call t admitted =>
    simp only [step] at hs
    split at hs
    next target _ =>
      obtain rfl := Option.some.inj hs
      refine Kept.goto ?_ (by simp)
      cases admitted with
      | false => exact h
      | true =>
        rw [if_pos rfl]
        cases target <;> exact ⟨h.unreadable, h.held, h.told⟩
    · cases hs
  | askReader t =>
    simp only [step] at hs
    split at hs
    · obtain rfl := Option.some.inj hs
      rw [h.unreadable, h.held]
      exact h.goto (by simp)
    · cases hs
  | askAgent t =>
    simp only [step] at hs
    split at hs
    next reader hp =>
      obtain rfl := Option.some.inj hs
      cases reader with
      | false => exact absurd hp (h.told t).1
      | true => exact h.goto (by simp)
    · cases hs
  | follow t =>
    simp only [step] at hs
    split at hs
    next muted hp =>
      obtain rfl := Option.some.inj hs
      cases muted with
      | false => exact absurd hp (h.told t).2
      | true =>
        refine Kept.goto ?_ (by simp)
        exact ⟨h.unreadable, rfl, h.told⟩
    · cases hs
  | release t =>
    simp only [step] at hs
    split at hs
    · obtain rfl := Option.some.inj hs
      refine Kept.goto ?_ (by simp)
      exact ⟨h.unreadable, h.held, h.told⟩
    · cases hs
  | close =>
    obtain rfl := Option.some.inj hs
    exact ⟨rfl, h.held, h.told⟩

/-- **The hold follows the mute.** It is raised whenever Sonara is muted, so before any
change that mutes takes effect, and falls only in the last steps of a change that leaves
nothing muted. With no change under way it is raised exactly while Sonara is muted. Once
the reader cannot be read, it is never released again. -/
theorem hold_follows (h : quiet.Reaches w) :
    (w.isMuted = true → w.held = true) ∧
    (∀ e w', step w e = some w' → w'.isMuted = true → w.isMuted = false → w.held = true) ∧
    (∀ e w', step w e = some w' → w.held = true → w'.held = false →
      ∃ t, e = .follow t ∧ w'.isMuted = false) ∧
    (w.changing = none → w.readable = true → w.held = w.isMuted) ∧
    (Kept w → ∀ es w', quiet.run w es = some w' → w'.held = true) := by
  have hi := reaches_inv h
  refine ⟨hi.covered, fun e w' hs hm hn => hi.held_before hs hm hn, fun e w' hs hh hl => ?_,
    hi.idle, fun hk es w' hr => ?_⟩
  · rcases step_held hs hh with hh' | ⟨t, he, hp, hm⟩
    · rw [hh'] at hl
      cases hl
    · exact ⟨t, he, hm.trans (hi.lowered hp)⟩
  · exact (quiet.run_invariant (P := Kept) (fun _ _ _ hk hs => step_kept hk hs) hk hr).held

/-- Nothing is muted, no agent, and nobody changes the mute. -/
def unmuted : World where
  muted := false
  readable := true
  level := none
  held := false
  changing := none
  phase := fun _ => .outside

/-- A client mutes the reader; its change is not over. -/
def muting : List Event := [.start 0 (.control true), .choose 0, .raise 0, .call 0 true]

theorem hold_follows_muting :
    ∃ w, quiet.run unmuted muting = some w ∧ w.isMuted = true ∧ w.held = true := by
  refine ⟨_, rfl, rfl, ?_⟩
  have hstart : quiet.init unmuted := ⟨rfl, rfl, rfl, fun _ => rfl⟩
  exact (hold_follows ⟨unmuted, muting, hstart, rfl⟩).1 rfl

end Sonara.Mute
