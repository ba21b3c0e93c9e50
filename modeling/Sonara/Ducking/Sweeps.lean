import Sonara.Ducking.Matching

/-!
# What a sweep leaves

Every step of `sweepEach` puts one session back or keeps its record (`fate_ends`), so what is left
of the records is `Kept` whatever fails and wherever the process crashes. When every volume can be
set, only records of sessions that are not listed are left (`Unlisted`).
-/

namespace Sonara.Ducking

open Lib Io

variable {σ V : Type} {L : Levels V} {p : Platform σ} {o : Outside σ} {v : σ → V} {w : World σ V}

/-- From this call on every volume can be set. -/
def Settable (o : Outside σ) (w : World σ V) : Prop := ∀ n, w.calls ≤ n → o.setVolume n = true

theorem Settable.later {t : World σ V} (h : Settable o w) (hback : PutBack v w t) : Settable o t :=
  fun n hn => h n (hback.calls.trans hn)

theorem Own.young {r : Record V} {s : σ} (Y : Young o) (h : Own L p o v r s) (k : Nat) :
    decide (o.now k - r.time.getD (o.now k) > RECORD_MAX_AGE) = false := by
  obtain ⟨n, hn⟩ := h.time
  rw [hn]
  exact decide_eq_false (Nat.not_lt.mpr (Y k n))

variable [DecidableEq σ]

theorem setVolume_ends {s : σ} {level : V} {Q : Bool → World σ V → Prop}
    {E : Stop Unit → World σ V → Prop}
    (hcrash : w.left = some 0 → E .crashed w) (hno : o.setVolume w.calls = false → Q false w.next)
    (hyes : Q true { w.next with volume := fun x => if x = s then level else w.volume x }) :
    Ends (setVolume o s level) w Q E := by
  refine effect_ends hcrash ?_
  dsimp only
  cases h : o.setVolume w.calls with
  | true => exact hyes
  | false => exact hno h

/-- `s` is put back. -/
theorem PutBack.set {s : σ} :
    PutBack v w { w.next with volume := fun x => if x = s then v s else w.volume x } := by
  refine ⟨rfl, fun x => ?_, Nat.le_succ _, (PutBack.next (v := v) w).left⟩
  by_cases hx : x = s
  · exact .inr (by rw [hx]; exact if_pos rfl)
  · exact .inl (if_neg hx)

/-- **A session is put back, or its record stays.** -/
structure Decided (o : Outside σ) (v : σ → V) (w : World σ V) (s : σ) (pick : Option (Live σ V))
    (kind : Fate) (t : World σ V) : Prop where
  back : PutBack v w t
  others : ∀ x, x ≠ s → t.volume x = w.volume x
  young : kind ≠ .expired
  restored : kind = .restored → t.volume s = v s
  all : pick ≠ none → Settable o w → kind = .restored

/-- The fate of one record: its session is put back, was at its level, or could not be set. -/
theorem fate_ends {r : Record V} {s : σ} (hown : Own L p o v r s) {pick : Option (Live σ V)}
    (hpick : ∀ x, pick = some x → x.1 = s ∧ Reads w x)
    (hducked : w.volume s = v s ∨ r.ducked = some (w.volume s)) :
    Ends (fate L o r false pick) w (Decided o v w s pick) (Crashed v w) := by
  cases pick with
  | none => exact Ends.pure ⟨PutBack.refl w, fun _ _ => rfl, nofun, nofun, fun h => absurd rfl h⟩
  | some x =>
    obtain ⟨y, level⟩ := x
    obtain ⟨rfl, hreads⟩ := hpick (y, level) rfl
    unfold fate
    dsimp only
    by_cases hlevel : atDuckLevel L r level = true
    · rw [hlevel, if_neg (by decide), hown.original]
      refine Ends.bind (setVolume_ends Crashed.here (fun hno => ?_) ?_)
      · refine Ends.pure ⟨PutBack.next w, fun _ _ => rfl, nofun, nofun, fun _ hset => ?_⟩
        exact absurd ((hset w.calls (Nat.le_refl _)).symm.trans hno) (by decide)
      · exact Ends.pure ⟨PutBack.set, fun x hx => if_neg hx, nofun, fun _ => if_pos rfl,
          fun _ _ => rfl⟩
    · -- not at the level it was ducked to, so it is back already
      rw [Bool.not_eq_true] at hlevel
      rw [hlevel, if_pos (by decide)]
      refine Ends.pure ⟨PutBack.refl w, fun _ _ => rfl, nofun, fun _ => ?_, fun _ _ => rfl⟩
      rcases hducked with hback | hducked
      · exact hback
      · rcases hreads with hnone | hsome
        · obtain rfl : level = none := hnone
          unfold atDuckLevel at hlevel
          rw [hducked] at hlevel
          cases hlevel
        · obtain rfl : level = some (w.volume y) := hsome
          exact absurd ((hown.atDuckLevel hducked).symm.trans hlevel) (by decide)

/-! ## A row of records -/

/-- What a sweep leaves of some records, beside others. -/
structure Left (L : Levels V) (p : Platform σ) (o : Outside σ) (v : σ → V) (w : World σ V)
    (records others : List (Record V)) (unfound : Record V → Prop) (left : List (Record V))
    (t : World σ V) :
    Prop where
  kept : Kept L p o v (left ++ others) t.volume
  sub : left ⊆ records
  back : PutBack v w t
  unfound : Settable o w → ∀ r ∈ left, unfound r

/-- The sweep over the picks leaves the records of what was not found or not set. -/
theorem sweepEach_ends (T : Told p) (Y : Young o) (k : Nat) {ps : Picks σ V}
    {others : List (Record V)} (hkept : Kept L p o v (ps.map Prod.fst ++ others) w.volume)
    (hpick : ∀ r x, (r, some x) ∈ ps → Own L p o v r x.1 ∧ Reads w x) :
    Ends (sweepEach L o (o.now k) ps) w
      (fun sweep => Left L p o v w (ps.map Prod.fst) others (fun r => (r, none) ∈ ps) sweep.left)
      (Crashed v w) := by
  induction ps generalizing w others with
  | nil =>
    exact Ends.pure ⟨hkept, List.Subset.refl _, PutBack.refl w,
      fun _ r hr => absurd hr List.not_mem_nil⟩
  | cons y rest ih =>
    obtain ⟨r, pick⟩ := y
    obtain ⟨s, hown⟩ := hkept.own r List.mem_cons_self
    have hself : r.stamp (o.now k) = r := hown.stamp _
    unfold sweepEach
    rw [hown.young Y k, hself]
    refine Ends.seq (fate_ends hown ?_ (hkept.ducked List.mem_cons_self hown)) ?_
    · rintro x rfl
      obtain ⟨htook, hreads⟩ := hpick r x List.mem_cons_self
      exact ⟨htook.eq T hown, hreads⟩
    intro kind t D
    have hkept' : Kept L p o v (r :: (rest.map Prod.fst ++ others)) t.volume :=
      hkept.back D.back.volume
    have hpick' : ∀ r' x, (r', some x) ∈ rest → Own L p o v r' x.1 ∧ Reads t x := by
      intro r' x hx
      obtain ⟨hown', hreads⟩ := hpick r' x (List.mem_cons_of_mem _ hx)
      refine ⟨hown', ?_⟩
      have hne : x.1 ≠ s := by
        rintro rfl
        refine (List.nodup_cons.mp hkept.keys).1 (List.mem_map.mpr ⟨r', ?_, hown'.key_eq hown⟩)
        exact List.mem_append_left _ (List.mem_map.mpr ⟨_, hx, rfl⟩)
      unfold Reads
      rw [D.others x.1 hne]
      exact hreads
    have hafter {e : Stop Unit} {u : World σ V} (h : Crashed v t e u) : Crashed v w e u :=
      h.since D.back
    by_cases hkind : kind = .restored
    · -- back, so its record goes
      have hdrop : Kept L p o v (rest.map Prod.fst ++ others) t.volume := by
        refine hkept'.drop fun x hx => ?_
        obtain rfl := hown.eq T hx
        exact D.restored hkind
      refine Ends.seq ((ih hdrop hpick').imp (fun _ _ h => h) fun e u h => hafter h)
        fun sweep u h => ?_
      subst hkind
      refine Ends.pure ⟨h.kept, fun x hx => List.mem_cons_of_mem _ (h.sub hx), D.back.trans h.back,
        fun hset x hx => ?_⟩
      exact List.mem_cons_of_mem _ (h.unfound (hset.later D.back) x hx)
    · have hmove : Kept L p o v (rest.map Prod.fst ++ r :: others) t.volume :=
        hkept'.perm List.perm_middle.symm
      refine Ends.seq ((ih hmove hpick').imp (fun _ _ h => h) fun e u h => hafter h)
        fun sweep u h => ?_
      have hleft : (sweep.add r kind).left.Perm (r :: sweep.left) := by
        cases kind with
        | restored => exact absurd rfl hkind
        | expired => exact absurd rfl D.young
        | failed => exact List.Perm.refl _
        | waiting => exact List.perm_middle
      refine Ends.pure ⟨?_, ?_, D.back.trans h.back, fun hset x hx => ?_⟩
      · exact h.kept.perm (List.perm_middle.trans (hleft.symm.append_right _))
      · intro x hx
        rcases List.mem_cons.mp (hleft.mem_iff.mp hx) with rfl | hx
        · exact List.mem_cons_self
        · exact List.mem_cons_of_mem _ (h.sub hx)
      · rcases List.mem_cons.mp (hleft.mem_iff.mp hx) with rfl | hx
        · -- every volume can be set, so it is not back for it took no session
          cases pick with
          | none => exact List.mem_cons_self
          | some y => exact absurd (D.all (Option.some_ne_none y) hset) hkind
        · exact List.mem_cons_of_mem _ (h.unfound (hset.later D.back) x hx)

/-! ## A sweep -/

/-- From this call on a listing with a session of a recorded app has the recorded one. -/
def Listed (L : Levels V) (p : Platform σ) (o : Outside σ) (v : σ → V) (records : List (Record V))
    (w : World σ V) :
    Prop :=
  ∀ n, w.calls ≤ n → ∀ list, o.sessions n = some list → ∀ r ∈ records, ∀ s, Own L p o v r s →
    Whole p list s

omit [DecidableEq σ] in
theorem Listed.later {records records' : List (Record V)} {t : World σ V}
    (h : Listed L p o v records w)
    (hback : PutBack v w t) (hsub : records' ⊆ records) : Listed L p o v records' t :=
  fun n hn list hlist r hr => h n (hback.calls.trans hn) list hlist r (hsub hr)

/-- The session of the record has no identity, or is not in the listing at call `n`. -/
def Unlisted (L : Levels V) (p : Platform σ) (o : Outside σ) (v : σ → V) (n : Nat)
    (r : Record V) : Prop :=
  ∀ s, Own L p o v r s → p.id s ≠ [] → ∀ list, o.sessions n = some list → s ∉ list

/-- From this call on every call succeeds, and every session that is wanted is listed and known. -/
structure AllWell (p : Platform σ) (o : Outside σ) (wanted : σ → Prop) (w : World σ V) : Prop where
  set : Settable o w
  listed : ∀ n, w.calls ≤ n → ∃ list, o.sessions n = some list ∧ ∀ s, wanted s → s ∈ list
  id : ∀ s, wanted s → p.id s ≠ []

/-- The sessions of some records. -/
def Recorded (L : Levels V) (p : Platform σ) (o : Outside σ) (v : σ → V) (records : List (Record V))
    (s : σ) : Prop :=
  ∃ r ∈ records, Own L p o v r s

section

omit [DecidableEq σ]

variable {wanted wanted' : σ → Prop} {records left : List (Record V)} {t : World σ V}

theorem AllWell.later (h : AllWell p o wanted w) (hback : PutBack v w t) : AllWell p o wanted t :=
  ⟨h.set.later hback, fun n hn => h.listed n (hback.calls.trans hn), h.id⟩

theorem AllWell.mono (h : AllWell p o wanted w) (hsub : ∀ s, wanted' s → wanted s) :
    AllWell p o wanted' w := by
  refine ⟨h.set, fun n hn => ?_, fun s hs => h.id s (hsub s hs)⟩
  obtain ⟨list, hlist, hmem⟩ := h.listed n hn
  exact ⟨list, hlist, fun s hs => hmem s (hsub s hs)⟩

/-- No record of a wanted session is left. -/
theorem Left.found (h : Left L p o v w records [] (Unlisted L p o v w.calls) left t)
    (hwell : AllWell p o wanted w)
    {r : Record V} (hr : r ∈ left) {s : σ} (hs : wanted s) : ¬Own L p o v r s := by
  intro hown
  obtain ⟨list, hlist, hmem⟩ := hwell.listed w.calls (Nat.le_refl _)
  exact h.unfound hwell.set r hr s hown (hwell.id s hs) list hlist (hmem s hs)

theorem Left.none (h : Left L p o v w records [] (Unlisted L p o v w.calls) left t)
    (hwell : AllWell p o (Recorded L p o v records) w) : left = [] := by
  refine List.eq_nil_iff_forall_not_mem.mpr fun r hr => ?_
  obtain ⟨s, hs⟩ := h.kept.own r (List.mem_append_left _ hr)
  exact h.found hwell hr ⟨r, h.sub hr, hs⟩ hs

end

/-- What a sweep of `records` comes to. -/
def Swept (L : Levels V) (p : Platform σ) (o : Outside σ) (v : σ → V) (w : World σ V)
    (records : List (Record V)) :
    Option (Sweep V) → World σ V → Prop
  | none, t => PutBack v w t ∧ o.sessions w.calls = none
  | some sweep, t => Left L p o v w records [] (Unlisted L p o v w.calls) sweep.left t

/-- All records are picked for, swept, and the rest is written. -/
theorem restoreRecords_ends (T : Told p) (Y : Young o) {records : List (Record V)}
    (hkept : Kept L p o v records w.volume) (hlisted : Listed L p o v records w) :
    Ends (restoreRecords L p o records) w (Swept L p o v w records) (Crashed v w) := by
  unfold restoreRecords
  refine sessions_ends.seq ?_
  rintro r t ⟨rfl, rfl⟩
  cases hlist : o.sessions w.calls with
  | none => exact Ends.pure ⟨PutBack.next w, hlist⟩
  | some list =>
    refine Ends.seq ((readVolumes_ends list).imp (fun _ _ h => h) fun e t h =>
      h.since (PutBack.next w)) ?_
    rintro live t ⟨hfst, hreads, -, hvolume, hback⟩
    have hback : PutBack v w t := (PutBack.next w).trans hback
    refine Ends.bind ?_
    show Ends (Bind.bind (sweepEach L o (o.now t.calls) (picks L p live records)) _) t _ _
    have hreads' (x : Live σ V) (hx : x ∈ live) : Reads t x := by
      unfold Reads
      rw [hvolume]
      exact hreads x hx
    have hkept' : Kept L p o v ((picks L p live records).map Prod.fst ++ []) t.volume := by
      rw [picks_fst, List.append_nil]
      exact hkept.back hback.volume
    have hwhole : ∀ r ∈ records, ∀ s, Own L p o v r s → Whole p (live.map Prod.fst) s := by
      rw [hfst]
      exact hlisted w.calls (Nat.le_refl _) list hlist
    refine Ends.seq ((sweepEach_ends T Y t.calls hkept' fun r x hx => ?_).imp (fun _ _ h => h)
      fun e u h => h.since hback) ?_
    · obtain ⟨hown, hmem⟩ := picks_own T hkept.own hkept.keys hwhole hx
      exact ⟨hown, hreads' x hmem⟩
    · intro sweep u h
      refine Ends.pure ⟨h.kept, fun r hr => ?_, hback.trans h.back,
        fun hset r hr s hs hid list' hlist' hmem => ?_⟩
      · have hsub := h.sub hr
        rwa [picks_fst] at hsub
      · have hnone := h.unfound (hset.later hback) r hr
        obtain rfl := Option.some.inj (hlist.symm.trans hlist')
        obtain ⟨x, hx, hxs⟩ := List.mem_map.mp (hfst ▸ hmem)
        exact picks_none T hkept.own hkept.keys hs hid hnone x hx hxs

/-- A retry sweeps the pending records alone. -/
theorem retry_ends (T : Told p) (Y : Young o) {pending : List (Record V)}
    (hkept : Kept L p o v pending w.volume) (hlisted : Listed L p o v pending w) :
    Ends (retry L p o pending) w (Left L p o v w pending [] (Unlisted L p o v w.calls))
    (Crashed v w) := by
  have hself : Kept L p o v (pending ++ []) w.volume := by rwa [List.append_nil]
  unfold retry
  split
  next hempty =>
    refine Ends.pure ⟨hself, List.Subset.refl _, PutBack.refl w, fun _ r hr => ?_⟩
    rw [List.isEmpty_iff.mp hempty] at hr
    exact absurd hr List.not_mem_nil
  next =>
    refine (restoreRecords_ends T Y hkept hlisted).seq ?_
    rintro (_ | sweep) t h
    · refine Ends.pure ⟨hself.back h.1.volume, List.Subset.refl _, h.1,
        fun _ r _ s _ _ list hlist => ?_⟩
      cases h.2.symm.trans hlist
    · exact Ends.pure h

end Sonara.Ducking
