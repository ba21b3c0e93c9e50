import Mathlib.Data.List.Nodup
import Sonara.Ducking.Ducker

/-!
# What a sweep of records keeps

`Kept` says of some records and the volumes that nothing is forgotten: each record is of a session
of its own and has the volume from before Sonara lowered it, and a session at another volume has
one. A record takes its own session by the identity when that is listed (`byId_none`), and else no
session that is not its own (`picks_own`), so a sweep moves volumes back only (`PutBack`).

What is assumed of the platform: sessions of one app are told apart by their identities (`Told`),
and a listing that has a session of a recorded app has the recorded one too (`Whole`). What is
assumed of the clock: no record is too old.
-/

namespace Sonara.Ducking

open Lib Io

variable {σ V : Type} {L : Levels V} {p : Platform σ} {o : Outside σ} {v : σ → V}

/-- By pid and name, `s` and `t` may be sessions of one app. -/
def Akin (p : Platform σ) (s t : σ) : Prop :=
  p.pid s = p.pid t ∧ (p.name s = [] ∨ p.name t = []) ∨
    p.name t ≠ [] ∧ eqIgnoreAsciiCase (p.name s) (p.name t) = true

/-- No two sessions have one identity, and sessions of one app have identities. -/
structure Told (p : Platform σ) : Prop where
  ids : ∀ s t, p.id s = p.id t → p.id s = [] ∨ s = t
  known : ∀ s t, Akin p s t → s = t ∨ p.id s ≠ []

/-- No record gets older than records may be. -/
def Young (o : Outside σ) : Prop := ∀ n k, o.now n - o.now k ≤ RECORD_MAX_AGE

/-- A record of `s`, with the volume `s` had before Sonara lowered it. -/
structure Own (L : Levels V) (p : Platform σ) (o : Outside σ) (v : σ → V) (r : Record V) (s : σ) :
    Prop where
  pid : r.pid = some (p.pid s)
  name : r.name = if (p.name s).isEmpty then none else some (p.name s)
  id : r.id = if (p.id s).isEmpty then none else some (p.id s)
  original : r.original = v s
  ducked : ∃ l, r.ducked = some (L.target l)
  time : ∃ n, r.time = some (o.now n)

/-- What tells the session of a record. -/
def Record.key (r : Record V) : Option Nat × Option Text × Option Text := (r.pid, r.name, r.id)

/-- **Nothing is forgotten.** -/
structure Kept (L : Levels V) (p : Platform σ) (o : Outside σ) (v : σ → V)
    (records : List (Record V)) (volume : σ → V) : Prop where
  own : ∀ r ∈ records, ∃ s, Own L p o v r s
  keys : (records.map Record.key).Nodup
  /-- What is not at its own volume is where its record says. -/
  held : ∀ s, volume s = v s ∨ ∃ r ∈ records, Own L p o v r s ∧ r.ducked = some (volume s)

theorem eqIgnoreAsciiCase_refl (a : Text) : eqIgnoreAsciiCase a a = true := beq_self_eq_true _

theorem filled_inj {a b : Text}
    (h : (if a.isEmpty then none else some a) = if b.isEmpty then none else some b) : a = b := by
  cases a with
  | nil =>
    cases b with
    | nil => rfl
    | cons d ds => cases h
  | cons c cs =>
    cases b with
    | nil => cases h
    | cons d ds => exact Option.some.inj h

theorem Akin.of_eq {s t : σ} (hpid : p.pid s = p.pid t) (hname : p.name s = p.name t) :
    Akin p s t := by
  by_cases hnil : p.name t = []
  · exact .inl ⟨hpid, .inr hnil⟩
  · refine .inr ⟨hnil, ?_⟩
    rw [hname]
    exact eqIgnoreAsciiCase_refl _

/-- Records of one key are of one session. -/
theorem Own.eq_of_key (T : Told p) {r r' : Record V} {s t : σ} (hs : Own L p o v r s)
    (ht : Own L p o v r' t) (hkey : r.key = r'.key) : s = t := by
  obtain ⟨hpid, hrest⟩ := Prod.mk.inj hkey
  obtain ⟨hname, hid⟩ := Prod.mk.inj hrest
  rw [hs.pid, ht.pid] at hpid
  rw [hs.name, ht.name] at hname
  rw [hs.id, ht.id] at hid
  rcases T.ids s t (filled_inj hid) with hnone | heq
  · rcases T.known s t (Akin.of_eq (Option.some.inj hpid) (filled_inj hname)) with heq | hsome
    · exact heq
    · exact absurd hnone hsome
  · exact heq

theorem Own.eq (T : Told p) {r : Record V} {s t : σ} (hs : Own L p o v r s)
    (ht : Own L p o v r t) : s = t :=
  hs.eq_of_key T ht rfl

theorem Own.key_eq {r r' : Record V} {s : σ} (h : Own L p o v r s) (h' : Own L p o v r' s) :
    r.key = r'.key := by
  unfold Record.key
  rw [h.pid, h.name, h.id, h'.pid, h'.name, h'.id]

theorem Own.stamp {r : Record V} {s : σ} (h : Own L p o v r s) (now : Nat) : r.stamp now = r := by
  obtain ⟨n, hn⟩ := h.time
  unfold Record.stamp
  rw [hn]
  exact hn ▸ rfl

/-- The level Sonara set is the level of the record. -/
theorem Own.atDuckLevel {r : Record V} {s : σ} (h : Own L p o v r s) {x : V}
    (hx : r.ducked = some x) :
    atDuckLevel L r (some x) = true := by
  obtain ⟨l, hl⟩ := h.ducked
  have htarget : L.target l = x := Option.some.inj (hl.symm.trans hx)
  unfold Ducking.atDuckLevel
  rw [hx, ← htarget]
  exact L.near_target l

namespace Kept

variable {records records' : List (Record V)} {volume volume' : σ → V} {r r' : Record V} {s : σ}

/-- A session has one record. -/
theorem eq (h : Kept L p o v records volume) (hr : r ∈ records) (hr' : r' ∈ records)
    (hs : Own L p o v r s) (hs' : Own L p o v r' s) : r = r' :=
  List.inj_on_of_nodup_map h.keys hr hr' (hs.key_eq hs')

theorem nil (h : ∀ s, volume s = v s) : Kept L p o v [] volume :=
  ⟨by simp, List.nodup_nil, fun s => .inl (h s)⟩

/-- Sessions may be put back. -/
theorem back (h : Kept L p o v records volume)
    (hback : ∀ s, volume' s = volume s ∨ volume' s = v s) :
    Kept L p o v records volume' := by
  refine ⟨h.own, h.keys, fun s => ?_⟩
  rcases hback s with hs | hs
  · rw [hs]
    exact h.held s
  · exact .inl hs

theorem perm (h : Kept L p o v records volume) (hperm : records.Perm records') :
    Kept L p o v records' volume := by
  refine ⟨fun r hr => h.own r (hperm.mem_iff.mpr hr), (hperm.map _).nodup_iff.mp h.keys,
    fun s => ?_⟩
  rcases h.held s with hs | ⟨r, hr, hown, hducked⟩
  · exact .inl hs
  · exact .inr ⟨r, hperm.mem_iff.mp hr, hown, hducked⟩

/-- The record of a session that is back is not needed. -/
theorem drop (h : Kept L p o v (r :: records) volume)
    (hback : ∀ s, Own L p o v r s → volume s = v s) :
    Kept L p o v records volume := by
  refine ⟨fun r hr => h.own r (List.mem_cons_of_mem _ hr), (List.nodup_cons.mp h.keys).2,
    fun s => ?_⟩
  rcases h.held s with hs | ⟨x, hx, hown, hducked⟩
  · exact .inl hs
  · rcases List.mem_cons.mp hx with rfl | hx
    · exact .inl (hback s hown)
    · exact .inr ⟨x, hx, hown, hducked⟩

/-- A session that is not back is at the level of its record. -/
theorem ducked (h : Kept L p o v records volume) (hr : r ∈ records) (hs : Own L p o v r s) :
    volume s = v s ∨ r.ducked = some (volume s) := by
  rcases h.held s with hs' | ⟨x, hx, hown, hducked⟩
  · exact .inl hs'
  · obtain rfl := h.eq hr hx hs hown
    exact .inr hducked

end Kept

/-! ## Calls -/

theorem effect_ends {α : Type} {w : World σ V} {act : Nat → World σ V → α × World σ V}
    {Q : α → World σ V → Prop} {E : Stop Unit → World σ V → Prop}
    (hcrash : w.left = some 0 → E .crashed w)
    (hok : Q (act w.calls w.next).1 (act w.calls w.next).2) : Ends (effect act) w Q E := by
  unfold Ends effect
  by_cases hleft : w.left = some 0
  · rw [if_pos hleft]
    exact hcrash hleft
  · rw [if_neg hleft]
    exact hok

/-- Since `w` sessions were put back, and nothing else happened. -/
structure PutBack (v : σ → V) (w t : World σ V) : Prop where
  file : t.file = w.file
  volume : ∀ s, t.volume s = w.volume s ∨ t.volume s = v s
  calls : w.calls ≤ t.calls
  left : t.left ≠ none → w.left ≠ none

namespace PutBack

variable {w t u : World σ V}

theorem refl (w : World σ V) : PutBack v w w := ⟨rfl, fun _ => .inl rfl, Nat.le_refl _, id⟩

theorem trans (h : PutBack v w t) (h' : PutBack v t u) : PutBack v w u := by
  refine ⟨h'.file.trans h.file, fun s => ?_, h.calls.trans h'.calls, fun hu => h.left (h'.left hu)⟩
  rcases h'.volume s with hs | hs
  · rw [hs]
    exact h.volume s
  · exact .inr hs

theorem next (w : World σ V) : PutBack v w w.next := by
  refine ⟨rfl, fun _ => .inl rfl, Nat.le_succ _, fun h hw => h ?_⟩
  unfold World.next
  rw [hw]
  rfl

end PutBack

/-- Sessions were put back, and the process crashed. -/
def Crashed (v : σ → V) (w : World σ V) (_ : Stop Unit) (t : World σ V) : Prop :=
  PutBack v w t ∧ t.left ≠ none

theorem Crashed.here {w : World σ V} (h : w.left = some 0) : Crashed v w .crashed w :=
  ⟨PutBack.refl w, by rw [h]; exact nofun⟩

theorem Crashed.since {w t u : World σ V} {e : Stop Unit} (h : PutBack v w t)
    (h' : Crashed v t e u) : Crashed v w e u :=
  ⟨h.trans h'.1, h'.2⟩

variable {w : World σ V}

theorem sessions_ends : Ends (sessions o) w (fun r t => r = o.sessions w.calls ∧ t = w.next)
    (Crashed v w) :=
  effect_ends Crashed.here ⟨rfl, rfl⟩

theorem volume_ends (s : σ) :
    Ends (volume o s) w (fun r t => (r = none ∨ r = some (w.volume s)) ∧ t = w.next)
    (Crashed v w) := by
  refine effect_ends Crashed.here ⟨?_, rfl⟩
  dsimp only
  split
  · exact .inr rfl
  · exact .inl rfl

/-- A level is `none`, or the volume. -/
def Reads (w : World σ V) (x : Live σ V) : Prop := x.2 = none ∨ x.2 = some (w.volume x.1)

/-- Reading the volumes changes none, and each that is read is right. -/
theorem readVolumes_ends (list : List σ) :
    Ends (readVolumes o list) w (fun live t => live.map Prod.fst = list ∧ (∀ x ∈ live, Reads w x) ∧
      t.file = w.file ∧ t.volume = w.volume ∧ PutBack v w t) (Crashed v w) := by
  induction list generalizing w with
  | nil => exact Ends.pure ⟨rfl, by simp, rfl, rfl, PutBack.refl w⟩
  | cons s rest ih =>
    refine (volume_ends s).seq ?_
    rintro level t ⟨hlevel, rfl⟩
    refine Ends.seq (ih.imp (fun _ _ h => h) fun e t h => h.since (PutBack.next w)) ?_
    rintro live t ⟨hfst, hreads, hfile, hvolume, hback⟩
    refine Ends.pure ⟨congrArg (s :: ·) hfst, ?_, hfile, hvolume, (PutBack.next w).trans hback⟩
    intro x hx
    rcases List.mem_cons.mp hx with rfl | hx
    · exact hlevel
    · exact hreads x hx

/-! ## Which session a record takes -/

theorem takePass_fst (live : List (Live σ V)) (ok : Record V → Live σ V → Bool) (ps : Picks σ V)
    (used : List Nat) :
    (takePass live ok ps used).1.map Prod.fst = ps.map Prod.fst := by
  induction ps generalizing used with
  | nil => rfl
  | cons x rest ih =>
    obtain ⟨r, _ | pick⟩ := x
    · unfold takePass
      split
      · exact congrArg (r :: ·) (ih _)
      · exact congrArg (r :: ·) (ih _)
    · exact congrArg (r :: ·) (ih _)

/-- What a record takes it had before, or it had none and the session was `ok`. -/
theorem takePass_takes {live : List (Live σ V)} {ok : Record V → Live σ V → Bool} {ps : Picks σ V}
    {used : List Nat}
    {r : Record V} {x : Live σ V} (h : (r, some x) ∈ (takePass live ok ps used).1) :
    (r, some x) ∈ ps ∨ (r, none) ∈ ps ∧ x ∈ live ∧ ok r x = true := by
  induction ps generalizing used with
  | nil => exact .inl h
  | cons y rest ih =>
    have hrest {used : List Nat} (h : (r, some x) ∈ (takePass live ok rest used).1) :
        (r, some x) ∈ y :: rest ∨ (r, none) ∈ y :: rest ∧ x ∈ live ∧ ok r x = true := by
      rcases ih h with h | ⟨hr, hok⟩
      · exact .inl (List.mem_cons_of_mem _ h)
      · exact .inr ⟨List.mem_cons_of_mem _ hr, hok⟩
    obtain ⟨r', _ | pick⟩ := y
    · unfold takePass at h
      split at h
      next z hz =>
        rcases List.mem_cons.mp h with heq | h
        · obtain ⟨rfl, hx⟩ := Prod.mk.inj heq
          obtain rfl := Option.some.inj hx
          have hok := List.find?_some hz
          have hmem := List.mem_of_find?_eq_some hz
          refine .inr ⟨List.mem_cons_self, ?_, (Bool.and_eq_true_iff.mp hok).2⟩
          exact List.fst_mem_of_mem_zipIdx hmem
        · exact hrest h
      next =>
        rcases List.mem_cons.mp h with heq | h
        · cases heq
        · exact hrest h
    · rcases List.mem_cons.mp h with heq | h
      · exact .inl (heq ▸ List.mem_cons_self)
      · exact hrest h

/-- A record that took none had none. -/
theorem takePass_none {live : List (Live σ V)} {ok : Record V → Live σ V → Bool} {ps : Picks σ V}
    {used : List Nat}
    {r : Record V} (h : (r, none) ∈ (takePass live ok ps used).1) : (r, none) ∈ ps := by
  induction ps generalizing used with
  | nil => exact h
  | cons y rest ih =>
    obtain ⟨r', _ | pick⟩ := y
    · unfold takePass at h
      split at h
      · rcases List.mem_cons.mp h with heq | h
        · cases heq
        · exact List.mem_cons_of_mem _ (ih h)
      · rcases List.mem_cons.mp h with heq | h
        · exact heq ▸ List.mem_cons_self
        · exact List.mem_cons_of_mem _ (ih h)
    · rcases List.mem_cons.mp h with heq | h
      · cases heq
      · exact List.mem_cons_of_mem _ (ih h)

theorem Own.byId (T : Told p) {r : Record V} {s : σ} {x : Live σ V} (h : Own L p o v r s)
    (hok : byId p r x = true) :
    s = x.1 := by
  unfold Ducking.byId at hok
  rw [h.id] at hok
  split at hok
  · cases hok
  next hne =>
    have hid : (!(p.id s).isEmpty && p.id s == p.id x.1) = true := hok
    rcases T.ids s x.1 (eq_of_beq (Bool.and_eq_true_iff.mp hid).2) with hnil | heq
    · exact absurd (List.isEmpty_iff.mpr hnil) hne
    · exact heq

/-- A record and a session that agree by process are of one app. -/
theorem Own.byPid {r : Record V} {s : σ} {x : Live σ V} (h : Own L p o v r s)
    (hok : byPid L p r x = true) :
    Akin p s x.1 := by
  obtain ⟨hboth, -⟩ := Bool.and_eq_true_iff.mp hok
  obtain ⟨hpid, hname⟩ := Bool.and_eq_true_iff.mp hboth
  rw [h.pid] at hpid
  have hpid : p.pid s = p.pid x.1 := Option.some.inj (eq_of_beq hpid)
  rw [h.name] at hname
  by_cases hs : p.name s = []
  · exact .inl ⟨hpid, .inl hs⟩
  by_cases hx : p.name x.1 = []
  · exact .inl ⟨hpid, .inr hx⟩
  have hs' : ¬(p.name s).isEmpty = true := fun hnil => hs (List.isEmpty_iff.mp hnil)
  have hx' : ¬(p.name x.1).isEmpty = true := fun hnil => hx (List.isEmpty_iff.mp hnil)
  rw [if_neg hs'] at hname
  dsimp only at hname
  rw [if_neg (not_or.mpr ⟨hx', hs'⟩)] at hname
  exact .inr ⟨hx, hname⟩

theorem Own.byName {r : Record V} {s : σ} {x : Live σ V} (h : Own L p o v r s)
    (hok : byName L p r x = true) :
    Akin p s x.1 := by
  obtain ⟨hboth, -⟩ := Bool.and_eq_true_iff.mp hok
  obtain ⟨hx, hname⟩ := Bool.and_eq_true_iff.mp hboth
  rw [h.name] at hname
  split at hname
  · cases hname
  · refine .inr ⟨fun hnil => ?_, hname⟩
    rw [hnil] at hx
    cases hx

/-- **A listed session with an identity is found by it**: a record that takes none by identity has
no session with one among the listed. -/
theorem byId_none (T : Told p) {live : List (Live σ V)} {records : List (Record V)}
    {used : List Nat}
    (hown : ∀ r ∈ records, ∃ s, Own L p o v r s) (hkeys : (records.map Record.key).Nodup)
    (hused : ∀ j ∈ used, ∀ x, live[j]? = some x → ∀ r ∈ records, ¬Own L p o v r x.1)
    {r : Record V} {s : σ} (hs : Own L p o v r s) (hid : p.id s ≠ [])
    (h : (r, none) ∈ (takePass live (byId p) (records.map fun r => (r, none)) used).1) :
    ∀ x ∈ live, x.1 ≠ s := by
  induction records generalizing used with
  | nil => exact absurd h List.not_mem_nil
  | cons r' rest ih =>
    obtain ⟨hnot, hkeys⟩ := List.nodup_cons.mp hkeys
    have hown' : ∀ r ∈ rest, ∃ s, Own L p o v r s := fun r hr => hown r (List.mem_cons_of_mem _ hr)
    have hused' : ∀ j ∈ used, ∀ x, live[j]? = some x → ∀ r ∈ rest, ¬Own L p o v r x.1 :=
      fun j hj x hx r hr => hused j hj x hx r (List.mem_cons_of_mem _ hr)
    rw [List.map_cons] at h
    unfold takePass at h
    split at h
    next z hz =>
      rcases List.mem_cons.mp h with heq | h
      · cases heq
      · -- the session just taken is not that of a later record
        refine ih hown' hkeys ?_ h
        intro i hi y hy r₁ hr₁ hown₁
        rcases List.mem_cons.mp hi with rfl | hi
        · have hmem := List.mem_zipIdx_iff_getElem?.mp (List.mem_of_find?_eq_some hz)
          have hpick := List.find?_some hz
          obtain ⟨t, ht⟩ := hown r' List.mem_cons_self
          obtain rfl := Option.some.inj (hmem.symm.trans hy)
          obtain rfl : t = z.1.1 := ht.byId T (Bool.and_eq_true_iff.mp hpick).2
          exact hnot (List.mem_map.mpr ⟨r₁, hr₁, hown₁.key_eq ht⟩)
        · exact hused' i hi y hy r₁ hr₁ hown₁
    next hnone =>
      rcases List.mem_cons.mp h with heq | h
      · obtain rfl := (Prod.mk.inj heq).1
        rintro x hx rfl
        obtain ⟨j, hj⟩ := List.getElem?_of_mem hx
        have hfree : j ∉ used := fun hj' => hused j hj' x hj r List.mem_cons_self hs
        have hok : byId p r x = true := by
          unfold byId
          rw [hs.id, if_neg fun h => hid (List.isEmpty_iff.mp h)]
          refine Bool.and_eq_true_iff.mpr ⟨?_, beq_self_eq_true _⟩
          cases h : p.id x.1 with
          | nil => exact absurd h hid
          | cons c cs => rfl
        have hno := List.find?_eq_none.mp hnone (x, j) (List.mem_zipIdx_iff_getElem?.mpr hj)
        refine absurd (Bool.and_eq_true_iff.mpr ⟨?_, hok⟩) hno
        rw [Bool.not_eq_true', List.contains_eq_mem]
        exact decide_eq_false hfree
      · exact ih hown' hkeys hused' h

/-- A listing that has a session of the app of `s` has `s`. -/
def Whole (p : Platform σ) (list : List σ) (s : σ) : Prop := ∀ t ∈ list, Akin p s t → s ∈ list

/-- Where a record takes none, its session has no identity or is not listed. -/
theorem picks_none (T : Told p) {live : List (Live σ V)} {records : List (Record V)}
    (hown : ∀ r ∈ records, ∃ s, Own L p o v r s) (hkeys : (records.map Record.key).Nodup)
    {r : Record V} {s : σ}
    (hs : Own L p o v r s) (hid : p.id s ≠ []) (h : (r, none) ∈ picks L p live records) :
    ∀ x ∈ live, x.1 ≠ s :=
  byId_none T hown hkeys (fun _ hj => absurd hj List.not_mem_nil) hs hid
    (takePass_none (takePass_none h))

/-- **A record takes its own session only**, in whatever pass. -/
theorem picks_own (T : Told p) {live : List (Live σ V)} {records : List (Record V)}
    (hown : ∀ r ∈ records, ∃ s, Own L p o v r s) (hkeys : (records.map Record.key).Nodup)
    (hwhole : ∀ r ∈ records, ∀ s, Own L p o v r s → Whole p (live.map Prod.fst) s) {r : Record V}
    {x : Live σ V} (h : (r, some x) ∈ picks L p live records) : Own L p o v r x.1 ∧ x ∈ live := by
  -- by pid or name a record takes a session only where its own was not found by the identity
  have hweak : (r, none) ∈ (takePass live (byId p) (records.map fun r => (r, none)) []).1 →
    x ∈ live →
      (∀ s, Own L p o v r s → Akin p s x.1) → Own L p o v r x.1 ∧ x ∈ live := by
    intro hnone hx hakin
    have hr : r ∈ records := by
      obtain ⟨r', hr', heq⟩ := List.mem_map.mp (takePass_none hnone)
      exact (Prod.mk.inj heq).1 ▸ hr'
    obtain ⟨s, hs⟩ := hown r hr
    rcases T.known s x.1 (hakin s hs) with rfl | hid
    · exact ⟨hs, hx⟩
    · obtain ⟨y, hy, hys⟩ := List.mem_map.mp
        (hwhole r hr s hs x.1 (List.mem_map_of_mem hx) (hakin s hs))
      exact absurd hys (byId_none T hown hkeys
        (fun _ hj => absurd hj List.not_mem_nil) hs hid hnone y hy)
  rcases takePass_takes h with h | ⟨hnone, hx, hok⟩
  · rcases takePass_takes h with h | ⟨hnone, hx, hok⟩
    · rcases takePass_takes h with h | ⟨hnone, hx, hok⟩
      · obtain ⟨r', -, heq⟩ := List.mem_map.mp h
        cases heq
      · obtain ⟨r', hr', heq⟩ := List.mem_map.mp hnone
        obtain ⟨s, hs⟩ := hown r' hr'
        obtain rfl := (Prod.mk.inj heq).1
        exact ⟨hs.byId T hok ▸ hs, hx⟩
    · exact hweak hnone hx fun s hs => hs.byPid hok
  · exact hweak (takePass_none hnone) hx fun s hs => hs.byName hok

theorem picks_fst (live : List (Live σ V)) (records : List (Record V)) :
    (picks L p live records).map Prod.fst = records := by
  unfold picks
  dsimp only
  rw [takePass_fst, takePass_fst, takePass_fst, List.map_map]
  exact List.map_id _

end Sonara.Ducking
