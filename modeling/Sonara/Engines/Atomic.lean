import Sonara.Engines.Registered

/-!
# A call changes the engines whole

Over any run from a load, with any registries of hosts attached: after every call each registry
holds the engines of the usable entries, and a call that fails leaves them as they were (or as a
read of a changed file made them). Only two calls can break this, and `Meets` says where: one whose
save fails after its entries changed, and an `engine_add` whose profile turns out unusable after its
key was stored or deleted. `engine_remove` unregisters before it answers, so its registries follow
even then; `engine_add` returns first (`add_unsaved`).
-/

namespace Sonara.Engines

open Profile (fromJson_spec)
open Lib (bind_ok elim_ok lookup get_foldl mem_iff_lookup)

variable {R : Rules} {l l' : Live} {r : Registry} {entries : List Entry} {built : Text → Nat}
  {id : Text}

/-! ## The ids of usable entries -/

/-- Every usable entry has an id that a profile may have. -/
def Sound (entries : List Entry) : Prop :=
  ∀ e ∈ entries, ∀ p, e.state = .ready p → validateId e.id = .ok ()

theorem Entry.engine_some {e : Entry} {x : Text × Held} (h : e.engine built = some x) :
    ∃ p, e.state = .ready p := by
  unfold Entry.engine at h
  split at h
  next p hp => exact ⟨p, hp⟩
  · cases h

/-- An engine that is looked up has a valid id. -/
theorem Sound.engineOf (h : Sound entries) (hid : engineOf entries built id ≠ none) :
    validateId id = .ok () := by
  unfold Engines.engineOf at hid
  cases he : entryOf id entries with
  | none =>
    rw [he] at hid
    exact absurd rfl hid
  | some e =>
    rw [he] at hid
    have heid : e.id = id := by simpa using List.find?_some he
    cases heng : e.engine built with
    | none =>
      rw [Option.bind_some, heng] at hid
      exact absurd rfl hid
    | some x =>
      obtain ⟨p, hp⟩ := Entry.engine_some heng
      rw [← heid]
      exact h e (List.mem_of_find?_eq_some he) p hp

theorem Sound.ready (h : Sound entries) : ∀ x ∈ readyOf entries built, validateId x.1 = .ok () := by
  intro x hx
  obtain ⟨e, he, heng⟩ := List.mem_filterMap.mp hx
  obtain ⟨p, hp⟩ := Entry.engine_some heng
  rw [Entry.engine_id heng]
  exact h e he p hp

/-- A stored profile that builds has an id that a profile may have. -/
theorem build_valid {raw : Json} {p : Profile} (h : build R raw = .ok p)
    (hid : idOf raw = some id) :
    validateId id = .ok () := by
  unfold build at h
  obtain ⟨q, hq, -⟩ := bind_ok h
  cases raw with
  | object m =>
    obtain ⟨hfield, -, -, hvalid⟩ := fromJson_spec hq
    have hsame : some q.id = some id := by
      rw [← hid]
      show some q.id = (Json.field (txt "id") m).bind Json.asStr
      rw [hfield]
      rfl
    rw [← Option.some.inj hsame]
    exact hvalid
  | _ =>
    obtain ⟨m, hm, -⟩ := bind_ok hq
    cases elim_ok hm

/-- The entries taken from a file are sound, whichever of the old ones they keep. -/
theorem takeIn_sound (raws : List Json) : ∀ (old entries : List Entry) (problems : List Text),
    Sound old → Sound entries → Sound (takeIn R raws old entries problems).1 := by
  induction raws with
  | nil => exact fun old entries problems _ h => h
  | cons raw raws ih =>
    intro old entries problems hold h
    rw [takeIn]
    dsimp only
    split
    · exact ih old entries _ hold h
    next hid =>
      have hne : (idOf raw).getD [] ≠ [] := by
        intro hn
        rw [hn] at hid
        simp at hid
      split
      next kept hk =>
        refine ih _ _ _ (fun e he => hold e (List.mem_of_mem_erase he)) fun e he p hp => ?_
        rcases List.mem_append.mp he with he | he
        · exact h e he p hp
        · rw [List.mem_singleton.mp he] at hp ⊢
          exact hold kept (List.mem_of_find?_eq_some hk) p hp
      next hk =>
        refine ih old _ _ hold fun e he p hp => ?_
        rcases List.mem_append.mp he with he | he
        · exact h e he p hp
        · rw [List.mem_singleton.mp he] at hp ⊢
          have hbuild : build R raw = .ok p := by
            revert hp
            show (stateOf R _ raw).1 = .ready p → _
            unfold stateOf
            split
            next q hq =>
              intro hp
              cases hp
              exact hq
            · exact fun hp => absurd hp (by simp)
            · exact fun hp => absurd hp (by simp)
          exact build_valid hbuild (idOf_of_getD hne)

theorem entriesFrom_sound (raws : List Json) {old : List Entry} (h : Sound old) :
    Sound (entriesFrom R raws old).1 :=
  takeIn_sound _ old [] [] h fun _ he => absurd he List.not_mem_nil

/-! ## The invariant -/

/-- The registries hold the engines of the usable entries. -/
structure Live.Kept (l : Live) : Prop where
  indexed : Indexed l.rt.entries
  sound : Sound l.rt.entries
  holds : ∀ r ∈ l.registries, r.Holds (engineOf l.rt.entries l.built)

/-- Each registry holds, of the external engines, exactly those of the usable entries. -/
def Live.Follows (l : Live) : Prop :=
  ∀ r ∈ l.registries, ∀ id n, (id, Held.external n) ∈ r.engines.items ↔
    (id, Held.external n) ∈ l.ready

/-- The registry follows the entries. -/
theorem Live.Kept.follows (h : l.Kept) : l.Follows := by
  intro r hr id n
  have hh := h.holds r hr
  rw [Lib.Roster.mem_iff]
  show _ ↔ (id, Held.external n) ∈ readyOf l.rt.entries l.built
  rw [mem_iff_lookup (readyOf_once h.indexed), lookup_readyOf h.indexed]
  by_cases hid : validateId id = .ok ()
  · rw [hh.usable id hid]
  · constructor
    · intro hg
      cases hh.own id hid _ hg
    · intro hg
      exact absurd (h.sound.engineOf (by rw [hg]; exact Option.some_ne_none _)) hid

/-- The engines and their keys are as they were. -/
structure Live.Same (l l' : Live) : Prop where
  entries : l'.rt.entries = l.rt.entries
  built : l'.built = l.built
  registries : l'.registries = l.registries
  keys : l'.rt.keys.held = l.rt.keys.held

theorem Live.Same.refl (l : Live) : l.Same l := ⟨rfl, rfl, rfl, rfl⟩

theorem Live.Same.kept (h : l.Same l') (hk : l.Kept) : l'.Kept where
  indexed := by
    rw [h.entries]
    exact hk.indexed
  sound := by
    rw [h.entries]
    exact hk.sound
  holds := by
    rw [h.entries, h.built, h.registries]
    exact hk.holds

/-! ## Reading -/

/-- A reload keeps the invariant, and changes nothing when it fails. -/
theorem Live.reload_kept (h : l.Kept) :
    (l.reload R).2.Kept ∧ ∀ e, (l.reload R).1 = .error e → (l.reload R).2 = l := by
  unfold Live.reload
  cases hp : parseFile R (readText l.rt.home.file) with
  | error why =>
    rw [reload_error hp]
    exact ⟨h, fun _ _ => rfl⟩
  | ok read =>
    obtain ⟨raws, legacy⟩ := read
    rw [reload_ok hp]
    dsimp only
    have hi : Indexed (entriesFrom R raws l.rt.entries).1 := entriesFrom_indexed raws l.rt.entries
    have hs : Sound (entriesFrom R raws l.rt.entries).1 := entriesFrom_sound raws h.sound
    refine ⟨⟨hi, hs, fun r hr => ?_⟩, fun e he => by cases he⟩
    obtain ⟨r₀, hr₀, rfl⟩ := List.mem_map.mp hr
    have hholds := h.holds r₀ hr₀
    rw [← funext (lookup_readyOf h.indexed)] at hholds
    rw [← funext (lookup_readyOf hi)]
    exact follow_holds hholds (readyOf_once h.indexed) (readyOf_once hi) h.sound.ready hs.ready

theorem Live.takeIn_kept (h : l.Kept) : (l.takeInFileChanges R).2.Kept ∧
    ∀ e, (l.takeInFileChanges R).1 = .error e → (l.takeInFileChanges R).2 = l := by
  unfold Live.takeInFileChanges
  obtain ⟨hk, hsame⟩ := Live.reload_kept (R := R) h
  split
  · revert hk hsame
    generalize l.reload R = read
    obtain ⟨a, l'⟩ := read
    intro hk hsame
    cases a with
    | ok problems => exact ⟨hk, fun e he => by cases he⟩
    | error e => exact ⟨hk, fun _ _ => hsame e rfl⟩
  · exact ⟨h, fun _ _ => rfl⟩

/-! ## Adding and removing -/

/-- What an `engine_add` meets when it gets to its save: the save succeeds, and where the profile is
not usable after all, its key was not touched. -/
def AddMeets (R : Rules) (p : Profile) (secret : Option Text) (replace : Bool) (fails : Option Text)
    (rt : Runtime) : Prop :=
  admitted p.id replace rt.entries = .ok () → ∀ keys, bindKey R p secret rt.keys = (.ok (), keys) →
    match build R (stored R p ((entryOf p.id rt.entries).map (·.raw))) with
    | .ok _ => fails = none
    | .error _ => keys.held = rt.keys.held

/-- The calls that do not meet a failure halfway. -/
def LiveCall.Meets (R : Rules) (fails : Option Text) (l : Live) : LiveCall → Prop
  | .add engine secret replace => ∀ p, requested R engine secret l.rt.entries = .ok p →
      (l.takeInFileChanges R).1 = .ok () → AddMeets R p secret replace fails
        (l.takeInFileChanges R).2.rt
  | .remove id _ => (l.takeInFileChanges R).1 = .ok () →
      entryOf id (l.takeInFileChanges R).2.rt.entries ≠ none → fails = none
  | .reload => True

/-- A key that could not be stored is not held. -/
theorem Store.set_error {keys keys' : Store} {secret origin : Text} {e : KeyError}
    (h : keys.set id secret origin = (.error e, keys')) : keys'.held = keys.held := by
  unfold Store.set at h
  have hheld : keys.tick.2.held = keys.held := rfl
  revert h hheld
  generalize keys.tick = ticked
  obtain ⟨fault, s⟩ := ticked
  intro h hheld
  cases fault with
  | none => cases h
  | some e =>
    cases h
    exact hheld

/-- A key that cannot be stored leaves the stored keys. -/
theorem bindKey_error {p : Profile} {secret : Option Text} {keys keys' : Store} {e : Failure}
    (h : bindKey R p secret keys = (.error e, keys')) : keys'.held = keys.held := by
  unfold bindKey at h
  cases secret with
  | none =>
    dsimp only at h
    split at h
    · split at h <;> cases h
    · cases h
  | some s =>
    dsimp only at h
    cases ho : p.origin R with
    | none =>
      rw [ho] at h
      cases h
      rfl
    | some o =>
      rw [ho] at h
      dsimp only at h
      cases hset : keys.set p.id s o with
      | mk done stored =>
        rw [hset] at h
        cases done with
        | ok u => cases h
        | error e =>
          cases h
          exact Store.set_error hset

/-- Putting a sound entry keeps the entries sound. -/
theorem Sound.put (h : Sound entries) {e : Entry} (he : validateId e.id = .ok ()) :
    Sound (Engines.put e entries) := by
  have hmem : ∀ x ∈ Engines.put e entries, x = e ∨ x ∈ entries := by
    intro x hx
    unfold Engines.put at hx
    split at hx
    · obtain ⟨y, hy, rfl⟩ := List.mem_map.mp hx
      split
      · exact .inl rfl
      · exact .inr hy
    · rcases List.mem_append.mp hx with hx | hx
      · exact .inr hx
      · exact .inl (List.mem_singleton.mp hx)
  intro x hx p hp
  rcases hmem x hx with rfl | hx
  · exact he
  · exact h x hx p hp

theorem engineOf_any : ((entryOf id entries).any fun e => (e.engine built).isSome) = true ↔
    engineOf entries built id ≠ none := by
  unfold engineOf
  cases entryOf id entries with
  | none => simp
  | some e =>
    cases he : e.engine built with
    | none => simp [he]
    | some x => simp [he]

/-- Under the lock an `engine_add` that fails leaves what was there. -/
theorem addLocked_kept {p : Profile} {secret : Option Text} {replace : Bool} {fails : Option Text}
    (h : l.Kept)
    (hm : AddMeets R p secret replace fails l.rt) : (l.addLocked R p secret replace fails).2.Kept ∧
      ∀ e, (l.addLocked R p secret replace fails).1 = .error e → l.Same
      (l.addLocked R p secret replace fails).2 := by
  unfold Live.addLocked
  unfold AddMeets at hm
  cases ha : admitted p.id replace l.rt.entries with
  | error e => exact ⟨h, fun _ _ => .refl l⟩
  | ok u =>
    specialize hm ha
    dsimp only
    cases hb : bindKey R p secret l.rt.keys with
    | mk done keys =>
      cases done with
      | error e =>
        have hsame : l.Same { l with rt := { l.rt with keys } } := ⟨rfl, rfl, rfl, bindKey_error hb⟩
        exact ⟨hsame.kept h, fun _ _ => hsame⟩
      | ok u =>
        specialize hm keys hb
        dsimp only
        generalize hraw : stored R p ((entryOf p.id l.rt.entries).map (·.raw)) = raw at hm ⊢
        have hid : idOf raw = some p.id := hraw ▸ idOf_stored p _
        cases hbuild : build R raw with
        | error e =>
          rw [hbuild] at hm
          have hsame : l.Same { l with rt := { l.rt with keys } } := ⟨rfl, rfl, rfl, hm⟩
          exact ⟨hsame.kept h, fun _ _ => hsame⟩
        | ok q =>
          rw [hbuild] at hm
          cases hm
          dsimp only
          rw [save_none]
          have hvalid : validateId p.id = .ok () := build_valid hbuild hid
          refine ⟨⟨h.indexed.put hid, h.sound.put hvalid, fun r hr => ?_⟩, fun e he => by cases he⟩
          obtain ⟨r₀, hr₀, rfl⟩ := List.mem_map.mp hr
          have hholds := h.holds r₀ hr₀
          show Registry.Holds _ (engineOf (put _ l.rt.entries)
            (Function.update l.built p.id l.clock))
          rw [engineOf_put]
          by_cases hwas : ((entryOf p.id l.rt.entries).any fun e =>
            (e.engine l.built).isSome) = true
          · rw [if_pos hwas]
            exact hholds.replace hvalid (engineOf_any.mp hwas) _
          · rw [if_neg hwas]
            exact hholds.register hvalid (not_not.mp fun hne => hwas (engineOf_any.mpr hne)) _

/-- Whatever its save does, an `engine_remove` takes the engine out of the registries. -/
theorem remove_kept (id : Text) (forgetKey : Bool) (fails : Option Text) (h : l.Kept) :
    (l.remove R id forgetKey fails).2.Kept := by
  unfold Live.remove
  obtain ⟨hk, hsame⟩ := Live.takeIn_kept (R := R) h
  revert hk hsame
  generalize l.takeInFileChanges R = took
  obtain ⟨a, l'⟩ := took
  intro hk hsame
  cases a with
  | error e => exact hk
  | ok u =>
    dsimp only at hk ⊢
    cases he : entryOf id l'.rt.entries with
    | none => exact hk
    | some e =>
      refine ⟨hk.indexed.erase e, fun x hx p hp => hk.sound x (List.mem_of_mem_erase hx) p hp,
        fun r hr => ?_⟩
      show Registry.Holds r (engineOf (l'.rt.entries.erase e) l'.built)
      rw [engineOf_erase hk.indexed he]
      dsimp only at hr
      split at hr
      next hwas =>
        obtain ⟨r₀, hr₀, rfl⟩ := List.mem_map.mp hr
        have hthere : engineOf l'.rt.entries l'.built id ≠ none :=
          engineOf_any.mp (by rw [he]; exact hwas)
        exact (hk.holds r₀ hr₀).unregister (hk.sound.engineOf hthere)
      next hwas =>
        have hnone : engineOf l'.rt.entries l'.built id = none :=
          not_not.mp fun hne => hwas (by simpa [he] using engineOf_any.mpr hne)
        rw [← hnone, Function.update_eq_self]
        exact hk.holds r hr

/-- An `engine_remove` that finds nothing to remove changes nothing; one that does succeeds with its
save. -/
theorem remove_error {forgetKey : Bool} {fails : Option Text} {e : Failure}
    (hm : (LiveCall.remove id forgetKey).Meets R fails l)
    (he : (l.remove R id forgetKey fails).1 = .error e) :
    (l.takeInFileChanges R).2.Same (l.remove R id forgetKey fails).2 := by
  unfold LiveCall.Meets at hm
  unfold Live.remove at he ⊢
  revert hm he
  generalize l.takeInFileChanges R = took
  obtain ⟨a, l'⟩ := took
  intro hm he
  cases a with
  | error e => exact .refl l'
  | ok u =>
    dsimp only at hm he ⊢
    cases hentry : entryOf id l'.rt.entries with
    | none => exact .refl l'
    | some x =>
      rw [hentry] at hm he
      cases hm rfl (Option.some_ne_none x)
      cases he

/-- An `engine_add` that fails leaves what was there, or only takes the file's changes in. -/
theorem add_kept {engine : Json} {secret : Option Text} {replace : Bool} {fails : Option Text}
    (h : l.Kept)
    (hm : (LiveCall.add engine secret replace).Meets R fails l) :
    (l.add R engine secret replace fails).2.Kept ∧
      ∀ e, (l.add R engine secret replace fails).1 = .error e → l.Same
      (l.add R engine secret replace fails).2 ∨
        (l.takeInFileChanges R).2.Same (l.add R engine secret replace fails).2 := by
  unfold LiveCall.Meets at hm
  unfold Live.add
  cases hr : requested R engine secret l.rt.entries with
  | error e => exact ⟨h, fun _ _ => .inl (.refl l)⟩
  | ok p =>
    specialize hm p hr
    dsimp only
    obtain ⟨hk, hsame⟩ := Live.takeIn_kept (R := R) h
    revert hk hsame hm
    generalize l.takeInFileChanges R = took
    obtain ⟨a, l'⟩ := took
    intro hm hk hsame
    cases a with
    | error e => exact ⟨hk, fun _ _ => .inr (.refl l')⟩
    | ok u =>
      obtain ⟨hkept, herr⟩ := addLocked_kept hk (hm rfl)
      exact ⟨hkept, fun e he => .inr (herr e he)⟩

/-- What a call leaves. -/
theorem LiveCall.run_kept (c : LiveCall) {fails : Option Text} (h : l.Kept)
    (hm : c.Meets R fails l) :
    (c.run R fails l).2.Kept ∧ ∀ e, (c.run R fails l).1 = .error e →
      l.Same (c.run R fails l).2 ∨ (l.takeInFileChanges R).2.Same (c.run R fails l).2 := by
  cases c with
  | add engine secret replace =>
    obtain ⟨hk, herr⟩ := add_kept h hm
    exact ⟨hk, fun e he => herr e (map_unit_error he)⟩
  | remove id forgetKey =>
    exact ⟨remove_kept id forgetKey fails h, fun e he => .inr (remove_error hm he)⟩
  | reload =>
    obtain ⟨hk, hsame⟩ := Live.reload_kept (R := R) h
    refine ⟨hk, fun e he => .inl ?_⟩
    show l.Same (l.reload R).2
    rw [hsame e (map_unit_error he)]
    exact .refl l

/-! ## Runs -/

/-- A runtime after its load, its usable profiles in the registries of its hosts. -/
def Live.start (R : Rules) (home : Home) (keys : Store) (copied : Bool) (fails : Option Text)
    (hosts : List Registry) : Live :=
  let rt := (load R home keys copied fails).2
  { rt := rt
    built := fun _ => 0
    clock := 1
    registries := hosts.map (Live.attach · (readyOf rt.entries fun _ => 0)) }

/-- The states of the runs whose calls meet no failure halfway; others edit the file between them.
-/
inductive LiveRun (R : Rules) : Live → Prop
  | start (home : Home) (keys : Store) (copied : Bool) (fails : Option Text)
    (hosts : List Registry) :
      (∀ r ∈ hosts, r.Hosts) → LiveRun R (.start R home keys copied fails hosts)
  | call {l : Live} (c : LiveCall) (fails : Option Text) : LiveRun R l → c.Meets R fails l →
      LiveRun R (c.run R fails l).2
  | edit {l : Live} (file : Option Content) : LiveRun R l →
      LiveRun R { l with rt := { l.rt with home := { l.rt.home with file } } }

/-- The entries of a load come from a read of what it found. -/
theorem load_entries (home : Home) (keys : Store) (copied : Bool) (fails : Option Text) :
    ∃ raws, (load R home keys copied fails).2.entries = (entriesFrom R raws []).1 := by
  cases hp : parseFile R (readText home.file) with
  | error why => exact ⟨[], by rw [load_error hp]; rfl⟩
  | ok read =>
    obtain ⟨raws, legacy⟩ := read
    cases legacy with
    | false => exact ⟨raws, by rw [load_ok hp]⟩
    | true =>
      refine ⟨(migrate R raws keys).1, ?_⟩
      rw [load_legacy hp]
      cases fails with
      | none => rfl
      | some e => rfl

/-- Attaching the ready engines makes the registry hold exactly those. -/
theorem attach_holds (h : r.Hosts) (hi : Indexed entries) (hs : Sound entries) :
    (Live.attach r (readyOf entries built)).Holds (engineOf entries built) := by
  have hfree : ∀ x ∈ readyOf entries built, r.engines.get x.1 = none := by
    intro x hx
    rw [h.holds.usable x.1 (hs.ready x hx)]
  obtain ⟨hallows, hget⟩ := get_foldl (fun r : Registry => r.engines.get) (fun _ v => v = none)
    (fun r => r.allows = true) (readyOf_once hi)
      (fun r x _ hr hx => ⟨(Registry.register_get hr hx).1.trans hr,
      (Registry.register_get hr hx).2⟩) h.allows hfree
  have hlook : ∀ k, (Live.attach r (readyOf entries built)).engines.get k =
      (lookup k (readyOf entries built)).or (r.engines.get k) := by
    intro k
    refine (hget k).trans ?_
    unfold lookup
    cases (readyOf entries built).find? (·.1 = k) with
    | none => rfl
    | some x => rfl
  refine ⟨hallows, fun id hid x hx => ?_, fun id hid => ?_⟩
  · rw [hlook, lookup_readyOf hi] at hx
    cases he : engineOf entries built id with
    | none =>
      rw [he] at hx
      exact h.holds.own id hid x hx
    | some y => exact absurd (hs.engineOf (by rw [he]; exact Option.some_ne_none y)) hid
  · rw [hlook, lookup_readyOf hi, h.holds.usable id hid, Option.or_none]

/-- In every run of calls the invariant holds. -/
theorem LiveRun.kept (h : LiveRun R l) : l.Kept := by
  induction h with
  | start home keys copied fails hosts hhosts =>
    obtain ⟨raws, hraws⟩ := load_entries (R := R) home keys copied fails
    have hi : Indexed (load R home keys copied fails).2.entries :=
      hraws ▸ entriesFrom_indexed raws []
    have hs : Sound (load R home keys copied fails).2.entries :=
      hraws ▸ entriesFrom_sound raws fun e he => absurd he List.not_mem_nil
    refine ⟨hi, hs, fun r hr => ?_⟩
    obtain ⟨r₀, hr₀, rfl⟩ := List.mem_map.mp hr
    exact attach_holds (hhosts r₀ hr₀) hi hs
  | call c _ _ hm ih => exact (c.run_kept ih hm).1
  | edit file _ ih => exact ⟨ih.indexed, ih.sound, ih.holds⟩

/-- **The engines change whole.** -/
theorem engines_change_whole (h : LiveRun R l) (c : LiveCall) (fails : Option Text)
    (hm : c.Meets R fails l) :
    l.Follows ∧ (c.run R fails l).2.Follows ∧ ∀ e, (c.run R fails l).1 = .error e →
      l.Same (c.run R fails l).2 ∨ (l.takeInFileChanges R).2.Same (c.run R fails l).2 := by
  obtain ⟨hk, herr⟩ := c.run_kept h.kept hm
  exact ⟨h.kept.follows, hk.follows, herr⟩

/-- The reader's registry, with the engine of the host. -/
def reader : Registry := ⟨true, ⟨[(txt "kokoro", .host)], List.nodup_singleton _⟩⟩

theorem reader_hosts : reader.Hosts where
  allows := rfl
  own id h hg := by
    have hx : (id, h) ∈ [(txt "kokoro", Held.host)] := Lib.Roster.mem_iff.mpr hg
    cases List.mem_singleton.mp hx
    exact ⟨rfl, by decide⟩

/-- A runtime that loaded a file holding the text. -/
def started (t : Text) : Live := .start sampleRules ⟨some (.text t), none⟩
    ⟨fun _ => none, []⟩ true none [reader]

theorem started_run (t : Text) : LiveRun sampleRules (started t) := by
  refine .start _ _ _ _ _ fun r hr => ?_
  rw [List.mem_singleton.mp hr]
  exact reader_hosts

theorem engines_change_whole_remove :
    let l := started voiceServerText
    let r := (LiveCall.remove (txt "el") true).run sampleRules none l
    l.Follows ∧ r.2.Follows ∧ ∀ e, r.1 = .error e →
      l.Same r.2 ∨ (l.takeInFileChanges sampleRules).2.Same r.2 :=
  engines_change_whole (started_run voiceServerText) (.remove (txt "el") true) none fun _ _ => rfl

/-- An `engine_add` whose save fails: the profile is listed as usable, and no registry holds its
engine. -/
theorem add_unsaved :
    let l := started noEnginesText
    let c := LiveCall.add (.object [(txt "id", .string (txt "el")),
      (txt "kind", .string (txt "elevenlabs"))])
      none false
    let r := c.run sampleRules (some (txt "disk full")) l
    LiveRun sampleRules l ∧ (∃ e, r.1 = .error e) ∧ ¬r.2.Follows ∧ ¬l.Same r.2 ∧
      ¬(l.takeInFileChanges sampleRules).2.Same r.2 := by
  intro l c r
  have hfails : r.1.toOption = none := by decide +kernel
  have hready : (txt "el", Held.external 1) ∈ r.2.ready := by decide +kernel
  have hregistries : r.2.registries.map (·.engines.items) =
    [[(txt "kokoro", .host)]] := by decide +kernel
  have hbefore : l.rt.entries.length = 0 ∧
      (l.takeInFileChanges sampleRules).2.rt.entries.length = 0 := by
    decide +kernel
  have hafter : r.2.rt.entries.length = 1 := by decide +kernel
  refine ⟨started_run noEnginesText, ?_, ?_, ?_, ?_⟩
  · cases he : r.1 with
    | ok u =>
      rw [he] at hfails
      cases hfails
    | error e => exact ⟨e, rfl⟩
  · intro hfollows
    obtain ⟨reg, hreg, hitems⟩ : ∃ reg ∈ r.2.registries, reg.engines.items =
        [(txt "kokoro", .host)] :=
      List.mem_map.mp (hregistries ▸ List.mem_singleton_self _)
    have hheld := (hfollows reg hreg (txt "el") 1).mpr hready
    rw [hitems] at hheld
    cases List.mem_singleton.mp hheld
  · intro hsame
    rw [hsame.entries, hbefore.1] at hafter
    cases hafter
  · intro hsame
    rw [hsame.entries, hbefore.2] at hafter
    cases hafter

end Sonara.Engines
