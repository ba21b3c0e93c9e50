import Sonara.Engines.Saved
import Sonara.Lib.Roster

/-!
# The engines in the registries (`registry.rs`, `file.rs`)

The reader's registry and the previews' hold, beside the engines of the host, one engine for every
usable profile. `Live` is the runtime with those registries, and with when each engine was built:
an engine of a profile is its id and that time, so an entry that is kept keeps its engine and a
built one is another. `Live.add`, `Live.remove` and `Live.reload` are the calls of `Engines` with
what they do to the registries (`run_rt`).
-/

namespace Sonara.Engines

/-- An engine of a registry: one of the host, or one built from a profile. -/
inductive Held where
  | host
  | external (built : Nat)
  deriving DecidableEq, Repr

/-- The engines a host has loaded (`sonara_engine::Registry`); `allows`: its licence policy accepts
external engines. -/
structure Registry where
  allows : Bool
  engines : Lib.Roster Text Held

namespace Registry

variable (r : Registry)

/-- An engine whose id is taken is refused. -/
def register (x : Text × Held) : Registry :=
  if r.allows then { r with engines := r.engines.add x.1 x.2 } else r

/-- The engine of an id gives its place to another. -/
def replace (x : Text × Held) : Registry :=
  if r.allows then { r with engines := r.engines.swap x.1 x.2 } else r

def unregister (id : Text) : Registry := { r with engines := r.engines.drop id }

end Registry

/-- The engine of an entry, if it is usable. -/
def Entry.engine (built : Text → Nat) (e : Entry) : Option (Text × Held) :=
  match e.state with
  | .ready _ => some (e.id, .external (built e.id))
  | _ => none

/-- The engines of the usable entries. -/
def readyOf (entries : List Entry) (built : Text → Nat) : List (Text × Held) :=
  entries.filterMap (Entry.engine built)

/-- The runtime and its registries. -/
structure Live where
  rt : Runtime
  /-- When the engine of an entry was built. -/
  built : Text → Nat
  clock : Nat
  registries : List Registry

namespace Live

def ready (l : Live) : List (Text × Held) := readyOf l.rt.entries l.built

/-- The usable profiles are registered in `r`. -/
def attach (r : Registry) (ready : List (Text × Held)) : Registry := ready.foldl Registry.register r

/-- An engine of before in a registry: an unchanged one stays, a changed one is replaced, one that
is gone or unusable is unregistered. -/
def keepUp (now : List (Text × Held)) (r : Registry) (x : Text × Held) : Registry :=
  match now.find? (·.1 = x.1) with
  | some y => if y = x then r else r.replace y
  | none => r.unregister x.1

/-- A new engine is registered. -/
def takeUp (before : List (Text × Held)) (r : Registry) (y : Text × Held) : Registry :=
  if before.any (·.1 = y.1) then r else r.register y

/-- A registry after a reload. -/
def follow (before now : List (Text × Held)) (r : Registry) : Registry :=
  now.foldl (takeUp before) (before.foldl (keepUp now) r)

variable (R : Rules) (l : Live)

/-- `engine_reload`. -/
def reload : Except Failure (List Text) × Live :=
  match Engines.reload R l.rt with
  | (.error e, _) => (.error e, l)
  | (.ok problems, rt) =>
    let kept := fun e : Entry => l.rt.entries.any fun o => o.id == e.id && o.raw == e.raw
    let built := fun id => if rt.entries.any
      (fun e => e.id == id && kept e) then l.built id else l.clock
    (.ok problems, {
      rt := rt
      built := built
      clock := l.clock + 1
      registries := l.registries.map (follow l.ready (readyOf rt.entries built)) })

/-- Before a save: take in what was written to the file since it was last read or saved. -/
def takeInFileChanges : Except Failure Unit × Live :=
  if l.rt.seen ≠ readText l.rt.home.file then
    match l.reload R with
    | (.ok _, l) => (.ok (), l)
    | (.error e, l) => (.error e, l)
  else (.ok (), l)

/-- `engine_add` under the lock that saves, and the registrations behind it. -/
def addLocked (p : Profile) (secret : Option Text) (replace : Bool) (fails : Option Text) :
    Except Failure Bool × Live :=
  match admitted p.id replace l.rt.entries with
  | .error e => (.error e, l)
  | .ok () =>
    let old := entryOf p.id l.rt.entries
    let raw := stored R p (old.map (·.raw))
    match bindKey R p secret l.rt.keys with
    | (.error e, keys) => (.error e, { l with rt := { l.rt with keys } })
    | (.ok (), keys) => match build R raw with
      | .error e => (.error (bad e.text), { l with rt := { l.rt with keys } })
      | .ok built =>
        let wasRegistered := old.any fun e => (e.engine l.built).isSome
        let next := put ⟨p.id, raw, .ready built⟩ l.rt.entries
        let engine := (p.id, Held.external l.clock)
        let live := fun (rt : Runtime) (registries : List Registry) =>
          Live.mk { rt with entries := next }
          (Function.update l.built p.id l.clock) (l.clock + 1) registries
        match save R next fails { l.rt with keys } with
        -- The entries are the new ones, though nothing was registered.
        | (.error e, rt) => (.error e, live rt l.registries)
        | (.ok (), rt) =>
          (.ok old.isSome, live rt (l.registries.map fun r =>
            if wasRegistered then r.replace engine else r.register engine))

/-- `engine_add`. -/
def add (engine : Json) (secret : Option Text) (replace : Bool) (fails : Option Text) :
    Except Failure Bool × Live :=
  match requested R engine secret l.rt.entries with
  | .error e => (.error e, l)
  | .ok p => match l.takeInFileChanges R with
    | (.error e, l) => (.error e, l)
    | (.ok (), l) => l.addLocked R p secret replace fails

/-- `engine_remove`. -/
def remove (id : Text) (forgetKey : Bool) (fails : Option Text) : Except Failure Unit × Live :=
  match l.takeInFileChanges R with
  | (.error e, l) => (.error e, l)
  | (.ok (), l) => match entryOf id l.rt.entries with
    | none => (.error ⟨.notFound, txt "no engine '" ++ id ++ txt "'"⟩, l)
    | some e =>
      let next := l.rt.entries.erase e
      let (saved, rt) := save R next fails l.rt
      let keys := if forgetKey then (rt.keys.delete id).2 else rt.keys
      let registries := if (e.engine l.built).isSome then l.registries.map
        (·.unregister id) else l.registries
      (saved, { l with rt := { rt with entries := next, keys }, registries := registries })

end Live

/-- A call that changes the engines. -/
inductive LiveCall where
  | add (engine : Json) (secret : Option Text) (replace : Bool)
  | remove (id : Text) (forgetKey : Bool)
  | reload

/-- The same call of a runtime. -/
def LiveCall.call : LiveCall → Call
  | .add engine secret replace => .add engine secret replace
  | .remove id forgetKey => .remove id forgetKey
  | .reload => .reload

variable (R : Rules)

/-- The answer to a call, and what it leaves; `fails` is the error of the file operation. -/
def LiveCall.run (c : LiveCall) (fails : Option Text) (l : Live) : Except Failure Unit × Live :=
  match c with
  | .add engine secret replace =>
    let r := l.add R engine secret replace fails
    (r.1.map fun _ => (), r.2)
  | .remove id forgetKey => l.remove R id forgetKey fails
  | .reload =>
    let r := l.reload R
    (r.1.map fun _ => (), r.2)

/-! ## The runtime of `Live` -/

variable {R} {l : Live}

theorem Live.reload_rt : (l.reload R).1 = (Engines.reload R l.rt).1 ∧
    (l.reload R).2.rt = (Engines.reload R l.rt).2 := by
  unfold Live.reload
  rcases reload_spec (R := R) l.rt with ⟨e, he⟩ | ⟨problems, keys, entries, he, -⟩
  · rw [he]
    exact ⟨rfl, rfl⟩
  · rw [he]
    exact ⟨rfl, rfl⟩

/-- What the live look does to the profiles is what the look does. -/
theorem Live.takeIn_rt : (l.takeInFileChanges R).1 = (Engines.takeInFileChanges R l.rt).1 ∧
    (l.takeInFileChanges R).2.rt = (Engines.takeInFileChanges R l.rt).2 := by
  unfold Live.takeInFileChanges Engines.takeInFileChanges
  split
  · obtain ⟨h1, h2⟩ := Live.reload_rt (R := R) (l := l)
    revert h1 h2
    cases l.reload R with
    | mk a l' =>
      cases Engines.reload R l.rt with
      | mk b rt' =>
        rintro rfl rfl
        cases a with
        | ok problems => exact ⟨rfl, rfl⟩
        | error e => exact ⟨rfl, rfl⟩
  · exact ⟨rfl, rfl⟩

/-- What the live call does to the profiles is what the locked call does. -/
theorem Live.addLocked_rt (p : Profile) (secret : Option Text) (replace : Bool)
    (fails : Option Text) :
    (l.addLocked R p secret replace fails).1 = (Engines.addLocked R p secret replace fails l.rt).1 ∧
      (l.addLocked R p secret replace fails).2.rt =
      (Engines.addLocked R p secret replace fails l.rt).2 := by
  unfold Live.addLocked Engines.addLocked
  cases admitted p.id replace l.rt.entries with
  | error e => exact ⟨rfl, rfl⟩
  | ok u =>
    dsimp only
    generalize bindKey R p secret l.rt.keys = bound
    obtain ⟨done, keys⟩ := bound
    cases done with
    | error e => exact ⟨rfl, rfl⟩
    | ok u =>
      dsimp only
      cases build R (stored R p ((entryOf p.id l.rt.entries).map (·.raw))) with
      | error e => exact ⟨rfl, rfl⟩
      | ok built =>
        cases fails with
        | none => exact ⟨rfl, rfl⟩
        | some e => exact ⟨rfl, rfl⟩

/-- **The calls are those of the runtime.** -/
theorem LiveCall.run_rt (c : LiveCall) (fails : Option Text) (l : Live) :
    (c.run R fails l).1 = (c.call.run R fails l.rt).1 ∧
    (c.run R fails l).2.rt = (c.call.run R fails l.rt).2 := by
  obtain ⟨h1, h2⟩ := Live.takeIn_rt (R := R) (l := l)
  cases c with
  | add engine secret replace =>
    unfold LiveCall.run LiveCall.call Call.run Live.add Engines.add
    dsimp only
    cases requested R engine secret l.rt.entries with
    | error e => exact ⟨rfl, rfl⟩
    | ok p =>
      dsimp only
      revert h1 h2
      cases l.takeInFileChanges R with
      | mk a l' =>
        cases Engines.takeInFileChanges R l.rt with
        | mk b rt' =>
          rintro rfl rfl
          cases a with
          | error e => exact ⟨rfl, rfl⟩
          | ok u =>
            obtain ⟨h1, h2⟩ := Live.addLocked_rt (R := R) (l := l') p secret replace fails
            exact ⟨congrArg (Except.map fun _ => ()) h1, h2⟩
  | remove id forgetKey =>
    unfold LiveCall.run LiveCall.call Call.run Live.remove Engines.remove
    dsimp only
    revert h1 h2
    cases l.takeInFileChanges R with
    | mk a l' =>
      cases Engines.takeInFileChanges R l.rt with
      | mk b rt' =>
        rintro rfl rfl
        cases a with
        | error e => exact ⟨rfl, rfl⟩
        | ok u =>
          dsimp only
          cases entryOf id l'.rt.entries with
          | none => exact ⟨rfl, rfl⟩
          | some e => exact ⟨rfl, rfl⟩
  | reload =>
    obtain ⟨h1, h2⟩ := Live.reload_rt (R := R) (l := l)
    exact ⟨congrArg (Except.map fun _ => ()) h1, h2⟩

end Sonara.Engines
